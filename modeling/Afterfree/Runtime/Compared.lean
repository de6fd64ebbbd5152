import Afterfree.Runtime.Submit

/-!
# A completed comparison

When the comparison of `submit` runs to its end, the worker has committed an output; when it also
reports equality, every byte of the region was found equal to the byte of that output.
-/

namespace Afterfree.Runtime.Compared

open Afterfree.Common Afterfree.Lib Afterfree.Runtime.State Afterfree.Runtime.Pager
open Afterfree.Runtime.Submit

theorem same_iff (m : Memory) (a n : ℕ) (source : ℕ → UInt8) :
    m.same a n source = true ↔ ∀ i < n, source i = m.bytes (a + i) := by
  unfold Memory.same
  rw [List.all_eq_true]
  constructor
  · intro h i hi
    exact beq_iff_eq.mp (h i (List.mem_range.mpr hi))
  · intro h i hi
    exact beq_iff_eq.mpr (h i (List.mem_range.mp hi))

/-! ### The stream -/

section Stream

variable {link : ℕ → Link} {capacity length original : ℕ} {m : Memory}

theorem streamLoop_cons (reply : Reply) (rest : List Reply) (i : ℕ) (p : Progress) :
    streamLoop link capacity length original m (reply :: rest) i p =
      if !(link i).received then
        .broken (if i = 0 then "validation worker disconnected"
          else "validation stream interrupted")
      else
        match onResponse capacity length (fun o n => m.same (original + o) n reply.window) p
            reply.response with
        | .rejected message => .rejected message
        | .invalid => .broken "invalid validation window length"
        | .finished equal => .compared equal
        | .restart => streamLoop link capacity length original m rest (i + 1) ⟨0, true⟩
        | .acknowledge p =>
          if !(link i).sent then .broken "validation window acknowledgement failed"
          else streamLoop link capacity length original m rest (i + 1) p := rfl

theorem onResponse_window {o : Output} (ho : 0 < o.length) (p : Progress)
    (same : ℕ → ℕ → Bool) :
    onResponse capacity length same p (windowReply o).response = .invalid ∨
      onResponse capacity length same p (windowReply o).response =
        .acknowledge ⟨p.offset + o.length, p.equal && same p.offset o.length⟩ := by
  have h2 : ¬ ((windowReply o).response.status = 2 ∧ (windowReply o).response.size = 0) := by
    rintro ⟨h, -⟩
    cases h
  have h0 : ¬ (windowReply o).response.status ≠ 0 := not_not_intro rfl
  have hz : ¬ (windowReply o).response.size = 0 := Nat.pos_iff_ne_zero.mp ho
  unfold onResponse
  rw [if_neg h2, if_neg h0, if_neg hz]
  split_ifs with hbad
  · exact Or.inl rfl
  · exact Or.inr rfl

/-- One published window: the exchange breaks off, or the loop goes on behind the window. -/
theorem streamLoop_window {o : Output} (ho : 0 < o.length) (rest : List Reply) (i : ℕ)
    (p : Progress) :
    (∃ e, streamLoop link capacity length original m (windowReply o :: rest) i p = .broken e) ∨
      streamLoop link capacity length original m (windowReply o :: rest) i p =
        streamLoop link capacity length original m rest (i + 1)
          ⟨p.offset + o.length, p.equal && m.same (original + p.offset) o.length o.byte⟩ := by
  rw [streamLoop_cons]
  by_cases hr : (!(link i).received) = true
  · rw [if_pos hr]
    exact Or.inl ⟨_, rfl⟩
  · rw [if_neg hr]
    rcases (@onResponse_window capacity length) ho p
      (fun o' n => m.same (original + o') n (windowReply o).window) with hn | hn
    · rw [hn]
      exact Or.inl ⟨_, rfl⟩
    · rw [hn]
      simp only
      split_ifs with hs
      · exact Or.inl ⟨_, rfl⟩
      · exact Or.inr rfl

/-- A prefix of a stream: it breaks off, or the loop goes on behind it. -/
theorem streamLoop_windows (rest : List Reply) :
    ∀ (ws : List Output), (∀ o ∈ ws, 0 < o.length) → ∀ (i : ℕ) (p : Progress),
      (∃ e, streamLoop link capacity length original m (ws.map windowReply ++ rest) i p =
        .broken e) ∨
      ∃ j q, streamLoop link capacity length original m (ws.map windowReply ++ rest) i p =
        streamLoop link capacity length original m rest j q
  | [], _, i, p => Or.inr ⟨i, p, rfl⟩
  | o :: ws, ho, i, p => by
    rw [List.map_cons, List.cons_append]
    rcases streamLoop_window (ho o List.mem_cons_self) (ws.map windowReply ++ rest) i p with
      ⟨e, he⟩ | he
    · exact Or.inl ⟨e, he⟩
    · rw [he]
      exact streamLoop_windows rest ws (fun o h => ho o (List.mem_cons_of_mem _ h)) _ _

/-- A complete pass: it breaks off, or the loop goes on behind it with every byte compared. -/
theorem streamLoop_pass (hc : 0 < capacity) (out : ℕ → UInt8) (rest : List Reply) :
    ∀ (fuel offset i : ℕ) (equal : Bool), offset ≤ length → length - offset ≤ fuel →
      (∃ e, streamLoop link capacity length original m
        ((windows capacity length out fuel offset).map windowReply ++ rest) i ⟨offset, equal⟩ =
          .broken e) ∨
      ∃ j equal', streamLoop link capacity length original m
          ((windows capacity length out fuel offset).map windowReply ++ rest) i ⟨offset, equal⟩ =
            streamLoop link capacity length original m rest j ⟨length, equal'⟩ ∧
        (equal' = true ↔ equal = true ∧
          ∀ k, offset ≤ k → k < length → out k = m.bytes (original + k))
  | 0, offset, i, equal, h1, h2 => by
    have : offset = length := by omega
    subst this
    exact Or.inr ⟨i, equal, rfl, fun h => ⟨h, fun k _ _ => by omega⟩, fun h => h.1⟩
  | fuel + 1, offset, i, equal, h1, h2 => by
    unfold windows
    split_ifs with hlt
    · rw [List.map_cons, List.cons_append]
      have hn : 0 < min capacity (length - offset) := by omega
      rcases streamLoop_window (o := ⟨min capacity (length - offset), fun k => out (offset + k)⟩)
        hn ((windows capacity length out fuel (offset + capacity)).map windowReply ++ rest) i
        ⟨offset, equal⟩ with ⟨e, he⟩ | he
      · exact Or.inl ⟨e, he⟩
      · rw [he]
        have hsame := same_iff m (original + offset) (min capacity (length - offset))
          fun k => out (offset + k)
        -- the last window may be short: behind it there is nothing left to publish
        by_cases hlast : length ≤ offset + capacity
        · have hw : windows capacity length out fuel (offset + capacity) = [] := by
            cases fuel with
            | zero => rfl
            | succ fuel =>
              unfold windows
              rw [if_neg (by omega)]
          rw [hw, show offset + min capacity (length - offset) = length by omega]
          refine Or.inr ⟨i + 1, _, rfl, ?_⟩
          rw [Bool.and_eq_true, hsame]
          refine and_congr_right fun _ => ⟨fun h k hk hkl => ?_, fun h k hk => ?_⟩
          · have := h (k - offset) (by omega)
            rw [show offset + (k - offset) = k by omega,
              show original + offset + (k - offset) = original + k by omega] at this
            exact this
          · have := h (offset + k) (by omega) (by omega)
            rw [this]
            congr 1
            omega
        · have hmin : min capacity (length - offset) = capacity := by omega
          rw [hmin] at hsame ⊢
          rcases streamLoop_pass hc out rest fuel (offset + capacity) (i + 1)
            (equal && m.same (original + offset) capacity fun k => out (offset + k)) (by omega)
            (by omega) with ⟨e, he⟩ | ⟨j, equal', he, hiff⟩
          · exact Or.inl ⟨e, he⟩
          · refine Or.inr ⟨j, equal', he, hiff.trans ?_⟩
            rw [Bool.and_eq_true, hsame, and_assoc]
            refine and_congr_right fun _ => ⟨fun h k hk hkl => ?_, fun h => ⟨fun k hk => ?_,
              fun k hk hkl => h k (by omega) hkl⟩⟩
            · by_cases hkc : k < offset + capacity
              · have := h.1 (k - offset) (by omega)
                rw [show offset + (k - offset) = k by omega,
                  show original + offset + (k - offset) = original + k by omega] at this
                exact this
              · exact h.2 k (by omega) hkl
            · have := h (offset + k) (by omega) (by omega)
              rw [this]
              congr 1
              omega
    · have : offset = length := by omega
      subst this
      exact Or.inr ⟨i, equal, rfl, fun h => ⟨h, fun k _ _ => by omega⟩, fun h => h.1⟩

theorem windows_pos (hc : 0 < capacity) (out : ℕ → UInt8) :
    ∀ (fuel offset : ℕ), ∀ o ∈ windows capacity length out fuel offset, 0 < o.length
  | 0, _, o, ho => by cases ho
  | fuel + 1, offset, o, ho => by
    unfold windows at ho
    split_ifs at ho with hlt
    · rcases List.mem_cons.mp ho with rfl | ho
      · show 0 < min capacity (length - offset)
        omega
      · exact windows_pos hc out fuel _ o ho
    · cases ho

theorem streamLoop_refusal (message : String) (i : ℕ) (p : Progress) :
    (∃ e, streamLoop link capacity length original m [refusal message] i p = .broken e) ∨
      ∃ e, streamLoop link capacity length original m [refusal message] i p = .rejected e := by
  rw [streamLoop_cons]
  by_cases hr : (!(link i).received) = true
  · rw [if_pos hr]
    exact Or.inl ⟨_, rfl⟩
  · rw [if_neg hr]
    exact Or.inr ⟨_, rfl⟩

theorem streamLoop_final (message : String) (i : ℕ) (p : Progress) :
    (∃ e, streamLoop link capacity length original m [finalReply message] i p = .broken e) ∨
      streamLoop link capacity length original m [finalReply message] i p =
        .compared (p.equal && decide (p.offset = length)) := by
  rw [streamLoop_cons]
  by_cases hr : (!(link i).received) = true
  · rw [if_pos hr]
    exact Or.inl ⟨_, rfl⟩
  · rw [if_neg hr]
    exact Or.inr rfl

/-- The loop at a restart: the comparison starts again. -/
theorem streamLoop_restart (rest : List Reply) (i : ℕ) (p : Progress) :
    (∃ e, streamLoop link capacity length original m (restartReply :: rest) i p = .broken e) ∨
      streamLoop link capacity length original m (restartReply :: rest) i p =
        streamLoop link capacity length original m rest (i + 1) ⟨0, true⟩ := by
  rw [streamLoop_cons]
  by_cases hr : (!(link i).received) = true
  · rw [if_pos hr]
    exact Or.inl ⟨_, rfl⟩
  · rw [if_neg hr]
    exact Or.inr rfl

/-- The pass that decides: it ends in `compared` only for a committed output, and with the verdict
of a comparison of every byte. -/
theorem streamLoop_passReplies (hc : 0 < capacity) (v : Verdict) (i : ℕ) {equal : Bool}
    (h : streamLoop link capacity length original m (passReplies capacity length v) i ⟨0, true⟩ =
      .compared equal) :
    ∃ out g message, v = .committed out g message ∧
      (equal = true ↔ ∀ k < length, out k = m.bytes (original + k)) := by
  cases v with
  | refused message =>
    rcases (@streamLoop_refusal link capacity length original m) message i ⟨0, true⟩ with ⟨e, he⟩ |
        ⟨e, he⟩ <;>
    · change streamLoop _ _ _ _ _ [refusal message] _ _ = _ at h
      rw [he] at h
      cases h
  | overBudget out message =>
    change streamLoop _ _ _ _ _ (_ ++ [refusal message]) _ _ = _ at h
    rcases (@streamLoop_pass link _ _ original m) hc out [refusal message]
      length 0 i true (Nat.zero_le _) (Nat.sub_le _ _) with ⟨e, he⟩ | ⟨j, eq, he, -⟩
    · rw [he] at h
      cases h
    · rw [he] at h
      rcases (@streamLoop_refusal link capacity length original m) message j
        ⟨length, eq⟩ with ⟨e, he⟩ |
          ⟨e, he⟩ <;>
      · rw [he] at h
        cases h
  | committed out g message =>
    change streamLoop _ _ _ _ _ (_ ++ [finalReply message]) _ _ = _ at h
    refine ⟨out, g, message, rfl, ?_⟩
    rcases (@streamLoop_pass link _ _ original m) hc out
      [finalReply message] length 0 i true (Nat.zero_le _) (Nat.sub_le _ _) with
      ⟨e, he⟩ | ⟨j, eq, he, hiff⟩
    · rw [he] at h
      cases h
    · rw [he] at h
      rcases (@streamLoop_final link capacity length original m) message j
        ⟨length, eq⟩ with ⟨e, he⟩ | he
      · rw [he] at h
        cases h
      · rw [he] at h
        cases h
        rw [decide_eq_true rfl, Bool.and_true, hiff]
        exact ⟨fun h k hk => h.2 k (Nat.zero_le _) hk, fun h => ⟨rfl, fun k _ hk => h k hk⟩⟩

/-- **A completed stream.** -/
theorem streamLoop_script (hc : 0 < capacity) (s : Script) {equal : Bool}
    (h : streamLoop link capacity length original m (s.replies capacity length) 0 ⟨0, true⟩ =
      .compared equal) :
    ∃ out g message, s.verdict = .committed out g message ∧
      (equal = true ↔ ∀ k < length, out k = m.bytes (original + k)) := by
  have hpos : ∀ a : Abandoned, ∀ o ∈ a.windows capacity length, 0 < o.length := fun a o ho =>
    windows_pos hc a.output _ _ o (List.mem_of_mem_take ho)
  -- a restarted stream is judged by the pass behind the restart
  have hrestart : ∀ (a : Abandoned) (v : Verdict), streamLoop link capacity length original m
      ((a.windows capacity length).map windowReply ++
        restartReply :: passReplies capacity length v) 0 ⟨0, true⟩ = .compared equal →
      ∃ out g message, v = .committed out g message ∧
        (equal = true ↔ ∀ k < length, out k = m.bytes (original + k)) := by
    intro a v h
    rcases (@streamLoop_windows link capacity length original m)
        (restartReply :: passReplies capacity length v) _ (hpos a) 0
      ⟨0, true⟩ with ⟨e, he⟩ | ⟨j, q, he⟩
    · rw [he] at h
      cases h
    · rw [he] at h
      rcases (@streamLoop_restart link capacity length original m)
        (passReplies capacity length v) j q
          with ⟨e, he⟩ | he
      · rw [he] at h
        cases h
      · rw [he] at h
        exact streamLoop_passReplies hc v _ h
  obtain ⟨speculative, verdict⟩ := s
  cases speculative with
  | none => exact streamLoop_passReplies hc verdict 0 h
  | some a =>
    cases verdict with
    | refused message =>
      change streamLoop _ _ _ _ _ (_ ++ [refusal message]) _ _ = _ at h
      rcases (@streamLoop_windows link capacity length original m) [refusal message] _ (hpos a) 0
          ⟨0, true⟩ with
        ⟨e, he⟩ | ⟨j, q, he⟩
      · rw [he] at h
        cases h
      · rw [he] at h
        rcases (@streamLoop_refusal link capacity length original m) message j q with ⟨e,
          he⟩ | ⟨e, he⟩ <;>
        · rw [he] at h
          cases h
    | overBudget out message => exact hrestart a _ h
    | committed out g message => exact hrestart a _ h

end Stream

/-! ### One payload -/

/-- **A completed payload.** -/
theorem chunkLoop_equal (received : ℕ → Bool) (size original : ℕ) (m : Memory)
    (payload : ℕ → UInt8) :
    ∀ (fuel off : ℕ) (equal : Bool), size - off ≤ fuel →
      ∀ {result : Bool}, chunkLoop received size original m payload fuel off equal =
        .compared result →
      (result = true ↔ equal = true ∧
        ∀ k, off ≤ k → k < size → payload k = m.bytes (original + k))
  | 0, off, equal, hf, result, h => by
    cases h
    exact ⟨fun h => ⟨h, fun k _ _ => by omega⟩, fun h => h.1⟩
  | fuel + 1, off, equal, hf, result, h => by
    unfold chunkLoop at h
    split_ifs at h with h1
    · have hrest := chunkLoop_equal received size original m payload fuel _ _ (by omega) h
      rw [hrest, Bool.and_eq_true, same_iff, and_assoc]
      refine and_congr_right fun _ => ⟨fun hk k h3 h4 => ?_, fun hk => ⟨fun k h3 => ?_,
        fun k h3 h4 => hk k (by omega) h4⟩⟩
      · by_cases hlt : k < off + min 65536 (size - off)
        · have := hk.1 (k - off) (by omega)
          rw [show off + (k - off) = k by omega,
            show original + off + (k - off) = original + k by omega] at this
          exact this
        · exact hk.2 k (by omega) h4
      · have := hk (off + k) (by omega) (by omega)
        rw [this]
        congr 1
        omega
    · cases h
      exact ⟨fun h => ⟨h, fun k _ _ => by omega⟩, fun h => h.1⟩

/-! ### The exchange -/

/-- **A completed comparison.** The channel was unbroken, the worker has committed an output, and
equality was reported exactly if every byte of it is the byte of the allocation. -/
theorem compare_compared {e : SubmitEnv} {w : World} {h : Header} {equal : Bool}
    (hc : Submit.compare e w h = .compared equal) :
    w.channelBroken = false ∧ ∃ out g message, e.script.verdict = .committed out g message ∧
      (equal = true ↔ ∀ k < h.length, out k = w.memory.bytes (h.output + k)) := by
  unfold Submit.compare at hc
  by_cases h1 : (w.channelBroken || !e.requestSent || !e.blobSent) = true
  · rw [if_pos h1] at hc
    cases hc
  rw [if_neg h1] at hc
  simp only [Bool.or_eq_true, not_or, Bool.not_eq_true] at h1
  refine ⟨h1.1.1, ?_⟩
  split at hc
  · next a _ _ =>
    rcases hs : streamLoop e.link a.capacity h.length h.output w.memory
      (e.script.replies a.capacity h.length) 0 ⟨0, true⟩ with e1 | e1 | eq
    · rw [hs] at hc
      cases hc
    · rw [hs] at hc
      cases hc
    · rw [hs] at hc
      simp only at hc
      split_ifs at hc
      cases hc
      exact streamLoop_script a.pos e.script hs
  · simp only at hc
    split_ifs at hc with h2 h3 h4 h5
    rcases hv : e.script.verdict with m1 | ⟨out, m1⟩ | ⟨out, g, m1⟩
    · simp [Script.answer, hv, refusal] at h3
    · simp [Script.answer, hv, refusal] at h3
    · have hans : e.script.answer h.length = ⟨⟨0, h.length, m1⟩, out⟩ := by
        unfold Script.answer
        rw [hv]
      rw [hans] at hc
      refine ⟨out, g, m1, rfl, ?_⟩
      rw [chunkLoop_equal _ _ _ _ _ _ _ _ (Nat.sub_le _ _) hc]
      exact ⟨fun hk k hlt => hk.2 k (Nat.zero_le _) hlt,
        fun hk => ⟨rfl, fun k _ hlt => hk k hlt⟩⟩

end Afterfree.Runtime.Compared
