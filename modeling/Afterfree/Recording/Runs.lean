import Afterfree.Lib.Footprint
import Afterfree.Recording.Dependencies

/-!
# Captures

The callbacks, and whole captures. What a capture accessed is a list of `Access`es, and the recorder
is `Faithful` to its footprint after every event (`Known.capture`).
-/

namespace Afterfree.Recording.Runs

open Afterfree.Common Afterfree.Codec Afterfree.Recording.Capture
  Afterfree.Recording.Capture.Recorder
open Afterfree.Lib.Footprint

/-! ### The accesses of a capture -/

/-- The access an event makes. -/
def Event.access : Event → List (Access ℕ UInt8)
  | .read addr n => [.read (Set.Ico addr (addr + n))]
  | .write addr bytes =>
    [.write (Set.Ico addr (addr + bytes.length)) fun a => bytes.getD (a - addr) 0]
  | .begin _ _ _ | .rule _ | .block _ _ => []

/-- The accesses of a sequence of events. -/
def accesses (es : List Event) : List (Access ℕ UInt8) := es.flatMap Event.access

/-- The span of an event is inside the address space. -/
def InBounds : Event → Prop
  | .read addr n => addr + n ≤ UINT64_MAX
  | .write addr bytes => addr + bytes.length ≤ UINT64_MAX
  | .begin _ _ _ | .rule _ | .block _ _ => True

theorem update_eq_after (m : ℕ → UInt8) (acc : List (Access ℕ UInt8)) (e : Event) :
    e.update (after m acc) = after m (acc ++ Event.access e) := by
  cases e with
  | write addr bytes =>
    rw [Event.access, after_snoc]
    funext a
    show store (after m acc) addr bytes a = _
    unfold store
    by_cases ha : addr ≤ a ∧ a < addr + bytes.length
    · rw [if_pos ha, Access.apply_write_mem _ (Set.mem_Ico.mpr ha)]
    · rw [if_neg ha, Access.apply_write_not_mem _ fun hin => ha (Set.mem_Ico.mp hin)]
  | read addr n =>
    rw [Event.access, after_snoc]
    rfl
  | begin _ _ _ | rule _ | block _ _ =>
    rw [Event.access, List.append_nil]
    rfl

/-! ### Callbacks -/

theorem reject_rejection (r : Recorder) (why : String) : (r.reject why).rejection ≠ none :=
  Option.some_ne_none _

theorem caught_none {x : Result} (h : (caught x).rejection = none) :
    ∃ r, x = .ok r ∧ caught x = r ∧ r.rejection = none := by
  cases x with
  | ok r => exact ⟨r, rfl, rfl, h⟩
  | error y => exact absurd h (reject_rejection _ _)

theorem notePlan_rejection {r : Recorder} {p : Plan} (h : (r.notePlan p).rejection = none) :
    r.rejection = none := by
  unfold notePlan at h
  cases hp : p.rejection with
  | none =>
    rw [hp] at h
    exact h
  | some why =>
    rw [hp] at h
    exact absurd h (reject_rejection r why)

theorem foldl_notePlan_rejection : ∀ {ps : List Plan} {r : Recorder},
    (ps.foldl notePlan r).rejection = none → r.rejection = none
  | [], _, h => h
  | _ :: ps, _, h => notePlan_rejection ((@foldl_notePlan_rejection ps) h)

end Afterfree.Recording.Runs

namespace Afterfree.Recording.Capture.Recorder

open Afterfree.Common Afterfree.Codec

section Callbacks

variable {m₀ : ℕ → UInt8} {W F T : Set ℕ} {r : Recorder}

theorem Faithful.congr {r' : Recorder} (h : Faithful m₀ W F T r)
    (hout : r'.h.output = r.h.output) (hlen : r'.h.length = r.h.length)
    (hpages : r'.pages = r.pages) (hcache : r'.cachedBase = r.cachedBase)
    (hfront : r'.outputFrontier = r.outputFrontier) (hplans : r'.plans = r.plans)
    (hcode : r'.code = r.code) : Faithful m₀ W F T r' := by
  have hat : ∀ a, r'.pageAt a = r.pageAt a := by
    intro a
    unfold pageAt
    rw [hpages]
  have hbe : ∀ a, r'.behind a ↔ r.behind a := by
    intro a
    unfold behind
    rw [hout, hfront]
  refine ⟨⟨?_, ?_⟩, ?_, ?_, ?_, fun a => ?_, fun a => ?_, fun a ha => ?_, fun a ha => ?_, ?_, ?_⟩
  · rw [hcache, hpages]
    exact h.sane.cached
  · rw [hpages]
    exact h.sane.keys
  · rw [hout]
    exact h.aligned
  · rw [hout, hfront]
    exact h.low
  · rw [hout, hfront, hlen]
    exact h.high
  · rw [hbe, ← h.written a]
    unfold writtenBit
    rw [hat]
  · rw [← h.input a]
    unfold inputBit
    rw [hat]
  · rw [← h.data a ha]
    unfold dataAt
    rw [hat]
  · rw [hpages, hbe]
    exact h.noted a ha
  · rw [hplans]
    exact h.plans
  · rw [hcode]
    exact h.code

/-- **`rule`** copies the bytes as they are now. -/
theorem Faithful.rule {m : ℕ → UInt8} (h : Faithful m₀ W F T r) (hm : ∀ a, a ∉ W → m a = m₀ a)
    (a : Analysis) : Faithful m₀ W F T (r.rule m a) := by
  unfold Recorder.rule
  split_ifs with hlimit
  · exact h.congr rfl rfl rfl rfl rfl rfl rfl
  · refine ⟨⟨h.sane.cached, h.sane.keys⟩, h.aligned, h.low, h.high, h.written, h.input, h.data,
      h.noted, fun k p hk => ?_, h.code⟩
    replace hk : (r.plans.insert a.address _)[k]? = some p := hk
    rw [Std.TreeMap.getElem?_insert] at hk
    split_ifs at hk with he
    · cases hk
      obtain rfl : a.address = k := Nat.compare_eq_eq.mp he
      refine ⟨rfl, a.pos, a.short, fun i hi hn => ?_⟩
      have hlen : i < ((List.range a.size).map fun i => m (a.address + i)).length := by
        rwa [List.length_map, List.length_range]
      show (((List.range a.size).map fun i => m (a.address + i)) ++ _).getD i 0 = _
      rw [List.getD_eq_getElem?_getD, List.getElem?_append_left hlen, List.getElem?_eq_getElem hlen,
        List.getElem_map, List.getElem_range, Option.getD_some, hm _ hn]
    · exact h.plans k p hk

theorem Faithful.notePlan (h : Faithful m₀ W F T r) {k : ℕ} {p : Plan}
    (hp : Sampled m₀ W k p.instruction) : Faithful m₀ W F T (r.notePlan p) := by
  have hreject : ∀ why, Faithful m₀ W F T (r.reject why) := fun why =>
    h.congr rfl rfl rfl rfl rfl rfl rfl
  obtain ⟨r', h', hnote⟩ : ∃ r', Faithful m₀ W F T r' ∧ r.notePlan p =
      { r' with code := r'.code.insertIfNew p.instruction.address p.instruction } := by
    unfold Recorder.notePlan
    cases p.rejection with
    | none => exact ⟨r, h, rfl⟩
    | some why => exact ⟨_, hreject why, rfl⟩
  rw [hnote]
  refine ⟨⟨h'.sane.cached, h'.sane.keys⟩, h'.aligned, h'.low, h'.high, h'.written, h'.input,
    h'.data, h'.noted, h'.plans, fun j c hj => ?_⟩
  dsimp only at hj
  rw [Std.TreeMap.getElem?_insertIfNew] at hj
  split_ifs at hj with he
  · cases hj
    obtain rfl : p.instruction.address = j := Nat.compare_eq_eq.mp he.1
    rwa [hp.address]
  · exact h'.code j c hj

theorem Faithful.foldl_notePlan : ∀ {ps : List Plan} {r : Recorder}, Faithful m₀ W F T r →
    (∀ p ∈ ps, ∃ k, Sampled m₀ W k p.instruction) → Faithful m₀ W F T (ps.foldl Recorder.notePlan r)
  | [], _, h, _ => h
  | p :: ps, _, h, hps => by
    obtain ⟨k, hk⟩ := hps p List.mem_cons_self
    exact @Faithful.foldl_notePlan ps _ (h.notePlan hk) fun q hq =>
      hps q (List.mem_cons_of_mem _ hq)

theorem mem_planned {start stop : ℕ} {p : Plan} (hp : p ∈ r.planned start stop) :
    ∃ k, start ≤ k ∧ k < stop ∧ r.plans[k]? = some p := by
  unfold planned at hp
  obtain ⟨⟨k, q⟩, hx, rfl⟩ := List.mem_map.mp hp
  obtain ⟨hl, hk⟩ := List.mem_filter.mp hx
  have hb := of_decide_eq_true hk
  exact ⟨k, hb.1, hb.2, Std.TreeMap.mem_toList_iff_getElem?_eq_some.mp hl⟩

/-- **`block`** copies plans to the code. -/
theorem Faithful.block (h : Faithful m₀ W F T r) (start stop : ℕ) :
    Faithful m₀ W F T (r.block start stop) := by
  have hfold : Faithful m₀ W F T ((r.planned start stop).foldl Recorder.notePlan r) := by
    refine h.foldl_notePlan fun p hp => ?_
    obtain ⟨k, -, -, hk⟩ := mem_planned hp
    exact ⟨k, h.plans k p hk⟩
  unfold Recorder.block
  cases r.blockCounts start stop with
  | some count =>
    dsimp only
    split_ifs <;> exact h.congr rfl rfl rfl rfl rfl rfl rfl
  | none =>
    dsimp only
    split_ifs <;> exact hfold.congr rfl rfl rfl rfl rfl rfl rfl

end Callbacks

end Afterfree.Recording.Capture.Recorder

namespace Afterfree.Recording.Runs

open Afterfree.Common Afterfree.Codec Afterfree.Recording.Capture
  Afterfree.Recording.Capture.Recorder
open Afterfree.Lib.Footprint

/-- **A rejection stays.** -/
theorem note_rejection {m : ℕ → UInt8} {r : Recorder} {e : Event}
    (h : (e.note m r).rejection = none) : r.rejection = none := by
  cases e with
  | begin regs xmm mxcsr =>
    simp only [Event.note, Recorder.begin] at h
    split_ifs at h <;> exact h
  | rule a =>
    simp only [Event.note, Recorder.rule] at h
    split_ifs at h
    · exact absurd h (reject_rejection _ _)
    · exact h
  | block start stop =>
    simp only [Event.note, Recorder.block] at h
    cases hb : r.blockCounts start stop with
    | some count =>
      rw [hb] at h
      dsimp only at h
      split_ifs at h
      · exact absurd h (reject_rejection _ _)
      · exact h
    | none =>
      rw [hb] at h
      dsimp only at h
      split_ifs at h
      all_goals first
        | exact absurd h (reject_rejection _ _)
        | exact foldl_notePlan_rejection h
  | read addr n =>
    by_contra hr
    have hsome : r.rejection.isSome = true := Option.isSome_iff_ne_none.mpr hr
    simp only [Event.note, readAccess, hsome, if_true] at h
    exact hr h
  | write addr bytes =>
    by_contra hr
    have hsome : r.rejection.isSome = true := Option.isSome_iff_ne_none.mpr hr
    simp only [Event.note, writeAccess, hsome, if_true] at h
    exact hr h

/-! ### Whole captures -/

/-- The recorder is faithful to the footprint of the accesses made so far. -/
def Known (m₀ : ℕ → UInt8) (acc : List (Access ℕ UInt8)) (r : Recorder) : Prop :=
  Faithful m₀ {a | Written acc a} {a | FirstRead acc a} {a | Touched acc a} r

theorem Known.make (m₀ : ℕ → UInt8) (t : Target) (fsBase gsBase : ℕ) :
    Known m₀ [] (Recorder.make t fsBase gsBase) := by
  have hpage : ∀ a, (Recorder.make t fsBase gsBase).pageAt a = ObservedPage.fresh := by
    intro a
    show ((∅ : Std.TreeMap ℕ ObservedPage)[base a]?).getD _ = _
    rw [Std.TreeMap.getElem?_emptyc]
    rfl
  refine ⟨⟨Or.inl rfl, fun p hp => absurd hp Std.TreeMap.not_mem_emptyc⟩, t.aligned, le_rfl,
    Nat.le_add_right _ _, fun a => ?_, fun a => ?_, fun a ha => ha.elim, ?_, ?_, ?_⟩
  · have hb : ¬ (Recorder.make t fsBase gsBase).behind a := fun hb =>
      absurd hb.2 (Nat.not_lt.mpr hb.1)
    have hw : (Recorder.make t fsBase gsBase).writtenBit a = false := by
      unfold writtenBit
      rw [hpage]
      exact Masks.ByteMask.test_empty _
    simp [hb, hw, Written]
  · have hi : (Recorder.make t fsBase gsBase).inputBit a = false := by
      unfold inputBit
      rw [hpage]
      exact Masks.ByteMask.test_empty _
    simp [hi, FirstRead]
  · rintro a ⟨e, he, -⟩
    cases he
  · intro k p hk
    replace hk : (∅ : Std.TreeMap ℕ Plan)[k]? = some p := hk
    rw [Std.TreeMap.getElem?_emptyc] at hk
    cases hk
  · intro k c hk
    replace hk : (∅ : Std.TreeMap ℕ Instruction)[k]? = some c := hk
    rw [Std.TreeMap.getElem?_emptyc] at hk
    cases hk

section Run

variable {m₀ : ℕ → UInt8} {acc : List (Access ℕ UInt8)} {r : Recorder}

/-- **One event** that does not reject. -/
theorem Known.note (h : Known m₀ acc r) {e : Event}
    (hrej : (e.note (after m₀ acc) r).rejection = none) :
    InBounds e ∧ Known m₀ (acc ++ Event.access e) (e.note (after m₀ acc) r) := by
  have hm : ∀ a, a ∉ {a | Written acc a} → after m₀ acc a = m₀ a := fun a ha =>
    after_of_not_written m₀ ha
  cases e with
  | begin regs xmm mxcsr =>
    rw [Event.access, List.append_nil]
    refine ⟨trivial, ?_⟩
    simp only [Event.note, Recorder.begin]
    split_ifs
    · exact h
    · exact Faithful.congr h rfl rfl rfl rfl rfl rfl rfl
  | rule a =>
    rw [Event.access, List.append_nil]
    exact ⟨trivial, Faithful.rule h hm a⟩
  | block start stop =>
    rw [Event.access, List.append_nil]
    exact ⟨trivial, Faithful.block h start stop⟩
  | read addr n =>
    have hr := note_rejection hrej
    simp only [Event.note, readAccess, hr, Option.isSome_none, Bool.false_eq_true, if_false]
      at hrej ⊢
    obtain ⟨r', hx, hc, hn⟩ := caught_none hrej
    rw [hc]
    obtain ⟨hb, hf⟩ := Faithful.read h hm hx hn
    refine ⟨hb, ?_⟩
    have hW : {a | Written (acc ++ [Access.read (β := UInt8) (Set.Ico addr (addr + n))]) a} =
        {a | Written acc a} := by
      ext a
      show Written _ a ↔ Written acc a
      rw [written_snoc]
      exact or_iff_left id
    have hF : {a | FirstRead (acc ++ [Access.read (Set.Ico addr (addr + n))]) a} =
        {a | FirstRead acc a} ∪ Set.Ico addr (addr + n) \ {a | Written acc a} := by
      ext a
      show FirstRead _ a ↔ FirstRead acc a ∨ (a ∈ Set.Ico addr (addr + n) ∧ ¬ Written acc a)
      rw [firstRead_snoc, and_comm]
      rfl
    have hT : {a | Touched (acc ++ [Access.read (Set.Ico addr (addr + n))]) a} =
        {a | Touched acc a} ∪ Set.Ico addr (addr + n) := by
      ext a
      show Touched _ a ↔ Touched acc a ∨ a ∈ Set.Ico addr (addr + n)
      rw [touched_snoc]
      exact or_congr_right (or_iff_left id)
    unfold Known
    rw [Event.access, hW, hF, hT]
    exact hf
  | write addr bytes =>
    have hr := note_rejection hrej
    simp only [Event.note, writeAccess, hr, Option.isSome_none, Bool.false_eq_true, if_false]
      at hrej ⊢
    obtain ⟨r', hx, hc, hn⟩ := caught_none hrej
    rw [hc]
    obtain ⟨hb, hf⟩ := Faithful.write h hx hn
    refine ⟨hb, ?_⟩
    unfold Known
    rw [Event.access]
    generalize (fun a => bytes.getD (a - addr) 0 : ℕ → UInt8) = v
    have hW : {a | Written (acc ++ [Access.write (Set.Ico addr (addr + bytes.length)) v]) a} =
        {a | Written acc a} ∪ Set.Ico addr (addr + bytes.length) := by
      ext a
      exact written_snoc
    have hF : {a | FirstRead (acc ++ [Access.write (Set.Ico addr (addr + bytes.length)) v]) a} =
        {a | FirstRead acc a} := by
      ext a
      show FirstRead _ a ↔ FirstRead acc a
      rw [firstRead_snoc]
      exact or_iff_left fun hx => hx.2
    have hT : {a | Touched (acc ++ [Access.write (Set.Ico addr (addr + bytes.length)) v]) a} =
        {a | Touched acc a} ∪ Set.Ico addr (addr + bytes.length) := by
      ext a
      show Touched _ a ↔ Touched acc a ∨ a ∈ Set.Ico addr (addr + bytes.length)
      rw [touched_snoc]
      exact or_congr_right (or_iff_right id)
    rw [hW, hF, hT]
    exact hf

theorem capture_append (m : ℕ → UInt8) (r : Recorder) : ∀ es es' : List Event,
    capture m r (es ++ es') = capture (capture m r es).1 (capture m r es).2 es'
  | [], _ => rfl
  | e :: es, es' => capture_append (e.update m) (e.note m r) es es'

theorem capture_rejection : ∀ {es : List Event} {m : ℕ → UInt8} {r : Recorder},
    (capture m r es).2.rejection = none → r.rejection = none
  | [], _, _, h => h
  | _ :: es, _, _, h => note_rejection ((@capture_rejection es) h)

/-- **A whole capture** that ends without a rejection: every access was in bounds, and the recorder
knows the footprint of all of them. -/
theorem Known.capture : ∀ {es : List Event} {acc : List (Access ℕ UInt8)} {r : Recorder},
    Known m₀ acc r → (capture (after m₀ acc) r es).2.rejection = none →
    (∀ e ∈ es, InBounds e) ∧
      Known m₀ (acc ++ accesses es) (Capture.capture (after m₀ acc) r es).2
  | [], acc, r, h, _ => by
    refine ⟨fun e he => absurd he List.not_mem_nil, ?_⟩
    rw [accesses, List.flatMap_nil, List.append_nil]
    exact h
  | e :: es, acc, r, h, hrej => by
    rw [Capture.capture] at hrej ⊢
    have hnote : (e.note (after m₀ acc) r).rejection = none := capture_rejection hrej
    obtain ⟨hb, hk⟩ := h.note hnote
    rw [update_eq_after] at hrej ⊢
    obtain ⟨hbs, hks⟩ := hk.capture hrej
    refine ⟨fun x hx => ?_, ?_⟩
    · rcases List.mem_cons.mp hx with rfl | hx
      · exact hb
      · exact hbs x hx
    · rw [accesses, List.flatMap_cons, ← List.append_assoc]
      exact hks

end Run

end Afterfree.Recording.Runs
