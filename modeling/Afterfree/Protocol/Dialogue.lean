import Afterfree.Lib.Weak
import Afterfree.Protocol.System

/-!
# The worker's side of a registration, by positions

A registration takes the worker through positions: so many bytes of a pass published, a window
announced, refused, committed, so many bytes delivered. `Emits` is the relation of the positions,
with the message a move sends as its label and the commit as a silent move. `answerTo_conforms` says
that whatever script the worker plays, its actions walk along this relation.
-/

namespace Afterfree.Protocol.Dialogue

open Afterfree.Common Afterfree.Codec Afterfree.Lib.Weak Afterfree.Runtime.State
open Afterfree.Runtime.Submit Afterfree.Protocol.System

/-- A position of a registration. -/
inductive Pos
  /-- `offset` bytes of `out` are published and acknowledged. -/
  | pass (out : ℕ → UInt8) (offset : ℕ)
  /-- The next `size` bytes are announced. -/
  | window (out : ℕ → UInt8) (offset size : ℕ)
  | refused
  /-- The recipe is committed with the output `out`. -/
  | sealed (out : ℕ → UInt8)
  /-- The response that ends the comparison is sent. -/
  | final (out : ℕ → UInt8)
  /-- The registration record is sent, and `offset` bytes of the payload. -/
  | delivery (out : ℕ → UInt8) (offset : ℕ)

namespace Pos

/-- The output the worker has committed. -/
def committed : Pos → Option (ℕ → UInt8)
  | .sealed out => some out
  | .final out => some out
  | .delivery out _ => some out
  | _ => none

/-- No further window is due. -/
def Settled : Pos → Prop
  | .pass _ _ => False
  | .window _ _ _ => False
  | _ => True

end Pos

section Grammar

variable (streaming : Bool) (capacity n : ℕ)

/-- The moves of the worker, for an output of `n` bytes. -/
inductive Emits : Pos → Option Message → Pos → Prop
  | restart {out out' : ℕ → UInt8} {offset : ℕ} : streaming = true →
      Emits (.pass out offset) (some (.response restartReply.response)) (.pass out' 0)
  | window {out : ℕ → UInt8} {offset : ℕ} : streaming = true → offset < n →
      Emits (.pass out offset) (some (.response ⟨0, min capacity (n - offset), ""⟩))
        (.window out offset (min capacity (n - offset)))
  | refusal {out : ℕ → UInt8} {offset : ℕ} {m : String} :
      Emits (.pass out offset) (some (.response (refusal m).response)) .refused
  | commit {out : ℕ → UInt8} {offset : ℕ} : (streaming = true → offset = n) →
      Emits (.pass out offset) none (.sealed out)
  | final {out : ℕ → UInt8} {m : String} :
      Emits (.sealed out) (some (.response ⟨0, if streaming then 0 else n, m⟩)) (.final out)
  | registration {out : ℕ → UInt8} {g : Registration} :
      Emits (.final out) (some (.registration g)) (.delivery out (if streaming then n else 0))
  | payload {out : ℕ → UInt8} {offset : ℕ} : offset < n →
      Emits (.delivery out offset)
        (some (.payload ⟨min CHUNK (n - offset), fun i => out (offset + i)⟩))
        (.delivery out (offset + min CHUNK (n - offset)))

/-- The actions that are left take the worker from the position to an end. -/
inductive Conforms (image : List UInt8) : Pos → List Action → Prop
  | refused : Conforms image .refused []
  | delivered {out : ℕ → UInt8} : Conforms image (.delivery out n) []
  | restart {out out' : ℕ → UInt8} {offset : ℕ} {todo : List Action} : streaming = true →
      Conforms image (.pass out' 0) todo → Conforms image (.pass out offset) (.restart :: todo)
  | publish {out : ℕ → UInt8} {offset : ℕ} {todo : List Action} : streaming = true → offset < n →
      Conforms image (.pass out (offset + min capacity (n - offset))) todo →
      Conforms image (.pass out offset)
        (.publish ⟨min capacity (n - offset), fun i => out (offset + i)⟩ :: todo)
  | commit {out : ℕ → UInt8} {offset : ℕ} {recipe : Recipe} {todo : List Action} :
      (streaming = true → offset = n) → decode image = .ok recipe →
      Conforms image (.sealed out) todo →
      Conforms image (.pass out offset) (.commit recipe ⟨n, out⟩ :: todo)
  | send {a b : Pos} {m : Message} {todo : List Action} : Emits streaming capacity n a (some m) b →
      b.Settled → Conforms image b todo → Conforms image a (.send m :: todo)

end Grammar

variable {streaming : Bool} {capacity n : ℕ} {image : List UInt8}

/-! ### Where the moves lead -/

theorem window_stuck {out : ℕ → UInt8} {offset k : ℕ} (l : Option Message) (b : Pos) :
    ¬ Emits streaming capacity n (.window out offset k) l b := by
  intro h
  cases h

theorem delivered_stuck {out : ℕ → UInt8} (l : Option Message) (b : Pos) :
    ¬ Emits streaming capacity n (.delivery out n) l b := by
  intro h
  cases h with
  | payload h => exact absurd h (lt_irrefl n)

theorem refused_stuck (l : Option Message) (b : Pos) :
    ¬ Emits streaming capacity n .refused l b := by
  intro h
  cases h

theorem silent_cases {a b : Pos} (h : Trace (Emits streaming capacity n) a [] b) :
    b = a ∨ ∃ out offset, a = .pass out offset ∧ b = .sealed out ∧
      (streaming = true → offset = n) := by
  generalize hl : ([] : List Message) = ls at h
  cases h with
  | refl => exact Or.inl rfl
  | label => cases hl
  | silent h1 h2 =>
    subst hl
    cases h1 with
    | commit hoff =>
      refine Or.inr ⟨_, _, rfl, ?_, hoff⟩
      cases h2 with
      | refl => rfl
      | silent h3 _ => cases h3

/-! ### Scripts conform -/

theorem windows_succ {output : ℕ → UInt8} {fuel offset : ℕ} (h : offset < n) :
    windows capacity n output (fuel + 1) offset =
      ⟨min capacity (n - offset), fun i => output (offset + i)⟩ ::
        windows capacity n output fuel (offset + capacity) := if_pos h

theorem windows_end {output : ℕ → UInt8} {fuel offset : ℕ} (h : n ≤ offset) :
    windows capacity n output fuel offset = [] := by
  cases fuel with
  | zero => rfl
  | succ fuel => exact if_neg (by omega)

theorem Conforms.refuse {out : ℕ → UInt8} {offset : ℕ} (m : String) :
    Conforms streaming capacity n image (.pass out offset) [refuse m] :=
  .send .refusal trivial .refused

/-- **A complete pass**: what may follow all bytes may follow the windows. The induction is on the
fuel of `windows`, which is enough for the bytes that are left. -/
theorem conforms_windows (hs : streaming = true) (hc : 0 < capacity) {out : ℕ → UInt8}
    {tail : List Action} (ht : Conforms streaming capacity n image (.pass out n) tail) :
    ∀ fuel offset, offset ≤ n → n ≤ offset + fuel →
      Conforms streaming capacity n image (.pass out offset)
        ((windows capacity n out fuel offset).map .publish ++ tail) := by
  intro fuel
  induction fuel with
  | zero =>
    intro offset h1 h2
    obtain rfl : offset = n := by omega
    exact ht
  | succ fuel ih =>
    intro offset h1 h2
    by_cases hlt : offset < n
    · rw [windows_succ hlt, List.map_cons, List.cons_append]
      refine .publish hs hlt ?_
      by_cases hcap : capacity ≤ n - offset
      · rw [min_eq_left hcap]
        exact ih _ (by omega) (by omega)
      · have hn : offset + min capacity (n - offset) = n := by omega
        rw [hn, windows_end (by omega)]
        exact ht
    · obtain rfl : offset = n := by omega
      rw [windows_end le_rfl]
      exact ht

/-- **A pass that was given up** somewhere: the tail may follow any number of bytes. -/
theorem conforms_windows_take (hs : streaming = true) {out : ℕ → UInt8} {tail : List Action}
    (ht : ∀ offset, Conforms streaming capacity n image (.pass out offset) tail) :
    ∀ fuel k offset, Conforms streaming capacity n image (.pass out offset)
      (((windows capacity n out fuel offset).take k).map .publish ++ tail) := by
  intro fuel
  induction fuel with
  | zero =>
    intro k offset
    rw [show windows capacity n out 0 offset = [] from rfl, List.take_nil]
    exact ht offset
  | succ fuel ih =>
    intro k offset
    cases k with
    | zero => exact ht offset
    | succ k =>
      by_cases hlt : offset < n
      · rw [windows_succ hlt, List.take_succ_cons, List.map_cons, List.cons_append]
        refine .publish hs hlt ?_
        by_cases hcap : capacity ≤ n - offset
        · rw [min_eq_left hcap]
          exact ih k _
        · rw [(@windows_end _ _ _ _ (offset + capacity)) (by omega), List.take_nil]
          exact ht _
      · rw [windows_end (by omega), List.take_nil]
        exact ht offset

theorem passActions_conforms {recipe : Recipe} (hs : streaming = true) (hc : 0 < capacity)
    (hd : decode image = .ok recipe) (v : Verdict) :
    ∃ out, Conforms streaming capacity recipe.h.length image (.pass out 0)
      (passActions capacity recipe v) := by
  cases v with
  | refused m => exact ⟨fun _ => 0, .refuse m⟩
  | overBudget out m =>
    exact ⟨out, conforms_windows hs hc (.refuse m) _ 0 (Nat.zero_le _) (by omega)⟩
  | committed out g m =>
    refine ⟨out, conforms_windows hs hc ?_ _ 0 (Nat.zero_le _) (by omega)⟩
    have hf : Emits streaming capacity recipe.h.length (.sealed out)
        (some (.response (finalReply m).response)) (.final out) := by
      have := (@Emits.final streaming capacity recipe.h.length out m)
      rwa [if_pos hs] at this
    have hr : Emits streaming capacity recipe.h.length (.final out) (some (.registration g))
        (.delivery out recipe.h.length) := by
      have := (@Emits.registration streaming capacity recipe.h.length out g)
      rwa [if_pos hs] at this
    exact .commit (fun _ => rfl) hd (.send hf trivial (.send hr trivial .delivered))

theorem streamActions_conforms {recipe : Recipe} (hs : streaming = true) (hc : 0 < capacity)
    (hd : decode image = .ok recipe) (s : Script) :
    ∃ out, Conforms streaming capacity recipe.h.length image (.pass out 0)
      (streamActions s capacity recipe) := by
  obtain ⟨_ | a, v⟩ := s
  · exact passActions_conforms hs hc hd v
  · -- what follows the abandoned windows: a refusal, or the restart and the complete pass
    have hrest : ∀ v', ∀ offset, Conforms streaming capacity recipe.h.length image
        (.pass a.output offset) (.restart :: passActions capacity recipe v') := fun v' offset => by
      obtain ⟨out, ho⟩ := passActions_conforms hs hc hd v'
      exact .restart hs ho
    refine ⟨a.output, ?_⟩
    cases v with
    | refused m => exact conforms_windows_take hs (fun _ => .refuse m) _ _ _
    | overBudget out m => exact conforms_windows_take hs (hrest _) _ _ _
    | committed out g m => exact conforms_windows_take hs (hrest _) _ _ _

theorem conforms_payload {out : ℕ → UInt8} :
    ∀ fuel offset, offset ≤ n → n ≤ offset + fuel →
      Conforms streaming capacity n image (.delivery out offset)
        ((windows CHUNK n out fuel offset).map fun o => .send (.payload o)) := by
  intro fuel
  induction fuel with
  | zero =>
    intro offset h1 h2
    obtain rfl : offset = n := by omega
    exact .delivered
  | succ fuel ih =>
    intro offset h1 h2
    have hpos : 0 < CHUNK := by decide
    by_cases hlt : offset < n
    · rw [windows_succ hlt, List.map_cons]
      refine .send (.payload hlt) trivial ?_
      by_cases hcap : CHUNK ≤ n - offset
      · rw [min_eq_left hcap]
        exact ih _ (by omega) (by omega)
      · have hn : offset + min CHUNK (n - offset) = n := by omega
        rw [hn, windows_end (by omega)]
        exact .delivered
    · obtain rfl : offset = n := by omega
      rw [windows_end le_rfl]
      exact .delivered

theorem wholeActions_conforms {recipe : Recipe} (hs : streaming = false)
    (hd : decode image = .ok recipe) (s : Script) :
    ∃ out, Conforms streaming capacity recipe.h.length image (.pass out 0)
      (wholeActions s recipe) := by
  obtain ⟨a, v⟩ := s
  subst hs
  cases v with
  | refused m => exact ⟨fun _ => 0, .refuse m⟩
  | overBudget out m => exact ⟨fun _ => 0, .refuse m⟩
  | committed out g m =>
    refine ⟨out, .commit (fun h => Bool.noConfusion h) hd ?_⟩
    have hp : Conforms false capacity recipe.h.length image (.delivery out 0) _ :=
      conforms_payload recipe.h.length 0 (Nat.zero_le _) (by omega)
    exact .send .final trivial (.send .registration trivial hp)

/-- **Whatever the worker does with an image conforms.** -/
theorem answerTo_conforms {arena : Option Arena} (exhausted : Bool) (s : Script)
    (hs : streaming = true → ∃ a, arena = some a ∧ capacity = a.capacity) :
    ∃ out, Conforms streaming capacity (Header.ofBytes image).length image (.pass out 0)
      (answerTo arena exhausted streaming s image) := by
  unfold answerTo
  by_cases he : exhausted = true
  · rw [if_pos he]
    exact ⟨fun _ => 0, .refuse _⟩
  rw [if_neg he]
  rcases hd : decode image with m | recipe
  · exact ⟨fun _ => 0, .refuse m⟩
  · rw [← Header.ofBytes_take, ← (decode_header hd).2.1]
    rcases hstr : streaming with _ | _
    · obtain ⟨out, ho⟩ := (@wholeActions_conforms _ capacity) rfl hd s
      exact ⟨out, ho⟩
    · obtain ⟨a, rfl, rfl⟩ := hs hstr
      obtain ⟨out, ho⟩ := streamActions_conforms rfl a.pos hd s
      exact ⟨out, ho⟩

end Afterfree.Protocol.Dialogue
