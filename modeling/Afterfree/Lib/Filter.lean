import Mathlib.Data.List.Basic
import Mathlib.Data.BitVec

/-!
# Classic packet filters

A filter is a list of instructions with one accumulator and forward jumps: a jump skips as many of
the instructions after it as it says. It reads words of a record and ends with a verdict.

* `Contained`: every jump lands inside the filter.
* `run_guarded`: a comparison that skips its own block.
* `run_each`: one block for each value of a list, compared in turn.
-/

namespace Afterfree.Lib.Filter

/-- The instructions: load of a word, comparison, test of bits, verdict. -/
inductive Instruction
  | load (offset : BitVec 32)
  | equal (k : BitVec 32) (yes no : Fin 256)
  | bits (k : BitVec 32) (yes no : Fin 256)
  | verdict (k : BitVec 32)
deriving DecidableEq

/-- How many of the following instructions a jump may skip. -/
def Instruction.skips : Instruction → List ℕ
  | .load _ => []
  | .equal _ yes no => [yes, no]
  | .bits _ yes no => [yes, no]
  | .verdict _ => []

/-- The verdict on a record; none when the filter ends without one or loads what the record does not
have. -/
def run (word : BitVec 32 → Option (BitVec 32)) : List Instruction → BitVec 32 → Option (BitVec 32)
  | [], _ => none
  | .load offset :: rest, _ =>
    match word offset with
    | none => none
    | some b => run word rest b
  | .equal k yes no :: rest, a => run word (rest.drop (if a = k then yes else no : Fin 256)) a
  | .bits k yes no :: rest, a => run word (rest.drop (if a &&& k ≠ 0 then yes else no : Fin 256)) a
  | .verdict k :: _, _ => some k
termination_by p => p.length
decreasing_by all_goals simp only [List.length_cons, List.length_drop]; omega

section Run

variable {word : BitVec 32 → Option (BitVec 32)} {k a b : BitVec 32} {rest : List Instruction}

@[simp] theorem run_nil : run word [] a = none := by simp [run]

@[simp] theorem run_verdict : run word (.verdict k :: rest) a = some k := by simp [run]

theorem run_load (h : word k = some b) : run word (.load k :: rest) a = run word rest b := by
  rw [run, h]

theorem run_equal {yes no : Fin 256} : run word (.equal k yes no :: rest) a =
    if a = k then run word (rest.drop yes) a else run word (rest.drop no) a := by
  rw [run]
  split_ifs
  · rfl
  · rfl

theorem run_bits {yes no : Fin 256} : run word (.bits k yes no :: rest) a =
    if a &&& k ≠ 0 then run word (rest.drop yes) a else run word (rest.drop no) a := by
  rw [run]
  split_ifs
  · rfl
  · rfl

/-- A comparison that goes on with its block or skips it. -/
theorem run_guarded {block : List Instruction} {no : Fin 256} (h : block.length = no) :
    run word (.equal k 0 no :: (block ++ rest)) a =
      if a = k then run word (block ++ rest) a else run word rest a := by
  rw [run_equal, ← h, List.drop_left]
  rfl

/-- Blocks that each decide on one value: the accumulator reaches every comparison unchanged, and
the first block that has it decides. -/
theorem run_each {block : BitVec 32 → List Instruction} {out : BitVec 32 → Option (BitVec 32)}
    (hblock : ∀ k rest a, run word (block k ++ rest) a = if a = k then out a else run word rest a)
    (ks : List (BitVec 32)) :
    run word (ks.flatMap block ++ rest) a = if a ∈ ks then out a else run word rest a := by
  induction ks with
  | nil => simp
  | cons k ks ih =>
    rw [List.flatMap_cons, List.append_assoc, hblock, ih]
    by_cases hk : a = k
    · simp [hk]
    · simp [hk]

end Run

/-! ### Where the jumps land -/

/-- Every jump lands on an instruction of the list or just behind it. -/
def Lands : List Instruction → Prop
  | [] => True
  | i :: rest => (∀ n ∈ i.skips, n ≤ rest.length) ∧ Lands rest

/-- Every jump lands on an instruction of the filter. -/
def Contained (p : List Instruction) : Prop :=
  ∀ (i : ℕ) (h : i < p.length), ∀ n ∈ p[i].skips, i + 1 + n < p.length

theorem Lands.append {p q : List Instruction} (hp : Lands p) (hq : Lands q) : Lands (p ++ q) := by
  induction p with
  | nil => exact hq
  | cons i rest ih =>
    refine ⟨fun n hn => ?_, ih hp.2⟩
    have hle := hp.1 n hn
    rw [List.append_eq, List.length_append]
    omega

theorem Lands.flatMap {α : Type} {block : α → List Instruction} (h : ∀ x, Lands (block x))
    (xs : List α) :
    Lands (xs.flatMap block) := by
  induction xs with
  | nil => exact trivial
  | cons x xs ih => exact (h x).append ih

theorem Lands.at {p : List Instruction} (hp : Lands p) (i : ℕ) (h : i < p.length) :
    ∀ n ∈ p[i].skips, i + 1 + n ≤ p.length := by
  induction p generalizing i with
  | nil => exact absurd h (by simp)
  | cons x rest ih =>
    intro n hn
    cases i with
    | zero =>
      have hle := hp.1 n hn
      rw [List.length_cons]
      omega
    | succ i =>
      have hle := ih hp.2 i (by simpa using h) n hn
      rw [List.length_cons]
      omega

/-- A filter that ends with a verdict contains its jumps. -/
theorem Lands.contained {p : List Instruction} (hp : Lands p) (k : BitVec 32) :
    Contained (p ++ [.verdict k]) := by
  intro i h n hn
  rw [List.length_append, List.length_singleton] at h ⊢
  by_cases hi : i < p.length
  · rw [List.getElem_append_left hi] at hn
    have hle := hp.at i hi n hn
    omega
  · rw [List.getElem_append_right (by omega)] at hn
    simp [Instruction.skips] at hn

end Afterfree.Lib.Filter
