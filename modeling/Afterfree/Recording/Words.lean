import Afterfree.Recording.Capture

/-!
# The words of a byte mask

`byte_mask.hpp` computes with whole words: a shift by 64 is undefined, and there are only `PAGE /
64` words. The loops of the model are run here with a check on each, and have no result when a shift
or an index is out of range, or when the fuel does not suffice.

`byteMask_set`: a mask is a set of bytes of a page.
-/

namespace Afterfree.Recording.Words

open Afterfree.Common Afterfree.Codec Afterfree.Recording.Masks
open Afterfree.Recording.Capture Afterfree.Recording.Capture.Recorder

/-- The bytes of a mask. -/
def bytes (m : ByteMask) : Set ℕ := {i | i < PAGE ∧ (m.words (i / 64)).getLsbD (i % 64) = true}

theorem mem_bytes {m : ByteMask} {i : ℕ} : i ∈ bytes m ↔ i < PAGE ∧ m.test i = true := Iff.rfl

/-! ### Checked shifts -/

/-- `ByteMask::mask`, where both its shifts are defined and nothing is shifted out. -/
def maskChecked (offset count : ℕ) : Option (BitVec 64) :=
  if 1 ≤ count ∧ offset + count ≤ 64 then some (mask offset count) else none

theorem maskChecked_eq {offset count : ℕ} (hcount : 1 ≤ count) (h : offset + count ≤ 64) :
    maskChecked offset count = some (mask offset count) := if_pos ⟨hcount, h⟩

/-- Shifts and indices within their bounds, and no result without fuel. -/
def checked : Access Option :=
  ⟨maskChecked, fun i => if i < PAGE / 64 then some i else none, fun _ => none⟩

/-- The loop of `mark`. -/
def markChecked (fuel : ℕ) (m : ByteMask) (offset count : ℕ) : Option ByteMask :=
  ByteMask.markLoopWith checked fuel m offset count

/-- The loop of `all`. -/
def allChecked (m : ByteMask) (fuel offset count : ℕ) : Option Bool :=
  ByteMask.allLoopWith checked m fuel offset count

/-- The loop of `read`. -/
def readChecked (m : ℕ → UInt8) (fuel : ℕ) (r : Recorder) (addr n : ℕ) : Option Result :=
  readLoopWith checked m fuel r addr n

theorem piece_bounds {offset count : ℕ} (h0 : count ≠ 0) :
    1 ≤ min count (64 - offset % 64) ∧ offset % 64 + min count (64 - offset % 64) ≤ 64 := by
  have hlt : offset % 64 < 64 := Nat.mod_lt _ (by decide)
  omega

theorem checked_mask {offset count : ℕ} (hcount : 1 ≤ count) (h : offset + count ≤ 64) :
    checked.mask offset count = some (mask offset count) := maskChecked_eq hcount h

theorem checked_index {i : ℕ} (h : i < PAGE / 64) : checked.index i = some i := if_pos h

theorem markChecked_eq : ∀ (fuel : ℕ) (m : ByteMask) (offset count : ℕ), count ≤ fuel →
    offset + count ≤ PAGE → markChecked fuel m offset count =
      some (ByteMask.markLoop fuel m offset count)
  | 0, m, offset, count, h, _ => by
    obtain rfl : count = 0 := by omega
    rfl
  | fuel + 1, m, offset, count, h, hpage => by
    rw [markChecked, ByteMask.markLoopWith, ByteMask.markLoop_succ]
    by_cases h0 : count = 0
    · rw [if_pos h0, if_pos h0]
      rfl
    · obtain ⟨h1, h64⟩ := @piece_bounds offset count h0
      have hword : offset / 64 < PAGE / 64 := by
        unfold PAGE at *
        omega
      rw [if_neg h0, if_neg h0]
      simp only [checked_mask h1 h64, checked_index hword, Option.bind_eq_bind, Option.bind_some]
      exact markChecked_eq fuel _ _ _ (by omega) (by omega)

theorem allChecked_eq (m : ByteMask) : ∀ (fuel offset count : ℕ), count ≤ fuel →
    offset + count ≤ PAGE → allChecked m fuel offset count = some (m.allLoop fuel offset count)
  | 0, offset, count, h, _ => by
    obtain rfl : count = 0 := by omega
    rfl
  | fuel + 1, offset, count, h, hpage => by
    rw [allChecked, ByteMask.allLoopWith, ByteMask.allLoop_succ]
    by_cases h0 : count = 0
    · rw [if_pos h0, if_pos h0]
      rfl
    · obtain ⟨h1, h64⟩ := @piece_bounds offset count h0
      have hword : offset / 64 < PAGE / 64 := by
        unfold PAGE at *
        omega
      rw [if_neg h0, if_neg h0]
      simp only [checked_mask h1 h64, checked_index hword, Option.bind_eq_bind, Option.bind_some]
      split_ifs
      · rfl
      · exact allChecked_eq m fuel _ _ (by omega) (by omega)

/-! ### The words that `read` looks at -/

theorem neededWith_checked {r : Recorder} {addr count : ℕ} (h1 : 1 ≤ count)
    (h64 : addr % PAGE % 64 + count ≤ 64) :
    neededWith checked r addr count = some (r.needed addr count) := by
  have hmod : addr % PAGE % 64 = addr % 64 := Nat.mod_mod_of_dvd addr (by decide)
  have hword : addr % PAGE / 64 < PAGE / 64 := by
    unfold PAGE
    omega
  unfold neededWith
  rw [needed_eq]
  simp only [checked_mask h1 h64, checked_index hword, Option.bind_eq_bind, Option.bind_some]
  by_cases hlow : max addr r.h.output < min (addr + count) r.outputFrontier
  · rw [if_pos hlow, if_pos hlow, checked_mask (by omega) (by omega), Option.bind_some]
    rfl
  · rw [if_neg hlow, if_neg hlow]
    rfl

theorem readChecked_eq (m : ℕ → UInt8) : ∀ (fuel : ℕ) (r : Recorder) (addr n : ℕ), n ≤ fuel →
    readChecked m fuel r addr n = some (r.readLoop m fuel addr n)
  | 0, r, addr, n, h => by
    obtain rfl : n = 0 := by omega
    rfl
  | fuel + 1, r, addr, n, h => by
    rw [readChecked, readLoopWith, readLoop_succ]
    by_cases h0 : n = 0
    · rw [if_pos h0, if_pos h0]
      rfl
    · obtain ⟨h1, h64⟩ := @piece_bounds (addr % PAGE) n h0
      rw [if_neg h0, if_neg h0]
      cases r.page addr with
      | error e => rfl
      | ok r =>
        simp only [neededWith_checked h1 h64, Option.bind_some, bind, Except.bind]
        unfold readWord
        cases r.copyWord m addr (r.needed addr (min n (64 - addr % PAGE % 64))) with
        | none => rfl
        | some r => exact readChecked_eq m fuel r _ _ (by omega)

/-! ### A mask is a set -/

theorem bytes_set (m : ByteMask) {offset : ℕ} (h : offset < PAGE) :
    bytes (m.set offset) = insert offset (bytes m) := by
  ext i
  rw [Set.mem_insert_iff, mem_bytes, mem_bytes, ByteMask.test_set, Bool.or_eq_true,
    decide_eq_true_iff]
  constructor
  · rintro ⟨hi, ht | rfl⟩
    · exact .inr ⟨hi, ht⟩
    · exact .inl rfl
  · rintro (rfl | ⟨hi, ht⟩)
    · exact ⟨h, .inr rfl⟩
    · exact ⟨hi, .inl ht⟩

theorem bytes_mark (m : ByteMask) {offset count : ℕ} (h : offset + count ≤ PAGE) :
    bytes (m.mark offset count) = bytes m ∪ Set.Ico offset (offset + count) := by
  ext i
  rw [Set.mem_union, Set.mem_Ico, mem_bytes, mem_bytes, ByteMask.test_mark, Bool.or_eq_true,
    decide_eq_true_iff]
  constructor
  · rintro ⟨hi, ht | ht⟩
    · exact .inl ⟨hi, ht⟩
    · exact .inr ht
  · rintro (⟨hi, ht⟩ | ht)
    · exact ⟨hi, .inl ht⟩
    · exact ⟨by omega, .inr ht⟩

theorem all_iff_subset (m : ByteMask) {offset count : ℕ} (h : offset + count ≤ PAGE) :
    m.all offset count = true ↔ Set.Ico offset (offset + count) ⊆ bytes m := by
  rw [ByteMask.all_iff]
  constructor
  · intro hall i hi
    obtain ⟨hlow, hhigh⟩ := Set.mem_Ico.mp hi
    exact ⟨by omega, hall i hlow hhigh⟩
  · intro hsub i hlow hhigh
    exact (hsub (Set.mem_Ico.mpr ⟨hlow, hhigh⟩)).2

theorem any_iff_nonempty (m : ByteMask) : m.any = true ↔ (bytes m).Nonempty := by
  rw [← Bool.not_eq_false, ByteMask.any_false_iff]
  push Not
  constructor
  · rintro ⟨i, hi, ht⟩
    exact ⟨i, hi, (Bool.not_eq_false _).mp ht⟩
  · rintro ⟨i, hi, ht⟩
    exact ⟨i, hi, (Bool.not_eq_false _).mpr ht⟩

/-- **A byte mask is a set of bytes**, and its words are shifted and indexed within their bounds:
the loops of `mark`, `all` and `Recorder::read` have the same result with the checks. -/
theorem byteMask_set (m : ByteMask) :
    (m.any = true ↔ (bytes m).Nonempty) ∧
      (∀ offset < PAGE, (m.test offset = true ↔ offset ∈ bytes m) ∧
        bytes (m.set offset) = insert offset (bytes m)) ∧
      (∀ offset count, offset + count ≤ PAGE →
        bytes (m.mark offset count) = bytes m ∪ Set.Ico offset (offset + count) ∧
        (m.all offset count = true ↔ Set.Ico offset (offset + count) ⊆ bytes m) ∧
        markChecked count m offset count = some (m.mark offset count) ∧
        allChecked m count offset count = some (m.all offset count)) ∧
      ∀ memory r addr n, readChecked memory n r addr n = some (r.readLoop memory n addr n) := by
  refine ⟨any_iff_nonempty m, fun offset h => ⟨?_, bytes_set m h⟩, fun offset count h => ?_,
    fun memory r addr n => readChecked_eq memory n r addr n le_rfl⟩
  · exact ⟨fun ht => ⟨h, ht⟩, fun ht => ht.2⟩
  · exact ⟨bytes_mark m h, all_iff_subset m h, markChecked_eq count m offset count le_rfl h,
      allChecked_eq m count offset count le_rfl h⟩

end Afterfree.Recording.Words
