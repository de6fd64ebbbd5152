import Afterfree.Common

/-!
# Byte masks

`byte_mask.hpp`: one bit per byte of a page, in 64-bit words. Every operation is read off bit by bit
here (`test_mark`, `all_iff`, `any_false_iff`); nothing else about words is needed afterwards. The
loops over words take their shifts and indices from an `Access`, so that `Words` can run them with
checks.
-/

namespace Afterfree.Recording.Masks

open Afterfree.Common

/-- `ByteMask`: the words of a page, by number. -/
structure ByteMask where
  words : ℕ → BitVec 64

/-- No byte. -/
def ByteMask.empty : ByteMask := ⟨fun _ => 0#64⟩

/-- `ByteMask::mask`. -/
def mask (offset count : ℕ) : BitVec 64 := (BitVec.allOnes 64 >>> (64 - count)) <<< offset

/-- How a loop over words makes the mask of a word, finds a word by its number, and goes on when its
fuel is used up. -/
structure Access (F : Type → Type) where
  mask : ℕ → ℕ → F (BitVec 64)
  index : ℕ → F ℕ
  stuck : {α : Type} → α → F α

/-- As the code does it. -/
def Access.plain : Access Id := ⟨Masks.mask, id, id⟩

namespace ByteMask

/-- `operator[]`. -/
def test (m : ByteMask) (offset : ℕ) : Bool := (m.words (offset / 64)).getLsbD (offset % 64)

/-- Add bits to one word. -/
def orWord (m : ByteMask) (i : ℕ) (bits : BitVec 64) : ByteMask :=
  ⟨Function.update m.words i (m.words i ||| bits)⟩

/-- `set`. -/
def set (m : ByteMask) (offset : ℕ) : ByteMask := m.orWord (offset / 64) (1#64 <<< (offset % 64))

/-- `any`. -/
def any (m : ByteMask) : Bool := (List.range (PAGE / 64)).any fun i => m.words i != 0#64

/-- The loop of `mark`. -/
def markLoopWith {F : Type → Type} [Monad F] (access : Access F) : ℕ → ByteMask → ℕ → ℕ → F ByteMask
  | 0, m, _, count => if count = 0 then pure m else access.stuck m
  | fuel + 1, m, offset, count =>
    if count = 0 then pure m
    else do
      let n := min count (64 - offset % 64)
      let bits ← access.mask (offset % 64) n
      let word ← access.index (offset / 64)
      markLoopWith access fuel (m.orWord word bits) (offset + n) (count - n)

def markLoop (fuel : ℕ) (m : ByteMask) (offset count : ℕ) : ByteMask :=
  markLoopWith Access.plain fuel m offset count

/-- `mark`. -/
def mark (m : ByteMask) (offset count : ℕ) : ByteMask := markLoop count m offset count

/-- The loop of `all`. -/
def allLoopWith {F : Type → Type} [Monad F] (access : Access F) (m : ByteMask) : ℕ → ℕ → ℕ → F Bool
  | 0, _, count => if count = 0 then pure true else access.stuck true
  | fuel + 1, offset, count =>
    if count = 0 then pure true
    else do
      let n := min count (64 - offset % 64)
      let bits ← access.mask (offset % 64) n
      let word ← access.index (offset / 64)
      if m.words word &&& bits ≠ bits then pure false
      else allLoopWith access m fuel (offset + n) (count - n)

def allLoop (m : ByteMask) (fuel offset count : ℕ) : Bool :=
  allLoopWith Access.plain m fuel offset count

/-- `all`. -/
def all (m : ByteMask) (offset count : ℕ) : Bool := allLoop m count offset count

end ByteMask

/-! ### Bit by bit -/

theorem getLsbD_mask {offset count i : ℕ} (h : offset + count ≤ 64) (hi : i < 64) :
    (mask offset count).getLsbD i = decide (offset ≤ i ∧ i < offset + count) := by
  unfold mask
  rw [BitVec.getLsbD_shiftLeft, BitVec.getLsbD_ushiftRight, BitVec.getLsbD_allOnes,
    decide_eq_true hi, Bool.true_and]
  by_cases h1 : i < offset
  · have hn : ¬ (offset ≤ i ∧ i < offset + count) := by omega
    rw [decide_eq_true h1, decide_eq_false hn]
    rfl
  · rw [decide_eq_false h1, Bool.not_false, Bool.true_and]
    exact decide_eq_decide.mpr (by omega)

namespace ByteMask

theorem test_empty (i : ℕ) : empty.test i = false := by
  unfold test empty
  simp

theorem test_orWord (m : ByteMask) (w : ℕ) (bits : BitVec 64) (i : ℕ) :
    (m.orWord w bits).test i = (m.test i || (decide (i / 64 = w) && bits.getLsbD (i % 64))) := by
  unfold test orWord
  by_cases h : i / 64 = w
  · subst h
    simp only [Function.update_self, BitVec.getLsbD_or, decide_true, Bool.true_and]
  · simp only [Function.update_of_ne h, h, decide_false, Bool.false_and, Bool.or_false]

theorem test_orWord_mask (m : ByteMask) {offset n i : ℕ} (h : offset % 64 + n ≤ 64) :
    (m.orWord (offset / 64) (Masks.mask (offset % 64) n)).test i =
      (m.test i || decide (offset ≤ i ∧ i < offset + n)) := by
  rw [test_orWord, getLsbD_mask h (Nat.mod_lt _ (by decide)), ← Bool.decide_and]
  congr 1
  exact decide_eq_decide.mpr (by omega)

theorem markLoop_succ (fuel : ℕ) (m : ByteMask) (offset count : ℕ) :
    markLoop (fuel + 1) m offset count =
      if count = 0 then m
      else markLoop fuel
        (m.orWord (offset / 64) (Masks.mask (offset % 64) (min count (64 - offset % 64))))
        (offset + min count (64 - offset % 64)) (count - min count (64 - offset % 64)) := rfl

theorem allLoop_succ (m : ByteMask) (fuel offset count : ℕ) :
    allLoop m (fuel + 1) offset count =
      if count = 0 then true
      else if m.words (offset / 64) &&& Masks.mask (offset % 64) (min count (64 - offset % 64)) ≠
          Masks.mask (offset % 64) (min count (64 - offset % 64)) then false
      else allLoop m fuel (offset + min count (64 - offset % 64))
        (count - min count (64 - offset % 64)) := rfl

/-- **`mark`.** -/
theorem test_markLoop : ∀ (fuel : ℕ) (m : ByteMask) (offset count i : ℕ), count ≤ fuel →
    (markLoop fuel m offset count).test i =
      (m.test i || decide (offset ≤ i ∧ i < offset + count))
  | 0, m, offset, count, i, h => by
    obtain rfl : count = 0 := by omega
    rw [show markLoop 0 m offset 0 = m from rfl, decide_eq_false (by omega), Bool.or_false]
  | fuel + 1, m, offset, count, i, h => by
    rw [markLoop_succ]
    by_cases h0 : count = 0
    · rw [if_pos h0, decide_eq_false (by omega), Bool.or_false]
    rw [if_neg h0]
    have hlt : offset % 64 < 64 := Nat.mod_lt _ (by decide)
    rw [test_markLoop fuel _ _ _ i (by omega), test_orWord_mask m (by omega),
      Bool.or_assoc, ← Bool.decide_or]
    congr 1
    exact decide_eq_decide.mpr (by omega)

theorem test_mark (m : ByteMask) (offset count i : ℕ) :
    (m.mark offset count).test i = (m.test i || decide (offset ≤ i ∧ i < offset + count)) :=
  test_markLoop count m offset count i le_rfl

/-- **`set`.** -/
theorem test_set (m : ByteMask) (offset i : ℕ) :
    (m.set offset).test i = (m.test i || decide (i = offset)) := by
  have hone : (1#64 <<< (offset % 64)).getLsbD (i % 64) = decide (i % 64 = offset % 64) := by
    have hi : i % 64 < 64 := Nat.mod_lt _ (by decide)
    rw [BitVec.getLsbD_shiftLeft, BitVec.getLsbD_one, decide_eq_true hi, Bool.true_and,
      decide_eq_true (show 0 < 64 by decide), Bool.true_and, ← decide_not, ← Bool.decide_and]
    exact decide_eq_decide.mpr (by omega)
  unfold set
  rw [test_orWord, hone, ← Bool.decide_and]
  congr 1
  exact decide_eq_decide.mpr (by omega)

theorem and_mask_iff (m : ByteMask) {offset n : ℕ} (h : offset % 64 + n ≤ 64) :
    m.words (offset / 64) &&& Masks.mask (offset % 64) n = Masks.mask (offset % 64) n ↔
      ∀ i, offset ≤ i → i < offset + n → m.test i = true := by
  constructor
  · intro he i h1 h2
    have hb := congrArg (fun x : BitVec 64 => x.getLsbD (i % 64)) he
    simp only [BitVec.getLsbD_and] at hb
    rw [getLsbD_mask h (Nat.mod_lt _ (by decide)), decide_eq_true (by omega), Bool.and_true] at hb
    unfold test
    rw [show i / 64 = offset / 64 by omega]
    exact hb
  · intro ht
    refine BitVec.eq_of_getLsbD_eq fun j hj => ?_
    rw [BitVec.getLsbD_and, getLsbD_mask h hj]
    by_cases hin : offset % 64 ≤ j ∧ j < offset % 64 + n
    · have := ht (offset / 64 * 64 + j) (by omega) (by omega)
      unfold test at this
      rw [show (offset / 64 * 64 + j) / 64 = offset / 64 by omega,
        show (offset / 64 * 64 + j) % 64 = j by omega] at this
      rw [this, decide_eq_true hin]
      rfl
    · rw [decide_eq_false hin, Bool.and_false]

/-- **`all`.** -/
theorem allLoop_iff (m : ByteMask) : ∀ (fuel offset count : ℕ), count ≤ fuel →
    (allLoop m fuel offset count = true ↔
      ∀ i, offset ≤ i → i < offset + count → m.test i = true)
  | 0, offset, count, h => by
    obtain rfl : count = 0 := by omega
    exact ⟨fun _ i h1 h2 => by omega, fun _ => rfl⟩
  | fuel + 1, offset, count, h => by
    rw [allLoop_succ]
    by_cases h0 : count = 0
    · rw [if_pos h0]
      exact ⟨fun _ i h1 h2 => by omega, fun _ => rfl⟩
    rw [if_neg h0]
    have hlt : offset % 64 < 64 := Nat.mod_lt _ (by decide)
    have hw := (@and_mask_iff m offset (min count (64 - offset % 64)))
      (by omega)
    by_cases hne : m.words (offset / 64) &&& Masks.mask (offset % 64)
        (min count (64 - offset % 64)) ≠ Masks.mask (offset % 64) (min count (64 - offset % 64))
    · rw [if_pos hne]
      refine ⟨fun hf => Bool.noConfusion hf, fun ht => absurd (hw.mpr fun i h1 h2 => ?_) hne⟩
      exact ht i h1 (by omega)
    · rw [if_neg hne, allLoop_iff m fuel _ _ (by omega)]
      have hw' := hw.mp (not_not.mp hne)
      constructor
      · intro ht i h1 h2
        by_cases hi : i < offset + min count (64 - offset % 64)
        · exact hw' i h1 hi
        · exact ht i (by omega) (by omega)
      · intro ht i h1 h2
        exact ht i (by omega) (by omega)

theorem all_iff (m : ByteMask) (offset count : ℕ) :
    m.all offset count = true ↔ ∀ i, offset ≤ i → i < offset + count → m.test i = true :=
  allLoop_iff m count offset count le_rfl

/-- **`any`.** -/
theorem any_false_iff (m : ByteMask) : m.any = false ↔ ∀ i < PAGE, m.test i = false := by
  unfold any
  rw [List.any_eq_false]
  constructor
  · intro h i hi
    have hw := h (i / 64) (List.mem_range.mpr (by unfold PAGE at *; omega))
    have hz : m.words (i / 64) = 0#64 := by simpa using hw
    unfold test
    rw [hz]
    simp
  · intro h w hw
    have hw' := List.mem_range.mp hw
    have hz : m.words w = 0#64 := by
      refine BitVec.eq_of_getLsbD_eq fun j hj => ?_
      have := h (w * 64 + j) (by unfold PAGE at *; omega)
      unfold test at this
      rw [show (w * 64 + j) / 64 = w by omega, show (w * 64 + j) % 64 = j by omega] at this
      rw [this]
      simp
    simp [hz]

end ByteMask

end Afterfree.Recording.Masks
