import Mathlib.Data.Nat.Count
import Mathlib.Tactic

/-!
# Spans of indices

A table indexed by the naturals, of which a contiguous span is overwritten (`fill`), and how the
number of entries with a property (`Nat.count`) changes with it.
-/

namespace Afterfree.Lib.Span

variable {α : Type*}

/-- The table `f` with the entries of `[lo, hi)` replaced by `v`. -/
def fill (f : ℕ → α) (lo hi : ℕ) (v : α) : ℕ → α :=
  fun i => if lo ≤ i ∧ i < hi then v else f i

theorem fill_inside (f : ℕ → α) {lo hi i : ℕ} (v : α) (h1 : lo ≤ i) (h2 : i < hi) :
    fill f lo hi v i = v := by
  simp [fill, h1, h2]

theorem fill_outside (f : ℕ → α) {lo hi i : ℕ} (v : α) (h : i < lo ∨ hi ≤ i) :
    fill f lo hi v i = f i := by
  unfold fill
  rw [if_neg (by omega)]

theorem fill_cases (f : ℕ → α) (lo hi : ℕ) (v : α) (i : ℕ) :
    (lo ≤ i ∧ i < hi ∧ fill f lo hi v i = v) ∨ ((i < lo ∨ hi ≤ i) ∧ fill f lo hi v i = f i) := by
  by_cases h : lo ≤ i ∧ i < hi
  · exact Or.inl ⟨h.1, h.2, fill_inside f v h.1 h.2⟩
  · exact Or.inr ⟨by omega, fill_outside f v (by omega)⟩

/-- How many of the entries of `[lo, hi)` satisfy `p`. -/
def countIn (p : ℕ → Prop) [DecidablePred p] (lo hi : ℕ) : ℕ :=
  Nat.count (fun k => p (lo + k)) (hi - lo)

/-- A count below `n` splits at a span. -/
theorem count_split (p : ℕ → Prop) [DecidablePred p] {lo hi n : ℕ} (h1 : lo ≤ hi) (h2 : hi ≤ n) :
    Nat.count p n = Nat.count p lo + countIn p lo hi + countIn p hi n := by
  have e1 : n = hi + (n - hi) := by omega
  have e2 : hi = lo + (hi - lo) := by omega
  rw [e1, Nat.count_add]
  conv_lhs => rw [e2, Nat.count_add]
  unfold countIn
  rw [show hi + (n - hi) - hi = n - hi by omega, show lo + (hi - lo) = hi by omega]

theorem count_congr {p q : ℕ → Prop} [DecidablePred p] [DecidablePred q] :
    ∀ {n : ℕ}, (∀ i < n, (p i ↔ q i)) → Nat.count p n = Nat.count q n
  | 0, _ => by simp
  | n + 1, h => by
    rw [Nat.count_succ, Nat.count_succ, count_congr fun i hi => h i (by omega)]
    simp only [h n (by omega)]

theorem countIn_congr {p q : ℕ → Prop} [DecidablePred p] [DecidablePred q] {lo hi : ℕ}
    (h : ∀ i, lo ≤ i → i < hi → (p i ↔ q i)) : countIn p lo hi = countIn q lo hi :=
  count_congr fun k hk => h (lo + k) (by omega) (by omega)

/-- Two properties that agree outside `[lo, hi)` differ in their count by what they count there. -/
theorem count_exchange {p q : ℕ → Prop} [DecidablePred p] [DecidablePred q] {lo hi n : ℕ}
    (h1 : lo ≤ hi) (h2 : hi ≤ n) (h : ∀ i, i < lo ∨ hi ≤ i → (p i ↔ q i)) :
    Nat.count p n + countIn q lo hi = Nat.count q n + countIn p lo hi := by
  rw [count_split p h1 h2, count_split q h1 h2,
    count_congr fun i (hi : i < lo) => h i (Or.inl hi),
    show countIn p hi n = countIn q hi n from countIn_congr fun i hi _ => h i (Or.inr hi)]
  omega

theorem countIn_none {p : ℕ → Prop} [DecidablePred p] {lo hi : ℕ}
    (h : ∀ i, lo ≤ i → i < hi → ¬ p i) : countIn p lo hi = 0 := by
  unfold countIn
  rw [count_congr (q := fun _ => False) fun k hk => iff_of_false (h _ (by omega) (by omega)) id]
  exact Nat.count_false _

theorem countIn_every {p : ℕ → Prop} [DecidablePred p] {lo hi : ℕ}
    (h : ∀ i, lo ≤ i → i < hi → p i) : countIn p lo hi = hi - lo := by
  unfold countIn
  rw [count_congr (q := fun _ => True) fun k hk => iff_of_true (h _ (by omega) (by omega)) trivial]
  exact Nat.count_true _

theorem countIn_le_count (p : ℕ → Prop) [DecidablePred p] {lo hi n : ℕ} (h1 : lo ≤ hi)
    (h2 : hi ≤ n) : countIn p lo hi ≤ Nat.count p n := by
  rw [count_split p h1 h2]
  omega

/-- The count is full only if every entry satisfies `p`. -/
theorem forall_of_count_eq {p : ℕ → Prop} [DecidablePred p] :
    ∀ {n : ℕ}, Nat.count p n = n → ∀ i < n, p i
  | 0, _ => by simp
  | n + 1, h => by
    rw [Nat.count_succ] at h
    have hle := Nat.count_le (p := p) (n := n)
    intro i hi
    by_cases hn : p n
    · rw [if_pos hn] at h
      rcases Nat.lt_succ_iff_lt_or_eq.mp hi with hi | rfl
      · exact forall_of_count_eq (by omega) i hi
      · exact hn
    · rw [if_neg hn] at h
      omega

theorem count_eq_of_forall {p : ℕ → Prop} [DecidablePred p] {n : ℕ} (h : ∀ i < n, p i) :
    Nat.count p n = n := by
  rw [count_congr (q := fun _ => True) fun i hi => iff_of_true (h i hi) trivial]
  exact Nat.count_true _

end Afterfree.Lib.Span
