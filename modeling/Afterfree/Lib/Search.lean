import Mathlib.Tactic

/-!
# Bisection

The loop `while (low < high)` of a binary search over a predicate that is true on an initial
segment and false afterwards. The fuel is an upper bound for the number of halvings; `high - low`
is always enough.
-/

namespace Afterfree.Lib.Search

/-- One binary search: the first index of `[low, high)` where `p` fails, `high` if there is none. -/
def bisect (p : ℕ → Bool) : ℕ → ℕ → ℕ → ℕ
  | 0, low, _ => low
  | fuel + 1, low, high =>
    if low < high then
      let mid := low + (high - low) / 2
      if p mid then bisect p fuel (mid + 1) high else bisect p fuel low mid
    else low

/-- `p` holds on an initial segment of `[low, high)` only. -/
def Segmented (p : ℕ → Bool) (low high : ℕ) : Prop :=
  ∀ i j, low ≤ i → i ≤ j → j < high → p j = true → p i = true

/-- **Bisection.** The result splits the range into the indices where `p` holds and those where it
does not. -/
theorem bisect_spec (p : ℕ → Bool) :
    ∀ (fuel low high : ℕ), low ≤ high → high - low ≤ fuel → Segmented p low high →
      low ≤ bisect p fuel low high ∧ bisect p fuel low high ≤ high ∧
        (∀ i, low ≤ i → i < bisect p fuel low high → p i = true) ∧
        (∀ i, bisect p fuel low high ≤ i → i < high → p i = false)
  | 0, low, high, h1, h2, _ => by
    simp only [bisect]
    exact ⟨le_rfl, h1, fun i _ _ => by omega, fun i _ _ => by omega⟩
  | fuel + 1, low, high, h1, h2, hp => by
    unfold bisect
    by_cases hlt : low < high
    · rw [if_pos hlt]
      have hmid : low ≤ low + (high - low) / 2 ∧ low + (high - low) / 2 < high := by omega
      generalize low + (high - low) / 2 = mid at hmid
      simp only
      by_cases hpm : p mid = true
      · rw [if_pos hpm]
        obtain ⟨b1, b2, b3, b4⟩ := bisect_spec p fuel (mid + 1) high (by omega) (by omega)
          fun i j hi => hp i j (by omega)
        refine ⟨by omega, b2, fun i hi hlt => ?_, b4⟩
        by_cases him : mid < i
        · exact b3 i him hlt
        · exact hp i mid hi (by omega) hmid.2 hpm
      · rw [if_neg hpm]
        obtain ⟨b1, b2, b3, b4⟩ := bisect_spec p fuel low mid (by omega) (by omega)
          fun i j hi hij hj => hp i j hi hij (by omega)
        refine ⟨b1, by omega, b3, fun i hi hlt => ?_⟩
        by_cases him : i < mid
        · exact b4 i hi him
        · by_contra hne
          exact hpm (hp mid i hmid.1 (by omega) hlt (by simpa using hne))
    · rw [if_neg hlt]
      exact ⟨le_rfl, h1, fun i _ _ => by omega, fun i _ _ => by omega⟩

end Afterfree.Lib.Search
