import Afterfree.Runtime.Statistics
import Mathlib.Algebra.Order.Field.Basic
import Mathlib.Data.Rat.Defs
import Mathlib.Algebra.Order.Field.Rat
import Mathlib.Tactic.FieldSimp

/-!
# The residency policy

`collect` evicts, one after the other, the buffers that free the most bytes for each nanosecond of
a replay, until the target is met or no buffer may be evicted any more.

* The scan over the slots finds the `Best` buffer, whatever the order of the slots is
  (`Best.scan`).
* A round discards the region of that buffer, so that the running value of `collect` is
  `resident_managed`, and the buffer is never considered again (`round_spec`).
* The loop ends, because every round uses up a buffer that was never evicted (`collectLoop_ends`).
* Over a whole run no buffer is evicted twice by `collect` (`evictedAlong_fresh`).
-/

namespace Afterfree.Runtime.Policy

open Afterfree.Common Afterfree.Lib Afterfree.Runtime.State Afterfree.Runtime.Pager
open Afterfree.Runtime.Api Afterfree.Runtime.Lookup Afterfree.Runtime.Representation
open Afterfree.Runtime.Changes Afterfree.Runtime.Decompose Afterfree.Runtime.Operations
open Afterfree.Runtime.Invariants Afterfree.Runtime.Accounting Afterfree.Runtime.Statistics

/-! ### The best buffer -/

/-- The buffers `collect` chooses from: sealed, never evicted, never faulted, not protected, and
with a positive benefit. -/
def Eligible (w : World) (protectedOutput s : ℕ) : Prop :=
  eligible (w.buffers s) protectedOutput = true ∧ benefit (w.buffers s) ≠ 0

/-- The bytes freed for each nanosecond of a replay. -/
def ratio (b : Buffer) : ℚ := (benefit b : ℚ) / (cost b : ℚ)

/-- The buffer of slot `s` is chosen before that of slot `t`, or it is as good. -/
def Prefers (w : World) (s t : ℕ) : Prop :=
  ratio (w.buffers t) < ratio (w.buffers s) ∨
    (ratio (w.buffers t) = ratio (w.buffers s) ∧ (w.buffers s).id ≤ (w.buffers t).id)

/-- The best of the eligible buffers: it has the largest ratio, and the smallest id of those with
this ratio. -/
structure Best (w : World) (protectedOutput s : ℕ) : Prop where
  slot_lt : s < MAX_SLOTS
  eligible : Eligible w protectedOutput s
  prefers : ∀ t, t < MAX_SLOTS → Eligible w protectedOutput t → Prefers w s t

theorem cost_pos (b : Buffer) : (0 : ℚ) < cost b := by
  have : 1 ≤ cost b := le_max_left _ _
  exact_mod_cast this

theorem ratio_lt_iff (b c : Buffer) :
    ratio b < ratio c ↔ benefit b * cost c < benefit c * cost b := by
  unfold ratio
  rw [div_lt_div_iff₀ (cost_pos b) (cost_pos c)]
  exact_mod_cast Iff.rfl

theorem ratio_eq_iff (b c : Buffer) :
    ratio b = ratio c ↔ benefit b * cost c = benefit c * cost b := by
  unfold ratio
  rw [div_eq_div_iff (cost_pos b).ne' (cost_pos c).ne']
  exact_mod_cast Iff.rfl

theorem Prefers.refl (w : World) (s : ℕ) : Prefers w s s := Or.inr ⟨rfl, le_rfl⟩

theorem Prefers.trans {w : World} {s t u : ℕ} (h : Prefers w s t) (h' : Prefers w t u) :
    Prefers w s u := by
  rcases h with h | ⟨h, hi⟩ <;> rcases h' with h' | ⟨h', hi'⟩
  · exact Or.inl (h'.trans h)
  · exact Or.inl (h'.trans_lt h)
  · exact Or.inl (h'.trans_eq h)
  · exact Or.inr ⟨h'.trans h, hi.trans hi'⟩

theorem better_cases (w : World) (p : ℕ) (best : Option ℕ) (s : ℕ) :
    (¬ Eligible w p s ∧ better w p best s = best) ∨
      (Eligible w p s ∧ best = none ∧ better w p best s = some s) ∨
      (Eligible w p s ∧ ∃ o, best = some o ∧
        ((Prefers w s o ∧ better w p best s = some s) ∨
          (Prefers w o s ∧ better w p best s = some o))) := by
  unfold better
  simp only
  by_cases he : (!eligible (w.buffers s) p || decide (benefit (w.buffers s) = 0)) = true
  · rw [if_pos he]
    refine Or.inl ⟨fun hs => ?_, rfl⟩
    obtain ⟨h1, h2⟩ := hs
    simp [h1, h2] at he
  rw [if_neg he]
  have hs : Eligible w p s := by
    simp only [Bool.or_eq_true, Bool.not_eq_true', decide_eq_true_eq, not_or,
      Bool.not_eq_false] at he
    exact he
  rcases best with _ | o
  · exact Or.inr (Or.inl ⟨hs, rfl, rfl⟩)
  refine Or.inr (Or.inr ⟨hs, o, rfl, ?_⟩)
  simp only
  by_cases hb : benefit (w.buffers o) * cost (w.buffers s) <
      benefit (w.buffers s) * cost (w.buffers o) ∨
      (benefit (w.buffers s) * cost (w.buffers o) = benefit (w.buffers o) * cost (w.buffers s) ∧
        (w.buffers s).id < (w.buffers o).id)
  · rw [if_pos hb]
    refine Or.inl ⟨?_, rfl⟩
    rcases hb with hb | ⟨hb, hid⟩
    · exact Or.inl ((ratio_lt_iff _ _).mpr hb)
    · exact Or.inr ⟨((ratio_eq_iff _ _).mpr hb.symm), hid.le⟩
  · rw [if_neg hb]
    refine Or.inr ⟨?_, rfl⟩
    rw [not_or, not_and, Nat.not_lt] at hb
    rcases Nat.lt_or_eq_of_le hb.1 with hlt | heq
    · exact Or.inl ((ratio_lt_iff _ _).mpr hlt)
    · exact Or.inr ⟨(ratio_eq_iff _ _).mpr heq, Nat.le_of_not_lt (hb.2 heq)⟩

/-- **The scan** over any list of slots: nothing if none of them is eligible, else one that is
preferred to all of them and to the one it started with. -/
theorem scan_spec (w : World) (p : ℕ) : ∀ (l : List ℕ) (best : Option ℕ),
    (∀ o, best = some o → Eligible w p o) →
    (l.foldl (better w p) best = none ∧ best = none ∧ ∀ t ∈ l, ¬ Eligible w p t) ∨
      ∃ s, l.foldl (better w p) best = some s ∧ (best = some s ∨ s ∈ l) ∧ Eligible w p s ∧
        (∀ o, best = some o → Prefers w s o) ∧ ∀ t ∈ l, Eligible w p t → Prefers w s t
  | [], best, hb => by
    rcases best with _ | o
    · exact Or.inl ⟨rfl, rfl, fun _ ht => absurd ht List.not_mem_nil⟩
    · refine Or.inr ⟨o, rfl, Or.inl rfl, hb o rfl, fun o' ho => ?_, fun t ht => ?_⟩
      · obtain rfl := Option.some.inj ho
        exact Prefers.refl w o
      · exact absurd ht List.not_mem_nil
  | a :: l, best, hb => by
    rw [List.foldl_cons]
    rcases better_cases w p best a with ⟨hn, he⟩ | ⟨hs, rfl, he⟩ | ⟨hs, o, rfl, hc⟩
    · rw [he]
      rcases scan_spec w p l best hb with ⟨h1, h2, h3⟩ | ⟨s, h1, h2, h3, h4, h5⟩
      · refine Or.inl ⟨h1, h2, fun t ht => ?_⟩
        rcases List.mem_cons.mp ht with rfl | ht
        · exact hn
        · exact h3 t ht
      · refine Or.inr ⟨s, h1, h2.imp_right (List.mem_cons_of_mem _), h3, h4, fun t ht hel => ?_⟩
        rcases List.mem_cons.mp ht with rfl | ht
        · exact absurd hel hn
        · exact h5 t ht hel
    · rw [he]
      rcases scan_spec w p l (some a) fun o ho => Option.some.inj ho ▸ hs with
        ⟨-, h2, -⟩ | ⟨s, h1, h2, h3, h4, h5⟩
      · cases h2
      · refine Or.inr ⟨s, h1, Or.inr ?_, h3, nofun, fun t ht hel => ?_⟩
        · rcases h2 with h2 | h2
          · exact Option.some.inj h2 ▸ List.mem_cons_self
          · exact List.mem_cons_of_mem _ h2
        · rcases List.mem_cons.mp ht with rfl | ht
          · exact h4 t rfl
          · exact h5 t ht hel
    · -- the new one or the old one is kept, and is preferred to the other
      have hkeep : ∃ k, better w p (some o) a = some k ∧ (k = a ∨ k = o) ∧ Eligible w p k ∧
          Prefers w k o ∧ Prefers w k a := by
        rcases hc with ⟨hp, he⟩ | ⟨hp, he⟩
        · exact ⟨a, he, Or.inl rfl, hs, hp, Prefers.refl w a⟩
        · exact ⟨o, he, Or.inr rfl, hb o rfl, Prefers.refl w o, hp⟩
      obtain ⟨k, he, hk, hel, hko, hka⟩ := hkeep
      rw [he]
      rcases scan_spec w p l (some k) fun o' ho => Option.some.inj ho ▸ hel with
        ⟨-, h2, -⟩ | ⟨s, h1, h2, h3, h4, h5⟩
      · cases h2
      · have hsk := h4 k rfl
        refine Or.inr ⟨s, h1, ?_, h3, fun o' ho => ?_, fun t ht hel' => ?_⟩
        · rcases h2 with h2 | h2
          · obtain rfl := Option.some.inj h2
            rcases hk with rfl | rfl
            · exact Or.inr List.mem_cons_self
            · exact Or.inl rfl
          · exact Or.inr (List.mem_cons_of_mem _ h2)
        · obtain rfl := Option.some.inj ho
          exact hsk.trans hko
        · rcases List.mem_cons.mp ht with rfl | ht
          · exact hsk.trans hka
          · exact h5 t ht hel'

theorem Eligible.live {w : World} {p s : ℕ} (h : Eligible w p s) (hs : s < MAX_SLOTS) :
    w.Live s ∧ (w.buffers s).state = .sealed ∧ (w.buffers s).stats.evictions = 0 := by
  have h1 := h.1
  unfold eligible at h1
  simp only [Bool.and_eq_true, decide_eq_true_eq] at h1
  obtain ⟨⟨⟨⟨h2, -⟩, h3⟩, h4⟩, -⟩ := h1
  exact ⟨⟨hs, h2⟩, h3, h4⟩

/-- There is one best buffer at most: two of them would have the same id. -/
theorem Best.unique {w : World} {p s t : ℕ} (hI : Inv w) (h : Best w p s) (h' : Best w p t) :
    s = t := by
  refine hI.ids s t (h.eligible.live h.slot_lt).1 (h'.eligible.live h'.slot_lt).1 ?_
  rcases h.prefers t h'.slot_lt h'.eligible with h1 | ⟨h1, i1⟩ <;>
    rcases h'.prefers s h.slot_lt h.eligible with h2 | ⟨h2, i2⟩
  · exact absurd (h1.trans h2) (lt_irrefl _)
  · exact absurd (h1.trans_eq h2) (lt_irrefl _)
  · exact absurd (h2.trans_eq h1) (lt_irrefl _)
  · exact le_antisymm i1 i2

/-- **The scan in any order of the slots** finds the best buffer, or nothing if none is eligible. -/
theorem scan_order {w : World} {p : ℕ} {order : List ℕ}
    (ho : order.Perm (List.range MAX_SLOTS)) :
    (order.foldl (better w p) none = none ∧ ∀ t < MAX_SLOTS, ¬ Eligible w p t) ∨
      ∃ s, order.foldl (better w p) none = some s ∧ Best w p s := by
  have hmem : ∀ t, t ∈ order ↔ t < MAX_SLOTS := fun t => ho.mem_iff.trans List.mem_range
  rcases scan_spec w p order none nofun with ⟨h1, -, h2⟩ | ⟨s, h1, h2, h3, -, h5⟩
  · exact Or.inl ⟨h1, fun t ht => h2 t ((hmem t).mpr ht)⟩
  · refine Or.inr ⟨s, h1, (hmem s).mp (h2.resolve_left nofun), h3, fun t ht => ?_⟩
    exact h5 t ((hmem t).mpr ht)

/-- The candidate of `collect` is the best buffer, whatever the order of the slots. -/
theorem candidate_spec (w : World) (p : ℕ) :
    (candidate w p = none ∧ ∀ t < MAX_SLOTS, ¬ Eligible w p t) ∨
      ∃ s, candidate w p = some s ∧ Best w p s := by
  unfold candidate
  exact scan_order (List.Perm.refl _)

theorem Best.scan {w : World} {p s : ℕ} (hI : Inv w) (h : Best w p s) {order : List ℕ}
    (ho : order.Perm (List.range MAX_SLOTS)) : order.foldl (better w p) none = some s := by
  rcases scan_order (w := w) (p := p) ho with ⟨-, hn⟩ | ⟨t, ht, hb⟩
  · exact absurd h.eligible (hn s h.slot_lt)
  · rw [ht, h.unique hI hb]

/-! ### Rounds -/

/-- The evictions of the loop of `collect`: the state in which the buffer is chosen, its slot, and
the running value. -/
def rounds (c : Caller) (e : ℕ → EvictEnv) (incoming protectedOutput : ℕ) :
    ℕ → World → ℕ → List (World × ℕ × ℕ)
  | 0, _, _ => []
  | fuel + 1, w, resident =>
    if w.residentTarget < resident + incoming then
      match candidate w protectedOutput with
      | none => []
      | some slot =>
        let b := w.buffers slot
        match evict c (e b.id) w b.data with
        | .error _ => []
        | .ok (w', r) =>
          if r ≠ 0 then []
          else
            let w' := { w' with automaticEvictions := w'.automaticEvictions + 1 }
            (w, slot, resident) :: rounds c e incoming protectedOutput fuel w'
              (resident - rounded (w'.buffers slot).recipeLength)
    else []

/-- The evictions of `collect`. -/
def collectRounds (c : Caller) (e : ℕ → EvictEnv) (w : World) (incoming protectedOutput : ℕ) :
    List (World × ℕ × ℕ) :=
  if w.residentTarget = 0 then []
  else rounds c e incoming protectedOutput (MAX_SLOTS + 1) w w.residentManaged

/-- The slots whose buffer was never evicted. -/
def unused (w : World) : Finset ℕ :=
  (Finset.range MAX_SLOTS).filter fun s => (w.buffers s).stats.evictions = 0

theorem unused_card_le (w : World) : (unused w).card ≤ MAX_SLOTS :=
  (Finset.card_filter_le _ _).trans_eq (Finset.card_range _)

theorem removed_sealed {b : Buffer} (h : BufferInv b) (hs : b.state = .sealed) :
    removedPages b * PAGE = rounded b.recipeLength := by
  have hall : removedPages b = rounded b.recipeLength / PAGE := by
    unfold removedPages
    rw [Span.countIn_every, Nat.add_sub_cancel_left]
    intro i h1 h2
    have hin : InRegion b i := by
      have := h.toShaped.last_eq
      unfold InRegion Buffer.regionFirst at *
      omega
    rw [Buffer.Present, h.sealedClean hs i hin]
    simp
  rw [hall]
  have := rounded_mod b.recipeLength
  unfold PAGE at *
  omega

theorem sealed_le_managed {w : World} (hI : Inv w) {s : ℕ} (hl : w.Live s)
    (hs : (w.buffers s).state = .sealed) :
    rounded (w.buffers s).recipeLength ≤ w.residentManaged := by
  have hb := hI.buffer s hl
  rw [← removed_sealed hb hs, hI.managed, Nat.mul_comm]
  refine Nat.mul_le_mul_left _ ((removedPages_le hb).trans ?_)
  have := weight_le_total w.buffers hl.1
  rwa [weight_live hl.2] at this

/-- **A round.** If the eviction of the best buffer returns zero, its region is discarded: the
running value stays `resident_managed`, and one slot less was never evicted. -/
theorem round_spec {c : Caller} {e : EvictEnv} {w w' : World} {p s : ℕ} (hI : Inv w)
    (hb : Best w p s) (h : evict c e w (w.buffers s).data = .ok (w', 0)) (n : ℕ) :
    w' = applyDiscard w s ∧ Inv { w' with automaticEvictions := n } ∧
      w'.residentManaged = w.residentManaged - rounded (w'.buffers s).recipeLength ∧
      rounded (w.buffers s).recipeLength ≤ w.residentManaged ∧
      (unused { w' with automaticEvictions := n }).card < (unused w).card := by
  obtain ⟨hl, hs, he⟩ := hb.eligible.live hb.slot_lt
  have hfind := (hI.indexed.find_iff (w.buffers s).data s).mpr ⟨hl, rfl⟩
  have hw : w' = applyDiscard w s := by
    rcases evict_cases hI h with ⟨-, -, hn⟩ | ⟨-, t, ht, -, -, -, hw⟩
    · obtain ⟨t, ht, hst⟩ := hn rfl
      rw [hfind] at ht
      obtain rfl := Option.some.inj ht
      rw [hs] at hst
      cases hst
    · rw [hfind] at ht
      obtain rfl := Option.some.inj ht
      exact hw
  have hself : w'.buffers s = discardedBuffer (w.buffers s) := by
    rw [hw]
    exact Function.update_self _ _ _
  have hother : ∀ u, u ≠ s → w'.buffers u = w.buffers u := by
    intro u hu
    rw [hw]
    exact Function.update_of_ne hu _ _
  have hinv : Inv w' := hw ▸ hI.discard hl (Or.inl hs)
  refine ⟨hw, hinv.note (fun _ => SameCore.refl _) rfl rfl rfl rfl, ?_, sealed_le_managed hI hl hs,
    Finset.card_lt_card ?_⟩
  · rw [hself]
    show _ = w.residentManaged - rounded (w.buffers s).recipeLength
    rw [← removed_sealed (hI.buffer s hl) hs, hw]
    rfl
  · refine Finset.ssubset_iff_of_subset (fun u hu => ?_) |>.mpr ⟨s, ?_, fun hu => ?_⟩
    · obtain ⟨hu1, hu2⟩ := Finset.mem_filter.mp hu
      have hus : u ≠ s := by
        rintro rfl
        change (w'.buffers u).stats.evictions = 0 at hu2
        rw [hself] at hu2
        exact absurd hu2 (Nat.succ_ne_zero _)
      refine Finset.mem_filter.mpr ⟨hu1, ?_⟩
      rw [← hother u hus]
      exact hu2
    · exact Finset.mem_filter.mpr ⟨Finset.mem_range.mpr hb.slot_lt, he⟩
    · have hu2 := (Finset.mem_filter.mp hu).2
      change (w'.buffers s).stats.evictions = 0 at hu2
      rw [hself] at hu2
      exact absurd hu2 (Nat.succ_ne_zero _)

theorem collectLoop_fuel {c : Caller} {e : ℕ → EvictEnv} {incoming p : ℕ} :
    ∀ {fuel fuel' : ℕ} {w : World}, Inv w → (unused w).card < fuel → (unused w).card < fuel' →
      collectLoop c e incoming p fuel w w.residentManaged =
        collectLoop c e incoming p fuel' w w.residentManaged := by
  intro fuel
  induction fuel with
  | zero => exact fun _ h => absurd h (Nat.not_lt_zero _)
  | succ fuel ih =>
    intro fuel' w hI h h'
    obtain ⟨fuel', rfl⟩ : ∃ k, fuel' = k + 1 := ⟨fuel' - 1, by omega⟩
    unfold collectLoop
    by_cases hover : w.residentTarget < w.residentManaged + incoming
    swap
    · rw [if_neg hover, if_neg hover]
    rw [if_pos hover, if_pos hover]
    rcases candidate_spec w p with ⟨hc, -⟩ | ⟨s, hc, hb⟩
    · rw [hc]
    rw [hc]
    dsimp only
    rcases he : evict c (e (w.buffers s).id) w (w.buffers s).data with stop | ⟨w1, r⟩
    · rfl
    dsimp only
    by_cases hr : r ≠ 0
    · rw [if_pos hr, if_pos hr]
    rw [if_neg hr, if_neg hr]
    obtain rfl := not_ne_iff.mp hr
    obtain ⟨-, hI1, hres, -, hcard⟩ := round_spec hI hb he (w1.automaticEvictions + 1)
    rw [← hres]
    exact ih (w := { w1 with automaticEvictions := w1.automaticEvictions + 1 }) hI1
      (by omega) (by omega)

theorem evict_ends {c : Caller} {e : EvictEnv} {w : World} {output : ℕ} :
    evict c e w output ≠ .error .diverged := by
  unfold evict
  cases usable c with
  | some m => exact nofun
  | none =>
    cases w.find output with
    | none => exact nofun
    | some slot =>
      dsimp only
      split_ifs <;> exact nofun

/-- **The loop ends**: as many rounds as there are unused slots are enough for it. -/
theorem collectLoop_ends {c : Caller} {e : ℕ → EvictEnv} {incoming p : ℕ} :
    ∀ {fuel : ℕ} {w : World}, Inv w → (unused w).card < fuel →
      collectLoop c e incoming p fuel w w.residentManaged ≠ .error .diverged := by
  intro fuel
  induction fuel with
  | zero => exact fun _ h => absurd h (Nat.not_lt_zero _)
  | succ fuel ih =>
    intro w hI hf
    unfold collectLoop
    by_cases hover : w.residentTarget < w.residentManaged + incoming
    swap
    · rw [if_neg hover]
      intro hx
      cases hx
    rw [if_pos hover]
    rcases candidate_spec w p with ⟨hc, -⟩ | ⟨s, hc, hb⟩
    · rw [hc]
      intro hx
      cases hx
    rw [hc]
    dsimp only
    rcases he : evict c (e (w.buffers s).id) w (w.buffers s).data with stop | ⟨w1, r⟩
    · intro hstop
      obtain rfl := Except.error.inj hstop
      exact evict_ends he
    dsimp only
    by_cases hr : r ≠ 0
    · rw [if_pos hr]
      intro hx
      cases hx
    rw [if_neg hr]
    obtain rfl := not_ne_iff.mp hr
    obtain ⟨-, hI1, hres, -, hcard⟩ := round_spec hI hb he (w1.automaticEvictions + 1)
    rw [← hres]
    exact ih (w := { w1 with automaticEvictions := w1.automaticEvictions + 1 }) hI1 (by omega)

/-- **How the loop ends with zero**: the target is met, or no buffer is eligible any more. -/
theorem collectLoop_zero {c : Caller} {e : ℕ → EvictEnv} {incoming p : ℕ} :
    ∀ {fuel : ℕ} {w w' : World}, Inv w → (unused w).card < fuel →
      collectLoop c e incoming p fuel w w.residentManaged = .ok (w', 0) →
      w'.residentManaged + incoming ≤ w'.residentTarget ∨
        ∀ t < MAX_SLOTS, ¬ Eligible w' p t := by
  intro fuel
  induction fuel with
  | zero => exact fun _ h => absurd h (Nat.not_lt_zero _)
  | succ fuel ih =>
    intro w w' hI hf h
    unfold collectLoop at h
    by_cases hover : w.residentTarget < w.residentManaged + incoming
    swap
    · rw [if_neg hover] at h
      cases h
      exact Or.inl (Nat.le_of_not_lt hover)
    rw [if_pos hover] at h
    rcases candidate_spec w p with ⟨hc, hn⟩ | ⟨s, hc, hb⟩
    · rw [hc] at h
      cases h
      exact Or.inr hn
    rw [hc] at h
    dsimp only at h
    rcases he : evict c (e (w.buffers s).id) w (w.buffers s).data with stop | ⟨w1, r⟩
    · rw [he] at h
      cases h
    rw [he] at h
    dsimp only at h
    by_cases hr : r ≠ 0
    · rw [if_pos hr] at h
      cases h
    rw [if_neg hr] at h
    obtain rfl := not_ne_iff.mp hr
    obtain ⟨-, hI1, hres, -, hcard⟩ := round_spec hI hb he (w1.automaticEvictions + 1)
    rw [← hres] at h
    exact ih (w := { w1 with automaticEvictions := w1.automaticEvictions + 1 }) hI1 (by omega) h

/-- What is true of every eviction of `collect`: the buffer is the best one in any order of the
slots, and the running value is `resident_managed` and not less than what is subtracted from it. -/
structure Chosen (p : ℕ) (x : World × ℕ × ℕ) : Prop where
  best : Best x.1 p x.2.1
  scan : ∀ order : List ℕ, order.Perm (List.range MAX_SLOTS) →
    order.foldl (better x.1 p) none = some x.2.1
  running : x.2.2 = x.1.residentManaged
  enough : rounded (x.1.buffers x.2.1).recipeLength ≤ x.2.2

theorem rounds_chosen {c : Caller} {e : ℕ → EvictEnv} {incoming p : ℕ} :
    ∀ {fuel : ℕ} {w : World}, Inv w →
      ∀ x ∈ rounds c e incoming p fuel w w.residentManaged, Chosen p x
  | 0, _, _, _, hx => absurd hx List.not_mem_nil
  | fuel + 1, w, hI, x, hx => by
    unfold rounds at hx
    by_cases hover : w.residentTarget < w.residentManaged + incoming
    swap
    · rw [if_neg hover] at hx
      exact absurd hx List.not_mem_nil
    rw [if_pos hover] at hx
    rcases candidate_spec w p with ⟨hc, -⟩ | ⟨s, hc, hb⟩
    · rw [hc] at hx
      exact absurd hx List.not_mem_nil
    rw [hc] at hx
    dsimp only at hx
    rcases he : evict c (e (w.buffers s).id) w (w.buffers s).data with stop | ⟨w1, r⟩
    · rw [he] at hx
      exact absurd hx List.not_mem_nil
    rw [he] at hx
    dsimp only at hx
    by_cases hr : r ≠ 0
    · rw [if_pos hr] at hx
      exact absurd hx List.not_mem_nil
    rw [if_neg hr] at hx
    obtain rfl := not_ne_iff.mp hr
    obtain ⟨-, hI1, hres, hle, -⟩ := round_spec hI hb he (w1.automaticEvictions + 1)
    rw [← hres] at hx
    rcases List.mem_cons.mp hx with rfl | hx
    · exact ⟨hb, fun order ho => hb.scan hI ho, rfl, hle⟩
    · exact rounds_chosen (w := { w1 with automaticEvictions := w1.automaticEvictions + 1 }) hI1 x
        hx

theorem rounds_complete {c : Caller} {e : ℕ → EvictEnv} {incoming p : ℕ} :
    ∀ {fuel : ℕ} {w w' : World} {n : ℕ} {r : Int}, Inv w →
      collectLoop c e incoming p fuel w n = .ok (w', r) → ∀ s,
      (w'.buffers s).stats.evictions ≠ (w.buffers s).stats.evictions →
      ∃ x ∈ rounds c e incoming p fuel w n, x.2.1 = s
  | 0, w, w', n, r, _, h, s, hs => by cases h
  | fuel + 1, w, w', n, r, hI, h, s, hs => by
    unfold collectLoop at h
    unfold rounds
    by_cases hover : w.residentTarget < n + incoming
    swap
    · rw [if_neg hover] at h
      cases h
      exact absurd rfl hs
    rw [if_pos hover] at h ⊢
    rcases candidate_spec w p with ⟨hc, -⟩ | ⟨t, hc, hb⟩
    · rw [hc] at h
      cases h
      exact absurd rfl hs
    rw [hc] at h ⊢
    dsimp only at h ⊢
    rcases he : evict c (e (w.buffers t).id) w (w.buffers t).data with stop | ⟨w1, r1⟩
    · rw [he] at h
      cases h
    rw [he] at h
    dsimp only at h ⊢
    by_cases hr : r1 ≠ 0
    · rw [if_pos hr] at h
      cases h
      rcases evict_cases hI he with ⟨-, hsame, -⟩ | ⟨h0, -⟩
      · exact absurd (by rw [hsame]) hs
      · exact absurd h0 hr
    rw [if_neg hr] at h ⊢
    obtain rfl := not_ne_iff.mp hr
    obtain ⟨hw1, hI1, -, -, -⟩ := round_spec hI hb he (w1.automaticEvictions + 1)
    by_cases hst : s = t
    · exact ⟨_, List.mem_cons_self, hst.symm⟩
    · have hsame : w1.buffers s = w.buffers s := by
        rw [hw1]
        exact Function.update_of_ne hst _ _
      obtain ⟨x, hx, hxs⟩ := rounds_complete hI1 h s (by
        show _ ≠ (w1.buffers s).stats.evictions
        rwa [hsame])
      exact ⟨x, List.mem_cons_of_mem _ hx, hxs⟩

/-! ### Whole runs -/

/-- The evictions of `collect` in one step: `af_alloc` and `af_manage` call it. -/
def policyRounds (w : World) : Op → List (World × ℕ × ℕ)
  | .alloc c e size => if Allocates c w size then collectRounds c e.evict w (rounded size) 0 else []
  | .manage c e output => if usable c = none then collectRounds c e w 0 output else []
  | _ => []

/-- The ids of the buffers that `collect` evicts in one step. -/
def evictedBy (w : World) (op : Op) : List ℕ :=
  (policyRounds w op).map fun x => (x.1.buffers x.2.1).id

/-- The ids of the buffers that `collect` evicts in a run of the steps `ops`. -/
def evictedAlong : World → List Op → List ℕ
  | _, [] => []
  | w, op :: ops =>
    evictedBy w op ++
      match step w op with
      | .error _ => []
      | .ok (w', _) => evictedAlong w' ops

/-- The id has been given out, and a live buffer with this id has been evicted. -/
def Spent (w : World) (id : ℕ) : Prop :=
  id < w.nextid ∧ ∀ s, w.Live s → (w.buffers s).id = id → 0 < (w.buffers s).stats.evictions

theorem Spent.ticks {w w' : World} {l : List (ℕ × Extent)} {id : ℕ} (h : Spent w id)
    (t : Ticks w l w') : Spent w' id := by
  refine ⟨lt_of_lt_of_le h.1 (Ticks.fate t 0).1, fun s hl hid => ?_⟩
  have hid' := h.1
  rcases (Ticks.fate t s).2 hl with ⟨hl0, hid0, hev, -⟩ | hnew
  · exact lt_of_lt_of_le (h.2 s hl0 (hid0.symm.trans hid)) hev
  · omega

/-- What is true of a list of ids that are evicted from `w` on. -/
structure Fresh (w : World) (l : List ℕ) : Prop where
  nodup : l.Nodup
  unspent : ∀ id ∈ l, ¬ Spent w id

theorem Fresh.nil (w : World) : Fresh w [] := ⟨List.nodup_nil, fun _ h => absurd h List.not_mem_nil⟩

theorem Fresh.append {w w' : World} {l l' : List ℕ} {q : List (ℕ × Extent)} (h : Fresh w l)
    (h' : Fresh w' l') (hs : ∀ id ∈ l, Spent w' id) (t : Ticks w q w') : Fresh w (l ++ l') := by
  refine ⟨List.nodup_append.mpr ⟨h.nodup, h'.nodup, fun a ha b hb he => ?_⟩, fun id hid => ?_⟩
  · exact h'.unspent b hb (he ▸ hs a ha)
  · rcases List.mem_append.mp hid with hid | hid
    · exact h.unspent id hid
    · exact fun hsp => h'.unspent id hid (hsp.ticks t)

theorem rounds_fresh {c : Caller} {e : ℕ → EvictEnv} {incoming p : ℕ} :
    ∀ {fuel : ℕ} {w : World} {n : ℕ}, Inv w →
      Fresh w ((rounds c e incoming p fuel w n).map fun x => (x.1.buffers x.2.1).id) ∧
      ∀ w' r, collectLoop c e incoming p fuel w n = .ok (w', r) →
        ∀ id ∈ (rounds c e incoming p fuel w n).map fun x => (x.1.buffers x.2.1).id, Spent w' id
  | 0, w, n, _ => ⟨Fresh.nil w, fun _ _ _ _ hid => absurd hid List.not_mem_nil⟩
  | fuel + 1, w, n, hI => by
    have hnone : Fresh w (([] : List (World × ℕ × ℕ)).map fun x => (x.1.buffers x.2.1).id) ∧
        ∀ w' r, collectLoop c e incoming p (fuel + 1) w n = .ok (w', r) →
          ∀ id ∈ ([] : List (World × ℕ × ℕ)).map fun x => (x.1.buffers x.2.1).id, Spent w' id :=
      ⟨Fresh.nil w, fun _ _ _ _ hid => absurd hid List.not_mem_nil⟩
    unfold rounds
    by_cases hover : w.residentTarget < n + incoming
    swap
    · rw [if_neg hover]
      exact hnone
    rw [if_pos hover]
    rcases candidate_spec w p with ⟨hc, -⟩ | ⟨s, hc, hb⟩
    · rw [hc]
      exact hnone
    rw [hc]
    dsimp only
    rcases he : evict c (e (w.buffers s).id) w (w.buffers s).data with stop | ⟨w1, r⟩
    · exact hnone
    dsimp only
    by_cases hr : r ≠ 0
    · rw [if_pos hr]
      exact hnone
    obtain rfl := not_ne_iff.mp hr
    rw [if_neg hr]
    have hticks : Ticks w [] { w1 with automaticEvictions := w1.automaticEvictions + 1 } :=
      (evict_falls hI he).ticks.trans (Still.counted w1 _).ticks
    obtain ⟨hw1, hI1, -, -, -⟩ := round_spec hI hb he (w1.automaticEvictions + 1)
    obtain ⟨hl, hs, hev⟩ := hb.eligible.live hb.slot_lt
    generalize hw2 :
      { w1 with automaticEvictions := w1.automaticEvictions + 1 } = w2 at hI1 hticks ⊢
    have hself : w2.buffers s = discardedBuffer (w.buffers s) := by
      rw [← hw2]
      show w1.buffers s = _
      rw [hw1]
      exact Function.update_self _ _ _
    obtain ⟨hf, hsp⟩ := @rounds_fresh c e incoming p fuel w2
      (n - rounded (w1.buffers s).recipeLength) hI1
    -- the id of this round is unspent before it and spent after it
    have hbefore : ¬ Spent w (w.buffers s).id := fun hspent =>
      absurd (hspent.2 s hl rfl) (by omega)
    have hafter : Spent w2 (w.buffers s).id := by
      have hl2 : w2.Live s := ⟨hl.1, by rw [hself]; exact hl.2⟩
      have hid2 : (w2.buffers s).id = (w.buffers s).id := by rw [hself]; rfl
      refine ⟨hid2 ▸ hI1.ids_lt s hl2, fun t ht hid => ?_⟩
      obtain rfl := hI1.ids t s ht hl2 (hid.trans hid2.symm)
      rw [hself]
      exact Nat.succ_pos _
    have hone : Fresh w [(w.buffers s).id] := by
      refine ⟨List.nodup_singleton _, fun id hid => ?_⟩
      rw [List.mem_singleton.mp hid]
      exact hbefore
    have hspent : ∀ id ∈ [(w.buffers s).id], Spent w2 id := by
      intro id hid
      rw [List.mem_singleton.mp hid]
      exact hafter
    rw [List.map_cons]
    refine ⟨hone.append hf hspent hticks, fun w' r' h id hid => ?_⟩
    unfold collectLoop at h
    rw [if_pos hover, hc] at h
    dsimp only at h
    rw [he] at h
    dsimp only at h
    rw [if_neg hr, hw2] at h
    rcases List.mem_cons.mp hid with rfl | hid
    · exact hafter.ticks (collectLoop_falls hI1 h).ticks
    · exact hsp w' r' h id hid

theorem collectRounds_fresh {c : Caller} {e : ℕ → EvictEnv} {w : World} {incoming p : ℕ}
    (hI : Inv w) :
    Fresh w ((collectRounds c e w incoming p).map fun x => (x.1.buffers x.2.1).id) ∧
      ∀ w' r, collect c e w incoming p = .ok (w', r) →
        ∀ id ∈ (collectRounds c e w incoming p).map fun x => (x.1.buffers x.2.1).id,
          Spent w' id := by
  unfold collectRounds collect
  by_cases h0 : w.residentTarget = 0
  · rw [if_pos h0]
    exact ⟨Fresh.nil w, fun _ _ _ _ hid => absurd hid List.not_mem_nil⟩
  · rw [if_neg h0, if_neg h0]
    exact rounds_fresh hI

theorem evictedBy_fresh {w : World} (hI : Inv w) (op : Op) :
    Fresh w (evictedBy w op) ∧
      ∀ w' r, step w op = .ok (w', r) → ∀ id ∈ evictedBy w op, Spent w' id := by
  have hnone : Fresh w [] ∧ ∀ w' r, step w op = .ok (w', r) → ∀ id ∈ ([] : List ℕ), Spent w' id :=
    ⟨Fresh.nil w, fun _ _ _ _ hid => absurd hid List.not_mem_nil⟩
  unfold evictedBy
  cases op with
  | alloc c e size =>
    simp only [policyRounds]
    by_cases ha : Allocates c w size
    swap
    · rw [if_neg ha]
      exact hnone
    rw [if_pos ha]
    obtain ⟨hf, hsp⟩ := @collectRounds_fresh c e.evict w (rounded size) 0 hI
    refine ⟨hf, fun w' r h id hid => ?_⟩
    rcases hx : alloc c e w size with stop | ⟨w2, q⟩
    · rw [step, hx] at h
      cases h
    rw [step, hx] at h
    cases h
    rcases alloc_cases hI hx with ⟨hn, -⟩ | ⟨-, w1, r1, hc, hclimb⟩
    · exact absurd ha hn
    · exact (hsp w1 r1 hc id hid).ticks hclimb.ticks
  | manage c e output =>
    simp only [policyRounds]
    by_cases hu : usable c = none
    swap
    · rw [if_neg hu]
      exact hnone
    rw [if_pos hu]
    obtain ⟨hf, hsp⟩ := @collectRounds_fresh c e w 0 output hI
    refine ⟨hf, fun w' r h id hid => ?_⟩
    by_cases h0 : w.residentTarget = 0
    · rw [collectRounds, if_pos h0] at hid
      exact absurd hid List.not_mem_nil
    rcases hx : collect c e w 0 output with stop | ⟨w2, q⟩
    · rw [step, manage, hu] at h
      simp only [if_neg h0, hx] at h
      cases h
    rw [step, manage, hu] at h
    simp only [if_neg h0, hx] at h
    cases h
    exact hsp w2 q hx id hid
  | read | write | prepareRead | prepareWrite | submit | submitRegion | evict | setResidentTarget
  | materialize | free => exact hnone

/-- **Over a run no id is evicted twice by `collect`.** -/
theorem evictedAlong_fresh : ∀ (ops : List Op) {w : World}, Inv w → Fresh w (evictedAlong w ops)
  | [], w, _ => Fresh.nil w
  | op :: ops, w, hI => by
    obtain ⟨hf, hsp⟩ := evictedBy_fresh hI op
    unfold evictedAlong
    rcases hs : step w op with stop | ⟨w', r⟩
    · rw [List.append_nil]
      exact hf
    · obtain ⟨⟨l, ht⟩, -⟩ := step_ticks hI hs
      exact hf.append (evictedAlong_fresh ops (Effect.inv (step_effect hI hs) hI)) (hsp w' r hs) ht

/-- **The residency policy.** In every reachable state, for every incoming size and protected
buffer: `collect` ends; every buffer it evicts is the best eligible one, whatever the order of the
slots, and its running value is `resident_managed` and does not underflow; with a target it returns
zero only when the target is met or no buffer is eligible any more, and without one it does nothing.
Over a whole run no buffer is evicted by `collect` more than once. -/
theorem collect_policy (arena : Option Arena) (memory : Memory) (events : List Event) (w : World)
    (h : Runs (World.initial arena memory) events w) (c : Caller) (e : ℕ → EvictEnv)
    (incoming protectedOutput : ℕ) :
    (∀ fuel, MAX_SLOTS < fuel →
      collectLoop c e incoming protectedOutput fuel w w.residentManaged =
        collectLoop c e incoming protectedOutput (MAX_SLOTS + 1) w w.residentManaged) ∧
      collect c e w incoming protectedOutput ≠ .error .diverged ∧
      (∀ x ∈ collectRounds c e w incoming protectedOutput, Chosen protectedOutput x) ∧
      (∀ w' r, collect c e w incoming protectedOutput = .ok (w', r) → ∀ s,
        (w'.buffers s).stats.evictions ≠ (w.buffers s).stats.evictions →
        ∃ x ∈ collectRounds c e w incoming protectedOutput, x.2.1 = s) ∧
      (w.residentTarget ≠ 0 → ∀ w', collect c e w incoming protectedOutput = .ok (w', 0) →
        w'.residentManaged + incoming ≤ w'.residentTarget ∨
          ∀ t < MAX_SLOTS, ¬ Eligible w' protectedOutput t) ∧
      (w.residentTarget = 0 → collect c e w incoming protectedOutput = .ok (w, 0)) ∧
      ∀ ops, (evictedAlong (World.initial arena memory) ops).Nodup := by
  have hI0 := initial_inv arena memory
  have hI := Runs.inv h hI0
  have hcard := unused_card_le w
  refine ⟨fun fuel hf => collectLoop_fuel hI (by omega) (by omega), ?_, fun x hx => ?_,
    fun w' r hc s hs => ?_, fun h0 w' hc => ?_, fun h0 => ?_,
    fun ops => (evictedAlong_fresh ops hI0).nodup⟩
  · unfold collect
    split_ifs
    · exact nofun
    · exact collectLoop_ends hI (by omega)
  · unfold collectRounds at hx
    split_ifs at hx
    · exact absurd hx List.not_mem_nil
    · exact rounds_chosen hI x hx
  · unfold collectRounds
    unfold collect at hc
    split_ifs at hc ⊢ with h0
    · cases hc
      exact absurd rfl hs
    · exact rounds_complete hI hc s hs
  · unfold collect at hc
    rw [if_neg h0] at hc
    exact collectLoop_zero hI (by omega) hc
  · unfold collect
    rw [if_pos h0]

/-- Of two sealed buffers the one that frees more bytes is evicted, and then the target is met. -/
theorem collect_policy_sample : ∃ events w w',
    Runs (World.initial none sampleMemory) events w ∧ w.residentTarget = 8192 ∧
      w.residentManaged = 12288 ∧ Eligible w 0 0 ∧ Eligible w 0 1 ∧
      collect Caller.owner (fun _ => sampleEvict) w 0 0 = .ok (w', 0) ∧
      (w'.buffers 0).state = .evicted ∧ (w'.buffers 1).state = .sealed ∧
      (∃ x ∈ collectRounds Caller.owner (fun _ => sampleEvict) w 0 0, x.2.1 = 0 ∧ Chosen 0 x) ∧
      (w'.residentManaged + 0 ≤ w'.residentTarget ∨ ∀ t < MAX_SLOTS, ¬ Eligible w' 0 t) := by
  obtain ⟨x, hr, -, ht, hm, ⟨he0, hb0⟩, ⟨he1, hb1⟩, hstats, hc⟩ :=
    (@play_any (World.initial none sampleMemory)
      (pairOps.take 5 ++ [.setResidentTarget Caller.owner 8192])
      (fun x => x.1.residentTarget = 8192 ∧ x.1.residentManaged = 12288 ∧
        (eligible (x.1.buffers 0) 0 = true ∧ benefit (x.1.buffers 0) ≠ 0) ∧
        (eligible (x.1.buffers 1) 0 = true ∧ benefit (x.1.buffers 1) ≠ 0) ∧
        (x.1.buffers 0).stats.evictions = 0 ∧
        (match collect Caller.owner (fun _ => sampleEvict) x.1 0 0 with
          | .ok y => decide (y.2 = 0 ∧ (y.1.buffers 0).state = .evicted ∧
              (y.1.buffers 1).state = .sealed ∧ (y.1.buffers 0).stats.evictions = 1)
          | .error _ => false) = true) _) (by decide +kernel)
  rcases hx : collect Caller.owner (fun _ => sampleEvict) x.1 0 0 with stop | ⟨w', r⟩
  · rw [hx] at hc
    cases hc
  rw [hx] at hc
  obtain ⟨rfl, hs0, hs1, hev⟩ := of_decide_eq_true hc
  obtain ⟨-, -, hchosen, hall, hzero, -⟩ := collect_policy none sampleMemory x.2 x.1 hr Caller.owner
    (fun _ => sampleEvict) 0 0
  dsimp only at hev hs0 hs1
  obtain ⟨y, hy, hy0⟩ := hall w' 0 hx 0 (by omega)
  exact ⟨x.2, x.1, w', hr, ht, hm, ⟨he0, hb0⟩, ⟨he1, hb1⟩, hx, hs0, hs1, ⟨y, hy, hy0, hchosen y hy⟩,
    hzero (by omega) w' hx⟩

/-- Without a target `collect` returns zero although bytes are resident and a buffer is eligible. -/
theorem collect_without_target : ∃ events w w',
    Runs (World.initial none sampleMemory) events w ∧
      collect Caller.owner (fun _ => sampleEvict) w 0 0 = .ok (w', 0) ∧
      ¬ (w'.residentManaged + 0 ≤ w'.residentTarget) ∧ ∃ t < MAX_SLOTS, Eligible w' 0 t := by
  obtain ⟨x, hr, -, ht, hm, he, hb⟩ := (@play_any (World.initial none sampleMemory)
    (sampleOps.take 3)
    (fun x => x.1.residentTarget = 0 ∧ 0 < x.1.residentManaged ∧
      eligible (x.1.buffers 0) 0 = true ∧ benefit (x.1.buffers 0) ≠ 0) _) (by decide +kernel)
  refine ⟨x.2, x.1, x.1, hr, ?_, by omega, 0, by decide, he, hb⟩
  unfold collect
  rw [if_pos ht]

end Afterfree.Runtime.Policy
