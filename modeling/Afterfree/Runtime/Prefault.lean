import Afterfree.Runtime.Statistics

/-!
# Prefaults

`af_prepare_read` and `af_prepare_write` make exactly the pages of their range resident. The page
states after `materialize` are given by `Materialized`; the walk over the index reaches every buffer
of the range and no other one (`prepareLoop_spec`, `prepare_buffer`).
-/

namespace Afterfree.Runtime.Prefault

open Afterfree.Common Afterfree.Lib Afterfree.Runtime.State Afterfree.Runtime.Pager
open Afterfree.Runtime.Api Afterfree.Runtime.Lookup Afterfree.Runtime.Representation
open Afterfree.Runtime.Changes Afterfree.Runtime.Decompose Afterfree.Runtime.Operations
open Afterfree.Runtime.Invariants Afterfree.Runtime.Accounting Afterfree.Runtime.Statistics

/-! ### The pages after `materialize` -/

/-- Two contents of a slot with the same region, record and evictions. -/
structure SameRegion (b b' : Buffer) : Prop where
  recipeOffset : b'.recipeOffset = b.recipeOffset
  recipeLength : b'.recipeLength = b.recipeLength
  pageBytes : b'.stats.pageBytes = b.stats.pageBytes
  evictions : b'.stats.evictions = b.stats.evictions

theorem SameRegion.refl (b : Buffer) : SameRegion b b := ⟨rfl, rfl, rfl, rfl⟩

theorem SameRegion.trans {b1 b2 b3 : Buffer} (h : SameRegion b1 b2) (h' : SameRegion b2 b3) :
    SameRegion b1 b3 :=
  ⟨h'.recipeOffset.trans h.recipeOffset, h'.recipeLength.trans h.recipeLength,
    h'.pageBytes.trans h.pageBytes, h'.evictions.trans h.evictions⟩

/-- Restoring a span `[first, last)`: cold pages become clean, of a sliced recipe only those of the
span. -/
structure Revived (first last : ℕ) (b b' : Buffer) : Prop extends SameRegion b b' where
  pages : ∀ i, b'.pages i = b.pages i ∨ (b.pages i = .cold ∧ b'.pages i = .clean)
  sliced : b.stats.pageBytes ≠ 0 → ∀ i, ¬ (first ≤ i ∧ i < last) → b'.pages i = b.pages i
  pinned : b'.state = .pinned ↔ b.state = .pinned
  resident : b'.state = .resident ↔ b.state = .resident

theorem Revived.refl (first last : ℕ) (b : Buffer) : Revived first last b b :=
  ⟨SameRegion.refl b, fun _ => Or.inl rfl, fun _ _ _ => rfl, Iff.rfl, Iff.rfl⟩

theorem Revived.trans {first last : ℕ} {b1 b2 b3 : Buffer} (h : Revived first last b1 b2)
    (h' : Revived first last b2 b3) : Revived first last b1 b3 := by
  refine ⟨h.toSameRegion.trans h'.toSameRegion, fun i => ?_, fun hp i hi => ?_,
    h'.pinned.trans h.pinned, h'.resident.trans h.resident⟩
  · rcases h.pages i with h1 | ⟨h1, h2⟩ <;> rcases h'.pages i with h3 | ⟨h3, h4⟩
    · exact Or.inl (h3.trans h1)
    · exact Or.inr ⟨h1 ▸ h3, h4⟩
    · exact Or.inr ⟨h1, h3.trans h2⟩
    · rw [h2] at h3
      cases h3
  · rw [h'.sliced (by rw [h.pageBytes]; exact hp) i hi, h.sliced hp i hi]

theorem Revived.restored {b : Buffer} (hb : BufferInv b) {first last page stop : ℕ}
    (h1 : first ≤ page) (h2 : page < stop) (h3 : stop ≤ last) (h4 : stop ≤ b.pageCount)
    (hcold : ∀ i, page ≤ i → i < stop → b.pages i = .cold) (t : ℕ) :
    Revived first last b (Pager.restored b (extentOf b page stop) t) := by
  obtain ⟨hx, -, -⟩ := extentOf_cold hb h2 h4 hcold
  have hstate := hb.state_of_cold (by omega) (hcold page le_rfl h2)
  have hst : (Pager.restored b (extentOf b page stop) t).state = .sealed ∧ b.state = .evicted ∨
      (Pager.restored b (extentOf b page stop) t).state = b.state := by
    show (if _ ∧ b.state ≠ .pinned then BufferState.sealed else b.state) = _ ∧ _ ∨
      (if _ ∧ b.state ≠ .pinned then BufferState.sealed else b.state) = _
    split_ifs with hf
    · exact Or.inl ⟨rfl, hstate.resolve_right hf.2⟩
    · exact Or.inr rfl
  refine ⟨⟨rfl, rfl, rfl, rfl⟩, fun i => ?_, fun hp i hi => ?_, ?_, ?_⟩
  · rcases Span.fill_cases b.pages (extentOf b page stop).first (extentOf b page stop).last .clean i
      with ⟨g1, g2, g3⟩ | ⟨-, g2⟩
    · exact Or.inr ⟨hx.cold i g1 g2, g3⟩
    · exact Or.inl g2
  · have hext : (extentOf b page stop).first = page ∧ (extentOf b page stop).last = stop := by
      unfold extentOf
      rw [if_pos hp]
      exact ⟨rfl, rfl⟩
    refine Span.fill_outside _ _ ?_
    rw [hext.1, hext.2]
    omega
  · rcases hst with ⟨hst, he⟩ | hst
    · rw [hst, he]
      simp
    · rw [hst]
  · rcases hst with ⟨hst, he⟩ | hst
    · rw [hst, he]
      simp
    · rw [hst]

theorem restoreLoop_revived (e : ℕ → SpanEnv) (slot first last : ℕ) :
    ∀ (fuel : ℕ) (w w' : World) (page : ℕ), Inv w → w.Live slot →
      last ≤ (w.buffers slot).pageCount → first ≤ page →
      restoreLoop e slot last fuel w page = some w' →
      Revived first last (w.buffers slot) (w'.buffers slot)
  | 0, w, w', page, _, _, _, _, h => by
    cases h
    exact Revived.refl _ _ _
  | fuel + 1, w, w', page, hI, hl, hlast, hfirst, h => by
    unfold restoreLoop at h
    simp only at h
    split_ifs at h with h1 h2
    · exact restoreLoop_revived e slot first last fuel w w' (page + 1) hI hl hlast (by omega) h
    · rw [not_ne_iff] at h2
      obtain ⟨c1, c2, c3⟩ := coldEnd_spec (w.buffers slot) page last (windowPages w.arena)
        (last - page) (page + 1) (by omega)
      generalize coldEnd (w.buffers slot) page last (windowPages w.arena) (last - page) (page + 1) =
        stop at h c1 c2 c3
      have hcold : ∀ i, page ≤ i → i < stop → (w.buffers slot).pages i = .cold := by
        intro i hi hlt
        rcases Nat.eq_or_lt_of_le hi with rfl | hi
        · exact h2
        · exact c3 i hi hlt
      obtain ⟨hx, -, -⟩ := extentOf_cold (hI.buffer slot hl) (show page < stop by omega)
        (by omega) hcold
      rcases hr : restoreSpan (e page) w slot page stop with _ | w1
      · rw [hr] at h
        cases h
      rw [hr] at h
      obtain ⟨o, hu, ho, hw1⟩ := restoreSpan_eq hr
      have hp1 : Paged slot w w1 := by
        rw [hw1]
        exact Paged.restore hl hx hu ho _
      have hself : w1.buffers slot = Pager.restored (w.buffers slot)
          (extentOf (w.buffers slot) page stop) (e page).elapsed := by
        rw [hw1]
        exact Function.update_self _ _ _
      have hrev : Revived first last (w.buffers slot) (w1.buffers slot) := by
        rw [hself]
        exact Revived.restored (hI.buffer slot hl) hfirst (by omega) c2 (by omega) hcold _
      exact hrev.trans (restoreLoop_revived e slot first last fuel w1 w' stop (hp1.steps.inv hI)
        ((hp1.live slot).mpr hl) (by rw [hp1.pageCount]; exact hlast) (by omega) h)
    · cases h
      exact Revived.refl _ _ _

/-- **The buffer after `materialize` of `[first, last)`.** -/
structure Materialized (first last : ℕ) (writing : Bool) (b b' : Buffer) : Prop
    extends SameRegion b b' where
  present : ∀ i, first ≤ i → i < last → b'.Present i
  dirty : writing = true → ∀ i, first ≤ i → i < last → b'.pages i = .dirty
  kept : writing = false → ∀ i, b'.pages i = b.pages i ∨ (b.pages i = .cold ∧ b'.pages i = .clean)
  outside : ∀ i, ¬ (first ≤ i ∧ i < last) →
    b'.pages i = b.pages i ∨ (b.pages i = .cold ∧ b'.pages i = .clean)
  sliced : b.stats.pageBytes ≠ 0 → ∀ i, ¬ (first ≤ i ∧ i < last) → b'.pages i = b.pages i
  pinned : b'.state = .pinned ↔ b.state = .pinned ∨ (writing = true ∧ first < last ∧
    b.state ≠ .resident ∧ first < b.regionLast ∧ b.regionFirst < last)

theorem retire_pages (l : Link) (w : World) (slot : ℕ) :
    SameRegion (w.buffers slot) ((retire l w slot).buffers slot) ∧
      ((retire l w slot).buffers slot).pages = (w.buffers slot).pages ∧
      ((retire l w slot).buffers slot).state = (w.buffers slot).state := by
  unfold retire
  simp only
  split_ifs
  · rcases request_cases l w (handleDrop (w.buffers slot).id) with ⟨hq, -⟩ | ⟨p, hq⟩ | ⟨hq, -⟩
    · rw [hq]
      exact ⟨SameRegion.refl _, rfl, rfl⟩
    · rw [hq]
      exact ⟨SameRegion.refl _, rfl, rfl⟩
    · rw [hq]
      simp only [handleDrop, if_true, World.setBuffer, Function.update_self]
      exact ⟨⟨rfl, rfl, rfl, rfl⟩, trivial, trivial⟩
  · exact ⟨SameRegion.refl _, rfl, rfl⟩

theorem unlock_pages {e : MaterializeEnv} {w w' : World} {slot first last : ℕ} {writing : Bool}
    (h : unlock e w slot first last writing = some w') :
    w'.buffers slot = if writing = true ∧ first < last then written (w.buffers slot) first last
      else w.buffers slot := by
  unfold unlock at h
  split_ifs at h ⊢
  · cases h
    exact Function.update_self _ _ _
  · cases h
    rfl

theorem materialize_pages {e : MaterializeEnv} {w w' : World} {slot first last : ℕ}
    {writing : Bool} (hI : Inv w) (hl : w.Live slot) (hlast : last ≤ (w.buffers slot).pageCount)
    (h : materialize e w slot first last writing = some w') :
    Materialized first last writing (w.buffers slot) (w'.buffers slot) := by
  obtain ⟨-, hpres, hdirty, -⟩ := materialize_spec hI hl hlast h
  unfold materialize at h
  rcases h1 : restoreLoop e.span slot last (last - first) w first with _ | w1
  · rw [h1] at h
    cases h
  rw [h1] at h
  have hrev := restoreLoop_revived e.span slot first last _ w w1 first hI hl hlast le_rfl h1
  rcases h2 : unlock e w1 slot first last writing with _ | w2
  · simp only [h2] at h
    cases h
  simp only [h2] at h
  cases h
  obtain ⟨r1, r2, r3⟩ := retire_pages e.drop w2 slot
  have hun := unlock_pages h2
  by_cases hw : writing = true ∧ first < last
  · rw [if_pos hw] at hun
    have hregion : SameRegion (w1.buffers slot) (w2.buffers slot) := by
      rw [hun]
      exact ⟨rfl, rfl, rfl, rfl⟩
    have hout : ∀ i, ¬ (first ≤ i ∧ i < last) →
        (w2.buffers slot).pages i = (w1.buffers slot).pages i := by
      intro i hi
      rw [hun]
      exact Span.fill_outside _ _ (by omega)
    refine ⟨(hrev.toSameRegion.trans hregion).trans r1, hpres, hdirty,
      fun hf => absurd (hf.symm.trans hw.1) (by decide), fun i hi => ?_, fun hp i hi => ?_, ?_⟩
    · rw [r2, hout i hi]
      exact hrev.pages i
    · rw [r2, hout i hi]
      exact hrev.sliced hp i hi
    · rw [r3, hun]
      show (if (w1.buffers slot).state ≠ .resident ∧ first < ((w1.buffers slot).recipeOffset +
        rounded (w1.buffers slot).recipeLength) / PAGE ∧
          (w1.buffers slot).recipeOffset / PAGE < last
        then BufferState.pinned else (w1.buffers slot).state) = .pinned ↔ _
      rw [hrev.recipeOffset, hrev.recipeLength]
      have hres := not_congr hrev.resident
      split_ifs with hc
      · exact iff_of_true rfl (Or.inr ⟨hw.1, hw.2, hres.mp hc.1, hc.2⟩)
      · rw [hrev.pinned]
        refine ⟨Or.inl, fun hor => hor.resolve_right fun hr => hc ?_⟩
        exact ⟨hres.mpr hr.2.2.1, hr.2.2.2⟩
  · rw [if_neg hw] at hun
    have hsame : w2.buffers slot = w1.buffers slot := hun
    refine ⟨hrev.toSameRegion.trans (hsame ▸ r1), hpres, hdirty, fun _ i => ?_, fun i _ => ?_,
      fun hp i hi => ?_, ?_⟩
    · rw [r2, hsame]
      exact hrev.pages i
    · rw [r2, hsame]
      exact hrev.pages i
    · rw [r2, hsame]
      exact hrev.sliced hp i hi
    · rw [r3, hsame, hrev.pinned]
      refine ⟨Or.inl, fun hor => hor.resolve_right fun hr => hw ⟨hr.1, hr.2.1⟩⟩

/-! ### The walk over the index -/

/-- Page `i` of the buffer intersects `[first, first + size)`. -/
def Touched (b : Buffer) (first size i : ℕ) : Prop :=
  i < b.pageCount ∧ ∃ a, first ≤ a ∧ a < first + size ∧ b.data + i * PAGE ≤ a ∧
    a < b.data + (i + 1) * PAGE

/-- The span that `prepare` computes for a buffer. -/
def spanFirst (b : Buffer) (first : ℕ) : ℕ := (max first b.data - b.data) / PAGE

@[inherit_doc spanFirst]
def spanLast (b : Buffer) (first size : ℕ) : ℕ :=
  rounded (min (first + size) (b.data + b.mapped) - b.data) / PAGE

/-- **The span is exact** for a buffer that starts before the end of the range. -/
theorem touched_iff {b : Buffer} (h : Shaped b) {first size : ℕ}
    (h1 : b.data < first + size) (hs : 0 < size) (i : ℕ) :
    Touched b first size i ↔ spanFirst b first ≤ i ∧ i < spanLast b first size := by
  have hm := h.pageCount_mul
  unfold Touched spanFirst spanLast
  constructor
  · rintro ⟨hi, a, a1, a2, a3, a4⟩
    unfold rounded PAGE at *
    omega
  · rintro ⟨g1, g2⟩
    refine ⟨?_, max first (b.data + i * PAGE), ?_, ?_, ?_, ?_⟩ <;>
      unfold rounded PAGE at * <;> omega

theorem span_lt {b : Buffer} (h : Shaped b) {first size : ℕ} (h1 : b.data < first + size)
    (h2 : first < b.data + b.mapped) (hs : 0 < size) :
    spanFirst b first < spanLast b first size := by
  have hm := h.pageCount_mul
  have hp := h.pageCount_pos
  unfold spanFirst spanLast rounded PAGE at *
  omega

theorem not_touched {b : Buffer} (h : Shaped b) {first size : ℕ}
    (h1 : first + size ≤ b.data ∨ b.data + b.mapped ≤ first) (i : ℕ) :
    ¬ Touched b first size i := by
  have hm := h.pageCount_mul
  rintro ⟨hi, a, a1, a2, a3, a4⟩
  unfold PAGE at *
  omega

/-- **The loop of `prepare`** materializes the buffers from `pos` on that start before the end of
the range, and leaves the others alone. -/
theorem prepareLoop_spec {c : Caller} {e : ℕ → MaterializeEnv} {first size : ℕ} {writing : Bool} :
    ∀ {fuel : ℕ} {w w' : World} {pos : ℕ}, Inv w → w.allocationIndex.length - pos ≤ fuel →
      prepareLoop c e first size writing fuel w pos = .ok w' →
      ∀ k (hk : k < w.allocationIndex.length),
        (k < pos ∨ first + size ≤ (w.buffers w.allocationIndex[k]).data →
          w'.buffers w.allocationIndex[k] = w.buffers w.allocationIndex[k]) ∧
        (pos ≤ k → (w.buffers w.allocationIndex[k]).data < first + size →
          Materialized (spanFirst (w.buffers w.allocationIndex[k]) first)
            (spanLast (w.buffers w.allocationIndex[k]) first size) writing
            (w.buffers w.allocationIndex[k]) (w'.buffers w.allocationIndex[k]))
  | 0, w, w', pos, _, hf, h, k, hk => by
    cases h
    exact ⟨fun _ => rfl, fun hpk => absurd hk (by omega)⟩
  | fuel + 1, w, w', pos, hI, hf, h, k, hk => by
    unfold prepareLoop at h
    by_cases hpos : pos < w.allocationIndex.length
    swap
    · rw [if_neg hpos] at h
      cases h
      exact ⟨fun _ => rfl, fun hpk => absurd hk (by omega)⟩
    rw [if_pos hpos] at h
    simp only [List.getD_eq_getElem _ _ hpos] at h
    have hl := hI.indexed.live_get hpos
    by_cases hend : first + size ≤ (w.buffers w.allocationIndex[pos]).data
    · rw [if_pos hend] at h
      cases h
      refine ⟨fun _ => rfl, fun hpk hlt => ?_⟩
      -- the buffers behind this one start later
      rcases Nat.eq_or_lt_of_le hpk with rfl | hpk
      · omega
      · have := hI.indexed.ordered.before_get hpk hk
        omega
    rw [if_neg hend] at h
    by_cases hown : (!(c.ownerProcess && c.ownerThread)) = true
    · rw [if_pos hown] at h
      cases h
    rw [if_neg hown] at h
    rcases hr : materialize (e pos) w w.allocationIndex[pos] _ _ writing with _ | w1
    · rw [hr] at h
      cases h
    rw [hr] at h
    have hlast := prepareSpan_le (hI.buffer _ hl).toShaped (first + size)
    obtain ⟨hp, -, -, hret⟩ := materialize_spec hI hl hlast hr
    have hmat := materialize_pages hI hl hlast hr
    have hI1 := (hp.moves hret).steps.inv hI
    have hidx := hp.index
    have ih := @prepareLoop_spec c e first size writing _ _ _ (pos + 1) hI1 (by rw [hidx]; omega) h
    have hne : k ≠ pos → w.allocationIndex[k] ≠ w.allocationIndex[pos] := by
      intro hkp he
      rcases Nat.lt_or_gt_of_ne hkp with hlt | hlt
      · have := hI.indexed.ordered.before_get hlt hpos
        rw [he] at this
        have := hI.indexed.mapped_pos _ hl
        omega
      · have := hI.indexed.ordered.before_get hlt hk
        rw [he] at this
        have := hI.indexed.mapped_pos _ hl
        omega
    have ihk := ih k (by rw [hidx]; exact hk)
    simp only [hidx] at ihk
    by_cases hkp : k = pos
    · subst hkp
      refine ⟨fun hor => absurd hor (by omega), fun _ _ => ?_⟩
      rw [ihk.1 (Or.inl (Nat.lt_succ_self _))]
      exact hmat
    · rw [hp.other _ (hne hkp)] at ihk
      exact ⟨fun hor => ihk.1 (hor.imp_left fun hlt => by omega),
        fun hpk hlt => ihk.2 (by omega) hlt⟩

/-- **The start of the walk**: a buffer before it ends at or before the range, and one from it on
ends behind the start of the range. -/
theorem preparePos_spec {w : World} (hI : Inv w) (first k : ℕ)
    (hk : k < w.allocationIndex.length) :
    (k < preparePos w first → (w.buffers w.allocationIndex[k]).data +
        (w.buffers w.allocationIndex[k]).mapped ≤ first) ∧
      (preparePos w first ≤ k → first < (w.buffers w.allocationIndex[k]).data +
        (w.buffers w.allocationIndex[k]).mapped) := by
  obtain ⟨hpos, hbelow, habove⟩ := hI.indexed.ordered.afterAddress_spec first
  unfold preparePos
  simp only
  generalize w.afterAddress first = pos at hpos hbelow habove ⊢
  by_cases hc : pos ≠ 0 ∧ first - w.indexData (pos - 1) <
      (w.buffers (w.allocationIndex.getD (pos - 1) 0)).mapped
  · rw [if_pos hc]
    obtain ⟨h0, hlt⟩ := hc
    have hp1 : pos - 1 < w.allocationIndex.length := by omega
    rw [indexData_eq hp1, List.getD_eq_getElem _ _ hp1] at hlt
    have hd := hbelow (pos - 1) hp1 (by omega)
    refine ⟨fun hk1 => ?_, fun hk1 => ?_⟩
    · have := hI.indexed.ordered.before_get hk1 hp1
      omega
    · rcases Nat.eq_or_lt_of_le hk1 with rfl | hk1
      · omega
      · have h1 := habove k hk (by omega)
        omega
  · rw [if_neg hc]
    refine ⟨fun hk1 => ?_, fun hk1 => ?_⟩
    · have hp1 : pos - 1 < w.allocationIndex.length := by omega
      rw [not_and, Nat.not_lt, indexData_eq hp1, List.getD_eq_getElem _ _ hp1] at hc
      have hd := hbelow (pos - 1) hp1 (by omega)
      have hm := hc (by omega)
      rcases Nat.eq_or_lt_of_le (show k ≤ pos - 1 by omega) with rfl | hk2
      · omega
      · have := hI.indexed.ordered.before_get hk2 hp1
        omega
    · have := habove k hk hk1
      omega

theorem prepare_buffer {c : Caller} {e : ℕ → MaterializeEnv} {w w' : World} {first size : ℕ}
    {writing : Bool} (hI : Inv w) (h : prepare c e w first size writing = .ok (w', 0)) {s : ℕ}
    (hl : w.Live s) :
    ((∀ i, ¬ Touched (w.buffers s) first size i) ∧ w'.buffers s = w.buffers s) ∨
      ∃ lo hi, (∀ i, Touched (w.buffers s) first size i ↔ lo ≤ i ∧ i < hi) ∧ lo < hi ∧
        Materialized lo hi writing (w.buffers s) (w'.buffers s) := by
  unfold prepare at h
  by_cases h1 : size = 0
  · rw [if_pos h1] at h
    cases h
    refine Or.inl ⟨?_, rfl⟩
    rintro i ⟨-, a, a1, a2, -⟩
    omega
  rw [if_neg h1] at h
  by_cases h2 : 2 ^ 64 - 1 - size < first
  · rw [if_pos h2] at h
    cases h
  rw [if_neg h2] at h
  obtain ⟨k, hk, rfl⟩ := List.getElem_of_mem ((hI.indexed.mem_iff s).mpr hl)
  obtain ⟨pb, pa⟩ := preparePos_spec hI first k hk
  have hshape := (hI.buffer _ hl).toShaped
  rcases hr : prepareLoop c e first size writing (w.allocationIndex.length - preparePos w first) w
      (preparePos w first) with stop | w1
  · simp only [hr] at h
    cases h
  simp only [hr] at h
  cases h
  obtain ⟨hsame, hmat⟩ := prepareLoop_spec hI le_rfl hr k hk
  by_cases hin : preparePos w first ≤ k ∧ (w.buffers w.allocationIndex[k]).data < first + size
  · right
    exact ⟨_, _, touched_iff hshape hin.2 (by omega), span_lt hshape hin.2 (pa hin.1) (by omega),
      hmat hin.1 hin.2⟩
  · left
    refine ⟨not_touched hshape ?_, hsame (by omega)⟩
    by_cases hkp : k < preparePos w first
    · exact Or.inr (pb hkp)
    · exact Or.inl (by omega)

theorem prepare_asks {c : Caller} {e : ℕ → MaterializeEnv} {w w' : World} {first size : ℕ}
    {writing : Bool} (hI : Inv w) (h : prepare c e w first size writing = .ok (w', 0)) {s : ℕ}
    (hl : w.Live s) :
    ∃ l, w'.asked = w.asked ++ l ∧ ∀ i, (∀ q ∈ l, Asks s i q → (w.buffers s).pages i = .cold) ∧
      (l.filter fun q => Asks s i q).length ≤ 1 := by
  have hmv := prepare_moves hI h
  obtain ⟨l, hclimb⟩ := prepare_climbs hI h
  refine ⟨l, hclimb.ticks.asked, fun i => ?_⟩
  have hev : (w'.buffers s).stats.evictions = (w.buffers s).stats.evictions := by
    rcases prepare_buffer hI h hl with ⟨-, hsame⟩ | ⟨lo, hi, -, -, hmat⟩
    · rw [hsame]
    · exact hmat.evictions
  have hr := Ticks.restocked hclimb.ticks
    ⟨hl, (hmv.live s).mpr hl, hI.ids_lt s hl, (hmv.mapping s).id, hev⟩
  exact ⟨fun q hq ha => not_not.mp (hr.cold i q hq ha), hr.once i⟩

/-- **Prefaults touch exactly the overlapped pages.** In every reachable state, if `prepare` of
`[address, address + size)` returns zero, then for every live buffer: its touched pages are
resident; the other pages of a sliced recipe have not changed; a prefault for writing makes exactly
the touched pages dirty, and pins exactly the buffers that are not resident and whose region has a
touched page; and the requests that `prepare` has made are only for pages that were cold, for each
of them once. -/
theorem prepare_exact (arena : Option Arena) (memory : Memory) (events : List Event) (w : World)
    (h : Runs (World.initial arena memory) events w) (c : Caller) (e : ℕ → MaterializeEnv)
    (address size : ℕ) (writing : Bool) (w' : World)
    (hp : prepare c e w address size writing = .ok (w', 0)) (s : ℕ) (hl : w.Live s) :
    (∀ i, Touched (w.buffers s) address size i → (w'.buffers s).Present i) ∧
      ((w.buffers s).stats.pageBytes ≠ 0 → ∀ i, ¬ Touched (w.buffers s) address size i →
        (w'.buffers s).pages i = (w.buffers s).pages i) ∧
      (writing = false → (∀ i, (w.buffers s).Present i →
          (w'.buffers s).pages i = (w.buffers s).pages i) ∧
        ((w'.buffers s).state = .pinned ↔ (w.buffers s).state = .pinned)) ∧
      (writing = true →
        (∀ i, Touched (w.buffers s) address size i → (w'.buffers s).pages i = .dirty) ∧
        (∀ i, ¬ Touched (w.buffers s) address size i → (w'.buffers s).pages i = .dirty →
          (w.buffers s).pages i = .dirty) ∧
        ((w'.buffers s).state = .pinned ↔ (w.buffers s).state = .pinned ∨
          ((w.buffers s).state ≠ .resident ∧
            ∃ i, Touched (w.buffers s) address size i ∧ InRegion (w.buffers s) i))) ∧
      ∃ l, w'.asked = w.asked ++ l ∧ ∀ i, (∀ q ∈ l, Asks s i q → (w.buffers s).pages i = .cold) ∧
        (l.filter fun q => Asks s i q).length ≤ 1 := by
  have hI := Runs.inv h (initial_inv arena memory)
  have hasks := prepare_asks hI hp hl
  rcases prepare_buffer hI hp hl with ⟨hn, hsame⟩ | ⟨lo, hi, ht, hlt, hm⟩
  · refine ⟨fun i hi => absurd hi (hn i), fun _ i _ => by rw [hsame],
      fun _ => ⟨fun i _ => by rw [hsame], by rw [hsame]⟩,
      fun _ => ⟨fun i hi => absurd hi (hn i), fun i _ hd => by rwa [hsame] at hd, ?_⟩, hasks⟩
    rw [hsame]
    exact ⟨Or.inl, fun hor => hor.resolve_right fun hr => by
      obtain ⟨-, i, hi, -⟩ := hr
      exact hn i hi⟩
  · refine ⟨fun i hi => ?_, fun hb i hi => hm.sliced hb i (mt (ht i).mpr hi), fun hw => ⟨?_, ?_⟩,
      fun hw => ⟨fun i hi => ?_, fun i hi hd => ?_, ?_⟩, hasks⟩
    · obtain ⟨h1, h2⟩ := (ht i).mp hi
      exact hm.present i h1 h2
    · intro i hi
      exact (hm.kept hw i).resolve_right fun hr => hi hr.1
    · rw [hm.pinned]
      exact ⟨fun hor => hor.resolve_right fun hr => by simp [hw] at hr, Or.inl⟩
    · obtain ⟨h1, h2⟩ := (ht i).mp hi
      exact hm.dirty hw i h1 h2
    · rcases hm.outside i (mt (ht i).mpr hi) with ho | ⟨-, ho⟩
      · exact ho ▸ hd
      · rw [ho] at hd
        cases hd
    · rw [hm.pinned]
      refine or_congr Iff.rfl ⟨fun hr => ⟨hr.2.2.1, ?_⟩, fun hr => ?_⟩
      · -- the spans of pages overlap, so they have a page in common
        have hreg := (hI.buffer s hl).toShaped.first_lt_last
        refine ⟨max lo (w.buffers s).regionFirst, (ht _).mpr ?_, ?_⟩
        · omega
        · unfold InRegion
          omega
      · obtain ⟨hres, i, hi, hr⟩ := hr
        have hi := (ht i).mp hi
        unfold InRegion at hr
        exact ⟨hw, hlt, hres, by omega, by omega⟩

/-- A prefault for writing that begins in one evicted buffer and ends in the next: the first page of
either comes back and is dirty, and the last page of the second stays cold. -/
theorem prepare_exact_sample : ∃ events w w',
    Runs (World.initial none sampleMemory) events w ∧
      prepare Caller.owner (fun _ => sampleMaterialize) w 0x100123 4096 true = .ok (w', 0) ∧
      (w'.buffers 1).pages 0 = .dirty ∧ (w'.buffers 0).pages 0 = .dirty ∧
      (w'.buffers 0).pages 1 = .cold ∧ (w'.buffers 0).state = .pinned ∧
      ∃ l, w'.asked = w.asked ++ l ∧ (l.filter fun q => Asks 0 0 q).length ≤ 1 := by
  obtain ⟨x, hr, -, hl0, hl1, hd0, hd1, hm0, hm1, hs, hpb, ⟨ho, hn⟩, hc, hp⟩ :=
    (@play_any (World.initial none sampleMemory) pairOps
      (fun x => x.1.Live 0 ∧ x.1.Live 1 ∧ (x.1.buffers 0).data = 0x101000 ∧
        (x.1.buffers 1).data = 0x100000 ∧ (x.1.buffers 0).mapped = 8192 ∧
        (x.1.buffers 1).mapped = 4096 ∧ (x.1.buffers 0).state = .evicted ∧
        (x.1.buffers 0).stats.pageBytes ≠ 0 ∧
        ((x.1.buffers 0).recipeOffset = 0 ∧ (x.1.buffers 0).recipeLength = 4097) ∧
        (x.1.buffers 0).pages 1 = .cold ∧
        (match prepare Caller.owner (fun _ => sampleMaterialize) x.1 0x100123 4096 true with
          | .ok y => decide (y.2 = 0)
          | .error _ => false) = true) _) (by decide +kernel)
  rcases hx : prepare Caller.owner (fun _ => sampleMaterialize) x.1 0x100123 4096 true with
    stop | ⟨w', r⟩
  · rw [hx] at hp
    cases hp
  rw [hx] at hp
  obtain rfl : r = 0 := of_decide_eq_true hp
  obtain ⟨-, -, -, hfirst, -⟩ := prepare_exact none sampleMemory x.2 x.1 hr Caller.owner
    (fun _ => sampleMaterialize) 0x100123 4096 true w' hx 1 hl1
  obtain ⟨-, hkept, -, hsecond, l, hasked, hask⟩ :=
    prepare_exact none sampleMemory x.2 x.1 hr Caller.owner
    (fun _ => sampleMaterialize) 0x100123 4096 true w' hx 0 hl0
  have ht1 : Touched (x.1.buffers 1) 0x100123 4096 0 := by
    refine ⟨by rw [Buffer.pageCount, hm1]; decide, 0x100123, le_rfl, by omega, by omega, ?_⟩
    rw [hd1]
    decide
  have ht0 : Touched (x.1.buffers 0) 0x100123 4096 0 := by
    refine ⟨by rw [Buffer.pageCount, hm0]; decide, 0x101000, by omega, by omega, by omega, ?_⟩
    rw [hd0]
    decide
  have hno : ¬ Touched (x.1.buffers 0) 0x100123 4096 1 := by
    rintro ⟨-, a, -, ha, hge, -⟩
    rw [hd0] at hge
    unfold PAGE at hge
    omega
  have hin : InRegion (x.1.buffers 0) 0 := by
    unfold InRegion Buffer.regionFirst Buffer.regionLast
    rw [ho, hn]
    decide
  refine ⟨x.2, x.1, w', hr, hx, (hfirst rfl).1 0 ht1, (hsecond rfl).1 0 ht0,
    (hkept hpb 1 hno).trans hc,
    (hsecond rfl).2.2.mpr (Or.inr ⟨?_, 0, ht0, hin⟩), l, hasked, (hask 0).2⟩
  rw [hs]
  exact nofun

end Afterfree.Runtime.Prefault
