import Afterfree.Runtime.Api

/-!
# The representation invariant of one buffer

`BufferInv` couples the page states, the state word, the counter of resident pages and the recipe
region of a buffer. Every change the pager makes to a buffer keeps it: `restored` (a span of cold
pages comes back clean), `written` (pages become dirty), `discardedBuffer` (the region goes cold),
a completed registration, and a fresh allocation.
-/

namespace Afterfree.Runtime.Representation

open Afterfree.Common Afterfree.Lib Afterfree.Runtime.State Afterfree.Runtime.Pager
open Afterfree.Runtime.Api

/-- Page `i` belongs to the recipe region. -/
def InRegion (b : Buffer) (i : ℕ) : Prop := b.regionFirst ≤ i ∧ i < b.regionLast

/-- The mapping of a buffer and the recipe region in it. -/
structure Shaped (b : Buffer) : Prop where
  aligned : b.data % PAGE = 0
  mapped_eq : b.mapped = rounded b.stats.length
  length_pos : 0 < b.stats.length
  length_le : b.stats.length ≤ MAX_BUFFER
  offset_aligned : b.recipeOffset % PAGE = 0
  recipe_pos : 0 < b.recipeLength
  recipe_le : b.recipeOffset + b.recipeLength ≤ b.stats.length
  tail : b.recipeLength % PAGE = 0 ∨ b.recipeOffset + b.recipeLength = b.stats.length

/-- **The representation invariant of a buffer.** -/
structure BufferInv (b : Buffer) : Prop extends Shaped b where
  counted : b.residentPages = Nat.count b.Present b.pageCount
  outside : ∀ i < b.pageCount, ¬ InRegion b i → b.pages i = .dirty
  resident : b.state = .resident → ∀ i < b.pageCount, b.pages i = .dirty
  sealedClean : b.state = .sealed → ∀ i, InRegion b i → b.pages i = .clean
  evictedRegion : b.state = .evicted →
    (∀ i, InRegion b i → b.pages i = .cold ∨ b.pages i = .clean) ∧
      ∃ i, InRegion b i ∧ b.pages i = .cold
  whole : b.stats.pageBytes = 0 →
    (∀ i, InRegion b i → b.pages i = .cold) ∨ ∀ i, InRegion b i → b.pages i ≠ .cold

/-! ### The region in pages -/

section Shape

variable {b : Buffer} (h : Shaped b)
include h

theorem Shaped.pageCount_mul : b.pageCount * PAGE = b.mapped := by
  have := h.mapped_eq
  unfold Buffer.pageCount rounded PAGE at *
  omega

theorem Shaped.first_mul : b.regionFirst * PAGE = b.recipeOffset := by
  have := h.offset_aligned
  unfold Buffer.regionFirst PAGE at *
  omega

theorem Shaped.last_mul : b.regionLast * PAGE = b.recipeOffset + rounded b.recipeLength := by
  have := h.offset_aligned
  unfold Buffer.regionLast rounded PAGE at *
  omega

theorem Shaped.last_eq : b.regionFirst + rounded b.recipeLength / PAGE = b.regionLast := by
  have := h.offset_aligned
  unfold Buffer.regionFirst Buffer.regionLast rounded PAGE at *
  omega

theorem Shaped.first_lt_last : b.regionFirst < b.regionLast := by
  have h1 := h.offset_aligned
  have h2 := h.recipe_pos
  unfold Buffer.regionFirst Buffer.regionLast rounded PAGE at *
  omega

theorem Shaped.last_le : b.regionLast ≤ b.pageCount := by
  have h1 := h.offset_aligned
  have h2 := h.recipe_le
  have h3 := h.mapped_eq
  unfold Buffer.regionLast Buffer.pageCount rounded PAGE at *
  omega

theorem Shaped.pageCount_pos : 0 < b.pageCount :=
  lt_of_le_of_lt (Nat.zero_le _) (lt_of_lt_of_le h.first_lt_last h.last_le)

theorem Shaped.inRegion_lt {i : ℕ} (hi : InRegion b i) : i < b.pageCount :=
  lt_of_lt_of_le hi.2 h.last_le

theorem Shaped.page_lt {o : ℕ} (ho : o < b.stats.length) : o / PAGE < b.pageCount := by
  have := h.mapped_eq
  unfold Buffer.pageCount rounded PAGE at *
  omega

theorem Shaped.covered {o : ℕ} (ho : o < b.stats.length) (hr : InRegion b (o / PAGE)) :
    b.recipeOffset ≤ o ∧ o < b.recipeOffset + b.recipeLength := by
  have h1 := h.offset_aligned
  have h2 := h.tail
  obtain ⟨h3, h4⟩ := hr
  unfold Buffer.regionFirst Buffer.regionLast rounded PAGE at *
  omega

theorem Shaped.region_of_covered {o : ℕ} (h1 : b.recipeOffset ≤ o)
    (h2 : o < b.recipeOffset + b.recipeLength) : InRegion b (o / PAGE) := by
  have h3 := h.offset_aligned
  unfold InRegion Buffer.regionFirst Buffer.regionLast rounded PAGE at *
  omega

end Shape

/-! ### Cold pages -/

section Cold

variable {b : Buffer} (h : BufferInv b)
include h

/-- **A cold page lies in the region.** -/
theorem BufferInv.cold_inRegion {i : ℕ} (hi : i < b.pageCount) (hc : b.pages i = .cold) :
    InRegion b i := by
  by_contra hn
  have := h.outside i hi hn
  rw [hc] at this
  cases this

theorem BufferInv.sealed_present (hs : b.state = .sealed) {i : ℕ} (hi : i < b.pageCount) :
    b.pages i ≠ .cold := by
  by_cases hr : InRegion b i
  · rw [h.sealedClean hs i hr]
    simp
  · rw [h.outside i hi hr]
    simp

theorem BufferInv.state_of_cold {i : ℕ} (hi : i < b.pageCount) (hc : b.pages i = .cold) :
    b.state = .evicted ∨ b.state = .pinned := by
  rcases hs : b.state with _ | _ | _ | _
  · have := h.resident hs i hi
    rw [hc] at this
    cases this
  · exact absurd hc (h.sealed_present hs hi)
  · exact Or.inl rfl
  · exact Or.inr rfl

theorem BufferInv.full_iff :
    b.residentPages = b.mapped / PAGE ↔ ∀ i < b.pageCount, b.Present i := by
  rw [h.counted]
  exact ⟨fun hf => Span.forall_of_count_eq hf, fun hf => Span.count_eq_of_forall hf⟩

end Cold

/-! ### Extents -/

/-- What `restore_span` asks for: a nonempty span of cold pages of the region, and of its bytes
those the recipe covers. -/
structure ColdExtent (b : Buffer) (x : Extent) : Prop where
  first_lt : x.first < x.last
  first_ge : b.regionFirst ≤ x.first
  last_le : x.last ≤ b.regionLast
  offset_eq : x.offset = x.first * PAGE
  length_eq : x.offset + x.length = min (x.last * PAGE) (b.recipeOffset + b.recipeLength)
  offset_lt : x.offset < b.recipeOffset + b.recipeLength
  cold : ∀ i, x.first ≤ i → i < x.last → b.pages i = .cold
  whole : b.stats.pageBytes = 0 → x.first = b.regionFirst ∧ x.last = b.regionLast

/-- **The extent of a span of cold pages.** It holds the span; a recipe that cannot be sliced is
restored as a whole, which is right because then its whole region is cold. -/
theorem extentOf_cold {b : Buffer} (h : BufferInv b) {first last : ℕ} (h1 : first < last)
    (h2 : last ≤ b.pageCount) (hc : ∀ i, first ≤ i → i < last → b.pages i = .cold) :
    ColdExtent b (extentOf b first last) ∧ (extentOf b first last).first ≤ first ∧
      last ≤ (extentOf b first last).last := by
  have hr : ∀ i, first ≤ i → i < last → InRegion b i := fun i hi hl =>
    h.cold_inRegion (by omega) (hc i hi hl)
  have hf := h.toShaped.first_mul
  have hl := h.toShaped.last_mul
  have hlt := h.toShaped.first_lt_last
  have hle := le_rounded b.recipeLength
  have hrl := rounded_lt b.recipeLength
  obtain ⟨r1, -⟩ := hr first le_rfl h1
  obtain ⟨-, r2⟩ := hr (last - 1) (by omega) (by omega)
  unfold extentOf
  by_cases hp : b.stats.pageBytes ≠ 0
  · rw [if_pos hp]
    have hlow : first * PAGE < b.recipeOffset + b.recipeLength := by
      have : (first + 1) * PAGE ≤ b.regionLast * PAGE := Nat.mul_le_mul_right _ (by omega)
      unfold PAGE at *
      omega
    refine ⟨⟨h1, r1, by show last ≤ _; omega, rfl, ?_, hlow, hc, fun h0 => absurd h0 hp⟩, le_rfl,
      le_rfl⟩
    show first * PAGE + (min (last * PAGE) (b.recipeOffset + b.recipeLength) - first * PAGE) =
      min (last * PAGE) (b.recipeOffset + b.recipeLength)
    have : first * PAGE ≤ last * PAGE := Nat.mul_le_mul_right _ (by omega)
    omega
  · rw [if_neg hp]
    refine ⟨⟨hlt, le_rfl, le_rfl, hf.symm, ?_, ?_, ?_, fun _ => ⟨rfl, rfl⟩⟩, r1, by
      show last ≤ b.regionLast; omega⟩
    · show b.recipeOffset + b.recipeLength =
        min (b.regionLast * PAGE) (b.recipeOffset + b.recipeLength)
      omega
    · have := h.recipe_pos
      show b.recipeOffset < _
      omega
    · intro i hi hil
      rcases h.whole (by simpa using hp) with hw | hw
      · exact hw i ⟨hi, hil⟩
      · exact absurd (hc first le_rfl h1) (hw first (hr first le_rfl h1))

/-! ### Restoring keeps the invariant -/

theorem restored_present {b : Buffer} {x : Extent} {t i : ℕ} :
    (restored b x t).Present i ↔ b.Present i ∨ (x.first ≤ i ∧ i < x.last) := by
  show Span.fill b.pages x.first x.last .clean i ≠ .cold ↔ b.pages i ≠ .cold ∨ _
  rcases Span.fill_cases b.pages x.first x.last .clean i with ⟨h1, h2, h3⟩ | ⟨h1, h2⟩
  · rw [h3]
    simp [h1, h2]
  · rw [h2]
    exact ⟨Or.inl, fun hp => hp.resolve_right (by omega)⟩

theorem restored_count {b : Buffer} {x : Extent} (h : BufferInv b) (hx : ColdExtent b x) (t : ℕ) :
    Nat.count (restored b x t).Present b.pageCount = b.residentPages + (x.last - x.first) := by
  have hle := h.toShaped.last_le
  have hxl := hx.last_le
  have hxf := hx.first_lt
  have key := Span.count_exchange (p := (restored b x t).Present) (q := b.Present)
    (n := b.pageCount) (show x.first ≤ x.last by omega) (by omega)
    fun i hi => restored_present.trans ⟨fun hp => hp.resolve_right (by omega), Or.inl⟩
  have hnone : Span.countIn b.Present x.first x.last = 0 :=
    Span.countIn_none fun i h1 h2 => not_not_intro (hx.cold i h1 h2)
  have hevery : Span.countIn (restored b x t).Present x.first x.last = x.last - x.first :=
    Span.countIn_every fun i h1 h2 => restored_present.mpr (Or.inr ⟨h1, h2⟩)
  rw [h.counted]
  omega

/-- **A restored extent keeps the invariant.** -/
theorem restored_inv {b : Buffer} {x : Extent} (h : BufferInv b) (hx : ColdExtent b x) (t : ℕ) :
    BufferInv (restored b x t) := by
  have hcount := restored_count h hx t
  have hxl := hx.last_le
  have hxf := hx.first_lt
  have hle := h.toShaped.last_le
  have hcold : b.pages x.first = .cold := hx.cold x.first le_rfl hxf
  have hstate := h.state_of_cold (i := x.first) (by omega) hcold
  have hpages : ∀ i, (x.first ≤ i ∧ i < x.last ∧ (restored b x t).pages i = .clean) ∨
      ((i < x.first ∨ x.last ≤ i) ∧ (restored b x t).pages i = b.pages i) :=
    fun i => Span.fill_cases b.pages x.first x.last .clean i
  -- an evicted buffer has only cold and clean pages in its region
  have hregion : b.state = .evicted → ∀ i, InRegion b i →
      (restored b x t).pages i = .cold ∨ (restored b x t).pages i = .clean := by
    intro hs i hi
    rcases hpages i with ⟨-, -, hp⟩ | ⟨-, hp⟩
    · exact Or.inr hp
    · rw [hp]
      exact (h.evictedRegion hs).1 i hi
  have hst : (restored b x t).state =
      if b.residentPages + (x.last - x.first) = b.mapped / PAGE ∧ b.state ≠ .pinned then .sealed
      else b.state := rfl
  refine ⟨⟨h.aligned, h.mapped_eq, h.length_pos, h.length_le, h.offset_aligned, h.recipe_pos,
    h.recipe_le, h.tail⟩, hcount.symm, ?_, ?_, ?_, ?_, ?_⟩
  · intro i hi hn
    rcases hpages i with ⟨h1, h2, -⟩ | ⟨-, hp⟩
    · exact absurd ⟨le_trans hx.first_ge h1, lt_of_lt_of_le h2 hxl⟩ hn
    · rw [hp]
      exact h.outside i hi hn
  · intro hs
    rw [hst] at hs
    split_ifs at hs with hf
    rcases hstate with he | he <;> rw [he] at hs <;> cases hs
  · intro hs i hi
    rw [hst] at hs
    split_ifs at hs with hf
    · have hev : b.state = .evicted := hstate.resolve_right hf.2
      have hall := Span.forall_of_count_eq (p := (restored b x t).Present)
        (by rw [hcount]; exact hf.1) i (h.toShaped.inRegion_lt hi)
      exact (hregion hev i hi).resolve_left hall
    · rcases hstate with he | he <;> rw [he] at hs <;> cases hs
  · intro hs
    rw [hst] at hs
    split_ifs at hs with hf
    refine ⟨hregion hs, ?_⟩
    -- the counter is not full, so some page is still cold
    by_contra hn
    have hall : ∀ i < b.pageCount, (restored b x t).Present i := by
      intro i hi hc
      rcases hpages i with ⟨-, -, hp⟩ | ⟨-, hp⟩
      · rw [hp] at hc
        cases hc
      · rw [hp] at hc
        exact hn ⟨i, h.cold_inRegion hi hc, by rw [hp]; exact hc⟩
    refine hf ⟨?_, by rw [hs]; simp⟩
    rw [← hcount]
    exact Span.count_eq_of_forall hall
  · intro hp
    obtain ⟨w1, w2⟩ := hx.whole hp
    refine Or.inr fun i hi => ?_
    obtain ⟨i1, i2⟩ := hi
    rcases hpages i with ⟨-, -, hp⟩ | ⟨ho, -⟩
    · rw [hp]
      simp
    · change b.regionFirst ≤ i at i1
      change i < b.regionLast at i2
      omega

/-! ### Writing keeps the invariant -/

theorem written_present {b : Buffer} {first last i : ℕ} :
    (written b first last).Present i ↔ b.Present i ∨ (first ≤ i ∧ i < last) := by
  show Span.fill b.pages first last .dirty i ≠ .cold ↔ b.pages i ≠ .cold ∨ _
  rcases Span.fill_cases b.pages first last .dirty i with ⟨h1, h2, h3⟩ | ⟨h1, h2⟩
  · rw [h3]
    simp [h1, h2]
  · rw [h2]
    exact ⟨Or.inl, fun hp => hp.resolve_right (by omega)⟩

/-- **Pages that are present may become dirty.** A write into the region pins the buffer. -/
theorem written_inv {b : Buffer} {first last : ℕ} (h : BufferInv b)
    (hp : ∀ i, first ≤ i → i < last → b.Present i) : BufferInv (written b first last) := by
  have hpres : ∀ i, (written b first last).Present i ↔ b.Present i := fun i => by
    rw [written_present]
    exact ⟨fun hi => hi.elim id fun hi => hp i hi.1 hi.2, Or.inl⟩
  have hpages : ∀ i, (first ≤ i ∧ i < last ∧ (written b first last).pages i = .dirty) ∨
      ((i < first ∨ last ≤ i) ∧ (written b first last).pages i = b.pages i) :=
    fun i => Span.fill_cases b.pages first last .dirty i
  have hst : (written b first last).state =
      if b.state ≠ .resident ∧ first < b.regionLast ∧ b.regionFirst < last then .pinned
      else b.state := rfl
  -- unless the buffer is pinned by this write, the region keeps its page states
  have hsame : (written b first last).state ≠ .pinned → b.state ≠ .resident →
      ∀ i, InRegion b i → (written b first last).pages i = b.pages i := by
    intro hs hr i hi
    rw [hst] at hs
    obtain ⟨i1, i2⟩ := hi
    rcases hpages i with ⟨h1, h2, -⟩ | ⟨-, hq⟩
    · exact absurd (if_pos ⟨hr, by omega, by omega⟩) hs
    · exact hq
  have hold : (written b first last).state ≠ .pinned → (written b first last).state = b.state := by
    intro hs
    rw [hst] at hs ⊢
    split_ifs at hs ⊢ with hc
    · exact absurd rfl hs
    · rfl
  refine ⟨⟨h.aligned, h.mapped_eq, h.length_pos, h.length_le, h.offset_aligned, h.recipe_pos,
    h.recipe_le, h.tail⟩, ?_, ?_, ?_, ?_, ?_, ?_⟩
  · show b.residentPages = _
    rw [h.counted]
    exact Span.count_congr fun i _ => (hpres i).symm
  · intro i hi hn
    rcases hpages i with ⟨-, -, hq⟩ | ⟨-, hq⟩
    · exact hq
    · rw [hq]
      exact h.outside i hi hn
  · intro hs i hi
    have hb : b.state = .resident := (hold (by rw [hs]; simp)).symm.trans hs
    rcases hpages i with ⟨-, -, hq⟩ | ⟨-, hq⟩
    · exact hq
    · rw [hq]
      exact h.resident hb i hi
  · intro hs i hi
    have hb : b.state = .sealed := (hold (by rw [hs]; simp)).symm.trans hs
    rw [hsame (by rw [hs]; simp) (by rw [hb]; simp) i hi]
    exact h.sealedClean hb i hi
  · intro hs
    have hb : b.state = .evicted := (hold (by rw [hs]; simp)).symm.trans hs
    have hkeep := hsame (by rw [hs]; simp) (by rw [hb]; simp)
    obtain ⟨h1, i, h2, h3⟩ := h.evictedRegion hb
    exact ⟨fun j hj => by rw [hkeep j hj]; exact h1 j hj, i, h2, by rw [hkeep i h2]; exact h3⟩
  · intro hq
    rcases h.whole hq with hw | hw
    · left
      intro i hi
      rcases hpages i with ⟨h1, h2, -⟩ | ⟨-, hr⟩
      · exact absurd (hw i hi) (hp i h1 h2)
      · rw [hr]
        exact hw i hi
    · exact Or.inr fun i hi => (hpres i).mpr (hw i hi)

/-! ### Discarding keeps the invariant -/

theorem removedPages_eq {b : Buffer} (h : Shaped b) :
    removedPages b = Span.countIn b.Present b.regionFirst b.regionLast := by
  unfold removedPages
  rw [show b.recipeOffset / PAGE + rounded b.recipeLength / PAGE = b.regionLast from h.last_eq]
  rfl

theorem removedPages_le {b : Buffer} (h : BufferInv b) : removedPages b ≤ b.residentPages := by
  rw [removedPages_eq h.toShaped, h.counted]
  exact Span.countIn_le_count _ h.toShaped.first_lt_last.le h.toShaped.last_le

theorem discarded_pages {b : Buffer} (h : Shaped b) (i : ℕ) :
    (InRegion b i ∧ (discardedBuffer b).pages i = .cold) ∨
      (¬ InRegion b i ∧ (discardedBuffer b).pages i = b.pages i) := by
  have he : (discardedBuffer b).pages = Span.fill b.pages b.regionFirst b.regionLast .cold := by
    rw [← h.last_eq]
    rfl
  rw [he]
  rcases Span.fill_cases b.pages b.regionFirst b.regionLast .cold i with ⟨h1, h2, h3⟩ | ⟨h1, h2⟩
  · exact Or.inl ⟨⟨h1, h2⟩, h3⟩
  · refine Or.inr ⟨?_, h2⟩
    rintro ⟨g1, g2⟩
    omega

/-- **Discarding the region keeps the invariant.** -/
theorem discarded_inv {b : Buffer} (h : BufferInv b) : BufferInv (discardedBuffer b) := by
  have hpages := discarded_pages h.toShaped
  have hlt := h.toShaped.first_lt_last
  have hcold : ∀ i, InRegion b i → (discardedBuffer b).pages i = .cold := by
    intro i hi
    rcases hpages i with ⟨-, hp⟩ | ⟨hn, -⟩
    · exact hp
    · exact absurd hi hn
  refine ⟨⟨h.aligned, h.mapped_eq, h.length_pos, h.length_le, h.offset_aligned, h.recipe_pos,
    h.recipe_le, h.tail⟩, ?_, ?_, ?_, ?_, ?_, ?_⟩
  · have key := Span.count_exchange (p := (discardedBuffer b).Present) (q := b.Present)
      (n := b.pageCount) hlt.le h.toShaped.last_le fun i hi => by
        unfold Buffer.Present
        rcases hpages i with ⟨⟨h1, h2⟩, -⟩ | ⟨-, hp⟩
        · omega
        · rw [hp]
    have hnone : Span.countIn (discardedBuffer b).Present b.regionFirst b.regionLast = 0 :=
      Span.countIn_none fun i h1 h2 => not_not_intro (hcold i ⟨h1, h2⟩)
    show b.residentPages - removedPages b = _
    rw [removedPages_eq h.toShaped, h.counted]
    show _ = Nat.count (discardedBuffer b).Present b.pageCount
    omega
  · intro i hi hn
    rcases hpages i with ⟨hr, -⟩ | ⟨-, hp⟩
    · exact absurd hr hn
    · rw [hp]
      exact h.outside i hi hn
  · intro hs
    cases hs
  · intro hs
    cases hs
  · intro _
    exact ⟨fun i hi => Or.inl (hcold i hi), b.regionFirst, ⟨le_rfl, hlt⟩,
      hcold _ ⟨le_rfl, hlt⟩⟩
  · intro _
    exact Or.inl hcold

/-! ### A fresh buffer -/

theorem fresh_inv {p size id : ℕ} (hp : p % PAGE = 0) (h1 : 0 < size) (h2 : size ≤ MAX_BUFFER) :
    BufferInv (fresh p size id) := by
  have hpage : ∀ i, (fresh p size id).pages i = .dirty := fun _ => rfl
  have hpresent : ∀ i, (fresh p size id).Present i := fun i => by
    unfold Buffer.Present
    rw [hpage i]
    simp
  refine ⟨⟨hp, rfl, h1, h2, rfl, h1, ?_, Or.inr ?_⟩, ?_, ?_, ?_, ?_, ?_, ?_⟩
  · show 0 + size ≤ size
    omega
  · show 0 + size = size
    omega
  · exact (Span.count_eq_of_forall fun i _ => hpresent i).symm
  · exact fun i _ _ => hpage i
  · exact fun _ i _ => hpage i
  · intro hs
    cases hs
  · intro hs
    cases hs
  · exact fun _ => Or.inr fun i _ => hpresent i

end Afterfree.Runtime.Representation
