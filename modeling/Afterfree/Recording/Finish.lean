import Afterfree.Recording.Runs

/-!
# Finishing a capture

`finish` on a faithful recorder. Narrowing the output to a region moves part of the frontier into
the masks, the coverage check fills in the masks behind the frontier, and the code check notes the
code pages; the recorder stays faithful to the same sets (`finish_ok`), and the inputs of the recipe
are read off its input bits (`hasInput_iff`).
-/

namespace Afterfree.Recording.Finish

open Afterfree.Common Afterfree.Codec Afterfree.Recording.Capture
  Afterfree.Recording.Capture.Recorder

/-! ### Steps over a list -/

/-- **A loop whose steps fill in**: what a step establishes for its element holds at the end. -/
theorem each_fills {α : Type} {f : Recorder → α → Result} {V : Set ℕ} {Q : α → Recorder → Prop}
    (hstable : ∀ s s' x, Fills V s s' → Q x s → Q x s') :
    ∀ {xs : List α} {r r' : Recorder}, Sane r →
      (∀ x ∈ xs, ∀ s s', Fills V r s → f s x = .ok s' → Fills V s s' ∧ Q x s') →
      each f r xs = .ok r' → Fills V r r' ∧ ∀ x ∈ xs, Q x r'
  | [], r, r', hs, _, h => by
    cases h
    exact ⟨Fills.refl hs, fun x hx => absurd hx List.not_mem_nil⟩
  | x :: xs, r, r', hs, hstep, h => by
    obtain ⟨r₁, h₁, h⟩ := bind_ok h
    obtain ⟨hf, hq⟩ := hstep x List.mem_cons_self r r₁ (Fills.refl hs) h₁
    obtain ⟨hf', hq'⟩ := each_fills hstable hf.sane
      (fun y hy s s' hfs => hstep y (List.mem_cons_of_mem _ hy) s s' (hf.trans hfs)) h
    refine ⟨hf.trans hf', fun y hy => ?_⟩
    rcases List.mem_cons.mp hy with rfl | hy
    · exact hstable _ _ _ hf' hq
    · exact hq' y hy

theorem mem_pageOffsets {n o : ℕ} : o ∈ pageOffsets n ↔ o % PAGE = 0 ∧ o < n := by
  unfold pageOffsets rounded
  rw [List.mem_map]
  constructor
  · rintro ⟨k, hk, rfl⟩
    have := List.mem_range.mp hk
    unfold PAGE at *
    omega
  · rintro ⟨h0, hlt⟩
    refine ⟨o / PAGE, List.mem_range.mpr ?_, ?_⟩ <;> unfold PAGE at * <;> omega

/-! ### The region -/

/-- What the search has found after some pages. -/
structure Scanned (length done : ℕ) (s : Scan) : Prop where
  run_mod : s.run % PAGE = 0
  run_le : s.run ≤ done
  start_mod : s.bestStart % PAGE = 0
  length_mod : s.bestLength % PAGE = 0
  inside : s.bestStart + s.bestLength ≤ length

theorem Scanned.scanPage {r : Recorder} {offset : ℕ} {s : Scan}
    (h : Scanned r.h.length offset s) (ho : offset % PAGE = 0) :
    Scanned r.h.length (offset + PAGE) (r.scanPage s offset) := by
  obtain ⟨h1, h2, h3, h4, h5⟩ := h
  have hrun : (s.run + PAGE) % PAGE = 0 := by rwa [Nat.add_mod_right]
  have hstart : (offset + PAGE - (s.run + PAGE)) % PAGE = 0 := by
    rw [Nat.add_sub_add_right]
    exact Nat.sub_mod_eq_zero_of_mod_eq (ho.trans h1.symm)
  have hle : s.run + PAGE ≤ offset + PAGE := by omega
  have hpos := PAGE_pos
  unfold Recorder.scanPage
  dsimp only
  split_ifs with hc hlen hbest
  · exact ⟨rfl, Nat.zero_le _, h3, h4, h5⟩
  · have hinside : offset + PAGE - (s.run + PAGE) + (s.run + PAGE) ≤ r.h.length := by omega
    exact ⟨hrun, hle, hstart, hrun, hinside⟩
  · exact ⟨hrun, hle, h3, h4, h5⟩
  · exact ⟨h1, by omega, h3, h4, h5⟩

/-- **The region found**: whole pages inside the output. -/
theorem scan_spec (r : Recorder) :
    r.scan.bestStart % PAGE = 0 ∧ r.scan.bestLength % PAGE = 0 ∧
      r.scan.bestStart + r.scan.bestLength ≤ r.h.length := by
  have hall : ∀ n, Scanned r.h.length (n * PAGE)
      (((List.range n).map (· * PAGE)).foldl r.scanPage ⟨true, 0, 0, 0⟩) := by
    intro n
    induction n with
    | zero => exact ⟨rfl, Nat.zero_le _, rfl, rfl, Nat.zero_le _⟩
    | succ n ih =>
      rw [List.range_succ, List.map_append, List.foldl_append, Nat.succ_mul]
      exact ih.scanPage (Nat.mul_mod_left _ _)
  have h := hall (rounded r.h.length / PAGE)
  exact ⟨h.start_mod, h.length_mod, h.inside⟩

section Narrow

variable {m₀ : ℕ → UInt8} {W F T : Set ℕ} {r r' : Recorder}

theorem markFrontier_fills {start : ℕ} {V : Set ℕ} (hs : Sane r) (hmod : start % PAGE = 0)
    (hv : ∀ a, start ≤ a → a < r.outputFrontier → a ∈ V) :
    Fills V r (r.markFrontier start) ∧
      ∀ a, base a = start → a < r.outputFrontier → (r.markFrontier start).writtenBit a = true := by
  have hb : base start = start := base_of_mod hmod
  have hspan : ∀ a, base a = base start → 0 ≤ a % PAGE →
      a % PAGE < 0 + min PAGE (r.outputFrontier - start) → start ≤ a ∧ a < r.outputFrontier := by
    intro a h1 _ h3
    have := base_add_mod a
    rw [h1, hb] at this
    omega
  obtain ⟨hf, hall⟩ := (@fills_mark V _ start 0 (min PAGE (r.outputFrontier - start))) hs
    fun a h1 h2 h3 => hv a (hspan a h1 h2 h3).1 (hspan a h1 h2 h3).2
  refine ⟨hf, fun a h1 h2 => hall a (h1.trans hb.symm) (Nat.zero_le _) ?_⟩
  have h3 := base_add_mod a
  have h4 : a % PAGE < PAGE := Nat.mod_lt _ PAGE_pos
  rw [h1] at h3
  omega

theorem keepOutside_fills {start : ℕ} {V : Set ℕ} (hs : Sane r) (hmod : start % PAGE = 0)
    (hv : ∀ a, start ≤ a → a < r.outputFrontier → a ∈ V) (h : r.keepOutside start = .ok r') :
    Fills V r r' ∧ (start < r.h.output ∨ r.h.output + r.h.length ≤ start →
      start ∈ r'.pages ∧ ∀ a, base a = start → a < r.outputFrontier → r'.writtenBit a = true) := by
  unfold keepOutside at h
  split_ifs at h with hout
  · obtain ⟨r₁, hp, h⟩ := bind_ok h
    cases h
    obtain ⟨hfill, hpage⟩ := page_ok hs hp
    have hfront : r₁.outputFrontier = r.outputFrontier := by
      obtain ⟨ps, c, rfl⟩ := hfill.same
      rfl
    rw [← hfront] at hv ⊢
    obtain ⟨hmark, hall⟩ := markFrontier_fills hfill.sane hmod hv
    refine ⟨(hfill.mono (Set.empty_subset V)).trans hmark, fun _ => ⟨?_, hall⟩⟩
    have := hmark.noted _ hpage
    rwa [base_of_mod hmod] at this
  · cases h
    exact ⟨Fills.refl hs, fun h' => absurd h' hout⟩

/-- **Narrowing** moves what is outside the region from the frontier into the masks. -/
theorem narrow_faithful (h : Faithful m₀ W F T r) (hr : r.narrow = .ok r') :
    Faithful m₀ W F T r' := by
  unfold narrow at hr
  dsimp only at hr
  split_ifs at hr with hsel
  swap
  · cases hr
    exact h
  obtain ⟨hstart, hlength, hinside⟩ := scan_spec r
  obtain ⟨r₂, hloop, hr⟩ := bind_ok hr
  cases hr
  have halign := h.aligned
  have hlow := h.low
  -- the pages the loop visits
  have hmem : ∀ a, a ∈ (pageOffsets (r.outputFrontier - r.h.output)).map (r.h.output + ·) ↔
      a % PAGE = 0 ∧ r.h.output ≤ a ∧ a < r.outputFrontier := by
    intro a
    rw [List.mem_map]
    constructor
    · rintro ⟨o, ho, rfl⟩
      have := mem_pageOffsets.mp ho
      unfold PAGE at *
      omega
    · rintro ⟨h1, h2, h3⟩
      refine ⟨a - r.h.output, mem_pageOffsets.mpr ?_, ?_⟩ <;> unfold PAGE at * <;> omega
  obtain ⟨hf, hall⟩ := each_fills (V := {a | r.behind a})
    (Q := fun start s => start < r.h.output + r.scan.bestStart ∨
      r.h.output + r.scan.bestStart + r.scan.bestLength ≤ start →
      start ∈ s.pages ∧ ∀ a, base a = start → a < r.outputFrontier → s.writtenBit a = true)
    (fun s s' x hfs hq hout => ⟨hfs.noted _ (hq hout).1,
      fun a h1 h2 => hfs.grow a ((hq hout).2 a h1 h2)⟩)
    (r := { r with h := { r.h with
      output := r.h.output + r.scan.bestStart, length := r.scan.bestLength } })
    ⟨h.sane.cached, h.sane.keys⟩
    (by
      intro x hx s s' hfs hstep
      obtain ⟨hx1, hx2, hx3⟩ := (hmem x).mp hx
      have hss := hfs.sane
      obtain ⟨ps, c, rfl⟩ := hfs.same
      exact keepOutside_fills hss hx1 (fun a h1 h2 => ⟨hx2.trans h1, h2⟩) hstep)
    hloop
  -- a byte behind the old frontier is in the region or on a page that was marked
  have hsplit : ∀ a, r.behind a → (r.h.output + r.scan.bestStart ≤ a ∧
      a < r.h.output + r.scan.bestStart + r.scan.bestLength) ∨
      (base a ∈ r₂.pages ∧ r₂.writtenBit a = true) := by
    rintro a ⟨h1, h2⟩
    by_cases hin : r.h.output + r.scan.bestStart ≤ a ∧
        a < r.h.output + r.scan.bestStart + r.scan.bestLength
    · exact Or.inl hin
    · have hb := hall (base a) ((hmem _).mpr (by unfold base PAGE at *; omega))
        (by unfold base PAGE at *; omega)
      exact Or.inr ⟨hb.1, hb.2 a rfl h2⟩
  have hwb : ∀ a, r.writtenBit a = true → r₂.writtenBit a = true := fun a ha => hf.grow a ha
  have hwo : ∀ a, r₂.writtenBit a = true → r.writtenBit a = true ∨ r.behind a := fun a ha =>
    hf.only a ha
  have hin : ∀ a, r₂.inputBit a = r.inputBit a := fun a => hf.input a
  have hda : ∀ a, r₂.dataAt a = r.dataAt a := fun a => hf.data a
  have hno : ∀ p ∈ r.pages, p ∈ r₂.pages := fun p hp => hf.noted p hp
  have hsane := hf.sane
  obtain ⟨ps, c, rfl⟩ := hf.same
  -- behind the new frontier
  have hbehind : ∀ a, (r.h.output + r.scan.bestStart ≤ a ∧
      a < max (r.h.output + r.scan.bestStart)
        (min r.outputFrontier (r.h.output + r.scan.bestStart + r.scan.bestLength))) ↔
      r.behind a ∧ r.h.output + r.scan.bestStart ≤ a ∧
        a < r.h.output + r.scan.bestStart + r.scan.bestLength := by
    intro a
    unfold behind
    omega
  have hhigh : max (r.h.output + r.scan.bestStart)
      (min r.outputFrontier (r.h.output + r.scan.bestStart + r.scan.bestLength)) ≤
      r.h.output + r.scan.bestStart + r.scan.bestLength := by omega
  refine ⟨⟨hsane.cached, hsane.keys⟩, ?_, le_max_left _ _, hhigh, fun a => ?_, fun a => ?_,
    fun a ha => ?_, fun a ha => ?_, h.plans, h.code⟩
  · show (r.h.output + r.scan.bestStart) % PAGE = 0
    unfold PAGE at *
    omega
  · rw [← h.written a]
    constructor
    · rintro (hb | hw)
      · exact Or.inl ((hbehind a).mp hb).1
      · exact (hwo a hw).symm
    · rintro (hb | hw)
      · rcases hsplit a hb with hreg | hmark
        · exact Or.inl ((hbehind a).mpr ⟨hb, hreg⟩)
        · exact Or.inr hmark.2
      · exact Or.inr (hwb a hw)
  · rw [← h.input a]
    exact Bool.eq_iff_iff.mp (hin a)
  · exact (hda a).trans (h.data a ha)
  · rcases h.noted a ha with hp | hb
    · exact Or.inl (hno _ hp)
    · rcases hsplit a hb with hreg | hmark
      · exact Or.inr ((hbehind a).mpr ⟨hb, hreg⟩)
      · exact Or.inl hmark.1

/-! ### The checks -/

theorem coverPage_fills {i : ℕ} (hs : Sane r) (hmod : (r.h.output + i) % PAGE = 0)
    (h : r.coverPage i = .ok r') : Fills {a | r.behind a} r r' := by
  unfold coverPage at h
  obtain ⟨r₁, hp, h⟩ := bind_ok h
  obtain ⟨hfill, -⟩ := page_ok hs hp
  have hsane := hfill.sane
  obtain ⟨ps, c, rfl⟩ := hfill.same
  dsimp only at h
  split_ifs at h with hfront
  · cases h
    refine (hfill.mono (Set.empty_subset _)).trans (markFrontier_fills hsane hmod ?_).1
    intro a h1 h2
    exact ⟨(Nat.le_add_right _ i).trans h1, h2⟩
  · cases h
    exact hfill.mono (Set.empty_subset _)

/-- **The coverage check** keeps the sets. -/
theorem cover_faithful (h : Faithful m₀ W F T r) (hr : r.cover = .ok r') :
    Faithful m₀ W F T r' := by
  unfold cover at hr
  split_ifs at hr with hne
  · have hf := (each_fills (V := {a | r.behind a}) (Q := fun _ _ => True)
      (fun _ _ _ _ _ => trivial) h.sane (by
        intro x hx s s' hfs hstep
        have hmod : (r.h.output + x) % PAGE = 0 := by
          have := h.aligned
          have := (mem_pageOffsets.mp hx).1
          unfold PAGE at *
          omega
        have hsane := hfs.sane
        obtain ⟨ps, c, rfl⟩ := hfs.same
        exact ⟨coverPage_fills hsane hmod hstep, trivial⟩) hr).1
    exact h.fills (hf.mono fun a ha => (h.written a).mp (Or.inl ha))
  · cases hr
    exact h

/-- The page of an address is noted and no byte of it is in the masks. -/
def Pristine (r : Recorder) (a : ℕ) : Prop :=
  base a ∈ r.pages ∧ ∀ b, base b = base a → r.writtenBit b = false

theorem Pristine.fills {a : ℕ} (h : Pristine r a) (hf : Fills ∅ r r') : Pristine r' a :=
  ⟨hf.noted _ h.1, fun b hb => by rw [hf.written_eq b, h.2 b hb]⟩

theorem codeByte_fills {a : ℕ} (hs : Sane r) (h : r.codeByte a = .ok r') :
    Fills ∅ r r' ∧ Pristine r' a := by
  unfold codeByte at h
  obtain ⟨r₁, hp, h⟩ := bind_ok h
  obtain ⟨hfill, hpage⟩ := page_ok hs hp
  split_ifs at h with hany
  cases h
  refine ⟨hfill, hpage, fun b hb => ?_⟩
  have hclean := (Masks.ByteMask.any_false_iff _).mp (Bool.not_eq_true _ ▸ hany) (b % PAGE)
    (Nat.mod_lt _ PAGE_pos)
  unfold writtenBit
  rw [show r'.pageAt b = r'.pageAt a by unfold pageAt; rw [hb]]
  exact hclean

/-- **The code check**: the pages of the code are noted and not in the masks. -/
theorem codeCheck_fills {cs : List Instruction} (hs : Sane r) (h : each codeCheck r cs = .ok r') :
    Fills ∅ r r' ∧ ∀ c ∈ cs, ∀ i < c.size, Pristine r' (c.address + i) := by
  have hstable : ∀ (s s' : Recorder) (c : Instruction), Fills ∅ s s' →
      (∀ i < c.size, Pristine s (c.address + i)) → ∀ i < c.size, Pristine s' (c.address + i) :=
    fun s s' c hf hq i hi => (hq i hi).fills hf
  refine each_fills hstable hs ?_ h
  intro c _ s s' hfs hstep
  obtain ⟨hf, hq⟩ := each_fills (Q := fun a s => Pristine s a)
    (fun s s' a hf hq => hq.fills hf) hfs.sane
    (fun a _ s s' hfs hstep => codeByte_fills hfs.sane hstep) hstep
  exact ⟨hf, fun i hi => hq _ (List.mem_map.mpr ⟨i, List.mem_range.mpr hi, rfl⟩)⟩

end Narrow

/-! ### The recipe -/

/-- A recorder after the checks of `finish`. -/
structure Harvest (m₀ : ℕ → UInt8) (W F T : Set ℕ) (r : Recorder) : Prop where
  faithful : Faithful m₀ W F T r
  pristine : ∀ c ∈ r.instructions, ∀ i < c.size, Pristine r (c.address + i)
  scratch : (r.pages.keys.filter (outside r.h)).length * PAGE ≤ r.h.length / 4 + 4 * 2 ^ 20

/-- **`finish`** on a faithful recorder returns the recipe of a recorder that is faithful to the
same sets and has passed the checks. -/
theorem finish_ok {m₀ : ℕ → UInt8} {W F T : Set ℕ} {r : Recorder} {result : ℕ} {regions : Bool}
    {recipe : Recipe} (h : Faithful m₀ W F T r) (hr : r.finish result regions = .ok recipe) :
    ∃ r', Harvest m₀ W F T r' ∧ recipe = r'.recipe := by
  unfold finish at hr
  cases hrej : r.rejection with
  | some why =>
    rw [hrej] at hr
    cases hr
  | none =>
    rw [hrej] at hr
    dsimp only at hr
    split_ifs at hr with hb
    cases hbody : r.prepare result regions with
    | error x =>
      rw [hbody] at hr
      cases hr
    | ok r' =>
      rw [hbody] at hr
      dsimp only at hr
      split_ifs at hr with hscratch
      cases hr
      unfold prepare at hbody
      obtain ⟨r₁, h₁, hbody⟩ := bind_ok hbody
      have hf₁ : Faithful m₀ W F T r₁ := by
        unfold region at h₁
        split_ifs at h₁ with hreg
        · exact narrow_faithful h h₁
        · cases h₁
          exact h
      obtain ⟨r₂, h₂, hbody⟩ := bind_ok hbody
      have hf₂ : Faithful m₀ W F T r₂ := by
        refine cover_faithful ?_ h₂
        exact hf₁.congr rfl rfl rfl rfl rfl rfl rfl
      obtain ⟨hfill, hpristine⟩ := codeCheck_fills hf₂.sane hbody
      have hcode : r'.instructions = r₂.instructions := by
        obtain ⟨ps, c, rfl⟩ := hfill.same
        rfl
      refine ⟨r', ⟨hf₂.fills (hfill.mono (Set.empty_subset W)), ?_, by omega⟩, rfl⟩
      rw [hcode]
      exact hpristine

/-! ### The inputs -/

/-- Some input of a recipe gives the byte at `a` the value `v`. -/
def HasInput (inputs : List Segment) (a : ℕ) (v : UInt8) : Prop :=
  ∃ s ∈ inputs, s.address ≤ a ∧ s.bytes[a - s.address]? = some v

theorem hasInput_cons {s : Segment} {ss : List Segment} {a : ℕ} {v : UInt8} :
    HasInput (s :: ss) a v ↔
      (s.address ≤ a ∧ s.bytes[a - s.address]? = some v) ∨ HasInput ss a v := by
  unfold HasInput
  rw [List.exists_mem_cons_iff]

theorem runEnd_spec (p : ObservedPage) : ∀ {fuel i : ℕ}, PAGE - i ≤ fuel → i ≤ PAGE →
    i ≤ runEnd p fuel i ∧ runEnd p fuel i ≤ PAGE ∧
      (∀ j, i ≤ j → j < runEnd p fuel i → p.input.test j = true) ∧
      (p.input.test i = true → i < PAGE → i < runEnd p fuel i)
  | 0, i, hf, hi => by
    rw [runEnd]
    exact ⟨le_rfl, hi, fun j h1 h2 => by omega, fun _ h => by omega⟩
  | fuel + 1, i, hf, hi => by
    rw [runEnd]
    split_ifs with hrun
    · obtain ⟨h1, h2, h3, -⟩ := (@runEnd_spec p fuel (i + 1)) (by omega) hrun.1
      refine ⟨by omega, h2, fun j hj hlt => ?_, fun _ _ => h1⟩
      rcases Nat.eq_or_lt_of_le hj with rfl | hj
      · exact hrun.2
      · exact h3 j hj hlt
    · exact ⟨le_rfl, hi, fun j h1 h2 => by omega, fun h1 h2 => absurd ⟨h2, h1⟩ hrun⟩

/-- **The inputs of a page** are its input bytes, with the values that were copied. -/
theorem hasInput_segments (addr : ℕ) (p : ObservedPage) {a : ℕ} {v : UInt8} :
    ∀ {fuel i : ℕ}, PAGE - i ≤ fuel → i ≤ PAGE →
      (HasInput (segments addr p fuel i) a v ↔
        ∃ j, i ≤ j ∧ j < PAGE ∧ p.input.test j = true ∧ a = addr + j ∧ v = p.data j)
  | 0, i, hf, hi => by
    rw [segments]
    constructor
    · rintro ⟨s, hs, -⟩
      cases hs
    · rintro ⟨j, h1, h2, -⟩
      omega
  | fuel + 1, i, hf, hi => by
    rw [segments]
    split_ifs with hend hbit
    · constructor
      · rintro ⟨s, hs, -⟩
        cases hs
      · rintro ⟨j, h1, h2, -⟩
        omega
    · rw [(@hasInput_segments addr p _ _ fuel (i + 1)) (by omega) (by omega)]
      constructor
      · rintro ⟨j, h1, h2⟩
        exact ⟨j, by omega, h2⟩
      · rintro ⟨j, h1, h2, h3, h4⟩
        refine ⟨j, ?_, h2, h3, h4⟩
        rcases Nat.eq_or_lt_of_le h1 with rfl | h1
        · rw [h3] at hbit
          cases hbit
        · exact h1
    · have hset : p.input.test i = true := by simpa using hbit
      obtain ⟨h1, h2, h3, h4⟩ := runEnd_spec p (le_refl (PAGE - i)) hi
      have hlt := h4 hset (by omega)
      rw [hasInput_cons, hasInput_segments addr p (by omega) h2]
      -- the first run, and what comes after it
      have hrun : (addr + i ≤ a ∧ ((List.range (runEnd p (PAGE - i) i - i)).map
            fun k => p.data (i + k))[a - (addr + i)]? = some v) ↔
          ∃ j, i ≤ j ∧ j < runEnd p (PAGE - i) i ∧ a = addr + j ∧ v = p.data j := by
        rw [List.getElem?_map]
        constructor
        · rintro ⟨ha, hv⟩
          obtain ⟨k, hk, hv⟩ := Option.map_eq_some_iff.mp hv
          obtain ⟨hlen, hk⟩ := List.getElem?_eq_some_iff.mp hk
          rw [List.length_range] at hlen
          rw [List.getElem_range] at hk
          exact ⟨i + k, by omega, by omega, by omega, hv.symm⟩
        · rintro ⟨j, hj1, hj2, rfl, rfl⟩
          refine ⟨by omega, ?_⟩
          rw [show addr + j - (addr + i) = j - i by omega,
            List.getElem?_range (by omega), Option.map_some, show i + (j - i) = j by omega]
      rw [hrun]
      constructor
      · rintro (⟨j, hj1, hj2, hj3⟩ | ⟨j, hj1, hj2, hj3⟩)
        · exact ⟨j, hj1, by omega, h3 j hj1 hj2, hj3⟩
        · exact ⟨j, by omega, hj2, hj3⟩
      · rintro ⟨j, hj1, hj2, hj3, hj4⟩
        by_cases hin : j < runEnd p (PAGE - i) i
        · exact Or.inl ⟨j, hj1, hin, hj4⟩
        · exact Or.inr ⟨j, by omega, hj2, hj3, hj4⟩

theorem hasInput_flatMap {α : Type} (f : α → List Segment) (xs : List α) {a : ℕ} {v : UInt8} :
    HasInput (xs.flatMap f) a v ↔ ∃ x ∈ xs, HasInput (f x) a v := by
  unfold HasInput
  constructor
  · rintro ⟨s, hs, hv⟩
    obtain ⟨x, hx, hs⟩ := List.mem_flatMap.mp hs
    exact ⟨x, hx, s, hs, hv⟩
  · rintro ⟨x, hx, s, hs, hv⟩
    exact ⟨s, List.mem_flatMap.mpr ⟨x, hx, hs⟩, hv⟩

section Recipe

variable {m₀ : ℕ → UInt8} {W F T : Set ℕ} {r : Recorder}

/-- **The inputs of the recipe** are the bytes that were read first, with their values before the
first event. -/
theorem Harvest.hasInput_iff (h : Harvest m₀ W F T r) {a : ℕ} {v : UInt8} :
    HasInput r.recipe.inputs a v ↔ a ∈ F ∧ v = m₀ a := by
  unfold recipe
  dsimp only
  rw [hasInput_flatMap]
  constructor
  · rintro ⟨⟨k, p⟩, hx, hin⟩
    obtain ⟨j, -, hj, hset, rfl, rfl⟩ :=
      (hasInput_segments k p (Nat.sub_le _ _) (Nat.zero_le _)).mp hin
    have hk : r.pages[k]? = some p := Std.TreeMap.mem_toList_iff_getElem?_eq_some.mp hx
    have hmem : k ∈ r.pages := by
      rw [Std.TreeMap.mem_iff_isSome_getElem?, hk]
      rfl
    have hmod := h.faithful.sane.keys k hmem
    have hbase : base (k + j) = k := by
      unfold base PAGE at *
      omega
    have hoff : (k + j) % PAGE = j := by
      unfold PAGE at *
      omega
    have hat : r.pageAt (k + j) = p := by
      unfold pageAt
      rw [hbase, hk]
      rfl
    have hbit : r.inputBit (k + j) = true := by
      unfold inputBit
      rw [hat, hoff]
      exact hset
    have hF := (h.faithful.input _).mp hbit
    refine ⟨hF, ?_⟩
    rw [← h.faithful.data _ hF]
    unfold dataAt
    rw [hat, hoff]
  · rintro ⟨hF, rfl⟩
    have hbit := (h.faithful.input a).mpr hF
    have hdata := h.faithful.data a hF
    unfold inputBit at hbit
    unfold dataAt at hdata
    cases hk : r.pages[base a]? with
    | none =>
      have hat : r.pageAt a = ObservedPage.fresh := by
        unfold pageAt
        rw [hk]
        rfl
      rw [hat] at hbit
      exact absurd hbit (by
        rw [show ObservedPage.fresh.input = Masks.ByteMask.empty from rfl,
          Masks.ByteMask.test_empty]
        decide)
    | some p =>
      have hat : r.pageAt a = p := by
        unfold pageAt
        rw [hk]
        rfl
      rw [hat] at hbit hdata
      refine ⟨(base a, p), Std.TreeMap.mem_toList_iff_getElem?_eq_some.mpr hk, ?_⟩
      refine (hasInput_segments _ p (Nat.sub_le _ _) (Nat.zero_le _)).mpr ⟨a % PAGE, Nat.zero_le _,
        Nat.mod_lt _ PAGE_pos, hbit, (base_add_mod a).symm, hdata.symm⟩

/-- **The pages of the recipe**: a touched page is listed or part of the output. -/
theorem Harvest.touched (h : Harvest m₀ W F T r) {a : ℕ} (ha : a ∈ T) :
    base a ∈ r.recipe.pages ∨ (r.recipe.h.output ≤ base a ∧
      base a < r.recipe.h.output + rounded r.recipe.h.length) := by
  have halign := h.faithful.aligned
  have hhigh := h.faithful.high
  show base a ∈ r.pages.keys.filter (outside r.h) ∨
    (r.h.output ≤ base a ∧ base a < r.h.output + rounded r.h.length)
  by_cases hout : base a < r.h.output ∨ r.h.output + rounded r.h.length ≤ base a
  · left
    rcases h.faithful.noted a ha with hp | hb
    · exact List.mem_filter.mpr ⟨Std.TreeMap.mem_keys.mpr hp, decide_eq_true hout⟩
    · -- a byte behind the frontier is on a page of the output
      have := le_rounded r.h.length
      have := hb.1
      have := hb.2
      unfold base PAGE at *
      omega
  · exact Or.inr (by omega)

end Recipe

end Afterfree.Recording.Finish
