import Afterfree.Recording.Finish

/-!
# Regions

Which part of the output a recipe is for. Without regions the whole output has to have been written
(`cover_complete`). With regions `finish` searches for the longest run of whole pages that were
written (`scan_searched`); it keeps the whole output when all of it was written, takes the run when
the run is long enough, and throws otherwise (`finish_region`).
-/

namespace Afterfree.Recording.Regions

open Afterfree.Common Afterfree.Codec Afterfree.Recording.Capture
  Afterfree.Recording.Capture.Recorder
open Afterfree.Recording.Finish Afterfree.Recording.Runs Afterfree.Lib.Footprint

/-! ### The header -/

/-- The header of the recorder a step leaves, also when it throws. -/
def header : Result → Header
  | .ok r => r.h
  | .error x => x.1.h

theorem caught_h (x : Result) : (caught x).h = header x := by
  cases x <;> rfl

theorem header_bind {x : Result} {f : Recorder → Result} {h : Header} (hx : header x = h)
    (hf : ∀ r, r.h = h → header (f r) = h) : header (x >>= f) = h := by
  cases x with
  | ok r => exact hf r hx
  | error y => exact hx

theorem header_page (r : Recorder) (addr : ℕ) : header (r.page addr) = r.h := by
  unfold page
  split_ifs <;> rfl

theorem header_readLoop (m : ℕ → UInt8) : ∀ (fuel : ℕ) (r : Recorder) (addr n : ℕ),
    header (r.readLoop m fuel addr n) = r.h
  | 0, r, addr, n => by
    rw [readLoop_zero]
    rfl
  | fuel + 1, r, addr, n => by
    rw [readLoop_succ]
    split_ifs with h0
    · rfl
    refine header_bind (header_page r addr) fun r₁ h₁ => ?_
    cases hw : r₁.readWord m addr (min n (64 - addr % PAGE % 64)) with
    | none => exact h₁
    | some r₂ =>
      have h₂ : r₂.h = r₁.h := by
        unfold readWord copyWord at hw
        dsimp only at hw
        split_ifs at hw <;> cases hw <;> rfl
      exact (header_readLoop m fuel r₂ _ _).trans (h₂.trans h₁)

theorem header_writeLoop : ∀ (fuel : ℕ) (r : Recorder) (addr n : ℕ),
    header (r.writeLoop fuel addr n) = r.h
  | 0, _, _, _ => rfl
  | fuel + 1, r, addr, n => by
    rw [Recorder.writeLoop]
    split_ifs with h0
    · rfl
    refine header_bind (header_page r addr) fun r₁ h₁ => ?_
    exact (header_writeLoop fuel _ _ _).trans h₁

theorem foldl_notePlan_h : ∀ (ps : List Plan) (r : Recorder), (ps.foldl notePlan r).h = r.h
  | [], _ => rfl
  | p :: ps, r => by
    rw [List.foldl_cons, foldl_notePlan_h ps]
    unfold notePlan
    cases p.rejection <;> rfl

/-- **An event keeps the header**, unless it is the first instruction. -/
theorem note_header (m : ℕ → UInt8) (r : Recorder) (e : Event) :
    (e.note m r).h =
      match e with
      | .begin regs xmm mxcsr => (r.begin m regs xmm mxcsr).h
      | _ => r.h := by
  cases e with
  | begin regs xmm mxcsr => rfl
  | rule a =>
    simp only [Event.note, Recorder.rule]
    split_ifs <;> rfl
  | block start stop =>
    have hfold := foldl_notePlan_h (r.planned start stop) r
    simp only [Event.note, Recorder.block]
    cases r.blockCounts start stop with
    | some count =>
      dsimp only
      split_ifs <;> rfl
    | none =>
      dsimp only
      split_ifs <;> exact hfold
  | read addr n =>
    simp only [Event.note]
    unfold readAccess
    split_ifs
    · rfl
    · rw [caught_h]
      unfold Recorder.read
      split_ifs
      · rfl
      · exact header_readLoop m _ _ _ _
  | write addr bytes =>
    simp only [Event.note]
    unfold writeAccess
    split_ifs
    · rfl
    · rw [caught_h]
      unfold Recorder.write
      dsimp only
      split_ifs
      · rfl
      · rfl
      · exact header_writeLoop _ _ _ _

/-- **An event keeps the output.** -/
theorem note_output (m : ℕ → UInt8) (r : Recorder) (e : Event) :
    (e.note m r).h.output = r.h.output ∧ (e.note m r).h.length = r.h.length := by
  rw [note_header]
  cases e with
  | begin regs xmm mxcsr =>
    dsimp only
    unfold Recorder.begin
    split_ifs <;> exact ⟨rfl, rfl⟩
  | rule a | block start stop | read addr n | write addr bytes => exact ⟨rfl, rfl⟩

theorem capture_output : ∀ (es : List Event) (m : ℕ → UInt8) (r : Recorder),
    (capture m r es).2.h.output = r.h.output ∧ (capture m r es).2.h.length = r.h.length
  | [], _, _ => ⟨rfl, rfl⟩
  | e :: es, m, r => by
    obtain ⟨h1, h2⟩ := note_output m r e
    obtain ⟨h3, h4⟩ := capture_output es (e.update m) (e.note m r)
    exact ⟨h3.trans h1, h4.trans h2⟩

/-! ### Steps of `finish` that keep the header -/

theorem page_h {r r' : Recorder} {addr : ℕ} (h : r.page addr = .ok r') : r'.h = r.h := by
  have := header_page r addr
  rwa [h] at this

theorem each_keeps {α β : Type} {f : Recorder → α → Result} (g : Recorder → β)
    (hf : ∀ x s s', f s x = .ok s' → g s' = g s) :
    ∀ {xs : List α} {r r' : Recorder}, each f r xs = .ok r' → g r' = g r
  | [], r, r', h => by
    cases h
    rfl
  | x :: xs, r, r', h => by
    obtain ⟨r₁, h₁, h⟩ := bind_ok h
    exact (each_keeps g hf h).trans (hf x r r₁ h₁)

theorem keepOutside_h {r r' : Recorder} {start : ℕ} (h : r.keepOutside start = .ok r') :
    r'.h = r.h := by
  unfold keepOutside at h
  split_ifs at h
  · obtain ⟨r₁, hp, h⟩ := bind_ok h
    cases h
    have hh := page_h hp
    exact hh
  · cases h
    rfl

/-- **The header after narrowing.** -/
theorem narrow_h {r r' : Recorder} (h : r.narrow = .ok r') :
    if (!r.scan.complete) = true ∧ max 65536 (rounded (r.h.length / 2)) ≤ r.scan.bestLength then
      r'.h.output = r.h.output + r.scan.bestStart ∧ r'.h.length = r.scan.bestLength
    else r' = r := by
  unfold narrow at h
  dsimp only at h
  split_ifs at h ⊢ with hsel
  · obtain ⟨r₂, hloop, h⟩ := bind_ok h
    cases h
    have hh := each_keeps Recorder.h (fun _ _ _ => keepOutside_h) hloop
    exact ⟨congrArg Header.output hh, congrArg Header.length hh⟩
  · cases h
    rfl

theorem codeCheck_h {r r' : Recorder} {c : Instruction} (h : r.codeCheck c = .ok r') :
    r'.h = r.h := by
  refine each_keeps Recorder.h (fun a s s' h => ?_) h
  unfold codeByte at h
  obtain ⟨r₁, hp, h⟩ := bind_ok h
  split_ifs at h
  cases h
  exact page_h hp

/-! ### Coverage -/

section Coverage

variable {m₀ : ℕ → UInt8} {W F T : Set ℕ} {r r' : Recorder}

theorem page_byte {start a : ℕ} (hmod : start % PAGE = 0) (h1 : start ≤ a) (h2 : a < start + PAGE) :
    base a = start ∧ a % PAGE = a - start := by
  unfold base PAGE at *
  omega

/-- **`covered`** of a page of the output: all its bytes were written, behind the frontier or in the
masks. -/
theorem covered_iff (h : Faithful m₀ W F T r) {start count : ℕ} (hmod : start % PAGE = 0)
    (hlow : r.h.output ≤ start) (hpos : 0 < count) (hle : count ≤ PAGE) :
    r.covered start count = true ↔ Set.Ico start (start + count) ⊆ W := by
  unfold covered
  by_cases hfront : start + count ≤ r.outputFrontier
  · rw [if_pos hfront]
    refine ⟨fun _ a ha => (h.written a).mp (Or.inl ⟨hlow.trans ha.1, ha.2.trans_le hfront⟩),
      fun _ => rfl⟩
  rw [if_neg hfront]
  dsimp only
  generalize hfirst : (if start < r.outputFrontier then r.outputFrontier - start else 0) = first
  have hlt : first < count := by
    split_ifs at hfirst <;> omega
  have hbehind : ∀ a, start ≤ a → (r.behind a ↔ a < start + first) := by
    intro a ha
    unfold behind
    split_ifs at hfirst <;> omega
  have hbit : ∀ i < PAGE, ∀ p, r.pageAt (start + i) = p →
      r.writtenBit (start + i) = p.written.test i := by
    intro i hi p hp
    unfold writtenBit
    rw [hp, (page_byte hmod (Nat.le_add_right _ _) (by omega)).2, Nat.add_sub_cancel_left]
  have hat : ∀ i < PAGE, r.pageAt (start + i) = (r.pages[start]?).getD ObservedPage.fresh := by
    intro i hi
    unfold pageAt
    rw [(page_byte hmod (Nat.le_add_right _ _) (by omega)).1]
  rw [base_of_mod hmod]
  cases hpage : r.pages[start]? with
  | none =>
    -- the first byte past the frontier is on a page without a record
    refine ⟨fun hf => Bool.noConfusion hf, fun hall => ?_⟩
    have hw := (h.written (start + first)).mpr
      (hall ⟨Nat.le_add_right _ _, by omega⟩)
    rcases hw with hb | hb
    · exact absurd ((hbehind _ (Nat.le_add_right _ _)).mp hb) (lt_irrefl _)
    · rw [hbit first (by omega) _ (hat first (by omega)), hpage] at hb
      exact absurd hb (by
        rw [Option.getD_none, show ObservedPage.fresh.written = Masks.ByteMask.empty from rfl,
          Masks.ByteMask.test_empty]
        decide)
  | some p =>
    dsimp only
    rw [Masks.ByteMask.all_iff]
    have hp : ∀ i < PAGE, r.writtenBit (start + i) = p.written.test i := by
      intro i hi
      exact hbit i hi p (by rw [hat i hi, hpage, Option.getD_some])
    constructor
    · intro hall a ha
      obtain ⟨h1, h2⟩ := ha
      refine (h.written a).mp ?_
      by_cases hb : a < start + first
      · exact Or.inl ((hbehind a h1).mpr hb)
      · right
        rw [show a = start + (a - start) by omega, hp (a - start) (by omega)]
        exact hall (a - start) (by omega) (by omega)
    · intro hall i h1 h2
      have hw := (h.written (start + i)).mpr (hall ⟨by omega, by omega⟩)
      rw [← hp i (by omega)]
      exact hw.resolve_left fun hb => absurd ((hbehind _ (by omega)).mp hb) (by omega)

theorem coverPage_all {i : ℕ} (h : r.coverPage i = .ok r') : r'.h = r.h ∧
    (r'.pageAt (r.h.output + i)).written.all 0 (min PAGE (r.h.length - i)) = true := by
  unfold coverPage at h
  obtain ⟨r₁, hp, h⟩ := bind_ok h
  have hh := page_h hp
  dsimp only at h
  rw [← hh]
  generalize hr₂ : (if r₁.h.output + i < r₁.outputFrontier then r₁.markFrontier (r₁.h.output + i)
    else r₁) = r₂ at h
  have hh₂ : r₂.h = r₁.h := by
    rw [← hr₂]
    split_ifs <;> rfl
  split_ifs at h with hall
  cases h
  rw [hh₂] at hall
  exact ⟨hh₂, by simpa using hall⟩

/-- **The coverage check** passes only when the whole output was written. -/
theorem cover_complete (h : Faithful m₀ W F T r) (hr : r.cover = .ok r') :
    r'.h = r.h ∧ Set.Ico r.h.output (r.h.output + r.h.length) ⊆ W := by
  have hr' := cover_faithful h hr
  unfold cover at hr
  split_ifs at hr with hne
  · have hh : r'.h = r.h := each_keeps Recorder.h (fun _ _ _ h => (coverPage_all h).1) hr
    refine ⟨hh, fun a ha => ?_⟩
    obtain ⟨hf, hall⟩ := each_fills (V := {a | r.behind a})
      (Q := fun i s => ∀ a, base a = r.h.output + i → a < r.h.output + r.h.length →
        s.writtenBit a = true)
      (fun s s' i hfs hq a h1 h2 => hfs.grow a (hq a h1 h2)) h.sane (by
        intro i hi s s' hfs hstep
        have hmod : (r.h.output + i) % PAGE = 0 := by
          have := h.aligned
          have := (mem_pageOffsets.mp hi).1
          unfold PAGE at *
          omega
        have hsane := hfs.sane
        obtain ⟨ps, c, rfl⟩ := hfs.same
        refine ⟨coverPage_fills hsane hmod hstep, fun a h1 h2 => ?_⟩
        have hcov := (Masks.ByteMask.all_iff _ _ _).mp (coverPage_all hstep).2 (a % PAGE)
          (Nat.zero_le _)
        have hoff := base_add_mod a
        have hlt := Nat.mod_lt a PAGE_pos
        rw [h1] at hoff
        unfold writtenBit
        rw [show s'.pageAt a = s'.pageAt (r.h.output + i) by
          unfold pageAt
          rw [h1, base_of_mod hmod]]
        refine hcov ?_
        show a % PAGE < 0 + min PAGE (r.h.length - i)
        omega) hr
    have halign := h.aligned
    obtain ⟨h1, h2⟩ := ha
    have hmem : base a - r.h.output ∈ pageOffsets r.h.length := by
      rw [mem_pageOffsets]
      unfold base PAGE at *
      omega
    refine (hr'.written a).mp (Or.inr (hall _ hmem a ?_ h2))
    unfold base PAGE at *
    omega
  · cases hr
    refine ⟨rfl, fun a ha => (h.written a).mp (Or.inl ⟨ha.1, ?_⟩)⟩
    rw [not_not.mp hne]
    exact ha.2

end Coverage

/-! ### The search -/

/-- A run of whole pages of a buffer, all of whose bytes are in `W`. -/
structure PageRun (W : Set ℕ) (output length start count : ℕ) : Prop where
  start_mod : start % PAGE = 0
  count_mod : count % PAGE = 0
  inside : start + count ≤ length
  written : Set.Ico (output + start) (output + start + count) ⊆ W

/-- What the search knows after the pages below `done`. -/
structure Searched (W : Set ℕ) (output length done : ℕ) (s : Scan) : Prop where
  scanned : Scanned length done s
  complete : s.complete = true ↔ Set.Ico output (output + min done length) ⊆ W
  best : Set.Ico (output + s.bestStart) (output + s.bestStart + s.bestLength) ⊆ W
  run : done ≤ length → Set.Ico (output + done - s.run) (output + done) ⊆ W
  trailing : done ≤ length → ∀ start count, PageRun W output length start count →
    start + count = done → count ≤ s.run
  longest : ∀ start count, PageRun W output length start count → start + count ≤ done →
    count ≤ s.bestLength

section Search

variable {m₀ : ℕ → UInt8} {W F T : Set ℕ} {r : Recorder} {offset : ℕ} {s : Scan}

theorem PageRun.last {output length start count : ℕ} (h : PageRun W output length start count)
    (hmod : offset % PAGE = 0) (hend : start + count = offset + PAGE) (hpos : count ≠ 0) :
    start + (count - PAGE) = offset ∧ PAGE ≤ count ∧
      Set.Ico (output + offset) (output + offset + PAGE) ⊆ W ∧
      PageRun W output length start (count - PAGE) := by
  obtain ⟨h1, h2, h3, h4⟩ := h
  have hle : PAGE ≤ count := by
    unfold PAGE at *
    omega
  refine ⟨by omega, hle, fun a ha => h4 ⟨?_, ?_⟩, h1, ?_, by omega, fun a ha => h4 ⟨ha.1, ?_⟩⟩
  · exact le_trans (by omega) ha.1
  · exact lt_of_lt_of_le ha.2 (by omega)
  · unfold PAGE at *
    omega
  · exact lt_of_lt_of_le ha.2 (by omega)

theorem Searched.gap (h : Searched W r.h.output r.h.length offset s) (ho : offset % PAGE = 0)
    (hlt : offset < r.h.length)
    (hgap : ¬ Set.Ico (r.h.output + offset)
      (r.h.output + offset + min PAGE (r.h.length - offset)) ⊆ W)
    (hnext : Scanned r.h.length (offset + PAGE) { s with complete := false, run := 0 }) :
    Searched W r.h.output r.h.length (offset + PAGE) { s with complete := false, run := 0 } := by
  -- a run that ends behind the page would contain it
  have hnone : ∀ start count, PageRun W r.h.output r.h.length start count →
      start + count = offset + PAGE → count = 0 := by
    intro start count hrun hend
    by_contra hpos
    have hinside := hrun.inside
    obtain ⟨-, -, hpage, -⟩ := hrun.last ho hend hpos
    rw [Nat.min_eq_left (by omega)] at hgap
    exact hgap hpage
  refine ⟨hnext, ⟨fun hf => Bool.noConfusion hf, fun hall => ?_⟩, h.best, fun _ a ha => ?_,
    fun _ start count hrun hend => (hnone start count hrun hend).le,
    fun start count hrun hend => ?_⟩
  · refine absurd (fun a ha => hall ⟨?_, ?_⟩) hgap
    · exact le_trans (Nat.le_add_right _ _) ha.1
    · exact lt_of_lt_of_le ha.2 (by omega)
  · exact absurd ha.2 (not_lt.mpr ha.1)
  · by_cases hold : start + count ≤ offset
    · exact h.longest start count hrun hold
    · have hend' : start + count = offset + PAGE := by
        have := hrun.start_mod
        have := hrun.count_mod
        unfold PAGE at *
        omega
      rw [hnone start count hrun hend']
      exact Nat.zero_le _

theorem Searched.extend {best start' : ℕ} (h : Searched W r.h.output r.h.length offset s)
    (ho : offset % PAGE = 0) (hle : offset + PAGE ≤ r.h.length)
    (hpage : Set.Ico (r.h.output + offset) (r.h.output + offset + PAGE) ⊆ W)
    (hbest : s.run + PAGE ≤ best ∧ s.bestLength ≤ best)
    (hstart : Set.Ico (r.h.output + offset - s.run) (r.h.output + offset + PAGE) ⊆ W →
      Set.Ico (r.h.output + start') (r.h.output + start' + best) ⊆ W)
    (hnext : Scanned r.h.length (offset + PAGE) ⟨s.complete, s.run + PAGE, start', best⟩) :
    Searched W r.h.output r.h.length (offset + PAGE) ⟨s.complete, s.run + PAGE, start', best⟩ := by
  have hrun := h.run (by omega)
  have hle' := h.scanned.run_le
  have htrail : ∀ start count, PageRun W r.h.output r.h.length start count →
      start + count = offset + PAGE → count ≤ s.run + PAGE := by
    intro start count hp hend
    by_cases h0 : count = 0
    · omega
    · obtain ⟨h1, h2, -, hp'⟩ := hp.last ho hend h0
      have := h.trailing (by omega) start (count - PAGE) hp' h1
      omega
  -- the run up to the page and the page
  have hjoin : Set.Ico (r.h.output + offset - s.run) (r.h.output + offset + PAGE) ⊆ W := by
    intro a ha
    by_cases hin : a < r.h.output + offset
    · exact hrun ⟨ha.1, hin⟩
    · exact hpage ⟨not_lt.mp hin, ha.2⟩
  refine ⟨hnext, h.complete.trans ⟨fun hall a ha => ?_, fun hall a ha => hall ⟨ha.1, ?_⟩⟩,
    hstart hjoin, fun _ a ha => hjoin ⟨?_, ?_⟩, fun _ => htrail, fun start count hp hend => ?_⟩
  · have h1 := ha.1
    have h2 := ha.2
    by_cases hin : a < r.h.output + offset
    · exact hall ⟨h1, by omega⟩
    · exact hpage ⟨by omega, by omega⟩
  · exact lt_of_lt_of_le ha.2 (by omega)
  · have hmove : r.h.output + offset - s.run ≤ r.h.output + (offset + PAGE) - (s.run + PAGE) := by
      omega
    exact hmove.trans ha.1
  · exact lt_of_lt_of_le ha.2 (by omega)
  · by_cases hold : start + count ≤ offset
    · exact (h.longest start count hp hold).trans hbest.2
    · have hend' : start + count = offset + PAGE := by
        have := hp.start_mod
        have := hp.count_mod
        unfold PAGE at *
        omega
      exact (htrail start count hp hend').trans hbest.1

theorem Searched.short (h : Searched W r.h.output r.h.length offset s) (ho : offset % PAGE = 0)
    (hlt : offset < r.h.length) (hend : r.h.length < offset + PAGE)
    (hpage : Set.Ico (r.h.output + offset) (r.h.output + r.h.length) ⊆ W)
    (hnext : Scanned r.h.length (offset + PAGE) s) :
    Searched W r.h.output r.h.length (offset + PAGE) s := by
  refine ⟨hnext, h.complete.trans ⟨fun hall a ha => ?_, fun hall a ha => hall ⟨ha.1, ?_⟩⟩, h.best,
    fun hle => absurd hle (by omega), fun hle => absurd hle (by omega),
    fun start count hp _ => h.longest start count hp ?_⟩
  · have h1 := ha.1
    have h2 := ha.2
    by_cases hin : a < r.h.output + offset
    · exact hall ⟨h1, by omega⟩
    · exact hpage ⟨by omega, by omega⟩
  · exact lt_of_lt_of_le ha.2 (by omega)
  · have := hp.start_mod
    have := hp.count_mod
    have := hp.inside
    unfold PAGE at *
    omega

/-- **One page of the search.** -/
theorem Searched.scanPage (hf : Faithful m₀ W F T r)
    (h : Searched W r.h.output r.h.length offset s) (ho : offset % PAGE = 0)
    (hlt : offset < r.h.length) :
    Searched W r.h.output r.h.length (offset + PAGE) (r.scanPage s offset) := by
  have hmod : (r.h.output + offset) % PAGE = 0 := by
    have := hf.aligned
    unfold PAGE at *
    omega
  have hcov := (@covered_iff m₀ W F T r) hf hmod (Nat.le_add_right _ _)
    (show 0 < min PAGE (r.h.length - offset) by have := PAGE_pos; omega) (Nat.min_le_left _ _)
  have hnext := h.scanned.scanPage ho
  have hrun := h.scanned.run_le
  unfold Recorder.scanPage at hnext ⊢
  dsimp only at hnext ⊢
  split_ifs at hnext ⊢ with hc hlen hbest
  · refine h.gap ho hlt (fun hall => ?_) hnext
    rw [hcov.mpr hall] at hc
    cases hc
  · have hpage := hcov.mp (by simpa using hc)
    rw [hlen] at hpage
    refine h.extend ho (by omega) hpage ⟨le_rfl, hbest.le⟩ (fun hjoin a ha => hjoin ⟨?_, ?_⟩) hnext
    · exact le_trans (by omega) ha.1
    · exact lt_of_lt_of_le ha.2 (by omega)
  · have hpage := hcov.mp (by simpa using hc)
    rw [hlen] at hpage
    exact h.extend ho (by omega) hpage ⟨not_lt.mp hbest, le_rfl⟩ (fun _ => h.best) hnext
  · have hpage := hcov.mp (by simpa using hc)
    have hshort : min PAGE (r.h.length - offset) = r.h.length - offset := by omega
    rw [hshort, show r.h.output + offset + (r.h.length - offset) = r.h.output + r.h.length by omega]
      at hpage
    exact h.short ho hlt (by omega) hpage hnext

/-- **The search** finds a longest run of written pages, and whether all was written. -/
theorem scan_searched (hf : Faithful m₀ W F T r) :
    (r.scan.complete = true ↔ Set.Ico r.h.output (r.h.output + r.h.length) ⊆ W) ∧
      PageRun W r.h.output r.h.length r.scan.bestStart r.scan.bestLength ∧
      ∀ start count, PageRun W r.h.output r.h.length start count → count ≤ r.scan.bestLength := by
  have hall : ∀ n, n ≤ rounded r.h.length / PAGE → Searched W r.h.output r.h.length (n * PAGE)
      (((List.range n).map (· * PAGE)).foldl r.scanPage ⟨true, 0, 0, 0⟩) := by
    intro n
    induction n with
    | zero =>
      intro _
      refine ⟨⟨rfl, Nat.zero_le _, rfl, rfl, Nat.zero_le _⟩, ⟨fun _ a ha => ?_, fun _ => rfl⟩,
        fun a ha => ?_, fun _ a ha => ?_, fun _ start count _ h => ?_, fun start count _ h => ?_⟩
      · have h1 := ha.1
        have h2 := ha.2
        omega
      · exact absurd ha.2 (not_lt.mpr ha.1)
      · have h1 : r.h.output + 0 * PAGE - 0 ≤ a := ha.1
        have h2 := ha.2
        omega
      · show count ≤ 0
        omega
      · show count ≤ 0
        omega
    | succ n ih =>
      intro hn
      rw [List.range_succ, List.map_append, List.foldl_append, Nat.succ_mul]
      refine (ih (by omega)).scanPage hf (Nat.mul_mod_left _ _) ?_
      unfold rounded PAGE at *
      omega
  have h := hall (rounded r.h.length / PAGE) le_rfl
  have hdone : rounded r.h.length / PAGE * PAGE = rounded r.h.length :=
    Nat.div_mul_cancel (Nat.dvd_of_mod_eq_zero (rounded_mod _))
  rw [hdone] at h
  have hle := le_rounded r.h.length
  refine ⟨?_, ⟨h.scanned.start_mod, h.scanned.length_mod, h.scanned.inside, h.best⟩,
    fun start count hp => h.longest start count hp (hp.inside.trans hle)⟩
  have hc := h.complete
  rwa [Nat.min_eq_right hle] at hc

end Search

/-! ### `finish` -/

theorem region_counters {r r' : Recorder} {regions : Bool} (h : r.region regions = .ok r') :
    r'.steps = r.steps ∧ r'.liveBytes = r.liveBytes := by
  have hkeep : ∀ (x : ℕ) (s s' : Recorder), s.keepOutside x = .ok s' →
      (s'.steps, s'.liveBytes) = (s.steps, s.liveBytes) := by
    intro x s s' h
    unfold keepOutside at h
    split_ifs at h
    · obtain ⟨s₁, hp, h⟩ := bind_ok h
      cases h
      unfold page at hp
      split_ifs at hp <;> cases hp <;> rfl
    · cases h
      rfl
  unfold region at h
  split_ifs at h
  · unfold narrow at h
    dsimp only at h
    split_ifs at h
    · obtain ⟨r₂, hloop, h⟩ := bind_ok h
      cases h
      have hc := each_keeps (fun s : Recorder => (s.steps, s.liveBytes)) hkeep hloop
      exact ⟨congrArg Prod.fst hc, congrArg Prod.snd hc⟩
    · cases h
      exact ⟨rfl, rfl⟩
  · cases h
    exact ⟨rfl, rfl⟩

/-- What `finish` returns: the header of the recorder after the region was chosen, all of whose
output was written, with the counters. -/
theorem finish_header {m₀ : ℕ → UInt8} {W F T : Set ℕ} {r : Recorder} {result : ℕ} {regions : Bool}
    {recipe : Recipe} (h : Faithful m₀ W F T r) (hr : r.finish result regions = .ok recipe) :
    ∃ r₁, r.region regions = .ok r₁ ∧ recipe.h.output = r₁.h.output ∧
      recipe.h.length = r₁.h.length ∧ recipe.h.steps = r.steps ∧
      recipe.h.inputBytes = r.liveBytes ∧
      Set.Ico r₁.h.output (r₁.h.output + r₁.h.length) ⊆ W := by
  unfold finish at hr
  cases hrej : r.rejection with
  | some why =>
    rw [hrej] at hr
    cases hr
  | none =>
    rw [hrej] at hr
    dsimp only at hr
    split_ifs at hr with hb
    cases hbody : r.prepare result regions with
    | error x =>
      rw [hbody] at hr
      cases hr
    | ok r' =>
      rw [hbody] at hr
      dsimp only at hr
      split_ifs at hr with hscratch
      cases hr
      unfold prepare at hbody
      obtain ⟨r₁, h₁, hbody⟩ := bind_ok hbody
      have hf₁ : Faithful m₀ W F T r₁ := by
        unfold region at h₁
        split_ifs at h₁
        · exact narrow_faithful h h₁
        · cases h₁
          exact h
      obtain ⟨r₂, h₂, hbody⟩ := bind_ok hbody
      obtain ⟨hsteps, hlive⟩ := region_counters h₁
      obtain ⟨⟨ho, hl, hs, hi⟩, hall⟩ : (r₂.h.output = r₁.h.output ∧ r₂.h.length = r₁.h.length ∧
          r₂.h.steps = r₁.steps ∧ r₂.h.inputBytes = r₁.liveBytes) ∧
          Set.Ico r₁.h.output (r₁.h.output + r₁.h.length) ⊆ W := by
        refine (@cover_complete m₀ W F T _ _ ?_ h₂).imp (fun hh => ?_) fun hall => hall
        · exact hf₁.congr rfl rfl rfl rfl rfl rfl rfl
        · have ho := congrArg Header.output hh
          have hl := congrArg Header.length hh
          have hs := congrArg Header.steps hh
          have hi := congrArg Header.inputBytes hh
          exact ⟨ho, hl, hs, hi⟩
      have hh' : r'.h = r₂.h := each_keeps Recorder.h (fun _ _ _ => codeCheck_h) hbody
      refine ⟨r₁, h₁, ?_, ?_, ?_, ?_, hall⟩
      · exact (congrArg Header.output hh').trans ho
      · exact (congrArg Header.length hh').trans hl
      · exact (congrArg Header.steps hh').trans (hs.trans hsteps)
      · exact (congrArg Header.inputBytes hh').trans (hi.trans hlive)

/-- **Regions.** For every sequence of events: without regions `finish` returns only when every byte
of the output was written, and leaves the output as it is. With regions a recipe is for the whole
output when all of it was written, and otherwise for a longest run of written pages, which is at
least half of the output and 64 KiB long; when there is no such run `finish` throws. -/
theorem finish_region (m₀ : ℕ → UInt8) (t : Target) (fsBase gsBase result : ℕ) (es : List Event) :
    let r := (capture m₀ (Recorder.make t fsBase gsBase) es).2
    let W := {a | Written (accesses es) a}
    let whole := Set.Ico t.output (t.output + t.length) ⊆ W
    let enough := max 65536 (rounded (t.length / 2))
    (∀ recipe, r.finish result false = .ok recipe →
      whole ∧ recipe.h.output = t.output ∧ recipe.h.length = t.length) ∧
    (∀ recipe, r.finish result true = .ok recipe →
      (whole → recipe.h.output = t.output ∧ recipe.h.length = t.length) ∧
      (¬ whole → enough ≤ recipe.h.length ∧
        (∃ start, recipe.h.output = t.output + start ∧
          PageRun W t.output t.length start recipe.h.length) ∧
        ∀ start count, PageRun W t.output t.length start count → count ≤ recipe.h.length)) ∧
    (¬ whole → (¬ ∃ start count, PageRun W t.output t.length start count ∧ enough ≤ count) →
      ∃ why, r.finish result true = .error why) := by
  intro r W whole enough
  -- what any recipe says about the recorder
  have hknown : ∀ regions recipe, r.finish result regions = .ok recipe →
      Faithful m₀ W {a | FirstRead (accesses es) a} {a | Touched (accesses es) a} r := by
    intro regions recipe hfinish
    have hrej : r.rejection = none := by
      unfold finish at hfinish
      cases hr : r.rejection with
      | none => rfl
      | some why =>
        rw [hr] at hfinish
        cases hfinish
    exact ((Known.make m₀ t fsBase gsBase).capture hrej).2
  obtain ⟨hout, hlen⟩ : r.h.output = t.output ∧ r.h.length = t.length :=
    capture_output es m₀ (Recorder.make t fsBase gsBase)
  have hregion : ∀ recipe, r.finish result true = .ok recipe →
      (whole → recipe.h.output = t.output ∧ recipe.h.length = t.length) ∧
      (¬ whole → enough ≤ recipe.h.length ∧
        (∃ start, recipe.h.output = t.output + start ∧
          PageRun W t.output t.length start recipe.h.length) ∧
        ∀ start count, PageRun W t.output t.length start count → count ≤ recipe.h.length) := by
    intro recipe hfinish
    have hf := hknown true recipe hfinish
    obtain ⟨r₁, h₁, ho, hl, -, -, hall⟩ := finish_header hf hfinish
    obtain ⟨hcomplete, hrun, hlongest⟩ := scan_searched hf
    have hn := narrow_h h₁
    rw [hout, hlen] at hcomplete hrun hlongest hn
    split_ifs at hn with hsel
    · -- the output was narrowed, so some byte was not written
      have hnot : ¬ whole := fun hw => by
        have := hcomplete.mpr hw
        rw [this] at hsel
        cases hsel.1
      rw [ho, hl, hn.1, hn.2]
      exact ⟨fun hw => absurd hw hnot, fun _ => ⟨hsel.2, ⟨_, rfl, hrun⟩, hlongest⟩⟩
    · subst hn
      rw [hout, hlen] at hall
      exact ⟨fun _ => ⟨ho.trans hout, hl.trans hlen⟩, fun hnot => absurd hall hnot⟩
  refine ⟨fun recipe hfinish => ?_, hregion, fun hnot hnone => ?_⟩
  · obtain ⟨r₁, h₁, ho, hl, -, -, hall⟩ := finish_header (hknown false recipe hfinish) hfinish
    cases h₁
    rw [hout, hlen] at hall
    exact ⟨hall, ho.trans hout, hl.trans hlen⟩
  · cases hfinish : r.finish result true with
    | error why => exact ⟨why, rfl⟩
    | ok recipe =>
      obtain ⟨henough, ⟨start, -, hrun⟩, -⟩ := (hregion recipe hfinish).2 hnot
      exact absurd ⟨start, _, hrun, henough⟩ hnone

/-- Seventeen pages, of which the last is not written. -/
def regionEvents : List Event :=
  [.begin [] [] 0, .write 0x10000 (List.replicate 65536 7)]

theorem regionEvents_finish : ∃ recipe, (capture (fun _ => 0)
    (Recorder.make ⟨0x10000, 69632, by decide, by decide, by decide⟩ 0 0) regionEvents).2.finish 5
      true =
      .ok recipe ∧ recipe.h.length = 65536 := by
  have hr : (capture (fun _ => 0)
    (Recorder.make ⟨0x10000, 69632, by decide, by decide, by decide⟩ 0 0)
      regionEvents).2 = (Recorder.begin (fun _ => 0) (Recorder.make ⟨0x10000, 69632, by decide,
        by decide, by decide⟩ 0 0) [] [] 0).writeAccess 0x10000 65536 := by
    unfold regionEvents
    simp only [capture, Event.note, List.length_replicate]
  have hok : (((Recorder.begin (fun _ => 0) (Recorder.make ⟨0x10000, 69632, by decide, by decide,
      by decide⟩ 0 0) [] [] 0).writeAccess 0x10000 65536).finish 5 true).toOption.map
        (fun recipe => recipe.h.length) = some 65536 := by
    decide +kernel
  rw [hr]
  obtain ⟨recipe, hrecipe, hlength⟩ := Option.map_eq_some_iff.mp hok
  refine ⟨recipe, ?_, hlength⟩
  cases hf : ((Recorder.begin (fun _ => 0) (Recorder.make ⟨0x10000, 69632, by decide, by decide,
      by decide⟩ 0 0) [] [] 0).writeAccess 0x10000 65536).finish 5 true with
  | error e =>
    rw [hf] at hrecipe
    cases hrecipe
  | ok x =>
    rw [hf] at hrecipe
    cases hrecipe
    rfl

theorem finish_region_sample :
    ∃ recipe, (capture (fun _ => 0)
        (Recorder.make ⟨0x10000, 69632, by decide, by decide, by decide⟩ 0 0) regionEvents).2.finish
          5
          true = .ok recipe ∧
      65536 ≤ recipe.h.length ∧ ∃ start, recipe.h.output = 0x10000 + start ∧
        PageRun {a | Written (accesses regionEvents) a} 0x10000 69632 start recipe.h.length := by
  have hnot : ¬ Set.Ico 0x10000 (0x10000 + 69632) ⊆ {a | Written (accesses regionEvents) a} := by
    intro hall
    have hw : Written (accesses regionEvents) 0x20000 := hall ⟨by decide, by decide⟩
    unfold regionEvents accesses at hw
    simp only [Event.access, Written, List.flatMap_cons, List.flatMap_nil, List.nil_append,
      List.append_nil, List.mem_singleton, exists_eq_left, Access.writes,
        List.length_replicate] at hw
    exact absurd hw.2 (by decide)
  obtain ⟨recipe, hfinish, -⟩ := regionEvents_finish
  obtain ⟨h1, h2, -⟩ := ((finish_region (fun _ => 0)
    ⟨0x10000, 69632, by decide, by decide, by decide⟩ 0 0 5 regionEvents).2.1 recipe hfinish).2 hnot
  exact ⟨recipe, hfinish, (le_max_left _ _).trans h1, h2⟩

end Afterfree.Recording.Regions
