import Afterfree.Recording.Regions

/-!
# Counting inputs

`live_bytes` is the number of input bytes (`Tallied`), and the inputs of a recipe list them in order
and once each (`cells_recipe`, `cells_sorted`), so that their sizes add up to what the header says
(`finish_inputBytes`).
-/

namespace Afterfree.Recording.Counting

open Afterfree.Common Afterfree.Codec Afterfree.Recording.Capture
  Afterfree.Recording.Capture.Recorder
open Afterfree.Recording.Finish Afterfree.Recording.Runs Afterfree.Lib.Footprint

/-! ### Live bytes -/

/-- `live_bytes` counts the input bits. -/
structure Tallied (r : Recorder) : Prop where
  finite : {a | r.inputBit a = true}.Finite
  count : r.liveBytes = {a | r.inputBit a = true}.ncard

section Tally

variable {m : ℕ → UInt8} {V : Set ℕ} {r r' : Recorder}

theorem Tallied.congr (h : Tallied r) (hi : ∀ a, r'.inputBit a = r.inputBit a)
    (hl : r'.liveBytes = r.liveBytes) : Tallied r' := by
  have hset : {a | r'.inputBit a = true} = {a | r.inputBit a = true} := by
    ext a
    exact Eq.congr_left (hi a)
  exact ⟨hset ▸ h.finite, by rw [hset, hl, h.count]⟩

theorem Tallied.fills (h : Tallied r) (hf : Fills V r r') : Tallied r' := by
  refine h.congr hf.input ?_
  obtain ⟨ps, c, rfl⟩ := hf.same
  rfl

theorem ncard_needed (r : Recorder) {addr count : ℕ} (hfit : addr % 64 + count ≤ 64) :
    {a | (addr ≤ a ∧ a < addr + count) ∧ r.writtenBit a = false ∧ r.inputBit a = false ∧
      ¬ r.behind a}.Finite ∧
    {a | (addr ≤ a ∧ a < addr + count) ∧ r.writtenBit a = false ∧ r.inputBit a = false ∧
      ¬ r.behind a}.ncard = (bitsOf (r.needed addr count)).length := by
  have hset : {a | (addr ≤ a ∧ a < addr + count) ∧ r.writtenBit a = false ∧ r.inputBit a = false ∧
      ¬ r.behind a} =
      ((bitsOf (r.needed addr count)).map (addr / 64 * 64 + ·)).toFinset := by
    ext a
    simp only [List.coe_toFinset, Set.mem_ofPred_eq, List.mem_map, bitsOf, List.mem_filter,
      List.mem_range]
    constructor
    · intro hnew
      have hword : a / 64 = addr / 64 := by omega
      exact ⟨a % 64, ⟨Nat.mod_lt _ (by decide), (needed_iff r hfit hword).mpr hnew⟩, by omega⟩
    · rintro ⟨b, ⟨hlt, hbit⟩, rfl⟩
      refine (needed_iff r hfit (by omega)).mp ?_
      rwa [show (addr / 64 * 64 + b) % 64 = b by omega]
  have hnodup : ((bitsOf (r.needed addr count)).map (addr / 64 * 64 + ·)).Nodup :=
    (List.nodup_range.filter _).map fun _ _ h => Nat.add_left_cancel h
  rw [hset]
  refine ⟨Finset.finite_toSet _, ?_⟩
  rw [Set.ncard_coe_finset, List.toFinset_card_of_nodup hnodup, List.length_map]

theorem Tallied.readWord (h : Tallied r) {addr count : ℕ} (hfit : addr % 64 + count ≤ 64)
    (hr : r.readWord m addr count = some r') : Tallied r' := by
  obtain ⟨hfin, hcard⟩ := ncard_needed r hfit
  have hset : {a | r'.inputBit a = true} = {a | r.inputBit a = true} ∪
      {a | (addr ≤ a ∧ a < addr + count) ∧ r.writtenBit a = false ∧ r.inputBit a = false ∧
        ¬ r.behind a} := by
    obtain ⟨-, -, -, -, -, -, hbyte⟩ := readWord_cases hfit hr
    ext a
    exact (hbyte a).1
  have hdisj : Disjoint {a | r.inputBit a = true}
      {a | (addr ≤ a ∧ a < addr + count) ∧ r.writtenBit a = false ∧ r.inputBit a = false ∧
        ¬ r.behind a} := by
    refine Set.disjoint_left.mpr fun a ha hnew => ?_
    have hno : r.inputBit a = false := hnew.2.2.1
    have hyes : r.inputBit a = true := ha
    rw [hno] at hyes
    cases hyes
  have hlive : r'.liveBytes = r.liveBytes + (bitsOf (r.needed addr count)).length := by
    unfold Recorder.readWord copyWord at hr
    dsimp only at hr
    split_ifs at hr with hz hl
    · cases hr
      rw [hz]
      rfl
    · cases hr
      rfl
  refine ⟨hset ▸ h.finite.union hfin, ?_⟩
  rw [hset, Set.ncard_union_eq hdisj h.finite hfin, hcard, hlive, h.count]

theorem Sane.readWord (h : Sane r) {addr count : ℕ} (hfit : addr % 64 + count ≤ 64)
    (hr : r.readWord m addr count = some r') : Sane r' := by
  obtain ⟨ps, live, rfl, hkeep, honly, -⟩ := readWord_cases hfit hr
  refine ⟨h.cached.imp_right (hkeep _), fun p hp => ?_⟩
  rcases honly p hp with hp | rfl
  · exact h.keys p hp
  · exact base_mod addr

/-- **The loop of `read`** counts what it copies. -/
theorem Tallied.readLoop : ∀ {fuel : ℕ} {r : Recorder} {addr n : ℕ}, Sane r → Tallied r →
    r.readLoop m fuel addr n = .ok r' → r'.rejection = none → Tallied r' := by
  intro fuel
  induction fuel with
  | zero =>
    intro r addr n _ h hr _
    rw [readLoop_zero] at hr
    cases hr
    exact h
  | succ fuel ih =>
    intro r addr n hs h hr hrej
    rw [readLoop_succ] at hr
    split_ifs at hr with h0
    · cases hr
      exact h
    obtain ⟨r₁, hp, hr⟩ := bind_ok hr
    obtain ⟨hfill, -⟩ := page_ok hs hp
    have hfit : addr % 64 + min n (64 - addr % PAGE % 64) ≤ 64 := by
      have := (same_word (rfl : addr / 64 = addr / 64)).2.2
      omega
    cases hword : r₁.readWord m addr (min n (64 - addr % PAGE % 64)) with
    | none =>
      rw [hword] at hr
      cases hr
      cases hrej
    | some r₂ =>
      rw [hword] at hr
      exact ih (Sane.readWord hfill.sane hfit hword) ((h.fills hfill).readWord hfit hword) hr hrej

theorem Tallied.writeLoop : ∀ {fuel : ℕ} {r : Recorder} {addr n : ℕ}, Sane r → Tallied r →
    r.writeLoop fuel addr n = .ok r' → Tallied r' := by
  intro fuel
  induction fuel with
  | zero =>
    intro r addr n _ h hr
    cases hr
    exact h
  | succ fuel ih =>
    intro r addr n hs h hr
    rw [Recorder.writeLoop] at hr
    split_ifs at hr with h0
    · cases hr
      exact h
    obtain ⟨r₁, hp, hr⟩ := bind_ok hr
    obtain ⟨hfill, -⟩ := page_ok hs hp
    obtain ⟨hmark, -⟩ := (@fills_mark Set.univ r₁ addr (addr % PAGE) (min n (PAGE - addr % PAGE)))
      hfill.sane fun a _ _ _ => Set.mem_univ a
    exact ih hmark.sane ((h.fills hfill).fills hmark) hr

end Tally

theorem foldl_notePlan_inputs : ∀ (ps : List Plan) (r : Recorder),
    (ps.foldl notePlan r).pages = r.pages ∧ (ps.foldl notePlan r).liveBytes = r.liveBytes
  | [], _ => ⟨rfl, rfl⟩
  | p :: ps, r => by
    have hp : (r.notePlan p).pages = r.pages ∧ (r.notePlan p).liveBytes = r.liveBytes := by
      unfold notePlan
      cases p.rejection <;> exact ⟨rfl, rfl⟩
    obtain ⟨h1, h2⟩ := foldl_notePlan_inputs ps (r.notePlan p)
    exact ⟨h1.trans hp.1, h2.trans hp.2⟩

theorem Tallied.pages {r r' : Recorder} (h : Tallied r) (hp : r'.pages = r.pages)
    (hl : r'.liveBytes = r.liveBytes) : Tallied r' := by
  refine h.congr (fun a => ?_) hl
  unfold inputBit pageAt
  rw [hp]

/-- **One event** that does not reject. -/
theorem Tallied.note {m : ℕ → UInt8} {r : Recorder} {e : Event} (hs : Sane r) (h : Tallied r)
    (hrej : (e.note m r).rejection = none) : Tallied (e.note m r) := by
  cases e with
  | begin regs xmm mxcsr =>
    simp only [Event.note, Recorder.begin]
    split_ifs
    · exact h
    · exact h.pages rfl rfl
  | rule a =>
    simp only [Event.note, Recorder.rule]
    split_ifs <;> exact h.pages rfl rfl
  | block start stop =>
    obtain ⟨hp, hl⟩ := foldl_notePlan_inputs (r.planned start stop) r
    simp only [Event.note, Recorder.block]
    cases r.blockCounts start stop with
    | some count =>
      dsimp only
      split_ifs <;> exact h.pages rfl rfl
    | none =>
      dsimp only
      split_ifs <;> exact h.pages hp hl
  | read addr n =>
    have hr := note_rejection hrej
    simp only [Event.note, readAccess, hr, Option.isSome_none, Bool.false_eq_true, if_false]
      at hrej ⊢
    obtain ⟨r', hx, hc, hn⟩ := caught_none hrej
    rw [hc]
    unfold Recorder.read at hx
    split_ifs at hx
    · cases hx
      cases hn
    · exact h.readLoop hs hx hn
  | write addr bytes =>
    have hr := note_rejection hrej
    simp only [Event.note, writeAccess, hr, Option.isSome_none, Bool.false_eq_true, if_false]
      at hrej ⊢
    obtain ⟨r', hx, hc, hn⟩ := caught_none hrej
    rw [hc]
    unfold Recorder.write at hx
    dsimp only at hx
    split_ifs at hx
    · cases hx
      cases hn
    · cases hx
      exact h.pages rfl rfl
    · refine Tallied.writeLoop ?_ ?_ hx
      · exact ⟨hs.cached, hs.keys⟩
      · exact h.pages rfl rfl

/-- **A whole capture** that ends without a rejection. -/
theorem Tallied.capture {m₀ : ℕ → UInt8} : ∀ {es : List Event} {acc : List (Access ℕ UInt8)}
    {r : Recorder}, Known m₀ acc r → Tallied r →
    (capture (after m₀ acc) r es).2.rejection = none →
    Tallied (Capture.capture (after m₀ acc) r es).2
  | [], _, _, _, h, _ => h
  | e :: es, acc, r, hk, h, hrej => by
    rw [Capture.capture] at hrej ⊢
    have hnote : (e.note (after m₀ acc) r).rejection = none := capture_rejection hrej
    rw [update_eq_after] at hrej ⊢
    exact Tallied.capture (hk.note hnote).2 (h.note hk.sane hnote) hrej

theorem Tallied.make (t : Target) (fsBase gsBase : ℕ) :
    Tallied (Recorder.make t fsBase gsBase) := by
  have hset : {a | (Recorder.make t fsBase gsBase).inputBit a = true} = ∅ := by
    ext a
    have hpage : (Recorder.make t fsBase gsBase).pageAt a = ObservedPage.fresh := by
      show ((∅ : Std.TreeMap ℕ ObservedPage)[base a]?).getD _ = _
      rw [Std.TreeMap.getElem?_emptyc]
      rfl
    have hbit : (Recorder.make t fsBase gsBase).inputBit a = false := by
      unfold inputBit
      rw [hpage]
      exact Masks.ByteMask.test_empty _
    simp [hbit]
  exact ⟨hset ▸ Set.finite_empty, by rw [hset, Set.ncard_empty]; rfl⟩

/-! ### The inputs in order -/

/-- The addresses that inputs cover. -/
def cells (inputs : List Segment) : List ℕ :=
  inputs.flatMap fun s => (List.range s.bytes.length).map (s.address + ·)

theorem length_cells (inputs : List Segment) :
    (cells inputs).length = (inputs.map fun s => s.bytes.length).sum := by
  unfold cells
  rw [List.length_flatMap]
  simp only [List.length_map, List.length_range]

theorem cells_cons (s : Segment) (ss : List Segment) :
    cells (s :: ss) = (List.range s.bytes.length).map (s.address + ·) ++ cells ss :=
  List.flatMap_cons

theorem cells_flatMap {α : Type} (f : α → List Segment) (xs : List α) :
    cells (xs.flatMap f) = xs.flatMap fun x => cells (f x) := List.flatMap_assoc

/-- The input bytes of a page from byte `i` on. -/
def inputOffsets (p : ObservedPage) (i : ℕ) : List ℕ :=
  (List.range' i (PAGE - i)).filter p.input.test

theorem inputOffsets_end (p : ObservedPage) {i : ℕ} (h : PAGE ≤ i) : inputOffsets p i = [] := by
  unfold inputOffsets
  rw [Nat.sub_eq_zero_of_le h]
  rfl

theorem inputOffsets_step (p : ObservedPage) {i : ℕ} (h : i < PAGE) :
    inputOffsets p i =
      if p.input.test i then i :: inputOffsets p (i + 1) else inputOffsets p (i + 1) := by
  unfold inputOffsets
  rw [show PAGE - i = (PAGE - (i + 1)) + 1 by omega, List.range'_succ, List.filter_cons]

theorem inputOffsets_run (p : ObservedPage) : ∀ (n i : ℕ), i + n ≤ PAGE →
    (∀ j, i ≤ j → j < i + n → p.input.test j = true) →
    inputOffsets p i = (List.range n).map (i + ·) ++ inputOffsets p (i + n)
  | 0, i, _, _ => rfl
  | n + 1, i, hle, hall => by
    have ih := inputOffsets_run p n (i + 1) (by omega) fun j h1 h2 => hall j (by omega) (by omega)
    rw [inputOffsets_step p (by omega), if_pos (hall i le_rfl (by omega)), ih,
      List.range_succ_eq_map, List.map_cons, List.map_map, show i + 1 + n = i + (n + 1) by omega]
    refine congrArg (i :: · ++ _) (List.map_congr_left fun k _ => ?_)
    show i + 1 + k = i + (k + 1)
    omega

/-- **The inputs of a page** list its input bytes in order. -/
theorem cells_segments (addr : ℕ) (p : ObservedPage) : ∀ {fuel i : ℕ}, PAGE - i ≤ fuel → i ≤ PAGE →
    cells (segments addr p fuel i) = (inputOffsets p i).map (addr + ·)
  | 0, i, hf, hi => by
    rw [segments, inputOffsets_end p (by omega)]
    rfl
  | fuel + 1, i, hf, hi => by
    rw [segments]
    split_ifs with hend hbit
    · rw [inputOffsets_end p hend]
      rfl
    · rw [cells_segments addr p (by omega) (by omega), inputOffsets_step p (show i < PAGE by omega),
        if_neg]
      simpa using hbit
    · have hset : p.input.test i = true := by simpa using hbit
      obtain ⟨h1, h2, h3, h4⟩ := runEnd_spec p (le_refl (PAGE - i)) hi
      have hlt := h4 hset (by omega)
      rw [cells_cons, cells_segments addr p (by omega) h2,
        inputOffsets_run p (runEnd p (PAGE - i) i - i) i (by omega) fun j hj1 hj2 =>
          h3 j hj1 (by omega),
        List.map_append, List.map_map, show i + (runEnd p (PAGE - i) i - i) =
          runEnd p (PAGE - i) i by
          omega, List.length_map, List.length_range]
      refine congrArg (· ++ _) (List.map_congr_left fun k _ => ?_)
      show addr + i + k = addr + (i + k)
      omega

theorem mem_segments {addr : ℕ} {p : ObservedPage} {s : Segment} : ∀ {fuel i : ℕ}, i ≤ PAGE →
    s ∈ segments addr p fuel i →
    addr ≤ s.address ∧ 0 < s.bytes.length ∧ s.address + s.bytes.length ≤ addr + PAGE
  | 0, _, _, hs => by cases hs
  | fuel + 1, i, hi, hs => by
    rw [segments] at hs
    split_ifs at hs with hend hbit
    · cases hs
    · exact mem_segments (by omega) hs
    · have hset : p.input.test i = true := by simpa using hbit
      obtain ⟨h1, h2, -, h4⟩ := runEnd_spec p (le_refl (PAGE - i)) hi
      have hlt := h4 hset (by omega)
      rcases List.mem_cons.mp hs with rfl | hs
      · dsimp only
        rw [List.length_map, List.length_range]
        omega
      · exact mem_segments h2 hs

section Recipe

variable {m₀ : ℕ → UInt8} {W F T : Set ℕ} {r : Recorder}

/-- **An input of a recipe** is not empty and lies on one page that was noted. -/
theorem mem_inputs (hs : Sane r) {s : Segment} (h : s ∈ r.recipe.inputs) :
    base s.address ∈ r.pages ∧ 0 < s.bytes.length ∧
      s.address + s.bytes.length ≤ base s.address + PAGE := by
  obtain ⟨⟨k, p⟩, hx, h⟩ := List.mem_flatMap.mp h
  have hmem : k ∈ r.pages := by
    rw [Std.TreeMap.mem_iff_isSome_getElem?, Std.TreeMap.mem_toList_iff_getElem?_eq_some.mp hx]
    rfl
  obtain ⟨h1, h2, h3⟩ := mem_segments (Nat.zero_le _) h
  have hmod := hs.keys k hmem
  have hk : base s.address = k := by
    unfold base PAGE at *
    omega
  rw [hk]
  exact ⟨hmem, h2, h3⟩

theorem cells_recipe (r : Recorder) :
    cells r.recipe.inputs = r.pages.toList.flatMap fun x => (inputOffsets x.2 0).map (x.1 + ·) := by
  show cells (r.pages.toList.flatMap fun x => segments x.1 x.2 PAGE 0) = _
  rw [cells_flatMap]
  refine congrArg (r.pages.toList.flatMap ·) (funext fun x => ?_)
  exact cells_segments x.1 x.2 (Nat.sub_le _ _) (Nat.zero_le _)

/-- **The inputs of a recipe** cover increasing addresses. -/
theorem cells_sorted (hs : Sane r) : (cells r.recipe.inputs).Pairwise (· < ·) := by
  rw [cells_recipe, List.pairwise_flatMap]
  have hoff : ∀ (p : ObservedPage) {i : ℕ}, i ∈ inputOffsets p 0 → i < PAGE := by
    intro p i hi
    have := List.mem_range'_1.mp (List.mem_filter.mp hi).1
    omega
  constructor
  · intro x _
    rw [List.pairwise_map]
    refine List.Pairwise.imp (fun h => Nat.add_lt_add_left h _) ?_
    exact List.Pairwise.filter _ List.pairwise_lt_range'
  · have hmod : ∀ x ∈ r.pages.toList, x.1 % PAGE = 0 := by
      intro x hx
      refine hs.keys x.1 (Std.TreeMap.mem_iff_isSome_getElem?.mpr ?_)
      rw [Std.TreeMap.mem_toList_iff_getElem?_eq_some.mp hx]
      rfl
    refine List.Pairwise.imp_of_mem ?_ r.pages.ordered_keys_toList
    intro x y hx hy hlt a ha b hb
    obtain ⟨i, hi, rfl⟩ := List.mem_map.mp ha
    obtain ⟨j, hj, rfl⟩ := List.mem_map.mp hb
    have hxy : x.1 < y.1 := Nat.compare_eq_lt.mp hlt
    have h1 := hmod x hx
    have h2 := hmod y hy
    have h3 := hoff x.2 hi
    unfold PAGE at *
    omega

theorem mem_cells {inputs : List Segment} {a : ℕ} :
    a ∈ cells inputs ↔ ∃ v, HasInput inputs a v := by
  unfold cells HasInput
  rw [List.mem_flatMap]
  constructor
  · rintro ⟨s, hs, ha⟩
    obtain ⟨i, hi, rfl⟩ := List.mem_map.mp ha
    have hlt := List.mem_range.mp hi
    refine ⟨s.bytes[i], s, hs, Nat.le_add_right _ _, ?_⟩
    rw [Nat.add_sub_cancel_left, List.getElem?_eq_getElem hlt]
  · rintro ⟨v, s, hs, hle, hv⟩
    obtain ⟨hlt, -⟩ := List.getElem?_eq_some_iff.mp hv
    exact ⟨s, hs, List.mem_map.mpr ⟨a - s.address, List.mem_range.mpr hlt, by omega⟩⟩

theorem Harvest.sum_inputs (h : Harvest m₀ W F T r) :
    (r.recipe.inputs.map fun s => s.bytes.length).sum = F.ncard := by
  have hset : F = ((cells r.recipe.inputs).toFinset : Set ℕ) := by
    ext a
    rw [List.coe_toFinset, Set.mem_ofPred_eq, mem_cells]
    constructor
    · exact fun ha => ⟨m₀ a, h.hasInput_iff.mpr ⟨ha, rfl⟩⟩
    · rintro ⟨v, hv⟩
      exact (h.hasInput_iff.mp hv).1
  have hnodup : (cells r.recipe.inputs).Nodup :=
    (cells_sorted h.faithful.sane).imp fun hlt => Nat.ne_of_lt hlt
  rw [← length_cells, hset, Set.ncard_coe_finset, List.toFinset_card_of_nodup hnodup]

end Recipe

/-- **`input_bytes`** of a recipe is the sum of the sizes of its inputs. -/
theorem finish_inputBytes {m₀ : ℕ → UInt8} {W F T : Set ℕ} {r : Recorder} {result : ℕ}
    {regions : Bool} {recipe : Recipe} (h : Faithful m₀ W F T r) (ht : Tallied r)
    (hr : r.finish result regions = .ok recipe) :
    (recipe.inputs.map fun s => s.bytes.length).sum = recipe.h.inputBytes := by
  obtain ⟨r₁, -, -, -, -, hbytes, -⟩ := Regions.finish_header h hr
  obtain ⟨r', hr', rfl⟩ := finish_ok h hr
  have hset : F = {a | r.inputBit a = true} := by
    ext a
    exact (h.input a).symm
  rw [Harvest.sum_inputs hr', hbytes, ht.count, hset]

end Afterfree.Recording.Counting
