import Afterfree.Recording.Bounds
import Afterfree.Recording.Emulator
import Afterfree.Wrapping

/-!
# Limits of producer and consumer

What the recorder bounds while it runs, against what `decode` and the strict emulator check. The
limits of `rule` and `block` and the scratch check of `finish` are those of `decode` or below them.
Nothing bounds the number of inputs, one for each run of input bytes (`length_inputs`), so that
`decode` refuses what `finish` returned and `encode` accepted when there are too many of them
(`limits_disagree`).
-/

namespace Afterfree.Recording.Limits

open Afterfree.Common Afterfree.Codec Afterfree.Encoding Afterfree.Wrapping
open Afterfree.Recording.Capture Afterfree.Recording.Capture.Recorder Afterfree.Recording.Finish
open Afterfree.Recording.Runs Afterfree.Recording.Regions Afterfree.Recording.Counting
open Afterfree.Recording.Bounds Afterfree.Recording.Emulator Afterfree.Lib.Footprint

/-! ### One input for each run -/

theorem runEnd_stop (p : ObservedPage) : ∀ {fuel i : ℕ}, PAGE - i ≤ fuel →
    runEnd p fuel i < PAGE → p.input.test (runEnd p fuel i) = false
  | 0, i, hf, hlt => by
    rw [runEnd] at hlt
    omega
  | fuel + 1, i, hf, hlt => by
    rw [runEnd] at hlt ⊢
    split_ifs at hlt ⊢ with hrun
    · exact runEnd_stop p (by omega) hlt
    · by_contra hset
      exact hrun ⟨hlt, by simpa using hset⟩

theorem segments_start {addr : ℕ} {p : ObservedPage} {s : Segment} : ∀ {fuel i : ℕ},
    (i = 0 ∨ p.input.test (i - 1) = false ∨ (i < PAGE → p.input.test i = false)) →
    s ∈ segments addr p fuel i →
    ∃ j, j < PAGE ∧ s.address = addr + j ∧ (j = 0 ∨ p.input.test (j - 1) = false)
  | 0, _, _, hs => by cases hs
  | fuel + 1, i, hi, hs => by
    rw [segments] at hs
    split_ifs at hs with hend hbit
    · cases hs
    · exact segments_start (Or.inr (Or.inl (by simpa using hbit))) hs
    · have hset : p.input.test i = true := by simpa using hbit
      rcases List.mem_cons.mp hs with rfl | hs
      · refine ⟨i, by omega, rfl, ?_⟩
        rcases hi with hi | hi | hi
        · exact Or.inl hi
        · exact Or.inr hi
        · rw [hi (by omega)] at hset
          cases hset
      · exact segments_start (Or.inr (Or.inr (runEnd_stop p le_rfl))) hs

/-- The first bytes of the runs of a set of bytes; a run does not cross a page boundary. -/
def runStarts (F : Set ℕ) : Set ℕ := {a | a ∈ F ∧ (a % PAGE = 0 ∨ a - 1 ∉ F)}

section Inputs

variable {m₀ : ℕ → UInt8} {W F T : Set ℕ} {r : Recorder}

/-- **The inputs of a recipe** are in order and disjoint. -/
theorem inputs_sorted (hs : Sane r) :
    r.recipe.inputs.Pairwise fun a b => a.address + a.bytes.length ≤ b.address := by
  have hcells := (List.pairwise_flatMap.mp (cells_sorted hs)).2
  refine List.Pairwise.imp_of_mem (fun {a b} ha hb hlt => ?_) hcells
  have hapos := (mem_inputs hs ha).2.1
  have hbpos := (mem_inputs hs hb).2.1
  have h := hlt (a.address + (a.bytes.length - 1))
    (List.mem_map.mpr ⟨a.bytes.length - 1, List.mem_range.mpr (by omega), rfl⟩) b.address
    (List.mem_map.mpr ⟨0, List.mem_range.mpr hbpos, rfl⟩)
  omega

theorem input_byte (h : Harvest m₀ W F T r) {s : Segment} (hs : s ∈ r.recipe.inputs) {i : ℕ}
    (hi : i < s.bytes.length) : s.address + i ∈ F ∧ s.bytes.getD i 0 = m₀ (s.address + i) := by
  refine h.hasInput_iff.mp ⟨s, hs, Nat.le_add_right _ _, ?_⟩
  rw [Nat.add_sub_cancel_left, List.getD_eq_getElem?_getD, List.getElem?_eq_getElem hi,
    Option.getD_some]

theorem mem_runStarts (h : Harvest m₀ W F T r) {a : ℕ} :
    a ∈ runStarts F ↔ a ∈ r.recipe.inputs.map Segment.address := by
  have hs := h.faithful.sane
  have hF : ∀ b, b ∈ F ↔ b ∈ cells r.recipe.inputs := fun b => by
    rw [mem_cells]
    exact ⟨fun hb => ⟨m₀ b, h.hasInput_iff.mpr ⟨hb, rfl⟩⟩, fun ⟨v, hv⟩ => (h.hasInput_iff.mp hv).1⟩
  have hcell : ∀ {g : Segment} {b : ℕ}, g ∈ r.recipe.inputs → g.address ≤ b →
      b < g.address + g.bytes.length → b ∈ F := fun {g b} hg h1 h2 => by
    have hin := (input_byte h hg (show b - g.address < g.bytes.length by omega)).1
    rwa [Nat.add_sub_cancel' h1] at hin
  constructor
  · rintro ⟨ha, hstart⟩
    obtain ⟨g, hg, hin⟩ := List.mem_flatMap.mp ((hF a).mp ha)
    obtain ⟨i, hi, rfl⟩ := List.mem_map.mp hin
    have hlt := List.mem_range.mp hi
    refine List.mem_map.mpr ⟨g, hg, ?_⟩
    -- a byte inside an input is neither first on its page nor behind a gap
    by_contra hne
    obtain ⟨-, -, hpage⟩ := mem_inputs hs hg
    rcases hstart with h0 | hgap
    · unfold base PAGE at *
      omega
    · exact hgap (hcell hg (by omega) (by omega))
  · intro ha
    obtain ⟨g, hg, rfl⟩ := List.mem_map.mp ha
    have hpos := (mem_inputs hs hg).2.1
    refine ⟨hcell hg le_rfl (by omega), ?_⟩
    obtain ⟨⟨k, p⟩, hx, hgs⟩ := List.mem_flatMap.mp hg
    obtain ⟨j, hj, haddr, hstart⟩ := segments_start (Or.inl rfl) hgs
    have hk : r.pages[k]? = some p := Std.TreeMap.mem_toList_iff_getElem?_eq_some.mp hx
    have hmod := hs.keys k (by
      rw [Std.TreeMap.mem_iff_isSome_getElem?, hk]
      rfl)
    dsimp only at haddr hstart
    rcases Nat.eq_zero_or_pos j with rfl | hjpos
    · left
      rw [haddr]
      exact hmod
    · right
      have hclear := hstart.resolve_left (by omega)
      rw [← h.faithful.input]
      obtain ⟨hb, hi⟩ := Replay.base_add hmod (show j - 1 < PAGE by omega)
      have hprev : g.address - 1 = k + (j - 1) := by omega
      unfold inputBit pageAt
      rw [hprev, hb, hi, hk, Option.getD_some, hclear]
      decide

/-- **The number of inputs** is the number of runs. -/
theorem length_inputs (h : Harvest m₀ W F T r) :
    r.recipe.inputs.length = (runStarts F).ncard := by
  have hs := h.faithful.sane
  have hset : runStarts F = ((r.recipe.inputs.map Segment.address).toFinset : Set ℕ) := by
    ext a
    rw [List.coe_toFinset]
    exact mem_runStarts h
  have hnodup : (r.recipe.inputs.map Segment.address).Nodup := by
    refine List.pairwise_map.mpr ((inputs_sorted hs).imp_of_mem fun ha _ hle => ?_)
    have := (mem_inputs hs ha).2.1
    omega
  rw [hset, Set.ncard_coe_finset, List.toFinset_card_of_nodup hnodup, List.length_map]

end Inputs

/-! ### Agreement -/

/-- What `decode` asks of a capture beyond the limits of the recorder: the runs of first-read bytes
are not too many, neither accesses nor code reach the last page of the address space, and a byte of
an instruction that was read first had not changed when the instruction was copied. -/
structure Decodable (m₀ : ℕ → UInt8) (es : List Event) (code : List Instruction) : Prop where
  runs : (runStarts {a | FirstRead (accesses es) a}).ncard ≤ 1000000
  touched : ∀ a, Touched (accesses es) a → base a + PAGE ≤ UINT64_MAX
  reach : ∀ c ∈ code, base (c.address + c.size - 1) + PAGE ≤ UINT64_MAX
  unchanged : ∀ c ∈ code, ∀ i < c.size, FirstRead (accesses es) (c.address + i) →
    c.bytes.getD i 0 = m₀ (c.address + i)

section Agreement

variable {m₀ : ℕ → UInt8} {t : Target} {es : List Event} {r : Recorder} {recipe : Recipe}
  {result : ℕ} {regions : Bool}

/-- The recorded instructions do not overlap. -/
def Disjoint (code : List Instruction) : Prop :=
  code.Pairwise fun c d => c.address + c.size ≤ d.address ∨ d.address + d.size ≤ c.address

theorem code_sorted (h : Bounded r) (hd : Disjoint r.instructions) :
    r.instructions.Pairwise fun a b => a.address + a.size ≤ b.address := by
  have hkeys : r.instructions.Pairwise fun a b => a.address < b.address := by
    refine List.pairwise_map.mpr (List.Pairwise.imp_of_mem ?_ r.code.ordered_keys_toList)
    intro x y hx hy hlt
    have h1 := (h.code x.1 x.2 (Std.TreeMap.mem_toList_iff_getElem?_eq_some.mp hx)).2.1
    have h2 := (h.code y.1 y.2 (Std.TreeMap.mem_toList_iff_getElem?_eq_some.mp hy)).2.1
    rw [h1, h2]
    exact Nat.compare_eq_lt.mp hlt
  refine (hkeys.and hd).imp fun {a b} hab => ?_
  rcases hab.2 with hle | hle
  · exact hle
  · omega

theorem output_page {o n p : ℕ} (hmod : o % PAGE = 0) (hfit : o + rounded n ≤ UINT64_MAX)
    (hp : p % PAGE = 0) (hlt : p < o + rounded n) : p + PAGE ≤ UINT64_MAX := by
  have hr := rounded_mod n
  unfold PAGE at *
  omega

theorem encode_ok {b : List UInt8} (h : encode recipe = .ok b) :
    b.length ≤ MAX_BLOB ∧ (recipe.inputs.map fun s => s.bytes.length).sum ≤ b.length := by
  unfold encode at h
  dsimp only at h
  split_ifs at h with hlong
  cases h
  refine ⟨Nat.not_lt.mp hlong, (sum_le_flatMap recipe.inputs).trans ?_⟩
  unfold serialize counted
  simp only [List.length_append]
  omega

/-- **The pages of a recipe** may be decoded. -/
theorem pages_ok (hknown : Known m₀ (accesses es) r)
    (hobs : Observed (accesses es) r) (hhead : Headed t r)
    (hdec : Decodable m₀ es r.instructions) (hfinish : r.finish result regions = .ok recipe) :
    ∀ p ∈ recipe.pages, PageOk p := by
  obtain ⟨-, hpages, -⟩ := finish_kept hknown hfinish
  obtain ⟨r', hr, rfl⟩ := finish_ok hknown hfinish
  intro p hp
  have hmod : p % PAGE = 0 :=
    hr.faithful.sane.keys p (Std.TreeMap.mem_keys.mp (List.mem_filter.mp hp).1)
  refine ⟨hmod, ?_⟩
  rcases hpages p hp with hp | ⟨-, hlt⟩ | ⟨c, hc, i, hi, rfl⟩
  · obtain ⟨a, ha, rfl⟩ := hobs p hp
    exact hdec.touched a ha
  · rw [hhead.output, hhead.length] at hlt
    exact output_page t.aligned t.fits hmod hlt
  · have hreach := hdec.reach c hc
    have hle : base (c.address + i) ≤ base (c.address + c.size - 1) :=
      Nat.mul_le_mul_right _ (Nat.div_le_div_right (by omega))
    omega

/-- **The inputs of a recipe** may be decoded. -/
theorem inputs_ok (hdec : Decodable m₀ es r.instructions) {r' : Recorder}
    (hr : Harvest m₀ {a | Written (accesses es) a} {a | FirstRead (accesses es) a}
      {a | Touched (accesses es) a} r') : ∀ s ∈ r'.recipe.inputs, SegmentOk s := by
  intro s hs
  obtain ⟨-, hpos, hpage⟩ := mem_inputs hr.faithful.sane hs
  -- the last byte of the input was read
  have hlast : FirstRead (accesses es) (s.address + (s.bytes.length - 1)) :=
    (input_byte hr hs (by omega)).1
  have htop := hdec.touched _ hlast.touched
  have hsplit := base_add_mod (s.address + (s.bytes.length - 1))
  have hlt := Nat.mod_lt (s.address + (s.bytes.length - 1)) PAGE_pos
  have hsplit' := base_add_mod s.address
  refine ⟨hpos, ?_, by omega⟩
  unfold MAX_BLOB PAGE at *
  omega

/-- **The number of pages** of a recipe is bounded by the check of the scratch pages. -/
theorem length_pages (hbuffer : t.length ≤ MAX_BUFFER) (hhead : Headed t r)
    (hknown : Known m₀ (accesses es) r) (hfinish : r.finish result regions = .ok recipe) :
    recipe.pages.length ≤ 262144 := by
  obtain ⟨-, -, output, length, hh, hlow, hhigh, -, -⟩ := finish_kept hknown hfinish
  obtain ⟨r', hr, rfl⟩ := finish_ok hknown hfinish
  have hscratch := hr.scratch
  have hl : r'.h.length = length := congrArg Header.length hh
  have hp : r'.recipe.pages.length = (r'.pages.keys.filter (outside r'.h)).length := rfl
  have hout := hhead.output
  have hlen := hhead.length
  rw [hl, ← hp] at hscratch
  unfold MAX_BUFFER PAGE at *
  omega

theorem counted_fits (hbuffer : t.length ≤ MAX_BUFFER) (hresult : result < 256 ^ 8)
    (hbound : Bounded r) (hhead : Headed t r) (hlive : r.liveBytes ≤ MAX_BLOB)
    (hknown : Known m₀ (accesses es) r) (hfinish : r.finish result regions = .ok recipe)
    (hinputs : recipe.inputs.length < 256 ^ 4) :
    HeaderFits (counted recipe).h := by
  have hpageLen := length_pages hbuffer hhead hknown hfinish
  obtain ⟨hcode, -, output, length, hh, hlow, hhigh, -, -⟩ := finish_kept hknown hfinish
  have hcodeLen : recipe.code.length ≤ 1000000 := by
    rw [hcode]
    exact hbound.length_instructions
  have hwords := hhead.fits.words
  have hhalves := hhead.fits.halves
  simp only [List.forall_mem_cons] at hwords hhalves
  obtain ⟨w1, w2, w3, w4, -, -, -, -, -, w5⟩ := hwords
  obtain ⟨w6, -, -, -, w7⟩ := hhalves
  have hsteps := hbound.steps
  have hfit := t.fits
  have hle := le_rounded t.length
  rw [hhead.output, hhead.length] at hhigh
  have h8 : (256 : ℕ) ^ 8 = 18446744073709551616 := by norm_num
  have h4 : (256 : ℕ) ^ 4 = 4294967296 := by norm_num
  unfold counted
  dsimp only
  rw [hh]
  refine ⟨?_, ?_, hhead.fits.regs_length, hhead.fits.regs, hhead.fits.xmm_length, hhead.fits.xmm,
    hhead.fits.digest⟩
  · simp only [List.forall_mem_cons]
    unfold UINT64_MAX MAX_BLOB at *
    exact ⟨w1, w2, w3, w4, by omega, by omega, hresult, by omega, by omega, w5⟩
  · simp only [List.forall_mem_cons]
    exact ⟨w6, by omega, by omega, hinputs, w7⟩

/-- **A decodable capture** gives a well-formed recipe. -/
theorem wellFormed_of_decodable (hbuffer : t.length ≤ MAX_BUFFER) (hresult : result < 256 ^ 8)
    (hknown : Known m₀ (accesses es) r) (htally : Tallied r) (hbound : Bounded r)
    (hobs : Observed (accesses es) r) (hhead : Headed t r) (hd : Disjoint r.instructions)
    (hfinish : r.finish result regions = .ok recipe) {b : List UInt8}
    (hencode : encode recipe = .ok b) (hdec : Decodable m₀ es r.instructions) :
    WellFormed (counted recipe) := by
  have hpagesOk := pages_ok hknown hobs hhead hdec hfinish
  have hpageLen := length_pages hbuffer hhead hknown hfinish
  have hbytes := finish_inputBytes hknown htally hfinish
  obtain ⟨hcode, -, output, length, hh, hlow, hhigh, hmod, hpos⟩ := finish_kept hknown hfinish
  obtain ⟨r', hr, rfl⟩ := finish_ok hknown hfinish
  obtain ⟨hblob, hsum⟩ := encode_ok hencode
  have hs := hr.faithful.sane
  have hfit := t.fits
  rw [hhead.output, hhead.length] at hhigh
  rw [hhead.length] at hpos
  have hlen := hpos t.pos
  have hcodeLen : r'.recipe.code.length ≤ 1000000 := by
    rw [hcode]
    exact hbound.length_instructions
  have hinputLen : r'.recipe.inputs.length ≤ 1000000 := (length_inputs hr).trans_le hdec.runs
  have hlive : r.liveBytes ≤ MAX_BLOB := by
    have hcount := congrArg Header.inputBytes hh
    dsimp only at hcount
    omega
  have hrounded : output + rounded length ≤ UINT64_MAX := by
    rw [← rounded_add hmod]
    exact (rounded_mono hhigh).trans ((rounded_add t.aligned).trans_le hfit)
  refine ⟨?_, ?_, rfl, rfl, rfl, hpagesOk, ?_, inputs_ok hdec hr, hbytes, ?_, ?_,
    inputs_sorted hs, ?_⟩
  · exact counted_fits hbuffer hresult hbound hhead hlive hknown hfinish (by omega)
  · have hsteps := hbound.steps
    have hmx := hhead.mxcsr
    have hl : length ≤ MAX_BUFFER := by
      have hout := hhead.output
      omega
    unfold counted invalidHeader
    dsimp only
    rw [hh]
    simp only [Bool.or_eq_false_iff, decide_eq_false_iff_not, not_not, Nat.not_lt]
    exact ⟨⟨⟨⟨⟨⟨⟨⟨⟨⟨hhead.magic, hhead.version⟩, by omega⟩, hl⟩, hmod⟩, by omega⟩, hpageLen⟩,
      hcodeLen⟩, hinputLen⟩, hsteps⟩, hmx⟩
  · show ∀ c ∈ r'.recipe.code, InstructionOk c
    rw [hcode]
    exact fun c hc => hbound.instructionOk hc
  · refine List.Pairwise.filter _ (List.Pairwise.imp (fun hlt => ?_) Std.TreeMap.ordered_keys)
    exact Nat.compare_eq_lt.mp hlt
  · show r'.recipe.code.Pairwise _
    rw [hcode]
    exact code_sorted hbound hd
  · intro s hsg c hc a h1 h2 h3 h4
    have hc' : c ∈ r.instructions := by
      rw [← hcode]
      exact hc
    obtain ⟨hF, hv⟩ := input_byte hr hsg (show a - s.address < s.bytes.length by omega)
    have hsame := hdec.unchanged c hc' (a - c.address) (by omega)
    rw [Nat.add_sub_cancel' h1] at hF hv
    rw [Nat.add_sub_cancel' h3] at hsame
    rw [hv, hsame hF]

/-- A page of the recipe's own output is not the last of the address space, and the others may be
decoded: so no noted page is. -/
theorem noted_page {W F T : Set ℕ} (hr : Harvest m₀ W F T r) (hw : WellFormed (counted r.recipe))
    {p : ℕ} (hp : p ∈ r.recipe.pages ∨
      (p % PAGE = 0 ∧ r.h.output ≤ p ∧ p < r.h.output + rounded r.h.length)) :
    p + PAGE ≤ UINT64_MAX := by
  rcases hp with hp | ⟨hmod, -, hlt⟩
  · exact (hw.pages p hp).2
  · obtain ⟨-, -, -, hfit, -⟩ := hw.bounds
    exact output_page hr.faithful.aligned hfit hmod hlt

/-- **A well-formed recipe** comes from a decodable capture. -/
theorem decodable_of_wellFormed (hknown : Known m₀ (accesses es) r)
    (hfinish : r.finish result regions = .ok recipe) (hw : WellFormed (counted recipe)) :
    Decodable m₀ es r.instructions := by
  obtain ⟨hcode, -⟩ := finish_kept hknown hfinish
  obtain ⟨r', hr, rfl⟩ := finish_ok hknown hfinish
  refine ⟨?_, fun a ha => ?_, fun c hc => ?_, fun c hc i hi hF => ?_⟩
  · rw [← length_inputs hr]
    have hhead := hw.header
    unfold invalidHeader counted at hhead
    simp only [Bool.or_eq_false_iff, decide_eq_false_iff_not, Nat.not_lt] at hhead
    exact hhead.1.1.2
  · exact noted_page hr hw ((hr.touched ha).imp_right fun hout => ⟨base_mod a, hout⟩)
  · rw [← hcode] at hc
    have hpos := (mem_instructions hr hc).pos
    have hpage := (hr.pristine c hc (c.size - 1) (by omega)).1
    rw [show c.address + (c.size - 1) = c.address + c.size - 1 by omega] at hpage
    refine noted_page hr hw ((noted_cases hr hpage).imp_right fun hin => ⟨base_mod _, ?_⟩)
    obtain ⟨o, ho, he⟩ := List.mem_map.mp hin
    have hlt := (mem_pageOffsets.mp ho).2
    rw [← he]
    exact ⟨Nat.le_add_right _ _, Nat.add_lt_add_left hlt _⟩
  · rw [← hcode] at hc
    have hin : HasInput r'.recipe.inputs (c.address + i) (m₀ (c.address + i)) :=
      hr.hasInput_iff.mpr ⟨hF, rfl⟩
    obtain ⟨s, hs, hle, hget⟩ := hin
    obtain ⟨hlt, -⟩ := List.getElem?_eq_some_iff.mp hget
    have hag := hw.agree s hs c hc (c.address + i) hle (by omega) (Nat.le_add_right _ _) (by omega)
    rw [Nat.add_sub_cancel_left] at hag
    rw [← hag, List.getD_eq_getElem?_getD, hget, Option.getD_some]

end Agreement

/-- **Limits of producer and consumer.** For every capture that `finish` turns into a recipe which
`encode` accepts: decoding gives the recipe back, and the strict replay maps and seeds it unless
code is in its output, exactly when the capture is `Decodable`. -/
theorem limits_agree (m₀ : ℕ → UInt8) (t : Target) (fsBase gsBase result : ℕ) (regions : Bool)
    (es : List Event) (recipe : Recipe) (b : List UInt8)
    (hbuffer : t.length ≤ MAX_BUFFER) (hfs : fsBase < 256 ^ 8) (hgs : gsBase < 256 ^ 8)
    (hresult : result < 256 ^ 8) (hregs : ∀ e ∈ es, RegistersOk e)
    (hdisjoint : Disjoint (capture m₀ (Recorder.make t fsBase gsBase) es).2.instructions)
    (hfinish : (capture m₀ (Recorder.make t fsBase gsBase) es).2.finish result regions = .ok recipe)
    (hencode : encode recipe = .ok b) :
    (decode64 b = .ok (counted recipe) ∧
      ∀ why, Replay.setup recipe = .error why → why = "output overlaps code") ↔
      Decodable m₀ es (capture m₀ (Recorder.make t fsBase gsBase) es).2.instructions := by
  have hrej : (capture m₀ (Recorder.make t fsBase gsBase) es).2.rejection = none := by
    unfold finish at hfinish
    cases hr : (capture m₀ (Recorder.make t fsBase gsBase) es).2.rejection with
    | none => rfl
    | some why =>
      rw [hr] at hfinish
      cases hfinish
  have hknown := ((Known.make m₀ t fsBase gsBase).capture hrej).2
  have htally := Tallied.capture (Known.make m₀ t fsBase gsBase) (Tallied.make t fsBase gsBase) hrej
  have hbound := (Bounded.make t fsBase gsBase).capture hrej
  have hobs := (Observed.make t fsBase gsBase).capture hrej
  have hhead := (Headed.make t hfs hgs).capture (m := m₀) hregs
  rw [List.nil_append] at hknown hobs
  have hblob := (encode_ok hencode).1
  have hvector : b.length ≤ UINT64_MAX := hblob.trans (by decide)
  rw [decode64_eq hvector]
  constructor
  · rintro ⟨hdecode, -⟩
    exact decodable_of_wellFormed hknown hfinish (decode_iff.mp hdecode).1
  · intro hdec
    have hw := wellFormed_of_decodable hbuffer hresult hknown htally hbound hobs hhead hdisjoint
      hfinish hencode hdec
    refine ⟨?_, fun why hwhy => ?_⟩
    · have hsorted : sorted (counted recipe) = counted recipe := sorted_of_wellFormed hw
      have hdecode := decode_encode (hsorted.symm ▸ hw) hencode
      rwa [hsorted] at hdecode
    · obtain ⟨r', hr, rfl⟩ := finish_ok hknown hfinish
      by_cases hover : ∃ c ∈ r'.instructions, Replay.overlaps r'.h c = true
      · obtain ⟨s, K, hs, -, hag⟩ := setup_eq hr
        rw [hs, seedCode_overlap hag (fun c hc => code_seed hr hc) hover] at hwhy
        exact (Except.error.inj hwhy).symm
      · obtain ⟨s, K, hs, -⟩ := setup_ok hr fun c hc =>
          Bool.eq_false_iff.mpr fun ho => hover ⟨c, hc, ho⟩
        rw [hs] at hwhy
        cases hwhy

/-! ### Too many runs -/

/-- The only instruction of a loop that reads every other byte. -/
def sparseInstruction : Analysis := ⟨0x5000, 3, three_bytes, three_short, three_fit, none⟩

/-- An output of one byte. -/
def sparseTarget : Target := ⟨0x10000, 1, by decide, by decide, by decide⟩

/-- The first instruction. -/
def sparseStart : List Event :=
  [.rule sparseInstruction,
    .begin (List.replicate 18 0) (List.replicate 16 (List.replicate 16 0)) 0, .block 0x5000 0x5003]

/-- The loop. -/
def sparseReads (n : ℕ) : List Event :=
  (List.range n).flatMap fun i => [.block 0x5000 0x5003, .read (0x100000 + 2 * i) 1]

/-- A capture with `n` runs of input bytes. -/
def sparseEvents (n : ℕ) : List Event := sparseStart ++ (sparseReads n ++ [.write 0x10000 [7]])

/-- The pages the loop reads. -/
def sparsePages : List ℕ := (List.range 489).map (0x100000 + PAGE * ·)

/-- The recorder after `k` iterations. -/
structure Sparse (k : ℕ) (r : Recorder) : Prop where
  rejection : r.rejection = none
  began : r.began = true
  output : r.h.output = 0x10000
  length : r.h.length = 1
  frontier : r.outputFrontier = 0x10000
  counted : r.blockCounts 0x5000 0x5003 = some 1
  steps : r.steps = k + 1
  live : r.liveBytes ≤ k
  pages : ∀ p ∈ r.pages, p ∈ sparsePages
  code : r.instructions.map (fun c => (c.address, c.size)) = [(0x5000, 3)]

/-- **A read of one byte** below the limits of pages and bytes. -/
theorem readAccess_byte {m : ℕ → UInt8} {r : Recorder} {addr : ℕ} (hrej : r.rejection = none)
    (hsize : r.pages.size ≤ 262144) (hlive : r.liveBytes + 1 ≤ MAX_BLOB / 2) (hlow : PAGE ≤ addr)
    (hhigh : addr + 1 ≤ UINT64_MAX) :
    ∃ ps c live, r.readAccess m addr 1 =
      { r with pages := ps, cachedBase := c, liveBytes := live } ∧
      live ≤ r.liveBytes + 1 := by
  obtain ⟨ps, c, hpage⟩ := page_succeeds hsize addr
  have hcount : min 1 (64 - addr % PAGE % 64) = 1 := by omega
  -- at most one bit is set in the word
  have hbits : (bitsOf
    (({ r with pages := ps, cachedBase := c } : Recorder).needed addr 1)).length ≤
      1 := by
    obtain ⟨hfin, hcard⟩ := ncard_needed { r with pages := ps, cachedBase := c }
      (show addr % 64 + 1 ≤ 64 by omega)
    rw [← hcard]
    refine (Set.ncard_le_ncard (fun a ha => ?_) (Set.finite_singleton addr)).trans_eq
      (Set.ncard_singleton addr)
    have h1 := ha.1
    exact Set.mem_singleton_iff.mpr (by omega)
  have hloop : ∃ ps c live, r.readLoop m 1 addr 1 =
      .ok { r with pages := ps, cachedBase := c, liveBytes := live } ∧ live ≤ r.liveBytes + 1 := by
    rw [readLoop_succ, if_neg (by decide), hpage, ok_bind]
    rw [hcount]
    unfold Recorder.readWord copyWord
    dsimp only
    split_ifs with hz hlong
    · exact ⟨ps, c, r.liveBytes, rfl, Nat.le_succ _⟩
    · omega
    · exact ⟨_, c, _, rfl, Nat.add_le_add_left hbits _⟩
  obtain ⟨ps', c', live, hloop, hle⟩ := hloop
  refine ⟨ps', c', live, ?_, hle⟩
  unfold Recorder.readAccess Recorder.read
  rw [if_neg (by rw [hrej]; decide), if_neg (by unfold PAGE UINT64_MAX at *; omega), hloop]
  rfl

/-- **One iteration** of the loop. -/
theorem Sparse.iterate {k : ℕ} {r : Recorder} (h : Sparse k r) (hk : k < 1000001) (m : ℕ → UInt8) :
    Sparse (k + 1) ((r.block 0x5000 0x5003).readAccess m (0x100000 + 2 * k) 1) := by
  have hsteps := h.steps
  have hblock : r.block 0x5000 0x5003 = { r with steps := r.steps + 1 } := by
    unfold Recorder.block
    rw [h.counted]
    dsimp only
    rw [if_neg (by omega)]
  have hsize : r.pages.size ≤ 262144 := (size_le_length h.pages).trans (by
    unfold sparsePages
    rw [List.length_map, List.length_range]
    decide)
  have hlive := h.live
  have hlow : PAGE ≤ 0x100000 + 2 * k := by
    unfold PAGE
    omega
  obtain ⟨ps, c, live, hread, hle⟩ :=
    readAccess_byte (m := m) (r := { r with steps := r.steps + 1 })
    h.rejection hsize (by unfold MAX_BLOB; dsimp only; omega) hlow (by unfold UINT64_MAX; omega)
  -- the page of the byte is one of those of the loop
  have hrej : (Event.note m { r with steps := r.steps + 1 }
      (.read (0x100000 + 2 * k) 1)).rejection = none := by
    show (Recorder.readAccess m _ _ _).rejection = none
    rw [hread]
    exact h.rejection
  have hnotes : Notes (pagesOf (0x100000 + 2 * k) 1) { r with steps := r.steps + 1 }
      (Recorder.readAccess m { r with steps := r.steps + 1 } (0x100000 + 2 * k) 1) :=
    Notes.access hrej
  rw [hread] at hnotes
  rw [hblock, hread]
  refine ⟨h.rejection, h.began, h.output, h.length, h.frontier, h.counted, ?_, ?_, fun p hp => ?_,
    h.code⟩
  · exact congrArg (· + 1) hsteps
  · exact hle.trans (Nat.succ_le_succ hlive)
  · rcases hnotes.pages p hp with hp | ⟨a, h1, h2, rfl⟩
    · exact h.pages p hp
    · refine List.mem_map.mpr ⟨a / PAGE - 256, List.mem_range.mpr ?_, ?_⟩
      · unfold PAGE
        omega
      · unfold base PAGE
        omega

/-- **The loop**, by induction on the number of iterations. -/
theorem Sparse.reads {r : Recorder} (h : Sparse 0 r) (m : ℕ → UInt8) : ∀ n ≤ 1000001,
    (capture m r (sparseReads n)).1 = m ∧ Sparse n (capture m r (sparseReads n)).2
  | 0, _ => ⟨rfl, h⟩
  | n + 1, hn => by
    obtain ⟨h1, h2⟩ := Sparse.reads h m n (by omega)
    have hsplit : sparseReads (n + 1) =
        sparseReads n ++ [.block 0x5000 0x5003, .read (0x100000 + 2 * n) 1] := by
      unfold sparseReads
      rw [List.range_succ, List.flatMap_append]
      rfl
    rw [hsplit, capture_append, h1]
    exact ⟨rfl, h2.iterate (by omega) m⟩

theorem sparseStart_spec :
    Sparse 0 (capture (fun _ => 0) (Recorder.make sparseTarget 0 0) sparseStart).2 := by
  have hkeys : (capture (fun _ => 0) (Recorder.make sparseTarget 0 0) sparseStart).2.pages.keys =
    [] := by
    decide +kernel
  refine ⟨by decide +kernel, by
    decide +kernel, by decide +kernel, by decide +kernel, by decide +kernel,
    by decide +kernel, by decide +kernel, by decide +kernel, fun p hp => ?_, by decide +kernel⟩
  rw [← Std.TreeMap.mem_keys, hkeys] at hp
  cases hp

theorem each_succeeds {α : Type} {P : Recorder → Prop} {f : Recorder → α → Result} :
    ∀ {xs : List α} {r : Recorder}, (∀ x ∈ xs, ∀ s, P s → ∃ s', f s x = .ok s' ∧ P s') → P r →
      ∃ r', each f r xs = .ok r' ∧ P r'
  | [], r, _, hr => ⟨r, rfl, hr⟩
  | x :: xs, r, hf, hr => by
    obtain ⟨r₁, h₁, hr₁⟩ := hf x List.mem_cons_self r hr
    obtain ⟨r₂, h₂, hr₂⟩ := each_succeeds (fun y hy => hf y (List.mem_cons_of_mem _ hy)) hr₁
    refine ⟨r₂, ?_, hr₂⟩
    rw [each, h₁, ok_bind]
    exact h₂

/-- The recorder during the code check: the page of the code is noted and not written. -/
structure Checking (h : Header) (r : Recorder) : Prop where
  header : r.h = h
  pages : ∀ p ∈ r.pages, p ∈ 0x5000 :: sparsePages
  clean : ∀ p, r.pages[0x5000]? = some p → p.written.any = false

theorem Checking.codeByte {h : Header} {r : Recorder} (hr : Checking h r) {a : ℕ}
    (ha : base a = 0x5000) : ∃ r', r.codeByte a = .ok r' ∧ Checking h r' := by
  have hsize : r.pages.size ≤ 262144 := (size_le_length hr.pages).trans (by
    unfold sparsePages
    rw [List.length_cons, List.length_map, List.length_range]
    decide)
  have hpage : ∃ r', r.page a = .ok r' ∧ Checking h r' := by
    unfold Recorder.page
    rw [ha]
    split_ifs with hc hlimit
    · exact ⟨r, rfl, hr⟩
    · omega
    · refine ⟨_, rfl, hr.header, fun p hp => ?_, fun p hp => ?_⟩
      · rw [Std.TreeMap.mem_insertIfNew, Nat.compare_eq_eq] at hp
        rcases hp with rfl | hp
        · exact List.mem_cons_self
        · exact hr.pages p hp
      · dsimp only at hp
        rw [Std.TreeMap.getElem?_insertIfNew] at hp
        split_ifs at hp
        · cases hp
          decide
        · exact hr.clean p hp
  obtain ⟨r', hpage, hr'⟩ := hpage
  refine ⟨r', ?_, hr'⟩
  have hclean : (r'.pageAt a).written.any = false := by
    unfold pageAt
    rw [ha]
    cases hk : r'.pages[0x5000]? with
    | none => decide
    | some p => exact hr'.clean p hk
  unfold Recorder.codeByte
  rw [hpage, ok_bind, hclean]
  rfl

theorem prepare_full {r : Recorder} {result : ℕ} (h : r.outputFrontier = r.h.output + r.h.length) :
    r.prepare result false = each codeCheck
      { r with h := { r.h with result, steps := r.steps, inputBytes := r.liveBytes } }
      r.instructions := by
  have hcover : ∀ s : Recorder, s.outputFrontier = s.h.output + s.h.length → s.cover = .ok s := by
    intro s hs
    unfold cover
    rw [if_neg (not_not.mpr hs)]
  unfold prepare region
  rw [if_neg (by decide), ok_bind]
  dsimp only
  rw [hcover { r with h := { r.h with result, steps := r.steps, inputBytes := r.liveBytes } } h,
    ok_bind]
  rfl

theorem finish_succeeds {r r' : Recorder} {result : ℕ} {regions : Bool} (hrej : r.rejection = none)
    (hbegan : r.began = true) (hprepare : r.prepare result regions = .ok r')
    (hscratch : (r'.pages.keys.filter (outside r'.h)).length * PAGE ≤
      r'.h.length / 4 + 4 * 2 ^ 20) :
    r.finish result regions = .ok r'.recipe := by
  unfold Recorder.finish
  rw [hrej]
  dsimp only
  rw [hbegan, if_neg (by decide), hprepare]
  dsimp only
  rw [if_neg (Nat.not_lt.mpr hscratch)]

/-- **`finish` returns** after the loop and the write of the output. -/
theorem Sparse.finish {k : ℕ} {r : Recorder} (h : Sparse k r) :
    (r.writeAccess 0x10000 1).rejection = none ∧
      (r.writeAccess 0x10000 1).instructions = r.instructions ∧
      ∃ recipe, (r.writeAccess 0x10000 1).finish 0 false = .ok recipe := by
  have hwrite : r.writeAccess 0x10000 1 =
      { r with lastStoreEnd := 0x10001, outputFrontier := 0x10001 } := by
    unfold Recorder.writeAccess Recorder.write
    rw [if_neg (by rw [h.rejection]; decide), if_neg (by unfold PAGE UINT64_MAX; omega)]
    dsimp only
    rw [if_pos ⟨h.output.le, h.frontier.ge, by rw [h.output, h.length]⟩, h.frontier]
    rfl
  rw [hwrite]
  refine ⟨h.rejection, rfl, ?_⟩
  have hcode : ∀ c ∈ r.instructions, c.address = 0x5000 ∧ c.size = 3 := by
    intro c hc
    have hin := List.mem_map_of_mem (f := fun c : Instruction => (c.address, c.size)) hc
    rw [h.code, List.mem_singleton, Prod.mk.injEq] at hin
    exact hin
  have hout := h.output
  have hlen := h.length
  have hprepare :
    ∃ r', Recorder.prepare { r with lastStoreEnd := 0x10001, outputFrontier := 0x10001 }
      0 false = .ok r' ∧
        Checking { r.h with result := 0, steps := r.steps, inputBytes := r.liveBytes } r' := by
    rw [prepare_full (by dsimp only; rw [hout, hlen])]
    refine each_succeeds (fun c hc s hs => each_succeeds (fun a ha s hs => hs.codeByte ?_) hs)
      ⟨rfl, fun p hp => List.mem_cons_of_mem _ (h.pages p hp), fun p hp => ?_⟩
    · obtain ⟨h1, h2⟩ := hcode c hc
      obtain ⟨i, hi, rfl⟩ := List.mem_map.mp ha
      have hlt := List.mem_range.mp hi
      rw [h1]
      unfold base PAGE
      omega
    · -- the loop reads no page of the code
      have hmem : 0x5000 ∈ r.pages := by
        rw [Std.TreeMap.mem_iff_isSome_getElem?, hp]
        rfl
      obtain ⟨i, -, hi⟩ := List.mem_map.mp (h.pages _ hmem)
      omega
  obtain ⟨r', hprepare, hr'⟩ := hprepare
  have hscratch : (r'.pages.keys.filter (outside r'.h)).length ≤ 490 := by
    refine (List.length_filter_le _ _).trans ?_
    rw [Std.TreeMap.length_keys]
    refine (size_le_length hr'.pages).trans ?_
    unfold sparsePages
    rw [List.length_cons, List.length_map, List.length_range]
  refine ⟨r'.recipe, finish_succeeds h.rejection h.began hprepare ?_⟩
  unfold PAGE
  omega

/-! ### The capture of the loop -/

theorem accesses_sparseReads (n : ℕ) : ∀ a,
    (FirstRead (accesses (sparseReads n)) a ↔ ∃ i < n, a = 0x100000 + 2 * i) ∧
      ¬ Written (accesses (sparseReads n)) a := by
  induction n with
  | zero =>
    intro a
    refine ⟨⟨fun h => h.elim, ?_⟩, ?_⟩
    · rintro ⟨i, hi, -⟩
      omega
    · rintro ⟨e, he, -⟩
      cases he
  | succ n ih =>
    intro a
    obtain ⟨hread, hwritten⟩ := ih a
    have hsplit : accesses (sparseReads (n + 1)) = accesses (sparseReads n) ++
        [.read (Set.Ico (0x100000 + 2 * n) (0x100000 + 2 * n + 1))] := by
      unfold accesses sparseReads
      rw [List.range_succ, List.flatMap_append, List.flatMap_append]
      rfl
    rw [hsplit]
    constructor
    · rw [firstRead_snoc, hread, and_iff_right hwritten]
      constructor
      · rintro (⟨i, hi, rfl⟩ | ⟨h1, h2⟩)
        · exact ⟨i, by omega, rfl⟩
        · exact ⟨n, by omega, by omega⟩
      · rintro ⟨i, hi, rfl⟩
        rcases Nat.eq_or_lt_of_le (Nat.le_of_lt_succ hi) with rfl | hi
        · exact Or.inr ⟨le_rfl, Nat.lt_succ_self _⟩
        · exact Or.inl ⟨i, hi, rfl⟩
    · rw [written_snoc]
      rintro (h | h)
      · exact hwritten h
      · exact h

theorem accesses_sparseEvents (n : ℕ) :
    accesses (sparseEvents n) = accesses (sparseReads n) ++ Event.access (.write 0x10000 [7]) := by
  unfold accesses sparseEvents
  rw [List.flatMap_append, List.flatMap_append]
  rfl

theorem firstRead_sparseEvents (n a : ℕ) :
    FirstRead (accesses (sparseEvents n)) a ↔ ∃ i < n, a = 0x100000 + 2 * i := by
  rw [accesses_sparseEvents, Event.access, firstRead_snoc, (accesses_sparseReads n a).1]
  exact or_iff_left fun h => h.2

theorem written_sparseEvents {n a : ℕ} (h : Written (accesses (sparseEvents n)) a) :
    a = 0x10000 := by
  rw [accesses_sparseEvents, Event.access, written_snoc] at h
  have hw := h.resolve_left (accesses_sparseReads n a).2
  have hlow : 0x10000 ≤ a := hw.1
  have hhigh : a < 0x10000 + 1 := hw.2
  omega

theorem runStarts_sparseEvents (n : ℕ) :
    (runStarts {a | FirstRead (accesses (sparseEvents n)) a}).ncard = n ∧
      {a | FirstRead (accesses (sparseEvents n)) a}.ncard = n := by
  have hset : {a | FirstRead (accesses (sparseEvents n)) a} =
      (((Finset.range n).image fun i => 0x100000 + 2 * i : Finset ℕ) : Set ℕ) := by
    ext a
    rw [Set.mem_ofPred_eq, firstRead_sparseEvents, Finset.mem_coe, Finset.mem_image]
    simp only [Finset.mem_range, eq_comm]
  have hruns : runStarts {a | FirstRead (accesses (sparseEvents n)) a} =
      {a | FirstRead (accesses (sparseEvents n)) a} := by
    refine Set.ext fun a => ⟨fun h => h.1, fun h => ⟨h, Or.inr fun h' => ?_⟩⟩
    obtain ⟨i, -, hi⟩ := (firstRead_sparseEvents n _).mp h
    obtain ⟨j, -, hj⟩ := (firstRead_sparseEvents n _).mp h'
    omega
  have hcard : {a | FirstRead (accesses (sparseEvents n)) a}.ncard = n := by
    rw [hset, Set.ncard_coe_finset, Finset.card_image_of_injective _ fun i j hij => by omega,
      Finset.card_range]
  rw [hruns]
  exact ⟨hcard, hcard⟩

theorem serialize_length {recipe : Recipe} (hfits : HeaderFits (counted recipe).h)
    (hcode : ∀ c ∈ recipe.code, InstructionOk c) :
    (serialize (counted recipe).h recipe.pages recipe.code recipe.inputs).length =
      HEADER_SIZE + 8 * recipe.pages.length + 24 * recipe.code.length +
        (16 * recipe.inputs.length + (recipe.inputs.map fun s => s.bytes.length).sum) := by
  have hpage : ∀ ps : List ℕ, (ps.flatMap pageBytes).length = 8 * ps.length :=
    flatMap_leBytes_length 8
  have hinstruction : ∀ cs : List Instruction, (∀ c ∈ cs, InstructionOk c) →
      (cs.flatMap instructionBytes).length = 24 * cs.length := by
    intro cs hcs
    rw [List.flatMap_def, @flatten_length_of_forall 24, List.length_map]
    intro x hx
    obtain ⟨c, hc, rfl⟩ := List.mem_map.mp hx
    unfold instructionBytes
    rw [List.length_append, List.length_append, leBytes_length, leBytes_length, (hcs c hc).bytes]
  have hsegment : ∀ gs : List Segment, (gs.flatMap segmentBytes).length =
      16 * gs.length + (gs.map fun s => s.bytes.length).sum := by
    intro gs
    induction gs with
    | nil => rfl
    | cons g gs ih =>
      rw [List.flatMap_cons, List.length_append, ih, List.map_cons, List.sum_cons, List.length_cons]
      unfold segmentBytes
      rw [List.length_append, List.length_append, leBytes_length, leBytes_length]
      omega
  unfold serialize
  rw [List.length_append, List.length_append, List.length_append, headerBytes_length hfits, hpage,
    hinstruction _ hcode, hsegment]
  omega

theorem decode_invalid {h : Header} (hfits : HeaderFits h) (hbad : invalidHeader h = true)
    (rest : List UInt8) : decode (headerBytes h ++ rest) = .error "invalid recipe header" := by
  unfold decode
  rw [take_iff.mpr ⟨headerBytes_length hfits, rfl⟩, ok_bind]
  dsimp only
  rw [ofBytes_headerBytes hfits, if_pos hbad]

theorem sparseEvents_registers (n : ℕ) : ∀ e ∈ sparseEvents n, RegistersOk e := by
  intro e he
  rcases List.mem_append.mp he with he | he
  · simp only [sparseStart, List.mem_cons, List.not_mem_nil, or_false] at he
    rcases he with rfl | rfl | rfl
    · exact trivial
    · refine ⟨rfl, fun v hv => ?_, rfl, fun x hx => ?_, by decide⟩
      · rw [List.eq_of_mem_replicate hv]
        decide
      · rw [List.eq_of_mem_replicate hx]
        rfl
    · exact trivial
  · rcases List.mem_append.mp he with he | he
    · obtain ⟨i, -, he⟩ := List.mem_flatMap.mp he
      simp only [List.mem_cons, List.not_mem_nil, or_false] at he
      rcases he with rfl | rfl <;> exact trivial
    · rw [List.mem_singleton.mp he]
      exact trivial

/-- **The recipe of the loop**: nothing is rejected, `finish` returns and `encode` accepts. -/
theorem sparse_recipe {n : ℕ} (hn : n ≤ 1000001) : ∃ recipe b,
    (capture (fun _ => 0) (Recorder.make sparseTarget 0 0) (sparseEvents n)).2.finish 0 false =
        .ok recipe ∧
      (capture (fun _ => 0) (Recorder.make sparseTarget 0 0) (sparseEvents n)).2.instructions.map
        (fun c => (c.address, c.size)) = [(0x5000, 3)] ∧
      encode recipe = .ok b ∧ HeaderFits (counted recipe).h ∧ recipe.inputs.length = n := by
  obtain ⟨hmem, hloop⟩ := sparseStart_spec.reads (fun _ => 0) n hn
  obtain ⟨hrej, hcode, recipe, hfinish⟩ := hloop.finish
  have hend : (capture (fun _ => 0) (Recorder.make sparseTarget 0 0) (sparseEvents n)).2 =
      (capture (fun _ => 0) (capture (fun _ => 0) (Recorder.make sparseTarget 0 0) sparseStart).2
        (sparseReads n)).2.writeAccess 0x10000 1 := by
    unfold sparseEvents
    rw [capture_append, capture_append]
    rfl
  rw [← hend] at hrej hfinish hcode
  have hone := hloop.code
  rw [← hcode] at hone
  have hknown := ((Known.make (fun _ => 0) sparseTarget 0 0).capture hrej).2
  have hbound := (Bounded.make sparseTarget 0 0).capture hrej
  have htally := Tallied.capture (Known.make (fun _ => 0) sparseTarget 0 0)
    (Tallied.make sparseTarget 0 0) hrej
  have hmake : Headed sparseTarget (Recorder.make sparseTarget 0 0) :=
    Headed.make sparseTarget (by decide) (by decide)
  have hhead := hmake.capture (m := fun _ => 0) (sparseEvents_registers n)
  rw [List.nil_append] at hknown
  have hbuffer : sparseTarget.length ≤ MAX_BUFFER := by decide
  have hbytes := finish_inputBytes hknown htally hfinish
  have hpageLen := length_pages hbuffer hhead hknown hfinish
  obtain ⟨hkept, -, output, length, hh, -⟩ := finish_kept hknown hfinish
  obtain ⟨r', hr, hrecipe⟩ := finish_ok hknown hfinish
  obtain ⟨hruns, hfirst⟩ := runStarts_sparseEvents n
  have hinputs : recipe.inputs.length = n := by
    rw [hrecipe, length_inputs hr, hruns]
  have hsum : (recipe.inputs.map fun s => s.bytes.length).sum = n := by
    rw [hrecipe, Counting.Harvest.sum_inputs hr, hfirst]
  have hlive : (capture (fun _ => 0) (Recorder.make sparseTarget 0 0)
    (sparseEvents n)).2.liveBytes =
      n := by
    rw [hh] at hbytes
    exact hbytes.symm.trans hsum
  have hcodeLen : recipe.code.length ≤ 1000000 := by
    rw [hkept]
    exact hbound.length_instructions
  have hfits := counted_fits hbuffer (by decide : 0 < 256 ^ 8) hbound hhead
    (by rw [hlive]; unfold MAX_BLOB; omega) hknown hfinish (by rw [hinputs]; omega)
  have hlength := serialize_length hfits fun c hc => hbound.instructionOk (hkept ▸ hc)
  refine ⟨recipe, _, hfinish, hone, if_neg ?_, hfits, hinputs⟩
  show ¬ MAX_BLOB < (serialize (counted recipe).h recipe.pages recipe.code recipe.inputs).length
  rw [hlength, hinputs, hsum]
  unfold MAX_BLOB HEADER_SIZE
  omega

theorem disjoint_single {code : List Instruction} {x : ℕ × ℕ}
    (h : code.map (fun c => (c.address, c.size)) = [x]) : Disjoint code := by
  obtain ⟨c, hc⟩ :=
    List.length_eq_one_iff.mp ((List.length_map _).symm.trans (congrArg List.length h))
  rw [hc]
  exact List.pairwise_singleton _ c

/-- **A capture that `decode` refuses**: a million and one runs. -/
theorem limits_disagree : ∃ recipe b,
    (capture (fun _ => 0) (Recorder.make sparseTarget 0 0) (sparseEvents 1000001)).2.finish 0
      false =
        .ok recipe ∧
      Disjoint (capture (fun _ => 0) (Recorder.make sparseTarget 0 0)
        (sparseEvents 1000001)).2.instructions ∧
      (∀ e ∈ sparseEvents 1000001, RegistersOk e) ∧ encode recipe = .ok b ∧
      decode64 b = .error "invalid recipe header" := by
  obtain ⟨recipe, b, hfinish, hone, hencode, hfits, hinputs⟩ := sparse_recipe (le_refl 1000001)
  refine ⟨recipe, b, hfinish, disjoint_single hone, sparseEvents_registers _, hencode, ?_⟩
  have hblob : b.length ≤ UINT64_MAX := (encode_ok hencode).1.trans (by decide)
  have hcount : (counted recipe).h.inputCount = 1000001 := hinputs
  have hbad : invalidHeader (counted recipe).h = true := by
    unfold invalidHeader
    rw [hcount]
    simp
  rw [decode64_eq hblob]
  unfold encode at hencode
  dsimp only at hencode
  split_ifs at hencode
  cases hencode
  exact decode_invalid hfits hbad _

theorem sparse_decodable {n : ℕ} (hn : n ≤ 1000000) {code : List Instruction}
    (h : code.map (fun c => (c.address, c.size)) = [(0x5000, 3)]) :
    Decodable (fun _ => 0) (sparseEvents n) code := by
  have hcode : ∀ c ∈ code, c.address = 0x5000 ∧ c.size = 3 := by
    intro c hc
    have hin := List.mem_map_of_mem (f := fun c : Instruction => (c.address, c.size)) hc
    rw [h, List.mem_singleton, Prod.mk.injEq] at hin
    exact hin
  refine ⟨(runStarts_sparseEvents n).1.trans_le hn, fun a ha => ?_, fun c hc => ?_,
    fun c hc i hi hF => ?_⟩
  · have hle : a < 0x100000 + 2000000 := by
      rcases ha.cases with hF | hw
      · obtain ⟨i, hi, rfl⟩ := (firstRead_sparseEvents _ _).mp hF
        omega
      · have := written_sparseEvents hw
        omega
    have hbase := base_add_mod a
    unfold PAGE UINT64_MAX
    omega
  · obtain ⟨h1, h2⟩ := hcode c hc
    rw [h1, h2]
    decide
  · -- the loop does not read its own code
    obtain ⟨h1, h2⟩ := hcode c hc
    obtain ⟨j, -, hj⟩ := (firstRead_sparseEvents _ _).mp hF
    omega

/-- A million runs. -/
theorem limits_agree_million : ∃ recipe b,
    (capture (fun _ => 0) (Recorder.make sparseTarget 0 0) (sparseEvents 1000000)).2.finish 0
      false =
        .ok recipe ∧
      encode recipe = .ok b ∧ recipe.inputs.length = 1000000 ∧
        decode64 b = .ok (counted recipe) := by
  obtain ⟨n, hn⟩ : ∃ n, n = 1000000 := ⟨_, rfl⟩
  rw [← hn]
  obtain ⟨recipe, b, hfinish, hone, hencode, -, hinputs⟩ :=
    sparse_recipe (show n ≤ 1000001 by omega)
  refine ⟨recipe, b, hfinish, hencode, hinputs, ?_⟩
  exact ((limits_agree (fun _ => 0) sparseTarget 0 0 0 false (sparseEvents n) recipe b (by decide)
    (by decide) (by decide) (by decide) (sparseEvents_registers n) (disjoint_single hone) hfinish
    hencode).mpr (sparse_decodable hn.le hone)).1

end Afterfree.Recording.Limits
