import Afterfree.Native.Streaming

/-!
# Ranges of the output

After a validation that has left a checkpoint for every page, `run` reconstructs ranges of pages,
each from the checkpoint of its first page. A checkpoint holds a point of the validated run, so that
the call goes along that run up to the end of the range.

* `range_call`: what there is in front of a call for a range;
* `attempt_kept`, `attempt_range_complete`: what such a call keeps, and what it reconstructs;
* `ranges_reproduce`: ranges in any order, as often as one likes;
* `stream_equals_whole`: streamed and whole validation let through the same, and reconstruct the
  same ranges.
-/

namespace Afterfree.Native.Ranges

open Afterfree.Common Afterfree.Codec Afterfree.Encoding Afterfree.Native.X86
  Afterfree.Native.Decode
open Afterfree.Native.Reference Afterfree.Native.Compile Afterfree.Native.Pieces
  Afterfree.Native.Calls
open Afterfree.Native.Interpreter Afterfree.Native.Simulation Afterfree.Native.Arenas
open Afterfree.Native.Replay Afterfree.Native.Windows Afterfree.Native.Entry
  Afterfree.Native.Validation
open Afterfree.Native.Streaming Afterfree.Worker.Checked Afterfree.Lib.Machine

section
variable (c : Compiler) (store : Storage)

/-- The `State` object of a call for a range. -/
def rangeState (output : Word) (offset length : ℕ) (h : Host) : State :=
  withTrigger (if offset = 0 then aim c output offset length false
    else restore c (h.frames (frameAddress c store offset)) (aim c output offset length false))

/-- How far such a call goes. -/
def rangeExtent (offset length : ℕ) : Extent :=
  ⟨BitVec.ofNat 64 (c.recipe.h.output + offset + length),
    decide (offset = 0 ∧ length = c.recipe.h.length)⟩

/-- The ledger of a call that takes no checkpoints. -/
def idleLedger : Ledger := ⟨0, 0, 0, fun _ => none⟩

end

section
variable {c : Compiler} {store : Storage}

/-- **A checkpoint is copied back.** -/
theorem restore_holds {p : Point} {f : Frame} (hf : Marked c p f) (s : State) :
    Holds c (restore c f s) p := by
  refine ⟨hf.entry, hf.cursor, hf.remaining, ⟨fun k hk => ?_, fun k hk => ?_, hf.mxcsr⟩, hf.flags⟩
  · change ((c.gprs.zip f.gprs).lookup (savedAt k)).getD (s.regs (savedAt k)) = _
    rw [hf.gprs, ← List.map_prod_left_eq_zip, List.lookup_graph _ (savedAt_mem hk),
      Option.getD_some, physical_savedAt]
  · change ((c.plan.vectors.zip f.vectors).lookup k).getD (s.xmm k) = _
    rw [hf.vectors, ← List.map_prod_left_eq_zip, List.lookup_graph _ hk, Option.getD_some]

variable {r : Recipe} (hw : WellFormed r) (ha : Admitted c.isa r c.plan)
include hw ha

/-- **In front of a call for a range.** -/
theorem range_poised {output : Word} {offset length : ℕ} {h : Host} {p : Point}
    (hstart : AtStart c p) (hsound : Sound c p)
    (hcur : p.cursor = BitVec.ofNat 64 (c.recipe.h.output + offset))
    (hzero : offset = 0 → p = beginning c)
    (hframe : offset ≠ 0 → Marked c p (h.frames (frameAddress c store offset)))
    (hplaced : Placed c h.mem) (hapart : Apart c output length)
    (hle : offset + length ≤ c.recipe.h.length) :
    Poised c (windowAt output p.cursor h) (rangeExtent c offset length)
      (rangeState c store output offset length h) h p idleLedger := by
  have hlimit : BitVec.ofNat 64 (c.recipe.h.output + offset) + BitVec.ofNat 64 length =
      BitVec.ofNat 64 (c.recipe.h.output + offset + length) := (BitVec.ofNat_add ..).symm
  have hval : ((if false = true ∨ (offset = 0 ∧ length = c.recipe.h.length) then (1 : Word)
    else 0) = 0) ↔
      (rangeExtent c offset length).validating = false := by
    unfold rangeExtent
    simp only [reduceCtorEq, false_or, decide_eq_false_iff_not]
    split_ifs with hx
    · simp [hx]
    · simp [hx]
  have hnone : ∀ a p', idleLedger.frames a = some p' → Marked c p' (h.frames a) := by
    intro a p' hp'
    cases hp'
  unfold rangeState
  by_cases ho : offset = 0
  · rw [if_pos ho]
    have hp := hzero ho
    subst ho hp
    have hbegin := initial_holds (c := c)
    exact Entry.poised hw ha.recipe (k := 0) ⟨rfl, rfl, rfl, hbegin.same,
      hbegin.flags⟩ hstart hsound
      ⟨rfl, rfl, rfl⟩ rfl rfl hlimit hval (withTrigger_eq _) rfl hnone hplaced hapart hcur rfl hle
  · rw [if_neg ho]
    have hholds := restore_holds (hframe ho) (aim c output offset length false)
    refine Entry.poised hw ha.recipe (k := offset)
      ⟨hholds.entry, hholds.cursor, hholds.remaining, hholds.same, hholds.flags⟩ hstart hsound
      ⟨rfl, rfl, rfl⟩ rfl rfl hlimit hval (withTrigger_eq _) ?_ hnone hplaced hapart hcur rfl hle
    rw [hcur]
    rfl

omit hw in
theorem validCheckpoint_of_marked {offset : ℕ} {p : Point} {f : Frame} (hf : Marked c p f)
    (hstart : AtStart c p) (hcur : p.cursor = BitVec.ofNat 64 (c.recipe.h.output + offset))
    (s : State) :
    validCheckpoint c offset (restore c f s) = true := by
  obtain ⟨d, hfind, -⟩ := hstart
  have hpresent : present c.plan.instructions p.guest.pc = true :=
    Option.isSome_iff_exists.mpr ⟨d, hfind⟩
  have hholds := restore_holds hf s
  unfold validCheckpoint
  rw [hholds.cursor, hcur, hholds.entry, label_toNat ha hpresent]
  obtain ⟨e, he, -⟩ := Budget.label_spec hpresent
  simp [(List.getElem?_eq_some_iff.mp he).1]

omit hw ha in
/-- **The call that `run` makes for a range.** -/
theorem attempt_range {n : Native} {output : Word} {offset length : ℕ} {h : Host}
    (href : ¬ refused c n offset length false = true)
    (hvalid : offset ≠ 0 → validCheckpoint c offset
      (restore c (h.frames (frameAddress c store offset)) (aim c output offset length false)) =
        true) :
    attempt c store n output offset length false h =
      (invoke c store (rangeState c store output offset length h) h).map fun x =>
        (report output x.1 x.2, x.2) := by
  refine attempt_entered ?_
  unfold front rangeState
  rw [if_neg href]
  by_cases ho : offset = 0
  · simp [ho]
  · simp [ho, hvalid ho]

/-- **The point that a call for a range begins with**: the beginning of the program, or a
checkpoint. -/
theorem range_point (hv : c.plan.vectors.Nodup) {k : ℕ} {t x : Point × Ledger} {base : Word}
    (hends : Ends (Interpreter.step c (whole c)) k (beginning c, opening c base) t (.returned, x))
    {n : Native} (hpages : n.pages = true → pagesOf c x.2 = true) {offset length : ℕ}
    (href : ¬ refused c n offset length false = true) :
    ∃ p, Passes c base (offset / PAGE) p ∧ offset / PAGE * PAGE = offset ∧ Sound c p ∧
      (offset = 0 → p = beginning c) ∧
      (offset ≠ 0 → x.2.frames (base + BitVec.ofNat 64 (offset / PAGE * c.frameSize)) =
        some p) := by
  obtain ⟨hpos, hle, hoffset, -⟩ := not_refused href
  by_cases ho : offset = 0
  · subst ho
    refine ⟨beginning c, ⟨beginning_start ha, by simp [beginning], 0, opening c base, .refl _⟩,
      by simp, beginning_sound hw ha, fun _ => rfl, fun hc => absurd rfl hc⟩
  · obtain ⟨hp, hmod⟩ := hoffset ho
    have hmul : offset / PAGE * PAGE = offset := Nat.div_mul_cancel (Nat.dvd_of_mod_eq_zero hmod)
    have hall := hpages hp
    unfold pagesOf at hall
    rw [Bool.and_eq_true] at hall
    have hpaged : Paged c base k t x := ⟨hends, of_decide_eq_true hall.2⟩
    obtain ⟨p, hframe, hpass⟩ := hpaged.frame hw ha hv (k := offset / PAGE) (by omega)
    have hreach := hpass
    obtain ⟨-, -, m, b, hm⟩ := hreach
    exact ⟨p, hpass, hmul, (steps_taken ha (whole_limit hw ha).le hm (beginning_sound hw ha)).1,
      fun hc => absurd hc ho, fun _ => hframe⟩

/-- **In front of an accepted call for a range**, in every host that the validation has left. -/
theorem range_call (hv : c.plan.vectors.Nodup) {k : ℕ} {t x : Point × Ledger}
    (hends : Ends (Interpreter.step c (whole c)) k (beginning c, opening c store.frames) t
      (.returned, x))
    {n : Native} (hpages : n.pages = true → pagesOf c x.2 = true) {offset length : ℕ}
    (href : ¬ refused c n offset length false = true) :
    ∃ p, Passes c store.frames (offset / PAGE) p ∧ offset / PAGE * PAGE = offset ∧
      p.cursor = BitVec.ofNat 64 (c.recipe.h.output + offset) ∧
      ∀ {h : Host} {output : Word}, Validated c store.frames k x h → Apart c output length →
        Poised c (windowAt output p.cursor h) (rangeExtent c offset length)
          (rangeState c store output offset length h) h p idleLedger ∧
        attempt c store n output offset length false h =
          (invoke c store (rangeState c store output offset length h) h).map fun x =>
            (report output x.1 x.2, x.2) := by
  obtain ⟨p, hpass, hmul, hsound, hzero, hframe⟩ := range_point hw ha hv hends hpages href
  have hcur : p.cursor = BitVec.ofNat 64 (c.recipe.h.output + offset) := by rw [hpass.2.1, hmul]
  obtain ⟨-, hle, -⟩ := not_refused href
  refine ⟨p, hpass, hmul, hcur, fun {h output} hval hapart => ?_⟩
  have hmarked : offset ≠ 0 → Marked c p (h.frames (frameAddress c store offset)) := fun ho =>
    hval.frames _ p (hframe ho)
  exact ⟨range_poised hw ha hpass.1 hsound hcur hzero hmarked hval.placed hapart hle,
    attempt_range href fun ho => validCheckpoint_of_marked ha (hmarked ho) hpass.1 hcur _⟩

/-- **A call for a range keeps what the validation has left**, however it ends. -/
theorem attempt_kept (hv : c.plan.vectors.Nodup) {k : ℕ} {x : Point × Ledger} {h h' : Host}
    (hval : Validated c store.frames k x h) {n : Native}
    (hpages : n.pages = true → pagesOf c x.2 = true) {output : Word} {offset length : ℕ}
    (hapart : Apart c output length) {y : Call}
    (hx : attempt c store n output offset length false h = some (y, h')) :
    Validated c store.frames k x h' := by
  by_cases href : refused c n offset length false = true
  · rw [attempt_refused href] at hx
    obtain ⟨-, rfl⟩ := Prod.mk.inj (Option.some.inj hx)
    exact hval
  · obtain ⟨t₀, hends₀⟩ := hval.run
    obtain ⟨p, -, -, hcur, hfront⟩ := range_call hw ha hv hends₀ hpages href
    obtain ⟨hpoised, hcall⟩ := hfront hval hapart
    rw [hcall] at hx
    obtain ⟨⟨s', g⟩, hinv, hy⟩ := Option.map_eq_some_iff.mp hx
    obtain ⟨-, rfl⟩ := Prod.mk.inj hy
    obtain ⟨m, t, e, hends, hleft, -⟩ := invoke_left hw ha hpoised hinv
    have hoff : e.2.2 = idleLedger := ends_off hends rfl
    have hframes : ∀ a, g.frames a = h.frames a := by
      intro a
      have hf := hleft.frames a
      rw [hoff] at hf
      exact hf
    have hlim := ends_limit ha hends hpoised.cursor
    obtain ⟨-, hle, -⟩ := not_refused href
    obtain ⟨-, -, hfit⟩ := output_fits hw ha.recipe
    have hto : (rangeExtent c offset length).limit.toNat = p.cursor.toNat + length := by
      have hl : (rangeExtent c offset length).limit =
        BitVec.ofNat 64 (c.recipe.h.output + offset + length) := rfl
      rw [hcur, hl, toNat_small (by omega), toNat_small (by omega)]
    refine ⟨hval.run, fun a p' hp' => ?_, report_placed hleft hval.placed hapart (by omega)⟩
    simp only [hframes]
    exact hval.frames a p' hp'

/-- **A call for a range of pages**, or to the end of the output, ends at its limit, and the buffer
holds the bytes of the validated output. Without checkpoints for all pages the range is the whole
output. -/
theorem attempt_range_complete (hv : c.plan.vectors.Nodup) {k : ℕ} {x : Point × Ledger} {h : Host}
    (hval : Validated c store.frames k x h) {n : Native}
    (hpages : n.pages = true → pagesOf c x.2 = true)
    (hn : n.pages = true ∨ offset = 0 ∧ length = c.recipe.h.length) {output : Word}
    (hapart : Apart c output length) (hpos : 0 < length)
    (hle : offset + length ≤ c.recipe.h.length) (hmod : offset % PAGE = 0)
    (hend : length % PAGE = 0 ∨ offset + length = c.recipe.h.length) :
    ∃ y h', attempt c store n output offset length false h = some (y, h') ∧ y.checkpoint = true ∧
      y.completed = true ∧ (y.hashed = true ∧ y.paged = true) ∧
      content y.written length = outputOf c x.1.guest.mem offset length := by
  have href : ¬ refused c n offset length false = true := by
    unfold refused
    rcases hn with hn | ⟨rfl, rfl⟩
    · simp [hn, hmod]
      omega
    · simp
      omega
  obtain ⟨t, hends⟩ := hval.run
  obtain ⟨p, hpass, hmul, hcur, hfront⟩ := range_call hw ha hv hends hpages href
  obtain ⟨hpoised, hcall⟩ := hfront hval hapart
  have hlast : offset / PAGE * PAGE + length = c.recipe.h.length ∨
      stop c ≤ x.2.nextPage ∧ length % PAGE = 0 ∧
        (rangeExtent c offset length).validating = false := by
    by_cases hall : offset + length = c.recipe.h.length
    · exact .inl (by rw [hmul, hall])
    · have hcol := hpages (hn.resolve_right fun hc => hall (by rw [hc.1, hc.2, Nat.zero_add]))
      unfold pagesOf at hcol
      rw [Bool.and_eq_true] at hcol
      refine .inr ⟨of_decide_eq_true hcol.2, hend.resolve_right hall, decide_eq_false ?_⟩
      rintro ⟨rfl, rfl⟩
      exact hall (Nat.zero_add _)
  obtain ⟨m, v, e, hrun, hfilled, -⟩ :=
    range_filled hw ha hv hends hpass (q := rangeExtent c offset length) hpos
    (by rw [hmul]; exact hle) (by rw [hmul]; rfl) hlast (b := idleLedger) rfl
  obtain ⟨s', h', hinv, hleft, hc⟩ :=
    invoke_complete hw ha store hpoised hrun hfilled.exit hfilled.cursor output
  obtain ⟨-, -, hfit⟩ := output_fits hw ha.recipe
  have hl : (rangeExtent c offset length).limit.toNat = c.recipe.h.output + offset + length :=
    toNat_small (by omega)
  have hp : p.cursor.toNat = c.recipe.h.output + offset := by rw [hcur, toNat_small (by omega)]
  refine ⟨report output s' h', h', ?_, rfl, hc, ⟨rfl, rfl⟩, ?_⟩
  · rw [hcall, hinv]
    rfl
  · rw [report_content hleft hfilled.cursor hcur (by omega)]
    refine outputOf_congr fun j hj => hfilled.mem _ ?_
    rw [hl, toNat_small (by omega)]
    omega

end

/-! ### The same ranges -/

theorem native_run_congr {sha256 : List UInt8 → List UInt8} {n : Native} {h : Header}
    {offset length : ℕ} {y z : Call} (h1 : y.checkpoint = z.checkpoint)
    (h2 : y.completed = z.completed) (h3 : y.hashed = z.hashed) (h4 : y.paged = z.paged)
    (hc : y.completed = true → content y.written length = content z.written length) :
    Native.run sha256 n h offset length false y = Native.run sha256 n h offset length false z := by
  unfold Native.run
  rw [h1, ← h2, h3, h4]
  cases hy : y.completed with
  | false => rfl
  | true => simp only [hc hy, Bool.false_eq_true, if_false]

section
variable {c : Compiler} {store : Storage} {r : Recipe} (hw : WellFormed r)
    (ha : Admitted c.isa r c.plan)
include hw ha

/-- **Two hosts behind the same run** reconstruct the same ranges, in the same way. -/
theorem run_same (hv : c.plan.vectors.Nodup) (sha256 : List UInt8 → List UInt8) {k : ℕ}
    {x : Point × Ledger} {h g : Host} (hh : Validated c store.frames k x h)
    (hg : Validated c store.frames k x g) {n : Native}
    (hpages : n.pages = true → pagesOf c x.2 = true) {output output' : Word} {offset length : ℕ}
    (hapart : Apart c output length) (hapart' : Apart c output' length) :
    (Replay.run c store sha256 n output offset length false h).map Prod.fst =
      (Replay.run c store sha256 n output' offset length false g).map Prod.fst := by
  unfold Replay.run
  rw [Option.map_map, Option.map_map]
  by_cases href : refused c n offset length false = true
  · rw [attempt_refused href, attempt_refused href]
    rfl
  obtain ⟨t, hends⟩ := hh.run
  obtain ⟨p, -, -, hcur, hfront⟩ := range_call hw ha hv hends hpages href
  obtain ⟨hph, hch⟩ := hfront hh hapart
  obtain ⟨hpg, hcg⟩ := hfront hg hapart'
  -- both calls follow the same run of the interpreter
  obtain ⟨m, t₁, e, s₁, h₁, hrun, hleft, hinv, -⟩ := invoke_ends hw ha store hph
  obtain ⟨m', t₂, e', s₂, g₁, hrun', hleft', hinv', -⟩ := invoke_ends hw ha store hpg
  obtain ⟨-, -, rfl⟩ := hrun.det hrun'
  rw [hch, hcg]
  by_cases hf : e.1 = .faulted
  · rw [hinv, hinv', if_pos hf, if_pos hf]
    rfl
  rw [if_neg hf] at hinv hinv'
  obtain ⟨-, -, -, -, -, -, -, hlimit⟩ := invoke_run ha hinv
  obtain ⟨-, -, -, -, -, -, -, hlimit'⟩ := invoke_run ha hinv'
  have hx := ends_report output hleft hf (hlimit.trans hph.fields.limit)
  have hy := ends_report output' hleft' hf (hlimit'.trans hpg.fields.limit)
  rw [hinv, hinv']
  simp only [Option.map_some, Function.comp_apply, Option.some.injEq]
  refine native_run_congr rfl (Bool.eq_iff_iff.mpr (hx.trans hy.symm)) rfl rfl fun hdone => ?_
  obtain ⟨-, hle, -⟩ := not_refused href
  obtain ⟨-, -, hfit⟩ := output_fits hw ha.recipe
  have hlim : (rangeExtent c offset length).limit.toNat = p.cursor.toNat + length := by
    have hl : (rangeExtent c offset length).limit =
      BitVec.ofNat 64 (c.recipe.h.output + offset + length) := rfl
    rw [hcur, hl, toNat_small (by omega), toNat_small (by omega)]
  have hend := (hx.mp hdone).2
  rw [report_content hleft hend hcur hlim, report_content hleft' hend hcur hlim]

end

/-! ### Digests of ranges -/

theorem outputOf_slice (c : Compiler) (mem : Memory) {offset length total : ℕ}
    (hle : offset + length ≤ total) :
    outputOf c mem offset length = ((outputOf c mem 0 total).drop offset).take length := by
  refine List.ext_getElem? fun j => ?_
  unfold outputOf content
  rw [List.getElem?_take, List.getElem?_drop, List.getElem?_map, List.getElem?_map]
  by_cases hj : j < length
  · rw [if_pos hj, List.getElem?_range hj, List.getElem?_range (by omega), Option.map_some,
      Option.map_some, Nat.add_zero, Nat.add_assoc]
  · rw [if_neg hj, List.getElem?_eq_none (by simpa using hj), Option.map_none]

section
variable {sha256 : List UInt8 → List UInt8} {out : List UInt8} {offset length : ℕ}

theorem pageOf_slice (hmod : offset % PAGE = 0)
    (hend : length % PAGE = 0 ∨ offset + length = out.length) {k : ℕ} (hk : k * PAGE < length) :
    pageOf ((out.drop offset).take length) k = pageOf out (offset / PAGE + k) := by
  have hmul : offset / PAGE * PAGE = offset := Nat.div_mul_cancel (Nat.dvd_of_mod_eq_zero hmod)
  refine List.ext_getElem? fun j => ?_
  by_cases hj : j < PAGE
  · rw [pageOf_getElem? _ _ _ hj, pageOf_getElem? _ _ _ hj, List.getElem?_take,
      List.getElem?_drop, Nat.add_mul, hmul]
    split_ifs with hin
    · congr 1
      omega
    · -- the last page of the output is short
      rw [List.getElem?_eq_none]
      rcases hend with hend | hend
      · unfold PAGE at *
        omega
      · omega
  · have hlen : ∀ l : List UInt8, ∀ i, (pageOf l i)[j]? = none := by
      intro l i
      unfold pageOf
      rw [List.getElem?_take, if_neg hj]
    rw [hlen, hlen]

/-- **The page digests of a range** of the validated output agree. -/
theorem pagesMatch_slice {n : Native} (hn : n.digests = pageDigests sha256 out)
    (hmod : offset % PAGE = 0) (hle : offset + length ≤ out.length)
    (hend : length % PAGE = 0 ∨ offset + length = out.length) :
    pagesMatch sha256 n offset ((out.drop offset).take length) = true := by
  have hlen : ((out.drop offset).take length).length = length := by
    rw [List.length_take, List.length_drop]
    omega
  unfold pagesMatch
  rw [List.all_eq_true, hlen]
  intro k hk
  have hk' : k * PAGE < length := by
    have := List.mem_range.mp hk
    unfold rounded PAGE at *
    omega
  have hpage : (offset + k * PAGE) / PAGE = offset / PAGE + k := Nat.add_mul_div_right _ _ PAGE_pos
  have hin : offset / PAGE + k < rounded out.length / PAGE := by
    unfold rounded PAGE at *
    omega
  rw [decide_eq_true_eq, hn, hpage, pageOf_slice hmod hend hk', pageDigests, List.getElem?_map,
    List.getElem?_range hin]
  rfl

/-- **The checks behind a call for a range**, or for the whole output when there are no page
digests. -/
theorem native_run_range {n : Native} {h : Header} {y : Call}
    (hn : n.pages = true ∧ n.digests = pageDigests sha256 out ∨
      n.pages = false ∧ offset = 0 ∧ length = h.length) (hlen : out.length = h.length)
    (hdigest : sha256 out = h.digest) (hpos : 0 < length) (hmod : offset % PAGE = 0)
    (hle : offset + length ≤ h.length) (hend : length % PAGE = 0 ∨ offset + length = h.length)
    (hcheck : y.checkpoint = true) (hc : y.completed = true)
    (hhash : y.hashed = true ∧ y.paged = true)
    (hcontent : content y.written length = (out.drop offset).take length) :
    Native.run sha256 n h offset length false y = .ok (n, (out.drop offset).take length) := by
  have hrange : ¬ (length = 0 ∨ h.length < offset ∨ h.length - offset < length ∨
      (offset ≠ 0 ∧ (n.pages = false ∨ offset % PAGE ≠ 0)) ∨
      (false = false ∧ length ≠ h.length ∧ n.pages = false)) := by
    rcases hn with ⟨hn, -⟩ | ⟨-, rfl, rfl⟩
    · simp [hn, hmod]
      omega
    · simp
      omega
  have hsame : ¬ ((false = true ∨ (offset = 0 ∧ length = h.length)) ∧
      (y.hashed = false ∨ sha256 ((out.drop offset).take length) ≠ h.digest)) := by
    rintro ⟨hwhole, hbad⟩
    obtain ⟨rfl, rfl⟩ := hwhole.resolve_left (by decide)
    rcases hbad with hbad | hbad
    · rw [hhash.1] at hbad
      cases hbad
    · rw [List.drop_zero, ← hlen, List.take_length] at hbad
      exact hbad hdigest
  unfold Native.run
  rw [if_neg hrange, if_neg (by simp [hcheck]), if_neg (by simp [hc])]
  simp only [hcontent]
  rw [if_neg hsame]
  rcases hn with ⟨hn, hdigests⟩ | ⟨hn, -⟩
  · have hmatch := pagesMatch_slice (n := n) hdigests hmod (hlen ▸ hle) (hlen ▸ hend)
    simp [hn, hhash.2, hmatch]
  · simp [hn]

end

/-! ### Requests -/

/-- **A validation that has succeeded**, whole or streamed: what the object has come to hold, the
output, and the host behind it. -/
inductive Validates (c : Compiler) (store : Storage) (sha256 : List UInt8 → List UInt8) (n : Native)
    (bytes : List UInt8) (h' : Host) : Prop
  | whole {h : Host} {n₀ : Native} {output : Word} (hplaced : Placed c h.mem)
    (hapart : Apart c output c.recipe.h.length)
    (hx : Replay.run c store sha256 n₀ output 0 c.recipe.h.length true h =
      some (.ok (n, bytes), h')) :
    Validates c store sha256 n bytes h'
  | streamed {h : Host} {window : Word} {capacity : ℕ} {sink : List UInt8 → Bool}
      (hplaced : Placed c h.mem)
    (hapart : Apart c window capacity)
    (hx : Replay.validateStream c store sha256 window capacity sink h = some (.ok (n, bytes), h')) :
    Validates c store sha256 n bytes h'

/-- **What happens to a host afterwards**: calls for ranges, be they accepted or not, to buffers
apart from the inputs, and other changes, such as calls of other objects, that leave the checkpoints
of the object and its inputs alone. -/
inductive Served (c : Compiler) (store : Storage) (sha256 : List UInt8 → List UInt8) (n : Native)
    (h : Host) :
    Host → Prop
  | refl : Served c store sha256 n h h
  | run {g g' : Host} {output : Word} {offset length : ℕ} {x : Except String (Native × List UInt8)}
    (hs : Served c store sha256 n h g) (hapart : Apart c output length)
    (hx : Replay.run c store sha256 n output offset length false g = some (x, g')) :
    Served c store sha256 n h g'
  | elsewhere {g g' : Host} (hs : Served c store sha256 n h g)
    (hf : ∀ k, k * PAGE < c.recipe.h.length →
      g'.frames (frameAddress c store (k * PAGE)) = g.frames (frameAddress c store (k * PAGE)))
    (hm : Placed c g'.mem) : Served c store sha256 n h g'

section
variable {c : Compiler} {store : Storage} {sha256 : List UInt8 → List UInt8} {r : Recipe}
    (hw : WellFormed r)
  (ha : Admitted c.isa r c.plan)
include hw ha

theorem Validates.validated {n : Native} {bytes : List UInt8} {h : Host}
    (hv : Validates c store sha256 n bytes h) : ∃ k x, Validated c store.frames k x h ∧
      bytes = outputOf c x.1.guest.mem 0 c.recipe.h.length ∧ sha256 bytes = c.recipe.h.digest ∧
      n = kept sha256 (pagesOf c x.2) bytes := by
  cases hv with
  | whole hplaced hapart hx => exact run_validated hw ha hplaced hapart hx
  | streamed hplaced hapart hx => exact stream_validated hw ha hplaced hapart hx

/-- **Calls for ranges keep what the validation has left.** -/
theorem Served.validated (hv : c.plan.vectors.Nodup) {n : Native} {k : ℕ} {x : Point × Ledger}
    {h g : Host} (hs : Served c store sha256 n h g) (hpages : n.pages = true → pagesOf c x.2 = true)
    (hval : Validated c store.frames k x h) : Validated c store.frames k x g := by
  induction hs with
  | refl => exact hval
  | run _ hapart hx ih =>
    obtain ⟨y, hy, hyx⟩ := Option.map_eq_some_iff.mp hx
    obtain ⟨-, rfl⟩ := Prod.mk.inj hyx
    exact attempt_kept hw ha hv ih hpages hapart hy
  | elsewhere _ hf hm ih =>
    refine ⟨ih.run, fun a p hp => ?_, hm⟩
    obtain ⟨t, hends⟩ := ih.run
    obtain ⟨j, hj, rfl⟩ := ends_framed hw ha hv hends a p hp
    have hat : frameAddress c store (j * PAGE) = store.frames + BitVec.ofNat 64 (j * c.frameSize) :=
      by rw [frameAddress, Nat.mul_div_cancel _ PAGE_pos]
    have hsame := hf j hj
    rw [hat] at hsame
    rw [hsame]
    exact ih.frames _ p hp

end

/-- **Calls behind a validation reproduce its output**: ranges of pages, or to the end of the
output, when there is a checkpoint for every page, and the whole output in any case. -/
theorem served_reproduces {isa : Isa} {cache : Bool} {r : Recipe} {p : Plan} (hw : WellFormed r)
    (hp : decode isa cache r = .ok p) (fast : Bool) (data : Segment → Word) (store : Storage)
    (sha256 : List UInt8 → List UInt8) {n : Native} {bytes : List UInt8} {h g : Host}
    (hval : Validates ⟨isa, p, fast, data⟩ store sha256 n bytes h)
    (hs : Served ⟨isa, p, fast, data⟩ store sha256 n h g) {output : Word} {offset length : ℕ}
    (hapart : Apart ⟨isa, p, fast, data⟩ output length)
    (hn : n.pages = true ∨ offset = 0 ∧ length = r.h.length) (hpos : 0 < length)
    (hmod : offset % PAGE = 0) (hle : offset + length ≤ r.h.length)
    (hend : length % PAGE = 0 ∨ offset + length = r.h.length) :
    ∃ y g', attempt ⟨isa, p, fast, data⟩ store n output offset length false g = some (y, g') ∧
      y.completed = true ∧ content y.written length = (bytes.drop offset).take length ∧
      Native.run sha256 n r.h offset length false y =
        .ok (n, (bytes.drop offset).take length) := by
  have ha : Admitted isa r p := decode_admitted hw hp
  have hrec : Compiler.recipe ⟨isa, p, fast, data⟩ = r := ha.recipe
  obtain ⟨k, x, hv, hbytes, hdigest, hkept⟩ := hval.validated (c := ⟨isa, p, fast, data⟩) hw ha
  -- the object holds the digests of the output if it holds `pages`
  have hpages : n.pages = true → pagesOf ⟨isa, p, fast, data⟩ x.2 = true := by
    intro hc
    by_contra hno
    rw [Bool.not_eq_true] at hno
    rw [hkept, hno] at hc
    cases hc
  have hobject : n.pages = true ∧ n.digests = pageDigests sha256 bytes ∨
      n.pages = false ∧ offset = 0 ∧ length = r.h.length := by
    cases hc : n.pages with
    | false => exact .inr ⟨rfl, hn.resolve_left (by rw [hc]; exact Bool.false_ne_true)⟩
    | true =>
      refine .inl ⟨rfl, ?_⟩
      rw [hkept, hpages hc]
      rfl
  have hlen : bytes.length = r.h.length := by rw [hbytes, outputOf_length, hrec]
  have hnow := hs.validated (c := ⟨isa, p, fast, data⟩) hw ha (vectors_nodup hp) hpages hv
  obtain ⟨y, g', hattempt, hcheck, hc, hhash, hcontent⟩ := attempt_range_complete
    (c := ⟨isa, p, fast, data⟩) hw ha (vectors_nodup hp) hnow hpages (by rw [hrec]; exact hn)
      hapart hpos (by rw [hrec]; exact hle) hmod (by rw [hrec]; exact hend)
  have hslice : content y.written length = (bytes.drop offset).take length := by
    rw [hcontent, hbytes]
    exact outputOf_slice _ _ (by rw [hrec]; exact hle)
  exact ⟨y, g', hattempt, hc, hslice, native_run_range hobject hlen (by rw [hdigest, hrec]) hpos
    hmod hle hend hcheck hc hhash hslice⟩

/-- **Page checkpoints reproduce the validated output.** For every admitted recipe whose validation,
whole or streamed, has left a checkpoint for every page, and after any number of calls for ranges in
any order, a call for a range of pages or to the end of the output ends without error at its limit,
and its buffer holds these bytes of the validated output, before a digest is looked at; then all
digests agree. -/
theorem ranges_reproduce {isa : Isa} {cache : Bool} {r : Recipe} {p : Plan} (hw : WellFormed r)
    (hp : decode isa cache r = .ok p) (fast : Bool) (data : Segment → Word) (store : Storage)
    (sha256 : List UInt8 → List UInt8) {n : Native} {bytes : List UInt8} {h g : Host}
    (hval : Validates ⟨isa, p, fast, data⟩ store sha256 n bytes h) (hpages : n.pages = true)
    (hs : Served ⟨isa, p, fast, data⟩ store sha256 n h g) (output : Word) (offset length : ℕ)
    (hapart : Apart ⟨isa, p, fast, data⟩ output length) (hpos : 0 < length)
    (hmod : offset % PAGE = 0) (hle : offset + length ≤ r.h.length)
    (hend : length % PAGE = 0 ∨ offset + length = r.h.length) :
    ∃ y g', attempt ⟨isa, p, fast, data⟩ store n output offset length false g = some (y, g') ∧
      y.completed = true ∧ content y.written length = (bytes.drop offset).take length ∧
      Replay.run ⟨isa, p, fast, data⟩ store sha256 n output offset length false g =
        some (.ok (n, (bytes.drop offset).take length), g') := by
  have hrec : Compiler.recipe ⟨isa, p, fast, data⟩ = r := (decode_admitted hw hp).recipe
  obtain ⟨y, g', hattempt, hc, hslice, hrun⟩ := served_reproduces hw hp fast data store sha256 hval
    hs hapart (.inl hpages) hpos hmod hle hend
  refine ⟨y, g', hattempt, hc, hslice, ?_⟩
  unfold Replay.run
  rw [hattempt, Option.map_some, hrec, hrun]

/-- The byte of the recipe, asked for twice behind a validation. -/
theorem ranges_reproduce_fill : ∃ p, decode tinyIsa true fillRecipe = .ok p ∧ ∃ n h g g',
    Validates ⟨tinyIsa, p, true, fun _ => 0x20000⟩ ⟨0x30000, 0x40000⟩
      (fun _ => fillRecipe.h.digest) n [7] h ∧
      Replay.run ⟨tinyIsa, p, true, fun _ => 0x20000⟩ ⟨0x30000, 0x40000⟩
        (fun _ => fillRecipe.h.digest) n
        0x50000 0 1 false h = some (.ok (n, [7]), g) ∧
      Replay.run ⟨tinyIsa, p, true, fun _ => 0x20000⟩ ⟨0x30000, 0x40000⟩
        (fun _ => fillRecipe.h.digest) n
        0x50000 0 1 false g = some (.ok (n, [7]), g') := by
  have hrun : (fillCompiler.bind fun c =>
    (Replay.run c ⟨0x30000, 0x40000⟩ (fun _ => fillRecipe.h.digest)
      .fresh 0x50000 0 1 true freshHost).map fun x => x.1.toOption) =
        some (some (⟨true, [fillRecipe.h.digest]⟩, [7])) := by
    decide +kernel
  obtain ⟨p, hp⟩ := exists_plan fillRecipe_ok.2
  have hrec : Compiler.recipe ⟨tinyIsa, p, true, fun _ => 0x20000⟩ = fillRecipe :=
    (decode_admitted fillRecipe_ok.1 hp).recipe
  have hc : fillCompiler = some ⟨tinyIsa, p, true, fun _ => 0x20000⟩ := by
    unfold fillCompiler
    rw [hp]
    rfl
  rw [hc, Option.bind_some, Option.map_eq_some_iff] at hrun
  obtain ⟨⟨x, h⟩, hx, hok⟩ := hrun
  cases x with
  | error f => cases hok
  | ok y =>
    obtain rfl := Option.some.inj hok
    obtain ⟨hplaced, hapart⟩ := fresh_placed hp
    have hwhole : Replay.run ⟨tinyIsa, p, true, fun _ => 0x20000⟩ ⟨0x30000, 0x40000⟩
        (fun _ => fillRecipe.h.digest) .fresh 0x50000 0
        (Compiler.recipe ⟨tinyIsa, p, true, fun _ => 0x20000⟩).h.length true freshHost =
          some (.ok (⟨true, [fillRecipe.h.digest]⟩, [7]), h) := by
      rw [hrec]
      exact hx
    have hval := Validates.whole hplaced (by rw [hrec]; exact hapart) hwhole
    obtain ⟨-, g, -, -, -, hg⟩ := ranges_reproduce fillRecipe_ok.1 hp true (fun _ => 0x20000)
      ⟨0x30000, 0x40000⟩ (fun _ => fillRecipe.h.digest) hval rfl .refl 0x50000 0 1 hapart
      (by decide) (by decide) (by decide) (by decide)
    obtain ⟨-, g', -, -, -, hg'⟩ := ranges_reproduce fillRecipe_ok.1 hp true (fun _ => 0x20000)
      ⟨0x30000, 0x40000⟩ (fun _ => fillRecipe.h.digest) hval rfl
        (.run .refl hapart hg) 0x50000 0 1 hapart
      (by decide) (by decide) (by decide) (by decide)
    exact ⟨p, hp, _, h, g, g', hval, hg, hg'⟩

/-! ### Both validations -/

/-- **Streamed and whole validation.** For every admitted recipe, every two hosts that have the
inputs in memory and every buffers apart from them: where `validate_stream` succeeds, with whatever
window and sink, so does `run` with `validate`; the windows add up to the same bytes, the object
comes to hold the same `pages` and page digests, and later calls for the same range, whatever has
been asked for in between and to whatever buffers, have the same outcome with the same bytes.
Conversely, where `run` succeeds, so does `validate_stream` with every window of whole pages, as
long as there is a checkpoint for every page or one window is enough. -/
theorem stream_equals_whole {isa : Isa} {cache : Bool} {r : Recipe} {p : Plan} (hw : WellFormed r)
    (hp : decode isa cache r = .ok p) (fast : Bool) (data : Segment → Word) (store : Storage)
    (sha256 : List UInt8 → List UInt8) {window output : Word} {capacity : ℕ} {h g : Host}
    (hh : Placed ⟨isa, p, fast, data⟩ h.mem) (hg : Placed ⟨isa, p, fast, data⟩ g.mem)
    (hwindow : Apart ⟨isa, p, fast, data⟩ window capacity)
    (houtput : Apart ⟨isa, p, fast, data⟩ output r.h.length) (n₀ n : Native) (bytes : List UInt8) :
    (∀ sink h', Replay.validateStream ⟨isa, p, fast, data⟩ store sha256 window capacity sink h =
        some (.ok (n, bytes), h') →
      ∃ g', Replay.run ⟨isa, p, fast, data⟩ store sha256 n₀ output 0 r.h.length true g =
          some (.ok (n, bytes), g') ∧
        ∀ h'' g'', Served ⟨isa, p, fast, data⟩ store sha256 n h' h'' →
          Served ⟨isa, p, fast, data⟩ store sha256 n g' g'' → ∀ buffer buffer' offset length,
          Apart ⟨isa, p, fast, data⟩ buffer length → Apart ⟨isa, p, fast, data⟩ buffer' length →
          (Replay.run ⟨isa, p, fast, data⟩ store sha256 n buffer offset length false h'').map
            Prod.fst =
            (Replay.run ⟨isa, p, fast, data⟩ store sha256 n buffer' offset length false g'').map
              Prod.fst) ∧
    ∀ sink g', (∀ window, sink window = true) → 0 < capacity → capacity % PAGE = 0 →
      n.pages = true ∨ r.h.length ≤ capacity →
      Replay.run ⟨isa, p, fast, data⟩ store sha256 n₀ output 0 r.h.length true g =
        some (.ok (n, bytes), g') →
      ∃ h', Replay.validateStream ⟨isa, p, fast, data⟩ store sha256 window capacity sink h =
        some (.ok (n, bytes), h') := by
  have ha : Admitted isa r p := decode_admitted hw hp
  have hrec : Compiler.recipe ⟨isa, p, fast, data⟩ = r := ha.recipe
  have hvectors := vectors_nodup hp
  -- the object knows of all checkpoints that there are
  have hkept : ∀ pages out, (kept sha256 pages out).pages = pages := by
    intro pages out
    cases pages <;> rfl
  rw [← hrec] at houtput ⊢
  constructor
  · intro sink h' hx
    obtain ⟨k, x, hv, rfl, hdigest, rfl⟩ :=
      stream_validated (c := ⟨isa, p, fast, data⟩) hw ha hh hwindow hx
    obtain ⟨t, hends⟩ := hv.run
    obtain ⟨g', hrun, hv'⟩ :=
      run_of_ends (c := ⟨isa, p, fast, data⟩) hw ha n₀ hg houtput hends hdigest
    refine ⟨g', hrun, fun h'' g'' hs hs' buffer buffer' offset length hapart hapart' => ?_⟩
    have hnow := hs.validated (c := ⟨isa, p, fast, data⟩) hw ha hvectors
      (fun hc => (hkept _ _).symm.trans hc) hv
    have hnow' := hs'.validated (c := ⟨isa, p, fast, data⟩) hw ha hvectors
      (fun hc => (hkept _ _).symm.trans hc) hv'
    exact run_same (c := ⟨isa, p, fast, data⟩) hw ha hvectors sha256 hnow hnow'
      (fun hc => (hkept _ _).symm.trans hc) hapart hapart'
  · intro sink g' hsink hpos hpage hpages hx
    obtain ⟨k, x, hv, rfl, hdigest, rfl⟩ :=
      run_validated (c := ⟨isa, p, fast, data⟩) hw ha hg houtput hx
    obtain ⟨t, hends⟩ := hv.run
    rw [hkept] at hpages
    obtain ⟨h', hstream, -⟩ := stream_of_ends (c := ⟨isa, p, fast, data⟩) hw ha hvectors hsink hpos
      hpage hh hwindow hends hpages hdigest
    exact ⟨h', hstream⟩

/-- A stream of one window with one byte, the whole validation, and the byte restored behind either.
-/
theorem stream_equals_whole_fill : ∃ p, decode tinyIsa true fillRecipe = .ok p ∧ ∃ h' g',
    Replay.validateStream ⟨tinyIsa, p, true, fun _ => 0x20000⟩ ⟨0x30000, 0x40000⟩
      (fun _ => fillRecipe.h.digest) 0x50000 4096 (fun _ => true) freshHost =
        some (.ok (⟨true, [fillRecipe.h.digest]⟩, [7]), h') ∧
    Replay.run ⟨tinyIsa, p, true, fun _ => 0x20000⟩ ⟨0x30000, 0x40000⟩
      (fun _ => fillRecipe.h.digest) .fresh 0x50000 0 1 true freshHost =
        some (.ok (⟨true, [fillRecipe.h.digest]⟩, [7]), g') ∧
    (Replay.run ⟨tinyIsa, p, true, fun _ => 0x20000⟩ ⟨0x30000, 0x40000⟩
      (fun _ => fillRecipe.h.digest)
        ⟨true, [fillRecipe.h.digest]⟩ 0x50000 0 1 false h').map Prod.fst =
      (Replay.run ⟨tinyIsa, p, true, fun _ => 0x20000⟩ ⟨0x30000, 0x40000⟩
        (fun _ => fillRecipe.h.digest)
        ⟨true, [fillRecipe.h.digest]⟩ 0x50000 0 1 false g').map Prod.fst := by
  have hrun : (fillCompiler.bind fun c => (Replay.validateStream c ⟨0x30000, 0x40000⟩
      (fun _ => fillRecipe.h.digest) 0x50000 4096 (fun _ => true) freshHost).map fun x =>
        x.1.toOption) =
        some (some (⟨true, [fillRecipe.h.digest]⟩, [7])) := by
    decide +kernel
  obtain ⟨p, hp⟩ := exists_plan fillRecipe_ok.2
  have hc : fillCompiler = some ⟨tinyIsa, p, true, fun _ => 0x20000⟩ := by
    unfold fillCompiler
    rw [hp]
    rfl
  rw [hc, Option.bind_some, Option.map_eq_some_iff] at hrun
  obtain ⟨⟨x, h'⟩, hx, hok⟩ := hrun
  cases x with
  | error f => cases hok
  | ok y =>
    obtain rfl := Option.some.inj hok
    obtain ⟨hplaced, hapart⟩ := fresh_placed hp
    have hwindow : Apart ⟨tinyIsa, p, true, fun _ => 0x20000⟩ 0x50000 4096 := by
      unfold Apart
      have hrec : Compiler.recipe ⟨tinyIsa, p, true, fun _ => 0x20000⟩ = fillRecipe :=
        (decode_admitted fillRecipe_ok.1 hp).recipe
      rw [hrec]
      change ∀ s ∈ fillRecipe.inputs, ∀ j < s.bytes.length,
        ¬ (0x20000#64 + BitVec.ofNat 64 j - 0x50000#64).toNat < 4096
      decide
    have hboth := stream_equals_whole fillRecipe_ok.1 hp true (fun _ => 0x20000) ⟨0x30000, 0x40000⟩
      (fun _ => fillRecipe.h.digest) hplaced hplaced hwindow hapart .fresh
        ⟨true, [fillRecipe.h.digest]⟩ [7]
    obtain ⟨g', hg, hlater⟩ := hboth.1 (fun _ => true) h' hx
    exact ⟨p, hp, h', g', hx, hg, hlater h' g' .refl .refl 0x50000 0x50000 0 1 hapart hapart⟩

end Afterfree.Native.Ranges
