import Afterfree.Native.Entry
import Afterfree.Native.Slots

/-!
# Validation of a whole output

`run` with `validate` goes along the recorded program to its return. What it lets through is what
the recorded program does: a validation is no test of the compiler, but a proof of one run.

* `attempt_validated`, `attempt_of_ends`: a validation and the run of the interpreter;
* `validated_run_sound`: the run of the recorded program that a validation stands for.
-/

namespace Afterfree.Native.Validation

open Afterfree.Common Afterfree.Codec Afterfree.Encoding Afterfree.Native.X86
  Afterfree.Native.Decode
open Afterfree.Native.Reference Afterfree.Native.Compile Afterfree.Native.Pieces
  Afterfree.Native.Calls
open Afterfree.Native.Interpreter Afterfree.Native.Simulation Afterfree.Native.Arenas
open Afterfree.Native.Replay Afterfree.Native.Windows Afterfree.Native.Entry
  Afterfree.Worker.Checked
open Afterfree.Lib.Machine

/-- The checkpoints of all pages have been taken. -/
def pagesOf (c : Compiler) (b : Ledger) : Bool := b.collecting ≠ 0 && stop c ≤ b.nextPage

/-- **What a validation has gone along**, and what it leaves in a host. -/
structure Validated (c : Compiler) (base : Word) (n : ℕ) (x : Point × Ledger) (h : Host) :
    Prop where
  run : ∃ t, Ends (Interpreter.step c (whole c)) n (beginning c, opening c base) t (.returned, x)
  frames : ∀ a p, x.2.frames a = some p → Marked c p (h.frames a)
  placed : Placed c h.mem

section
variable {c : Compiler} {r : Recipe} (hw : WellFormed r) (ha : Admitted c.isa r c.plan)
    {store : Storage}

theorem returned_complete {q : Extent} {n : ℕ} {s t x : Point × Ledger}
    (h : Ends (Interpreter.step c q) n s t (.returned, x)) :
    Complete c x.1 ∧ x.1.guest = t.1.guest ∧ x.1.cursor = t.1.cursor := by
  obtain ⟨d, -, -, -, -, hc, rfl⟩ := step_returned h.2
  exact ⟨hc, spend_guest c d t.1, spend_cursor c d t.1⟩

include hw ha

/-- **In front of a validation.** -/
theorem whole_poised (store : Storage) {h : Host} (hplaced : Placed c h.mem) {output : Word}
    (hapart : Apart c output c.recipe.h.length) :
    Poised c (windowAt output (beginning c).cursor
        (collect c store (aim c output 0 c.recipe.h.length true) h).2) (whole c)
      (withTrigger (collect c store (aim c output 0 c.recipe.h.length true) h).1)
      (collect c store (aim c output 0 c.recipe.h.length true) h).2 (beginning c)
      (opening c store.frames) := by
  have hbegin := initial_holds (c := c)
  refine poised hw ha.recipe (k := 0)
    ⟨rfl, rfl, rfl, hbegin.same, hbegin.flags⟩ (beginning_start ha) (beginning_sound hw ha)
      ⟨rfl, rfl, rfl⟩ rfl rfl
    ?_ ?_ (withTrigger_eq _) rfl
      (opening_marked (s := aim c output 0 c.recipe.h.length true) ?_ ?_) hplaced
    hapart rfl rfl (by omega)
  · change BitVec.ofNat 64 (c.recipe.h.output + 0) + BitVec.ofNat 64 c.recipe.h.length = _
    rw [← BitVec.ofNat_add]
    rfl
  · refine iff_of_false ?_ (by simp [whole])
    change ¬ (1 : Word) = 0
    decide
  · exact saveInitial_marked ⟨rfl, rfl, rfl, hbegin.same, hbegin.flags⟩ rfl rfl rfl rfl
  · exact Function.update_self store.frames _ h.frames

omit ha in
theorem attempt_whole (hrec : c.recipe = r) (n : Native) (output : Word) (h : Host) :
    attempt c store n output 0 c.recipe.h.length true h =
      (invoke c store (withTrigger (collect c store (aim c output 0 c.recipe.h.length true) h).1)
        (collect c store (aim c output 0 c.recipe.h.length true) h).2).map fun x =>
          (report output x.1 x.2, x.2) := by
  obtain ⟨hpos, -⟩ := output_fits hw hrec
  have hno : ¬ refused c n 0 c.recipe.h.length true = true := by
    unfold refused
    simp
    omega
  refine attempt_entered ?_
  unfold front
  rw [if_neg hno]
  rfl

/-- **A validation goes along the whole program** and returns at the end of its budget. -/
theorem attempt_validated {n : Native} {output : Word} {h h' : Host} {y : Call}
    (hplaced : Placed c h.mem) (hapart : Apart c output c.recipe.h.length)
    (hx : attempt c store n output 0 c.recipe.h.length true h = some (y, h'))
    (hc : y.completed = true) :
    ∃ k x, Validated c store.frames k x h' ∧ k + 1 = (beginning c).remaining.toNat ∧
      y.collected = pagesOf c x.2 ∧
      content y.written c.recipe.h.length = outputOf c x.1.guest.mem 0 c.recipe.h.length := by
  rw [attempt_whole hw ha.recipe] at hx
  obtain ⟨⟨s', g⟩, hinv, hy⟩ := Option.map_eq_some_iff.mp hx
  obtain ⟨rfl, rfl⟩ := Prod.mk.inj hy
  have hp := whole_poised hw ha store hplaced hapart
  obtain ⟨k, t, ⟨e, x⟩, hends, hleft, hexit, hcur, hcount⟩ := invoke_completed hw ha hp hinv hc
  -- a validation does not yield
  obtain rfl : e = .returned := by
    rcases hexit with he | he
    · simp only at he
      subst he
      exact absurd (step_yielded hends.2).1.2.1 (by simp [whole])
    · exact he
  obtain ⟨hcomplete, -⟩ := returned_complete hends
  have hlim := whole_limit hw ha
  have hto := beginning_cursor hw ha
  refine ⟨k, x, ⟨⟨t, hends⟩, left_marked hleft, ?_⟩, ?_, ?_, ?_⟩
  · exact report_placed hleft hplaced hapart (by rw [hcur, hlim, hto])
  · have hzero : s'.word .remaining = 0 := hleft.remaining.trans hcomplete.2.1
    rw [hzero] at hcount
    have hrem : (withTrigger (collect c store (aim c output 0 c.recipe.h.length true) h).1).word
      .remaining =
        (beginning c).remaining := rfl
    rw [← hrem, ← hcount]
    simp [lastCount]
  · change Replay.collected s' = _
    unfold Replay.collected pagesOf
    rw [hleft.collecting, hleft.stop, hleft.nextPage]
  · exact report_content hleft hcur rfl (by rw [hlim, hto])

/-- **A run of the whole program** makes a validation complete. -/
theorem attempt_of_ends {k : ℕ} {t x : Point × Ledger} {base : Word} (hbase : base = store.frames)
    (hends : Ends (Interpreter.step c (whole c)) k (beginning c, opening c base) t (.returned, x))
    {h : Host} (hplaced : Placed c h.mem) {output : Word}
    (hapart : Apart c output c.recipe.h.length) (n : Native) :
    ∃ y h', attempt c store n output 0 c.recipe.h.length true h = some (y, h') ∧
      y.completed = true ∧ (y.hashed = true ∧ y.paged = true) ∧ Validated c base k x h' ∧
      y.collected = pagesOf c x.2 ∧
      content y.written c.recipe.h.length = outputOf c x.1.guest.mem 0 c.recipe.h.length := by
  subst hbase
  have hp := whole_poised hw ha store hplaced hapart
  obtain ⟨hcomplete, -⟩ := returned_complete hends
  have hcur : x.1.cursor = (whole c).limit := hcomplete.1
  obtain ⟨s', h', hinv, hleft, hdone⟩ := invoke_complete hw ha store hp hends (.inr rfl) hcur output
  have hlim := whole_limit hw ha
  have hto := beginning_cursor hw ha
  refine ⟨report output s' h', h', ?_, hdone, ⟨rfl, rfl⟩, ⟨⟨t, hends⟩, left_marked hleft, ?_⟩, ?_,
    ?_⟩
  · rw [attempt_whole hw ha.recipe, hinv]
    rfl
  · exact report_placed hleft hplaced hapart (by
      simp only
      rw [hcur, hlim, hto])
  · change Replay.collected s' = _
    unfold Replay.collected pagesOf
    rw [hleft.collecting, hleft.stop, hleft.nextPage]
  · exact report_content hleft hcur rfl (by rw [hlim, hto])

/-! ### What is let through -/

/-- What a `NativeReplay` keeps from a validation. -/
def kept (sha256 : List UInt8 → List UInt8) (pages : Bool) (bytes : List UInt8) : Native :=
  if pages then ⟨true, pageDigests sha256 bytes⟩ else ⟨false, []⟩

omit hw ha in
theorem native_run_whole {sha256 : List UInt8 → List UInt8} {h : Header} (hpos : 0 < h.length)
    {y : Call} (hy : y.hashed = true ∧ y.paged = true) {n n' : Native} {bytes : List UInt8} :
    Native.run sha256 n h 0 h.length true y = .ok (n', bytes) ↔ y.completed = true ∧
      bytes = content y.written h.length ∧ sha256 bytes = h.digest ∧
        n' = kept sha256 y.collected bytes := by
  have hrange : ¬ (h.length = 0 ∨ h.length < 0 ∨ h.length - 0 < h.length ∨
      ((0 : ℕ) ≠ 0 ∧ (n.pages = false ∨ 0 % PAGE ≠ 0)) ∨
      (true = false ∧ h.length ≠ h.length ∧ n.pages = false)) := by
    simp
    omega
  unfold Native.run kept
  rw [if_neg hrange, if_neg (by simp)]
  by_cases hc : y.completed = true
  · simp only [hc, hy.1, hy.2, Bool.not_true, Bool.false_eq_true, if_false, true_or,
      true_and, if_true, reduceCtorEq, false_or, ne_eq]
    by_cases hs : sha256 (content y.written h.length) = h.digest
    · rw [if_neg (not_not.mpr hs)]
      cases hcol : y.collected with
      | true =>
        simp only [Bool.not_true, Bool.false_eq_true, if_false, if_true, Except.ok.injEq,
          Prod.mk.injEq]
        constructor
        · rintro ⟨rfl, rfl⟩
          exact ⟨rfl, hs, rfl⟩
        · rintro ⟨rfl, -, rfl⟩
          exact ⟨rfl, rfl⟩
      | false =>
        simp only [Bool.not_false, if_true, Except.ok.injEq, Prod.mk.injEq]
        constructor
        · rintro ⟨rfl, rfl⟩
          exact ⟨rfl, hs, rfl⟩
        · rintro ⟨rfl, -, rfl⟩
          exact ⟨rfl, rfl⟩
    · rw [if_pos hs]
      constructor
      · intro hx
        cases hx
      · rintro ⟨rfl, hx, -⟩
        exact absurd hx hs
  · simp [hc]

/-- **A `run` that validates.** -/
theorem run_validated {sha256 : List UInt8 → List UInt8} {n n' : Native} {bytes : List UInt8}
    {output : Word}
    {h h' : Host} (hplaced : Placed c h.mem) (hapart : Apart c output c.recipe.h.length)
    (hx : Replay.run c store sha256 n output 0 c.recipe.h.length true h =
      some (.ok (n', bytes), h')) :
    ∃ k x, Validated c store.frames k x h' ∧ bytes = outputOf c x.1.guest.mem 0 c.recipe.h.length ∧
      sha256 bytes = c.recipe.h.digest ∧ n' = kept sha256 (pagesOf c x.2) bytes := by
  obtain ⟨⟨y, g⟩, hy, hxy⟩ := Option.map_eq_some_iff.mp hx
  obtain ⟨hrun, rfl⟩ := Prod.mk.inj hxy
  have hhash : y.hashed = true ∧ y.paged = true := by
    rw [attempt_whole hw ha.recipe] at hy
    obtain ⟨z, -, hz⟩ := Option.map_eq_some_iff.mp hy
    rw [← (Prod.mk.inj hz).1]
    exact ⟨rfl, rfl⟩
  obtain ⟨hc, hbytes, hdigest, hn⟩ :=
    (native_run_whole (output_fits hw ha.recipe).1 hhash).mp hrun
  obtain ⟨k, x, hv, -, hcol, hcontent⟩ := attempt_validated hw ha hplaced hapart hy hc
  exact ⟨k, x, hv, hbytes.trans hcontent, hdigest, by rw [hn, hcol]⟩

/-- **A run of the whole program** with the recorded digest makes a `run` validate. -/
theorem run_of_ends {sha256 : List UInt8 → List UInt8} (n : Native) {output : Word}
    {h : Host} {k : ℕ}
    {t x : Point × Ledger} (hplaced : Placed c h.mem) (hapart : Apart c output c.recipe.h.length)
    (hends : Ends (Interpreter.step c (whole c)) k (beginning c, opening c store.frames) t
      (.returned, x))
    (hdigest : sha256 (outputOf c x.1.guest.mem 0 c.recipe.h.length) = c.recipe.h.digest) :
    ∃ h', Replay.run c store sha256 n output 0 c.recipe.h.length true h = some (.ok
      (kept sha256 (pagesOf c x.2) (outputOf c x.1.guest.mem 0 c.recipe.h.length),
        outputOf c x.1.guest.mem 0 c.recipe.h.length), h') ∧ Validated c store.frames k x h' := by
  obtain ⟨y, h', hy, hc, hhash, hv, hcol, hcontent⟩ :=
    attempt_of_ends hw ha rfl hends hplaced hapart n
  refine ⟨h', ?_, hv⟩
  unfold Replay.run
  rw [hy, Option.map_some, (native_run_whole (output_fits hw ha.recipe).1 hhash).mpr
    ⟨hc, rfl, by rw [hcontent, hdigest], rfl⟩, hcol, hcontent]

/-! ### The recorded program -/

/-- The stores of a run are the bytes of its output so far, in order. -/
def Wrote (c : Compiler) (p : Point) (t : List (Word × UInt8)) : Prop :=
  t = (List.range (p.cursor.toNat - c.recipe.h.output)).map fun j =>
    (BitVec.ofNat 64 (c.recipe.h.output + j), p.guest.mem (BitVec.ofNat 64 (c.recipe.h.output + j)))

omit hw ha in
/-- **A step appends what it stores.** -/
theorem Wrote.append {limit : Word} {p p' : Point} {t u : List (Word × UInt8)} (h : Wrote c p t)
    (hs : Sound c p) (ht : Taken limit p p' u) : Wrote c p' (t ++ u) := by
  cases ht with
  | quiet hc hm =>
    unfold Wrote at *
    rw [hc, hm, List.append_nil]
    exact h
  | @store bytes hpos hlen hfit hlimit hc hm =>
    have hlow := hs.low
    have hto : p'.cursor.toNat = p.cursor.toNat + bytes.length := by rw [hc, toNat_add_ofNat hfit]
    unfold Wrote at *
    rw [hto, h, storedBytes, Nat.sub_add_comm hlow, List.range_add, List.map_append, List.map_map]
    congr 1
    · -- what is there stays
      refine List.map_congr_left fun j hj => ?_
      have hj' := List.mem_range.mp hj
      have hbelow : (BitVec.ofNat 64 (c.recipe.h.output + j)).toNat < p.cursor.toNat := by
        rw [toNat_small (by omega)]
        omega
      rw [hm, writeBytes_outside (by omega) (.inl hbelow)]
    · refine List.map_congr_left fun j hj => ?_
      have hplace : BitVec.ofNat 64 (c.recipe.h.output + (p.cursor.toNat - c.recipe.h.output + j)) =
          p.cursor + BitVec.ofNat 64 j := by
        have hsum : c.recipe.h.output + (p.cursor.toNat - c.recipe.h.output + j) =
          p.cursor.toNat + j := by
          omega
        rw [hsum, BitVec.ofNat_add, BitVec.ofNat_toNat, BitVec.setWidth_eq]
      simp only [Function.comp_apply, hplace, hm]
      rw [writeBytes_inside (List.mem_range.mp hj) (by omega)]

theorem Sound.slots {p : Point} (hs : Sound c p) : SlotsKept r c.plan.instructions p.guest.mem := by
  intro d hd slot hslot j hj
  obtain ⟨hfit, hout⟩ := Slots.slot_outside hw ha hd hslot
  have hmax : UINT64_MAX < 2 ^ 64 := by decide
  have hhigh := hs.high
  have hrec : c.recipe = r := ha.recipe
  rw [hrec] at hhigh
  refine (hs.outside _ fun hc => hout j hj ?_).trans (by rw [hrec])
  rw [hrec, toNat_small (by omega)] at hc
  exact ⟨hc.1, by omega⟩

/-- **A run of the interpreter** is one of the recorded program. -/
theorem steps_executes {n m : ℕ} {s u : Point × Ledger} {t : List (Word × UInt8)}
    (h : Steps (Interpreter.step c (whole c)) m s u)
    (hx : Executes c.isa r (initialGuest r) n t s.1.guest) (hs : Sound c s.1) (ht : Wrote c s.1 t) :
    ∃ t', Executes c.isa r (initialGuest r) (n + m) t' u.1.guest ∧ Wrote c u.1 t' := by
  induction h generalizing n t with
  | refl => exact ⟨t, hx, ht⟩
  | @cons m s s' u hstep _ ih =>
    obtain ⟨d, hfind, -, -, hb, -⟩ := step_inl hstep
    have hd : d ∈ c.plan.instructions := List.mem_of_find?_eq_some hfind
    have hpc : d.pc = s.1.guest.pc := by simpa using List.find?_some hfind
    obtain ⟨hr, hguest, -, htaken⟩ := body_taken ha hd hb
    rw [spend_guest] at hguest htaken
    have hadv := step_eq_advance hw ha hd hr hpc.symm (Sound.slots hw ha hs)
    have hrec : c.recipe = r := ha.recipe
    rw [← hrec, ← hguest] at hadv
    have hnext := hx.snoc (by rw [← hrec]; exact hadv)
    have hspent : Sound c (spend c d s.1) :=
      ⟨by simpa using hs.low, by simpa using hs.high, by simpa using hs.outside⟩
    have hwrote : Wrote c (spend c d s.1) t := by
      unfold Wrote at *
      rw [spend_cursor, spend_guest]
      exact ht
    obtain ⟨t', hx', ht'⟩ := ih hnext (step_taken ha (whole_limit hw ha).le hs hstep).1
      (hwrote.append hspent htaken)
    have hsum : n + 1 + m = n + (m + 1) := by omega
    exact ⟨t', hsum ▸ hx', ht'⟩

theorem step_at_return {d : Decoded} (hd : d ∈ c.plan.instructions) (hr : d.returns = true)
    {g : Guest} (hpc : d.pc = g.pc) : ∃ a, Reference.step c.isa r g = .returned a := by
  have hret := (ha.admissible d hd).returning
  rw [hr] at hret
  unfold Reference.step
  rw [← hpc, find_code hw ha hd]
  simp only [(ha.admissible d hd).decoded]
  rw [if_pos (of_decide_eq_true hret.symm)]
  exact ⟨_, rfl⟩

/-- **The whole run** as one of the recorded program. -/
theorem Validated.executes {base : Word} {n : ℕ} {x : Point × Ledger} {h : Host}
    (hv : Validated c base n x h) : ∃ t, Executes c.isa r (initialGuest r) n t x.1.guest ∧
      (∃ a, Reference.step c.isa r x.1.guest = .returned a) ∧
      x.1.guest.core.gpr 0 = BitVec.ofNat 64 r.h.result ∧
      t = (List.range r.h.length).map fun j =>
        (BitVec.ofNat 64 (r.h.output + j), x.1.guest.mem (BitVec.ofNat 64 (r.h.output + j))) := by
  obtain ⟨t, hends⟩ := hv.run
  have hrec : c.recipe = r := ha.recipe
  have hfirst : Executes c.isa r (initialGuest r) 0 [] (beginning c).guest := by
    unfold beginning
    rw [hrec]
    exact .refl
  have hnone : Wrote c (beginning c) [] := by
    unfold Wrote
    rw [beginning_cursor hw ha, Nat.sub_self]
    rfl
  obtain ⟨t', hx, ht'⟩ := steps_executes hw ha hends.1 hfirst (beginning_sound hw ha) hnone
  obtain ⟨hcomplete, hguest, hcursor⟩ := returned_complete hends
  obtain ⟨d, hfind, -, -, hr, -⟩ := step_returned hends.2
  have hpc : d.pc = x.1.guest.pc := by
    rw [hguest]
    simpa using List.find?_some hfind
  have hstop : t.1.cursor.toNat = r.h.output + r.h.length := by
    rw [← hcursor, hcomplete.1, ← hrec]
    exact whole_limit hw ha
  rw [Nat.zero_add, ← hguest] at hx
  refine ⟨t', hx, step_at_return hw ha (List.mem_of_find?_eq_some hfind) hr hpc, ?_, ?_⟩
  · rw [hcomplete.2.2, hrec]
  · unfold Wrote at ht'
    rw [ht', hstop, hrec, Nat.add_sub_cancel_left, hguest]

end

/-- **Soundness of a validation.** For every admitted recipe, whatever its registers and inputs are
and whatever the buffer and the host's memory hold: if a validating call of the generated code ends
without error at its limit, then the recorded program, taken one instruction at a time over a flat
memory with the inputs in it, comes to a return as its last instruction of `steps`, with `RAX` as
recorded; its stores are the bytes of the output from the first to the last, and the buffer holds
these bytes. -/
theorem validated_run_sound {isa : Isa} {cache : Bool} {r : Recipe} {p : Plan} (hw : WellFormed r)
    (hp : decode isa cache r = .ok p) (fast : Bool) (data : Segment → Word) (store : Storage)
    {n : Native} {output : Word} {h h' : Host} {y : Call}
    (hplaced : Placed ⟨isa, p, fast, data⟩ h.mem)
    (hapart : Apart ⟨isa, p, fast, data⟩ output r.h.length)
    (hx : attempt ⟨isa, p, fast, data⟩ store n output 0 r.h.length true h = some (y, h'))
    (hc : y.completed = true) :
    ∃ g t, Executes isa r (initialGuest r) (r.h.steps - 1) t g ∧ 0 < r.h.steps ∧
      (∃ a, Reference.step isa r g = .returned a) ∧ g.core.gpr 0 = BitVec.ofNat 64 r.h.result ∧
      t = (List.range r.h.length).map (fun j => (BitVec.ofNat 64 (r.h.output + j), y.written j)) ∧
      ∀ j, y.written j = h'.mem (output + BitVec.ofNat 64 j) := by
  have ha : Admitted isa r p := decode_admitted hw hp
  have hrec : Compiler.recipe ⟨isa, p, fast, data⟩ = r := ha.recipe
  rw [← hrec] at hx hapart
  obtain ⟨k, x, hv, hk, -, hcontent⟩ :=
    attempt_validated (c := ⟨isa, p, fast, data⟩) hw ha hplaced hapart hx hc
  obtain ⟨t, hexec, hret, hres, ht⟩ := hv.executes (c := ⟨isa, p, fast, data⟩) hw ha
  -- the budget is that of the header
  have hsteps : k + 1 = r.h.steps := by
    have hbound := hw.header
    unfold invalidHeader at hbound
    simp only [Bool.or_eq_false_iff, decide_eq_false_iff_not] at hbound
    rw [hk, beginning, hrec, toNat_small (by omega)]
  have hbytes : ∀ j < r.h.length,
    y.written j = x.1.guest.mem (BitVec.ofNat 64 (r.h.output + j)) := by
    intro j hj
    rw [hrec] at hcontent
    have hget := congrArg (fun l => l[j]?) hcontent
    simp only [outputOf, content, List.getElem?_map, List.getElem?_range hj, Option.map_some,
      Option.some.injEq, hrec, Nat.add_zero] at hget
    exact hget
  have hk' : r.h.steps - 1 = k := by omega
  refine ⟨x.1.guest, t, ?_, by omega, hret, hres, ?_, ?_⟩
  · rw [hk']
    exact hexec
  · rw [ht]
    refine List.map_congr_left fun j hj => ?_
    rw [hbytes j (List.mem_range.mp hj)]
  · rw [attempt_whole hw hrec] at hx
    obtain ⟨⟨s', g⟩, -, hy⟩ := Option.map_eq_some_iff.mp hx
    obtain ⟨rfl, rfl⟩ := Prod.mk.inj hy
    exact fun _ => rfl

theorem fresh_placed {p : Plan} (hp : decode tinyIsa true fillRecipe = .ok p) :
    Placed ⟨tinyIsa, p, true, fun _ => 0x20000⟩ freshHost.mem ∧
      Apart ⟨tinyIsa, p, true, fun _ => 0x20000⟩ 0x50000 1 := by
  have hrec : Compiler.recipe ⟨tinyIsa, p, true, fun _ => 0x20000⟩ = fillRecipe :=
    (decode_admitted fillRecipe_ok.1 hp).recipe
  constructor
  · unfold Placed
    rw [hrec]
    change ∀ s ∈ fillRecipe.inputs, ∀ j < s.bytes.length,
      freshHost.mem (0x20000#64 + BitVec.ofNat 64 j) = s.bytes.getD j 0
    decide
  · unfold Apart
    rw [hrec]
    change ∀ s ∈ fillRecipe.inputs, ∀ j < s.bytes.length,
      ¬ (0x20000#64 + BitVec.ofNat 64 j - 0x50000#64).toNat < 1
    decide

/-- A validation of one byte, and the two instructions behind it. -/
theorem validated_run_sound_fill : ∃ p, decode tinyIsa true fillRecipe = .ok p ∧ ∃ y h',
    attempt ⟨tinyIsa, p, true, fun _ => 0x20000⟩ ⟨0x30000, 0x40000⟩ .fresh 0x50000 0 1
      true freshHost =
      some (y, h') ∧ ∃ g, Executes tinyIsa fillRecipe (initialGuest fillRecipe) 1
        [(0x10000, y.written 0)] g ∧ y.written 0 = h'.mem 0x50000 := by
  have hrun : (fillCompiler.bind fun c => (attempt c ⟨0x30000, 0x40000⟩ .fresh 0x50000 0 1 true
      freshHost).map fun x => x.1.completed) = some true := by
    decide +kernel
  obtain ⟨p, hp⟩ := exists_plan fillRecipe_ok.2
  have hc : fillCompiler = some ⟨tinyIsa, p, true, fun _ => 0x20000⟩ := by
    unfold fillCompiler
    rw [hp]
    rfl
  rw [hc, Option.bind_some, Option.map_eq_some_iff] at hrun
  obtain ⟨⟨y, h'⟩, hx, hdone⟩ := hrun
  obtain ⟨hplaced, hapart⟩ := fresh_placed hp
  obtain ⟨g, t, hexec, -, -, -, rfl, hmem⟩ :=
    validated_run_sound fillRecipe_ok.1 hp true (fun _ => 0x20000)
    ⟨0x30000, 0x40000⟩ hplaced hapart hx hdone
  exact ⟨p, hp, y, h', hx, g, hexec, hmem 0⟩

end Afterfree.Native.Validation
