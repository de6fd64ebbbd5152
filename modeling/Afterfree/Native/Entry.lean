import Afterfree.Native.Replay
import Afterfree.Native.Simulation
import Afterfree.Native.Windows

/-!
# Calls and runs

A call of `NativeReplay` begins with a `State` object that holds a point, whether that is the
beginning of the program, a checkpoint, or what the window before has left. Then it ends as the
interpreter does.

* `Poised`: what there is in front of a call;
* `invoke_ends`: the call and the run of the interpreter;
* `initial_holds`, `opening_marked`: the point that the first call begins with.
-/

namespace Afterfree.Native.Entry

open Afterfree.Common Afterfree.Codec Afterfree.Encoding Afterfree.Native.X86
  Afterfree.Native.Decode
open Afterfree.Native.Reference Afterfree.Native.Compile Afterfree.Native.Pieces
  Afterfree.Native.Calls
open Afterfree.Native.Interpreter Afterfree.Native.Simulation Afterfree.Native.Arenas
open Afterfree.Native.Replay Afterfree.Native.Windows Afterfree.Worker.Checked Afterfree.Lib
open Afterfree.Lib.Machine

section
variable (c : Compiler)

/-! ### Buffers -/

/-- The inputs are in the host's memory. -/
def Placed (mem : Memory) : Prop :=
  ∀ s ∈ c.recipe.inputs, ∀ j < s.bytes.length, mem (c.data s + BitVec.ofNat 64 j) = s.bytes.getD j 0

/-- Bytes of the output in the guest's memory. -/
def outputOf (mem : Memory) (offset size : ℕ) : List UInt8 :=
  content (fun j => mem (BitVec.ofNat 64 (c.recipe.h.output + offset + j))) size

/-- A buffer has no byte of an input. -/
def Apart (a : Word) (size : ℕ) : Prop :=
  ∀ s ∈ c.recipe.inputs, ∀ j < s.bytes.length, ¬ (c.data s + BitVec.ofNat 64 j - a).toNat < size

variable {c}

theorem Apart.le {a : Word} {m n : ℕ} (h : Apart c a n) (hle : m ≤ n) : Apart c a m :=
  fun s hs j hj hc => h s hs j hj (by omega)

/-- The window of a call whose cursor is at the beginning of a buffer. -/
def windowAt (buffer cursor : Word) (h : Host) : Window :=
  ⟨cursor.toNat, buffer - cursor, h.mem, h.frames⟩

theorem windowAt_start (buffer cursor : Word) (h : Host) (guest : Memory) :
    h.mem = (windowAt buffer cursor h).host cursor guest := by
  funext a
  exact (if_neg fun hc => absurd hc.1 (Nat.not_le.mpr hc.2)).symm

theorem sub_window (buffer cursor a : Word) : a - (buffer - cursor) - cursor = a - buffer := by
  bv_omega

/-- **The bytes of a buffer** are those of the guest's memory. -/
theorem windowAt_byte {buffer cursor cursor' : Word} {h : Host} {guest : Memory} {j : ℕ}
    (hj : cursor.toNat + j < cursor'.toNat) :
    (windowAt buffer cursor h).host cursor' guest (buffer + BitVec.ofNat 64 j) =
      guest (cursor + BitVec.ofNat 64 j) := by
  have hfit := cursor'.isLt
  have hplace : buffer + BitVec.ofNat 64 j - (buffer - cursor) = cursor + BitVec.ofNat 64 j := by
    bv_omega
  have hto : (cursor + BitVec.ofNat 64 j).toNat = cursor.toNat + j := toNat_add_ofNat (by omega)
  unfold Window.host windowAt
  simp only [hplace]
  rw [if_pos (by omega)]

theorem fed_windowAt {buffer cursor limit : Word} {h : Host} {size : ℕ} (hp : Placed c h.mem)
    (hapart : Apart c buffer size) (hlimit : limit.toNat = cursor.toNat + size) :
    Fed c (windowAt buffer cursor h) limit := by
  refine ⟨hp, fun s hs j hj hc => hapart s hs j hj ?_⟩
  have hfit := limit.isLt
  rw [← sub_window buffer cursor, sub_toNat_lt (by omega)]
  exact ⟨hc.1, by rw [← hlimit]; exact hc.2⟩

theorem placed_windowAt {buffer cursor cursor' : Word} {h : Host} {guest : Memory} {size : ℕ}
    (hp : Placed c h.mem) (hapart : Apart c buffer size)
    (hle : cursor'.toNat ≤ cursor.toNat + size) :
    Placed c ((windowAt buffer cursor h).host cursor' guest) := by
  intro s hs j hj
  refine (if_neg fun hc => hapart s hs j hj ?_).trans (hp s hs j hj)
  have hfit := cursor'.isLt
  have h1 : cursor.toNat ≤ (c.data s + BitVec.ofNat 64 j - (buffer - cursor)).toNat := hc.1
  have h2 : (c.data s + BitVec.ofNat 64 j - (buffer - cursor)).toNat < cursor'.toNat := hc.2
  rw [← sub_window buffer cursor, BitVec.toNat_sub]
  omega

/-! ### In front of a call -/

/-- **A `State` object and a host in front of a call.** -/
structure Poised (c : Compiler) (W : Window) (q : Extent) (s : State) (h : Host) (p : Point)
    (b : Ledger) :
    Prop where
  holds : Holds c s p
  start : AtStart c p
  fields : Fields c q s.word p b
  delta : s.word .delta = W.delta
  frames : ∀ a, FrameAt c W a (b.frames a) (h.frames a)
  mem : h.mem = W.host p.cursor p.guest.mem
  sound : Sound c p
  low : W.start ≤ p.cursor.toNat
  cursor : p.cursor.toNat ≤ q.limit.toNat
  limit : q.limit.toNat ≤ c.recipe.h.output + c.recipe.h.length
  fed : Fed c W q.limit

variable {r : Recipe} (hw : WellFormed r) (ha : Admitted c.isa r c.plan)
include hw ha

/-- **A call and the run of the interpreter**: they end in the same way, unless the call takes an
alignment exception; what a call that yields or returns has spent of its budget is the length of the
run. -/
theorem invoke_ends (store : Storage) {W : Window} {q : Extent} {s : State} {h : Host} {p : Point}
    {b : Ledger} (hp : Poised c W q s h p b) :
    ∃ n t e s' h', Ends (Interpreter.step c q) n (p, b) t e ∧
      Left c W s' (e.1, h') e ∧
      invoke c store s h = (if e.1 = .faulted then none else some (s', h')) ∧
      (e.1 = .yielded ∨ e.1 = .returned →
        (s'.word .remaining).toNat + (n + lastCount e.1) = (s.word .remaining).toNat) := by
  obtain ⟨d, hfind, hs⟩ := hp.start
  have hpresent : present c.plan.instructions p.guest.pc = true :=
    Option.isSome_iff_exists.mpr ⟨d, hfind⟩
  have hcalled : Called c W q (argued store s h) p b := by
    refine ⟨?_, hpresent, ?_, ?_, hp.frames, hp.mem, hp.sound, hp.low, hp.cursor⟩
    · rw [argued_pointer, argued_state]
      exact hp.holds
    · rw [argued_pointer, argued_state]
      exact hp.fields
    · rw [argued_pointer, argued_state]
      exact hp.delta
  -- the entry is the piece of the point
  have hentry : c.plan.instructions[(s.word .entry).toNat]? = some d := by
    rw [hp.holds.entry, label_toNat ha hpresent]
    obtain ⟨e, he, hpc⟩ := Budget.label_spec hpresent
    have hx := ha.find_pc hw (List.mem_of_getElem? he)
    rw [hpc, hfind] at hx
    rw [he, Option.some.inj hx]
  have hbudget := Budget.call_budget (h := argued store s h) hw ha (by
    rw [argued_pointer, argued_state]
    exact hentry) hs
  rw [argued_pointer, argued_state] at hbudget
  obtain ⟨e, h', n, hcall, -, hcount, -⟩ := hbudget
  have hrun := hcall _ (Nat.lt_succ_self _)
  have hrel := call_tracks hw ha hp.fed hp.limit ((s.word .remaining).toNat + 1) hcalled
  rw [hrun, argued_pointer] at hrel
  generalize hy :
    Machine.run (Interpreter.step c q) ((s.word .remaining).toNat + 1) (p, b) = y at hrel
  cases hrel with
  | @some _ y hl =>
    obtain ⟨hleft, hn⟩ := hl
    obtain ⟨-, t, hends⟩ := run_iff.mp hy
    have he : e = y.1.1 := hleft.exit
    refine ⟨y.2, t, y.1, h'.state store.state, h', hends, ?_, ?_, fun hx => ?_⟩
    · rw [← he]
      exact hleft
    · unfold invoke
      simp only [hrun, he]
    · have hsum := hcount (by rw [he]; tauto)
      simp only at hn
      rw [hn, he] at hsum
      exact hsum

/-- **A call that comes back.** -/
theorem invoke_left {store : Storage} {W : Window} {q : Extent} {s s' : State} {h h' : Host}
    {p : Point} {b : Ledger} (hp : Poised c W q s h p b) (hx : invoke c store s h = some (s', h')) :
    ∃ n t e, Ends (Interpreter.step c q) n (p, b) t e ∧ Left c W s' (e.1, h') e ∧ e.1 ≠ .faulted ∧
      (e.1 = .yielded ∨ e.1 = .returned →
        (s'.word .remaining).toNat + (n + lastCount e.1) = (s.word .remaining).toNat) := by
  obtain ⟨n, t, e, s'', h'', hends, hleft, hinv, hcount⟩ := invoke_ends hw ha store hp
  rw [hx] at hinv
  split_ifs at hinv with hf
  obtain ⟨rfl, rfl⟩ := Prod.mk.inj (Option.some.inj hinv)
  exact ⟨n, t, e, hends, hleft, hf, hcount⟩

/-- **A run of the interpreter** that takes no exception is one of the generated code. -/
theorem invoke_of_ends (store : Storage) {W : Window} {q : Extent} {s : State} {h : Host}
    {p : Point} {b : Ledger} (hp : Poised c W q s h p b) {n : ℕ} {t : Point × Ledger}
    {e : Exit × Point × Ledger} (hends : Ends (Interpreter.step c q) n (p, b) t e)
    (hf : e.1 ≠ .faulted) :
    ∃ s' h', invoke c store s h = some (s', h') ∧ Left c W s' (e.1, h') e := by
  obtain ⟨n', t', e', s', h', hends', hleft, hinv, -⟩ := invoke_ends hw ha store hp
  obtain ⟨-, -, rfl⟩ := hends.det hends'
  rw [if_neg hf] at hinv
  exact ⟨s', h', hinv, hleft⟩

/-! ### Behind a call -/

omit hw ha in
/-- **The report of a call** that has taken no exception. -/
theorem ends_report {W : Window} {s' : State} {h' : Host} {e : Exit × Point × Ledger}
    (buffer : Word) {limit : Word} (hl : Left c W s' (e.1, h') e) (hf : e.1 ≠ .faulted)
    (hlimit : s'.word .limit = limit) :
    (report buffer s' h').completed = true ↔
      (e.1 = .yielded ∨ e.1 = .returned) ∧ e.2.1.cursor = limit := by
  have herror : s'.word .error = if e.1 = .yielded ∨ e.1 = .returned ∨ e.1 = .faulted then 0
    else 1 := hl.error
  have hexit : (e.1 = .yielded ∨ e.1 = .returned ∨ e.1 = .faulted) ↔
    (e.1 = .yielded ∨ e.1 = .returned) := by
    tauto
  unfold report
  simp only [Bool.and_eq_true, decide_eq_true_eq]
  rw [herror, hlimit, hl.cursor]
  by_cases hx : e.1 = .yielded ∨ e.1 = .returned
  · rw [if_pos (hexit.mpr hx)]
    simp [hx]
  · rw [if_neg fun hc => hx (hexit.mp hc)]
    simp [hx]

/-- **A call with a good report.** -/
theorem invoke_completed {store : Storage} {W : Window} {q : Extent} {s s' : State} {h h' : Host}
    {p : Point} {b : Ledger} (hp : Poised c W q s h p b) (hx : invoke c store s h = some (s', h'))
    {buffer : Word} (hc : (report buffer s' h').completed = true) :
    ∃ n t e, Ends (Interpreter.step c q) n (p, b) t e ∧ Left c W s' (e.1, h') e ∧
      (e.1 = .yielded ∨ e.1 = .returned) ∧ e.2.1.cursor = q.limit ∧
      (s'.word .remaining).toNat + (n + lastCount e.1) = (s.word .remaining).toNat := by
  obtain ⟨n, t, e, hends, hleft, hf, hcount⟩ := invoke_left hw ha hp hx
  obtain ⟨-, -, -, -, -, -, -, hlimit⟩ := invoke_run ha hx
  obtain ⟨hexit, hcur⟩ := (ends_report _ hleft hf (hlimit.trans hp.fields.limit)).mp hc
  exact ⟨n, t, e, hends, hleft, hexit, hcur, hcount hexit⟩

/-- **A run to its limit** gives a call with a good report. -/
theorem invoke_complete (store : Storage) {W : Window} {q : Extent} {s : State} {h : Host}
    {p : Point} {b : Ledger} (hp : Poised c W q s h p b) {n : ℕ} {t : Point × Ledger}
    {e : Exit × Point × Ledger} (hends : Ends (Interpreter.step c q) n (p, b) t e)
    (hexit : e.1 = .yielded ∨ e.1 = .returned) (hcur : e.2.1.cursor = q.limit) (buffer : Word) :
    ∃ s' h', invoke c store s h = some (s', h') ∧ Left c W s' (e.1, h') e ∧
      (report buffer s' h').completed = true := by
  have hf : e.1 ≠ .faulted := by
    rcases hexit with hx | hx <;> rw [hx] <;> decide
  obtain ⟨s', h', hx, hleft⟩ := invoke_of_ends hw ha store hp hends hf
  obtain ⟨-, -, -, -, -, -, -, hlimit⟩ := invoke_run ha hx
  exact ⟨s', h', hx, hleft, (ends_report _ hleft hf (hlimit.trans hp.fields.limit)).mpr
    ⟨hexit, hcur⟩⟩

omit hw ha in
/-- **What the buffer holds** behind a call to its limit. -/
theorem report_content {buffer cursor limit : Word} {h h' : Host} {s' : State}
    {e : Exit × Point × Ledger} (hl : Left c (windowAt buffer cursor h) s' (e.1, h') e)
    (hcur : e.2.1.cursor = limit) {k size : ℕ}
    (hcursor : cursor = BitVec.ofNat 64 (c.recipe.h.output + k))
    (hlimit : limit.toNat = cursor.toNat + size) :
    content (report buffer s' h').written size = outputOf c e.2.1.guest.mem k size := by
  refine List.map_congr_left fun j hj => ?_
  have hj' := List.mem_range.mp hj
  have hmem : h'.mem = (windowAt buffer cursor h).host e.2.1.cursor e.2.1.guest.mem := hl.mem
  change h'.mem (buffer + BitVec.ofNat 64 j) = _
  rw [hmem, windowAt_byte (by rw [hcur, hlimit]; omega), hcursor, ← BitVec.ofNat_add]

omit hw ha in
theorem report_placed {buffer cursor : Word} {h h' : Host} {s' : State} {e : Exit × Point × Ledger}
    (hl : Left c (windowAt buffer cursor h) s' (e.1, h') e) {size : ℕ} (hp : Placed c h.mem)
    (hapart : Apart c buffer size) (hle : e.2.1.cursor.toNat ≤ cursor.toNat + size) :
    Placed c h'.mem := by
  have hmem : h'.mem = (windowAt buffer cursor h).host e.2.1.cursor e.2.1.guest.mem := hl.mem
  rw [hmem]
  exact placed_windowAt hp hapart hle

omit hw ha in
theorem left_marked {W : Window} {h' : Host} {s' : State} {e : Exit × Point × Ledger}
    (hl : Left c W s' (e.1, h') e) (a : Word) (p : Point) (hp : e.2.2.frames a = some p) :
    Marked c p (h'.frames a) := by
  have hf := hl.frames a
  rw [hp] at hf
  exact hf

/-! ### Buffers and cursors -/

omit ha in
/-- **A call to a buffer** that starts at its cursor. -/
theorem poised (hrec : c.recipe = r) {buffer : Word} {size : ℕ} {q : Extent} {s : State}
    {h : Host} {p : Point}
    {b : Ledger} (hholds : Holds c s p) (hstart : AtStart c p) (hsound : Sound c p)
    (hledger : s.word .collecting = b.collecting ∧ s.word .nextPage = b.nextPage ∧
      s.word .nextFrame = b.nextFrame)
    (hstop : s.word .stop = stop c) (herror : s.word .error = 0) (hlimit : s.word .limit = q.limit)
    (hvalidating : s.word .validating = 0 ↔ q.validating = false)
    (htrigger : s.word .trigger = triggerOf s.word) (hdelta : s.word .delta = buffer - p.cursor)
    (hframes : ∀ a p', b.frames a = some p' → Marked c p' (h.frames a)) (hplaced : Placed c h.mem)
    (hapart : Apart c buffer size) {k : ℕ}
    (hcursor : p.cursor = BitVec.ofNat 64 (c.recipe.h.output + k))
    (hlim : q.limit = BitVec.ofNat 64 (c.recipe.h.output + k + size))
    (hle : k + size ≤ c.recipe.h.length) :
    Poised c (windowAt buffer p.cursor h) q s h p b := by
  obtain ⟨-, -, hfit⟩ := output_fits hw hrec
  have h1 : p.cursor.toNat = c.recipe.h.output + k := by rw [hcursor, toNat_small (by omega)]
  have h2 : q.limit.toNat = c.recipe.h.output + k + size := by rw [hlim, toNat_small (by omega)]
  refine ⟨hholds, hstart, ⟨hholds.cursor, hholds.remaining, hledger.1, hledger.2.1,
    hledger.2.2, hlimit,
    hstop, hvalidating, herror, fun _ => ?_⟩, hdelta, fun a => ?_, windowAt_start _ _ _ _,
      hsound, le_rfl,
    by omega, by omega, fed_windowAt hplaced hapart (by omega)⟩
  · rw [htrigger]
    exact triggerOf_le _
  · cases hf : b.frames a with
    | none => exact rfl
    | some p' => exact hframes a p' hf

/-! ### The beginning of the program -/

omit hw ha in
theorem initial_holds : Holds c (initial c) (beginning c) :=
  ⟨rfl, rfl, rfl, ⟨fun _ _ => rfl, fun _ _ => rfl, rfl⟩, .refl _ _⟩

omit hw ha in
theorem saveInitial_marked {s : State} (hs : Holds c s (beginning c))
    (hregs : s.regs = (initial c).regs) (hflags : s.flags = (initial c).flags)
    (hxmm : s.xmm = (initial c).xmm) (hmxcsr : s.mxcsr = (initial c).mxcsr) :
    Marked c (beginning c) (saveInitial c s) := by
  refine ⟨hs.entry, hs.cursor, hs.remaining, ?_, hmxcsr, ?_, ?_⟩
  · change X86.Agree _ s.flags _
    rw [hflags]
    exact .refl _ _
  · refine List.map_congr_left fun i _ => ?_
    change s.regs i = BitVec.ofNat 64 (c.recipe.h.regs.getD (savedAt (physical i)) 0)
    rw [hregs, savedAt_physical]
    rfl
  · refine List.map_congr_left fun k _ => ?_
    rw [hxmm]
    rfl

omit hw ha in
/-- **The ledger in front of a collection** goes with the frames there. -/
theorem opening_marked {store : Storage} {s : State} {h : Host}
    (hm : Marked c (beginning c) (saveInitial c s))
    (hframes : h.frames store.frames = saveInitial c s) (a : Word) (p : Point)
    (hp : (opening c store.frames).frames a = some p) : Marked c p (h.frames a) := by
  have hp' : Function.update (fun _ => none) store.frames (some (beginning c)) a = some p := hp
  by_cases hx : a = store.frames
  · subst hx
    rw [Function.update_self, Option.some.injEq] at hp'
    subst hp'
    rw [hframes]
    exact hm
  · rw [Function.update_of_ne hx] at hp'
    cases hp'

end

end Afterfree.Native.Entry
