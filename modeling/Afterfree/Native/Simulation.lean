import Afterfree.Native.Interpreter

/-!
# The generated code follows the interpreter

The host has the guest's registers in use, its flags as far as they are live, the fields of the call
and the output in a window of its memory. Guard code changes scratch register and flags; the cached
trigger never lies behind a point where something is due, so that a block start that skips its
checks misses nothing.

* `Fields`, `Tracks`: how a host and a point of the interpreter belong together;
* `piece_tracks`: one piece does what one step of the interpreter does;
* `run_tracks`: so does a whole run, whether its trigger is cached or not.
-/

namespace Afterfree.Native.Simulation

open Afterfree.Common Afterfree.Codec Afterfree.Encoding Afterfree.Native.X86
  Afterfree.Native.Decode
open Afterfree.Native.Reference Afterfree.Native.Compile Afterfree.Native.Pieces
  Afterfree.Native.Calls
open Afterfree.Native.Interpreter Afterfree.Native.Arenas Afterfree.Lib

section
variable (c : Compiler)

/-! ### Fields -/

/-- The fields of a call at a point of the interpreter. -/
structure Fields (q : Extent) (w : Field → Word) (p : Point) (b : Ledger) : Prop where
  cursor : w .cursor = p.cursor
  remaining : w .remaining = p.remaining
  collecting : w .collecting = b.collecting
  nextPage : w .nextPage = b.nextPage
  nextFrame : w .nextFrame = b.nextFrame
  limit : w .limit = q.limit
  stop : w .stop = Interpreter.stop c
  validating : w .validating = 0 ↔ q.validating = false
  error : w .error = 0
  trigger : c.fastBoundary = true → w .trigger ≤ w .limit ∧
    (w .collecting ≠ 0 → w .trigger ≤ w .nextPage)

variable {c} {q : Extent} {w : Field → Word} {p : Point} {b : Ledger}

/-- **A block start that skips its checks** has nothing to do. -/
theorem Fields.hot (h : Fields c q w p b) (hh : Hot c w) : ¬ Yields w ∧ ¬ Due w := by
  obtain ⟨hlim, hpage⟩ := h.trigger hh.1
  exact TriggerOk.quiet ⟨hlim, hpage⟩ hh.2

theorem Fields.yields (h : Fields c q w p b) :
    Yields w ↔ q.validating = false ∧ p.cursor = q.limit := by
  unfold Yields
  rw [h.validating, h.cursor, h.limit]

theorem Fields.due (h : Fields c q w p b) : Due w ↔ b.Due c p := by
  unfold Due Ledger.Due
  rw [h.collecting, h.cursor, h.stop, h.nextPage]

theorem Fields.captures (h : Fields c q w p b) :
    Captures c w ↔ b.Due c p ∧ p.cursor = b.nextPage := by
  unfold Captures
  rw [h.due, h.cursor, h.nextPage]
  constructor
  · exact fun hc => hc.2
  · intro hc
    exact ⟨fun hh => (h.hot hh).2 (h.due.mpr hc.1), hc⟩

theorem Fields.collected (h : Fields c q w p b) :
    collected c.frameSize w .collecting = (b.pass c p).collecting ∧
      collected c.frameSize w .nextPage = (b.pass c p).nextPage ∧
      collected c.frameSize w .nextFrame = (b.pass c p).nextFrame := by
  unfold Pieces.collected Ledger.pass
  by_cases h1 : Due w
  · rw [if_pos h1, if_pos (h.due.mp h1), h.cursor, h.nextPage, h.nextFrame]
    split_ifs
    · refine ⟨?_, Function.update_self _ _ _, ?_⟩
      · rw [Function.update_of_ne (by decide), Function.update_of_ne (by decide)]
        exact h.collecting
      · rw [Function.update_of_ne (by decide), Function.update_self]
    · refine ⟨Function.update_self _ _ _, ?_, ?_⟩
      · rw [Function.update_of_ne (by decide)]
        exact h.nextPage
      · rw [Function.update_of_ne (by decide)]
        exact h.nextFrame
  · rw [if_neg h1, if_neg fun hc => h1 (h.due.mpr hc)]
    exact ⟨h.collecting, h.nextPage, h.nextFrame⟩

/-- **A block start keeps fields and ledger together.** -/
theorem Fields.charged (h : Fields c q w p b) {d : Decoded} (hs : c.starts d = true) :
    Fields c q (chargedWord c d w) (spend c d p) (b.pass c p) := by
  have hkept : ∀ f, f ≠ .nextFrame → f ≠ .nextPage → f ≠ .collecting → f ≠ .trigger →
    f ≠ .remaining →
      chargedWord c d w f = w f := fun f => chargedWord_kept d w
  have hsettled : ∀ f, f ≠ .remaining → chargedWord c d w f = settledWord c w f := fun f hf =>
    Function.update_of_ne hf _ _
  -- what the checks write is what the ledger says, whether they are skipped or not
  have hwrites : settledWord c w .collecting = (b.pass c p).collecting ∧
      settledWord c w .nextPage = (b.pass c p).nextPage ∧
      settledWord c w .nextFrame = (b.pass c p).nextFrame := by
    unfold settledWord
    by_cases hh : Hot c w
    · have hno : ¬ b.Due c p := fun hc => (h.hot hh).2 (h.due.mpr hc)
      rw [if_pos hh, Ledger.pass, if_neg hno]
      exact ⟨h.collecting, h.nextPage, h.nextFrame⟩
    · rw [if_neg hh]
      split_ifs
      · rw [Function.update_of_ne (by decide), Function.update_of_ne (by decide),
          Function.update_of_ne (by decide)]
        exact h.collected
      · exact h.collected
  obtain ⟨h1, h2, h3⟩ := hwrites
  rw [← hsettled _ (by decide)] at h1 h2 h3
  refine ⟨?_, ?_, h1, h2, h3, ?_, ?_, ?_, ?_, ?_⟩
  · rw [hkept .cursor (by decide) (by decide) (by decide) (by decide) (by decide), h.cursor, spend,
      if_pos hs]
  · rw [chargedWord, Function.update_self, spend, if_pos hs, h.remaining]
  · rw [hkept .limit (by decide) (by decide) (by decide) (by decide) (by decide), h.limit]
  · rw [hkept .stop (by decide) (by decide) (by decide) (by decide) (by decide), h.stop]
  · rw [hkept .validating (by decide) (by decide) (by decide) (by decide) (by decide), h.validating]
  · rw [hkept .error (by decide) (by decide) (by decide) (by decide) (by decide), h.error]
  · intro hfast
    by_cases hh : Hot c w
    · have hsame : settledWord c w = w := if_pos hh
      rw [hsettled .trigger (by decide), hsettled .limit (by decide),
        hsettled .collecting (by decide), hsettled .nextPage (by decide), hsame]
      exact h.trigger hfast
    · have hnew : settledWord c w = Function.update (Pieces.collected c.frameSize w) .trigger
          (triggerOf (Pieces.collected c.frameSize w)) := by
        rw [settledWord, if_neg hh, if_pos hfast]
      rw [hsettled .trigger (by decide), hsettled .limit (by decide),
        hsettled .collecting (by decide), hsettled .nextPage (by decide), hnew,
        Function.update_self, Function.update_of_ne (by decide),
        Function.update_of_ne (by decide), Function.update_of_ne (by decide)]
      exact triggerOf_le _

/-- Fields behind an instruction: the cursor is the only one that moves. -/
theorem Fields.moved (h : Fields c q w p b) {w' : Field → Word} {p' : Point}
    (hw : ∀ f, f ≠ .cursor → w' f = w f) (hc : w' .cursor = p'.cursor)
    (hr : p'.remaining = p.remaining) : Fields c q w' p' b := by
  refine ⟨hc, ?_, ?_, ?_, ?_, ?_, ?_, ?_, ?_, ?_⟩
  · rw [hw _ (by decide), hr, h.remaining]
  · rw [hw _ (by decide), h.collecting]
  · rw [hw _ (by decide), h.nextPage]
  · rw [hw _ (by decide), h.nextFrame]
  · rw [hw _ (by decide), h.limit]
  · rw [hw _ (by decide), h.stop]
  · rw [hw _ (by decide), h.validating]
  · rw [hw _ (by decide), h.error]
  · rw [hw .trigger (by decide), hw .limit (by decide), hw .collecting (by decide),
      hw .nextPage (by decide)]
    exact h.trigger

end

/-! ### Memory -/

/-- What a call finds: the bytes at the guest's addresses from `start` on are `delta` further in the
host's memory; `mem` and `frames` are what was there before. -/
structure Window where
  start : ℕ
  delta : Word
  mem : Memory
  frames : Word → Frame

/-- The host's memory when the output has come to a cursor. -/
def Window.host (W : Window) (cursor : Word) (guest : Memory) : Memory := fun a =>
  if W.start ≤ (a - W.delta).toNat ∧ (a - W.delta).toNat < cursor.toNat then guest (a - W.delta)
  else W.mem a

/-- The inputs are in the host's memory, and no byte of them in the part of the window below a
limit. -/
structure Fed (c : Compiler) (W : Window) (limit : Word) : Prop where
  bytes : ∀ s ∈ c.recipe.inputs, ∀ j < s.bytes.length,
    W.mem (c.data s + BitVec.ofNat 64 j) = s.bytes.getD j 0
  apart : ∀ s ∈ c.recipe.inputs, ∀ j < s.bytes.length,
    ¬ (W.start ≤ (c.data s + BitVec.ofNat 64 j - W.delta).toNat ∧
      (c.data s + BitVec.ofNat 64 j - W.delta).toNat < limit.toNat)

/-- **A store** to the window is the guest's store. -/
theorem Window.host_store (W : Window) {cursor : Word} {guest : Memory} {bytes : List UInt8}
    (hs : W.start ≤ cursor.toNat) (hfit : cursor.toNat + bytes.length < 2 ^ 64) :
    writeBytes (W.host cursor guest) (cursor + W.delta) bytes =
      W.host (cursor + BitVec.ofNat 64 bytes.length) (writeBytes guest cursor bytes) := by
  funext a
  have hsub : a - (cursor + W.delta) = a - W.delta - cursor := by
    bv_omega
  unfold Window.host writeBytes
  simp only
  rw [hsub, toNat_add_ofNat hfit]
  by_cases hin : (a - W.delta - cursor).toNat < bytes.length
  · have hiff := (sub_toNat_lt (a := cursor) (b := a - W.delta) (by omega)).mp hin
    rw [List.getD_eq_getElem?_getD, List.getD_eq_getElem?_getD, List.getElem?_eq_getElem hin,
      Option.getD_some, Option.getD_some, if_pos (by omega)]
  · have hiff := mt (sub_toNat_lt (a := cursor) (b := a - W.delta) (by omega)).mpr hin
    rw [List.getD_eq_getElem?_getD, List.getD_eq_getElem?_getD, List.getElem?_eq_none (by omega),
      Option.getD_none, Option.getD_none]
    by_cases hw : W.start ≤ (a - W.delta).toNat ∧ (a - W.delta).toNat < cursor.toNat
    · rw [if_pos hw, if_pos (by omega)]
    · rw [if_neg hw, if_neg (by omega)]

/-- **A load** from an input is the guest's load from its memory. -/
theorem host_load {c : Compiler} (hw : WellFormed c.recipe) {W : Window} {limit : Word}
    (hf : Fed c W limit) {p : Point} (hp : Sound c p) (hl : p.cursor.toNat ≤ limit.toNat) {n : ℕ}
    {a : Word} {s : Segment} (hs : c.recipe.inputs.find? (Serves c n a) = some s) :
    readBytes (W.host p.cursor p.guest.mem) (translated c a s) n = readBytes p.guest.mem a n := by
  obtain ⟨hmem, k, hk, hak, htr, hout⟩ := serves_place hw hs
  have hfits := (hw.inputs s hmem).fits
  unfold UINT64_MAX at hfits
  refine readBytes_congr fun j hj => ?_
  have hto : (a + BitVec.ofNat 64 j).toNat = s.address + (k + j) := by
    rw [toNat_add_ofNat (by omega)]
    omega
  have hplace : translated c a s + BitVec.ofNat 64 j = c.data s + BitVec.ofNat 64 (k + j) := by
    rw [htr, BitVec.add_assoc, ← BitVec.ofNat_add]
  have hnot : ¬ (W.start ≤ (c.data s + BitVec.ofNat 64 (k + j) - W.delta).toNat ∧
      (c.data s + BitVec.ofNat 64 (k + j) - W.delta).toNat < p.cursor.toNat) := fun hc =>
    hf.apart s hmem (k + j) (by omega) ⟨hc.1, by omega⟩
  have houtside : ¬ (c.recipe.h.output ≤ (a + BitVec.ofNat 64 j).toNat ∧
      (a + BitVec.ofNat 64 j).toNat < p.cursor.toNat) := by
    intro hc
    have hhigh := hp.high
    have hle := le_rounded c.recipe.h.length
    unfold overlap at hout
    simp only [Bool.and_eq_false_iff, decide_eq_false_iff_not] at hout
    omega
  rw [hplace, Window.host, if_neg hnot, hf.bytes s hmem (k + j) (by omega), hp.outside _ houtside,
    inputMemory, hto, snapshot_of_mem hw.inputs_sorted hmem (by omega), List.getD_eq_getElem?_getD]

/-! ### Guests -/

/-- The host runs the guest: registers in use, and flags that are live. -/
structure SameGuest (c : Compiler) (core : Core) (g : Guest) : Prop where
  same : SameOn c.regs.used c.plan.vectors core g.core
  flags : X86.Agree (c.plan.flagsIn g.pc) core.flags g.core.flags

/-- A checkpoint holds a point. -/
structure Marked (c : Compiler) (p : Point) (f : Frame) : Prop where
  entry : f.entry = BitVec.ofNat 64 (c.label p.guest.pc)
  cursor : f.cursor = p.cursor
  remaining : f.remaining = p.remaining
  flags : X86.Agree (c.plan.flagsIn p.guest.pc) f.flags p.guest.core.flags
  mxcsr : f.mxcsr = p.guest.core.mxcsr
  gprs : f.gprs = c.gprs.map fun i => p.guest.core.gpr (physical i)
  vectors : f.vectors = c.plan.vectors.map p.guest.core.xmm

/-- What is known of a frame: the point it holds, or that nothing has been written to it. -/
def FrameAt (c : Compiler) (W : Window) (a : Word) (known : Option Point) (f : Frame) : Prop :=
  match known with
  | some p => Marked c p f
  | none => f = W.frames a

/-- A `State` object holds a point. -/
structure Holds (c : Compiler) (s : State) (p : Point) : Prop where
  entry : s.word .entry = BitVec.ofNat 64 (c.label p.guest.pc)
  cursor : s.word .cursor = p.cursor
  remaining : s.word .remaining = p.remaining
  same : SameOn c.regs.used c.plan.vectors ⟨fun r => s.regs (savedAt r), s.xmm, s.flags, s.mxcsr⟩
    p.guest.core
  flags : X86.Agree (c.plan.flagsIn p.guest.pc) s.flags p.guest.core.flags

/-- **A host at a piece** and a point of the interpreter. -/
structure Tracks (c : Compiler) (W : Window) (q : Extent) (pointer : Word) (s : ℕ × Host)
    (t : Point × Ledger) : Prop where
  position : ∃ d, c.plan.instructions[s.1]? = some d ∧ d.pc = t.1.guest.pc
  guest : SameGuest c s.2.core t.1.guest
  fields : Fields c q (view c.regs s.2).word t.1 t.2
  delta : (view c.regs s.2).word .delta = W.delta
  pointer : (view c.regs s.2).pointer = pointer
  frames : ∀ a, FrameAt c W a (t.2.frames a) (s.2.frames a)
  mem : s.2.mem = W.host t.1.cursor t.1.guest.mem
  sound : Sound c t.1
  start : W.start ≤ t.1.cursor.toNat
  limit : t.1.cursor.toNat ≤ q.limit.toNat

/-- **What a call leaves behind**, in a `State` object and in memory, and how the interpreter ends.
-/
structure Left (c : Compiler) (W : Window) (s : State) (x : Exit × Host)
    (y : Exit × Point × Ledger) :
    Prop where
  exit : x.1 = y.1
  cursor : s.word .cursor = y.2.1.cursor
  remaining : s.word .remaining = y.2.1.remaining
  collecting : s.word .collecting = y.2.2.collecting
  nextPage : s.word .nextPage = y.2.2.nextPage
  nextFrame : s.word .nextFrame = y.2.2.nextFrame
  stop : s.word .stop = Interpreter.stop c
  error : s.word .error = if x.1 = .yielded ∨ x.1 = .returned ∨ x.1 = .faulted then 0 else 1
  frames : ∀ a, FrameAt c W a (y.2.2.frames a) (x.2.frames a)
  mem : x.2.mem = W.host y.2.1.cursor y.2.1.guest.mem
  sound : Sound c y.2.1
  yields : x.1 = .yielded → Holds c s y.2.1

/-- The `State` object that the code behind the last piece leaves. -/
def finalState (c : Compiler) (h : Host) : State :=
  { (view c.regs h).saved with word := (view c.regs h).word }

/-- **A host at the end of a run** and how the interpreter ends. -/
structure Ended (c : Compiler) (W : Window) (pointer : Word) (x : Exit × Host)
    (y : Exit × Point × Ledger) : Prop where
  pointer : (view c.regs x.2).pointer = pointer
  left : Left c W (finalState c x.2) x y

section
variable {c : Compiler} {r : Recipe} (hw : WellFormed r) (ha : Admitted c.isa r c.plan)

include hw ha in
theorem label_eq {i : ℕ} {d : Decoded} (hi : c.plan.instructions[i]? = some d) :
    c.label d.pc = i := by
  obtain ⟨hlt, hget⟩ := List.getElem?_eq_some_iff.mp hi
  have hs := List.pairwise_iff_getElem.mp (ha.sorted hw)
  refine (List.findIdx_eq hlt).mpr ⟨by simp [hget], fun j hj => ?_⟩
  have hlt' : j < c.plan.instructions.length := by omega
  have hle := hs j i hlt' hlt hj
  have hpos := (ha.source_ok hw (List.getElem_mem hlt')).pos
  rw [hget] at hle
  simp only [decide_eq_false_iff_not]
  unfold Decoded.pc Decoded.next at *
  omega

theorem savedAt_mem {k : Fin 16} (hk : k ∈ c.regs.used) : savedAt k ∈ c.gprs :=
  List.mem_filter.mpr ⟨List.mem_finRange _, by simpa using hk⟩

theorem not_preserving {d : Decoded} (h : c.preserving d = false) : c.plan.flagsIn d.pc = 0 := by
  simpa [Compiler.preserving] using h

theorem SameGuest.ready {h g : Host} {gu : Guest} {d : Decoded} (hs : SameGuest c h.core gu)
    (hd : d.pc = gu.pc) (hr : Ready c d h g) : SameGuest c g.core gu := by
  refine ⟨⟨fun k hk => ?_, fun k hk => ?_, ?_⟩, ?_⟩
  · rw [hr.gpr k hk]
    exact hs.same.gpr k hk
  · rw [hr.xmm]
    exact hs.same.xmm k hk
  · rw [hr.mxcsr]
    exact hs.same.mxcsr
  · cases hp : c.preserving d with
    | true =>
      rw [hr.flags hp]
      exact hs.flags
    | false =>
      rw [← hd, not_preserving hp]
      exact Agree.zero _ _

/-- **The checkpoint of a block start** holds its point. -/
theorem checkpoint_marked (hw : WellFormed r) (ha : Admitted c.isa r c.plan) {W : Window}
    {q : Extent} {ptr : Word} {i : ℕ} {h : Host} {p : Point} {b : Ledger} {d : Decoded}
    (hi : c.plan.instructions[i]? = some d) (hd : d.pc = p.guest.pc)
    (ht : Tracks c W q ptr (i, h) (p, b)) : Marked c p (checkpoint c i d h) := by
  have hgpr : ∀ k ∈ c.regs.used, (view c.regs h).gpr k = p.guest.core.gpr k := fun k hk => by
    rw [← gpr_eq hk h]
    exact ht.guest.same.gpr k hk
  refine ⟨?_, ht.fields.cursor, ht.fields.remaining, ?_, ht.guest.same.mxcsr, ?_, ?_⟩
  · rw [← hd, label_eq hw ha hi]
    rfl
  · unfold checkpoint
    cases hp : c.preserving d with
    | true =>
      simp only [if_true]
      exact ht.guest.flags
    | false =>
      rw [← hd, not_preserving hp]
      exact Agree.zero _ _
  · refine List.map_congr_left fun k hk => hgpr _ ?_
    simpa using (List.mem_filter.mp hk).2
  · exact List.map_congr_left fun k hk => ht.guest.same.xmm k hk

/-- **The `State` object of a yield** holds its point. -/
theorem persisted_holds (hw : WellFormed r) (ha : Admitted c.isa r c.plan) {W : Window} {q : Extent}
    {ptr : Word} {i : ℕ} {h : Host} {p : Point} {b : Ledger} {d : Decoded}
    (hi : c.plan.instructions[i]? = some d) (hd : d.pc = p.guest.pc)
    (ht : Tracks c W q ptr (i, h) (p, b)) : Holds c
      { persisted c d h with
        word := Function.update (view c.regs h).word .entry (BitVec.ofNat 64 i) } p := by
  have hword : ∀ f, f ≠ Field.entry → Function.update (view c.regs h).word .entry
    (BitVec.ofNat 64 i) f =
      (view c.regs h).word f := fun f hf => Function.update_of_ne hf _ _
  refine ⟨?_, ?_, ?_, ⟨fun k hk => ?_, fun k hk => ?_, ht.guest.same.mxcsr⟩, ?_⟩
  · rw [← hd, label_eq hw ha hi]
    exact Function.update_self Field.entry (BitVec.ofNat 64 i) (view c.regs h).word
  · exact (hword .cursor (by decide)).trans ht.fields.cursor
  · exact (hword .remaining (by decide)).trans ht.fields.remaining
  · simp only [persisted, if_pos (savedAt_mem hk), physical_savedAt]
    rw [← gpr_eq hk h]
    exact ht.guest.same.gpr k hk
  · simp only [persisted, if_pos hk]
    exact ht.guest.same.xmm k hk
  · unfold persisted
    cases hp : c.preserving d with
    | true =>
      simp only [if_true]
      exact ht.guest.flags
    | false =>
      rw [← hd, not_preserving hp]
      exact Agree.zero _ _

/-! ### Pieces -/

section Pieces
variable {W : Window} {q : Extent} {ptr : Word} {i : ℕ} {h : Host} {p : Point} {b : Ledger}
    {d : Decoded}

theorem Tracks.passed_frames (hw : WellFormed r) (ha : Admitted c.isa r c.plan)
    (ht : Tracks c W q ptr (i, h) (p, b)) (hi : c.plan.instructions[i]? = some d)
    (hd : d.pc = p.guest.pc) {v : View} (hp : Crossed c i d h v) (a : Word) :
    FrameAt c W a ((b.pass c p).frames a) (v.frames a) := by
  have hframes := hp.frames
  by_cases hc : Captures c (view c.regs h).word
  · have hdue := ht.fields.captures.mp hc
    rw [if_pos hc, ht.fields.nextFrame] at hframes
    simp only [Ledger.pass, if_pos hdue.1, if_pos hdue.2, hframes]
    by_cases hx : a = b.nextFrame
    · subst hx
      rw [Function.update_self, Function.update_self]
      exact checkpoint_marked hw ha hi hd ht
    · rw [Function.update_of_ne hx, Function.update_of_ne hx]
      exact ht.frames a
  · have hpass : (b.pass c p).frames = b.frames := by
      unfold Ledger.pass
      split_ifs with h1 h2
      · exact absurd (ht.fields.captures.mpr ⟨h1, h2⟩) hc
      · rfl
      · rfl
    rw [if_neg hc] at hframes
    rw [hpass, hframes]
    exact ht.frames a

/-- **Behind a block start** host and interpreter are still together. -/
theorem Tracks.passed (hw : WellFormed r) (ha : Admitted c.isa r c.plan)
    (ht : Tracks c W q ptr (i, h) (p, b)) (hi : c.plan.instructions[i]? = some d)
    (hd : d.pc = p.guest.pc) (hs : c.starts d = true) {v : View} {core : Core}
    (hp : Crossed c i d h v) (hsame : SameGuest c core p.guest) {g : Host} (hv : view c.regs g = v)
    (hcore : g.core = core) :
    Tracks c W q ptr (i, g) (spend c d p, b.pass c p) := by
  subst hv hcore
  refine ⟨⟨d, hi, by simpa using hd⟩, by simpa using hsame, ?_, ?_, ?_, ?_, ?_, ?_, ?_, ?_⟩
  · rw [hp.word]
    exact ht.fields.charged hs
  · rw [hp.word, chargedWord_kept d _ (by decide) (by decide) (by decide) (by decide) (by decide)]
    exact ht.delta
  · rw [hp.pointer]
    exact ht.pointer
  · exact ht.passed_frames hw ha hi hd hp
  · have hmem : g.mem = h.mem := hp.mem
    simp only [hmem, spend_guest, spend_cursor]
    exact ht.mem
  · exact ⟨by simpa using ht.sound.low, by
      simpa using ht.sound.high, by simpa using ht.sound.outside⟩
  · simpa using ht.start
  · simpa using ht.limit

/-- **A piece that ends the run** where it stands. -/
theorem Tracks.ended (ht : Tracks c W q ptr (i, h) (p, b)) {e : Exit} (he : e ≠ .yielded) {g : Host}
    (hv : view c.regs g = if e = .returned ∨ e = .faulted then view c.regs h
      else (view c.regs h).setWord .error 1) : Ended c W ptr (e, g) (e, p, b) := by
  have hword : ∀ f, f ≠ Field.error → (view c.regs g).word f = (view c.regs h).word f := by
    intro f hf
    rw [hv]
    split_ifs
    · rfl
    · exact View.word_setWord_of_ne hf 1 (view c.regs h)
  have herr : (view c.regs g).word .error = if e = .yielded ∨ e = .returned ∨
    e = .faulted then 0 else 1 := by
    rw [hv]
    by_cases hx : e = .returned ∨ e = .faulted
    · rw [if_pos hx, if_pos (.inr hx)]
      exact ht.fields.error
    · rw [if_neg hx, if_neg (by rintro (h | h); exact he h; exact hx h), View.word_setWord_self]
  have hmem : g.mem = h.mem := (congrArg View.mem hv).trans (by split_ifs <;> rfl)
  have hframes : g.frames = h.frames := (congrArg View.frames hv).trans (by split_ifs <;> rfl)
  refine ⟨?_, rfl, ?_, ?_, ?_, ?_, ?_, ?_, herr, ?_, ?_, ht.sound, fun hy => absurd hy he⟩
  · refine Eq.trans ?_ ht.pointer
    rw [hv]
    split_ifs <;> rfl
  · exact (hword .cursor (by decide)).trans ht.fields.cursor
  · exact (hword .remaining (by decide)).trans ht.fields.remaining
  · exact (hword .collecting (by decide)).trans ht.fields.collecting
  · exact (hword .nextPage (by decide)).trans ht.fields.nextPage
  · exact (hword .nextFrame (by decide)).trans ht.fields.nextFrame
  · exact (hword .stop (by decide)).trans ht.fields.stop
  · intro a
    simp only [hframes]
    exact ht.frames a
  · simp only [hmem]
    exact ht.mem

/-- **A piece that goes on.** -/
theorem Tracks.next (ht : Tracks c W q ptr (i, h) (p, b))
    (hq : q.limit.toNat ≤ c.recipe.h.output + c.recipe.h.length) {j : ℕ} {h' : Host} {p' : Point}
    (hk : Kept (c := c) i d h j h')
    (hpos : ∃ e, c.plan.instructions[j]? = some e ∧ e.pc = p'.guest.pc)
    (hsame : SameGuest c h'.core p'.guest) (hcur : (view c.regs h').word .cursor = p'.cursor)
    (hrem : p'.remaining = p.remaining) (hmem : h'.mem = W.host p'.cursor p'.guest.mem)
    {t : List (Word × UInt8)} (htaken : Taken q.limit p p' t) :
    Tracks c W q ptr (j, h') (p', b) := by
  obtain ⟨hc, hlim⟩ := htaken.cursor
  have hstart := ht.start
  have hlimit := ht.limit
  refine ⟨hpos, hsame, ht.fields.moved hk.word hcur hrem, ?_, ?_, ?_, hmem,
    htaken.sound ht.sound hq, ?_, ?_⟩
  · exact (hk.word .delta (by decide)).trans ht.delta
  · exact hk.pointer.trans ht.pointer
  · intro a
    simp only [hk.frames]
    exact ht.frames a
  · simp only at hstart ⊢
    omega
  · simp only at hlimit ⊢
    by_cases hne : t = []
    · rw [hne, List.length_nil] at hc
      omega
    · exact hlim hne

theorem served_fields {w : Field → Word} (hf : Fields c q w p b) (d : Decoded) (m : Mem)
    (a : Word) :
    served c d m w a = (served c d m (p.fields q.limit) a).map fun x =>
      if m.action = .write then x + w .delta else x := by
  unfold served
  by_cases h1 : d.inst.mnemonic.unaligned.isSome = true ∧ a &&& 15 ≠ 0
  · rw [if_pos h1, if_pos h1]
    rfl
  · rw [if_neg h1, if_neg h1]
    by_cases hm : m.action = .write
    · have hwr : Writable (m.size / 8) w a ↔ Writable (m.size / 8) (p.fields q.limit) a := by
        unfold Writable Point.fields
        rw [hf.cursor, hf.limit]
      simp only [if_pos hm, hwr]
      split_ifs
      · simp [Point.fields]
      · rfl
    · simp only [if_neg hm, Option.map_id']

variable (hw : WellFormed r) (ha : Admitted c.isa r c.plan)

include hw ha in
theorem keys : c.plan.instructions.Pairwise fun a b => a.pc < b.pc := by
  refine (ha.sorted hw).imp_of_mem fun {a b} hma _ hab => ?_
  have := (ha.source_ok hw hma).pos
  unfold Decoded.pc Decoded.next at *
  omega

include hw ha in
/-- **The instruction itself** keeps host and guest together. -/
theorem exec_same {d : Decoded} (hd : d ∈ c.plan.instructions) (hr : d.returns = false)
    (hb : d.branch = false) {core : Core} {gu : Guest} (hs : SameGuest c core gu)
    (hpc : d.pc = gu.pc) (l : Loaded) :
    SameOn c.regs.used c.plan.vectors (c.isa.exec d.inst core l).1 (c.isa.exec d.inst gu.core l).1 ∧
      X86.Agree (c.plan.flagsIn d.next) (c.isa.exec d.inst core l).1.flags
        (c.isa.exec d.inst gu.core l).1.flags ∧
      (c.isa.exec d.inst core l).2 = (c.isa.exec d.inst gu.core l).2 := by
  have hfl := hs.flags
  rw [← hpc, ha.flags] at hfl
  rw [ha.flags]
  exact Liveness.exec_live c.isa l (Liveness.liveness_solves (keys hw ha) hd)
    (by simp [Decoded.falls, hr, hb]) (ha.gprs d hd hr) (ha.vectors d hd hr) hs.same hfl

theorem advance_quiet (isa : Isa) (hd : Header) {d : Decoded} (g : Guest) (hb : d.branch = false)
    (hst : storesTo d.inst = none) : (advance isa hd d g).1 =
      ⟨d.next, (isa.exec d.inst g.core (loadedFrom hd d.source d.inst g)).1, g.mem⟩ := by
  simp only [advance, hb, Bool.false_eq_true, if_false, execute, hst]
  rfl

theorem advance_store (isa : Isa) (hd : Header) {d : Decoded} (g : Guest) {m : Mem}
    (hb : d.branch = false) (hst : storesTo d.inst = some m) : (advance isa hd d g).1 =
      ⟨d.next, (isa.exec d.inst g.core (loadedFrom hd d.source d.inst g)).1,
        writeBytes g.mem (operandAddress hd d.source d.inst m g.core)
          (isa.exec d.inst g.core (loadedFrom hd d.source d.inst g)).2⟩ := by
  simp only [advance, hb, Bool.false_eq_true, if_false, execute, hst]
  rfl

include ha in
theorem branchMasks {d : Decoded} (hd : d ∈ c.plan.instructions) (hb : d.branch = true) :
    Liveness.BranchMasks d := by
  have hadm := ha.admissible d hd
  have hkind : d.inst.conditional = true ∨ d.inst.mnemonic = .jmp := by
    have hbr := hadm.branches
    rw [hb] at hbr
    simpa using hbr.symm
  refine ⟨fun code hc => ?_, fun _ => c.isa.branch_killed _ _ hadm.decoded hkind⟩
  have hcond := hadm.condition hb
  unfold branchCondition at hcond
  split_ifs at hcond with h1 h2
  · rw [hc] at hcond
    obtain rfl := Option.some.inj (Except.ok.inj hcond)
    exact c.isa.branch_tested _ _ hadm.decoded h1 h2
  · rw [hc] at hcond
    cases hcond

include ha in
theorem finished_iff (ht : Tracks c W q ptr (i, h) (p, b)) :
    Finished c (view c.regs h) ↔ Complete c p := by
  have h0 : (0 : Fin 16) ∈ c.regs.used := ha.result
  have hgpr : (view c.regs h).gpr 0 = p.guest.core.gpr 0 := by
    rw [← gpr_eq h0 h]
    exact ht.guest.same.gpr 0 h0
  unfold Finished Complete
  rw [ht.fields.cursor, ht.fields.stop, ht.fields.remaining, hgpr]

include hw ha

/-- **A branch.** -/
theorem Tracks.branch (ht : Tracks c W q ptr (i, h) (p, b)) (hi : c.plan.instructions[i]? = some d)
    (hpc : d.pc = p.guest.pc) (hq : q.limit.toNat ≤ c.recipe.h.output + c.recipe.h.length)
    (hr : d.returns = false) (hb : d.branch = true) :
    ∃ j h', c.jump i d h = .next j h' ∧ Tracks c W q ptr (j, h') (follow c d p, b) := by
  have hd : d ∈ c.plan.instructions := List.mem_of_getElem? hi
  have hflags := ht.guest.flags
  rw [← hpc, ha.flags] at hflags
  obtain ⟨hcond, htarget, hnext⟩ := Liveness.branch_live (Liveness.liveness_solves (keys hw ha) hd)
    (branchMasks ha hd hb) hb hflags
  have hadv : ∀ pc, (follow c d p).guest = { p.guest with pc := pc } →
      X86.Agree (liveness c.plan.instructions pc) h.core.flags p.guest.core.flags →
      ∀ j, (∃ e, c.plan.instructions[j]? = some e ∧ e.pc = pc) → c.jump i d h = .next j h →
      ∃ j h', c.jump i d h = .next j h' ∧ Tracks c W q ptr (j, h') (follow c d p, b) := by
    intro pc hg hfl j hj hjump
    have hbody : Body c i d h (.next j h) := hjump ▸ .branch hr hb
    refine ⟨j, h, hjump, ht.next hq (t := []) (hbody.kept ha hd) (by rw [hg]; exact hj) ?_
      ht.fields.cursor rfl ?_ (.quiet rfl (by rw [hg]))⟩
    · rw [hg]
      exact ⟨ht.guest.same, by rw [ha.flags]; exact hfl⟩
    · rw [hg]
      exact ht.mem
  unfold Compiler.jump at hadv ⊢
  cases hc : d.condition with
  | none =>
    rw [hc] at hadv
    exact hadv d.target (by simp only [follow, advance, hb, if_true, hc]) htarget _
      (Budget.label_spec (ha.target d hd hb)) rfl
  | some code =>
    rw [hc] at hadv
    have hf : d.falls = true := by simp [Decoded.falls, hr, hc]
    have hsame : h.jumps code = condition code p.guest.core.flags := hcond code hc
    simp only [hsame] at hadv ⊢
    cases hx : condition code p.guest.core.flags with
    | true =>
      simp only [hx, if_true] at hadv ⊢
      exact hadv d.target (by simp only [follow, advance, hb, if_true, hc, hx]) htarget _
        (Budget.label_spec (ha.target d hd hb)) rfl
    | false =>
      simp only [hx, Bool.false_eq_true, if_false] at hadv ⊢
      exact hadv d.next
        (by simp only [follow, advance, hb, if_true, hc, hx, Bool.false_eq_true, if_false])
        (hnext hf) _ (ha.successor hw hi hf) rfl

/-- **An instruction without an access.** -/
theorem Tracks.quiet (ht : Tracks c W q ptr (i, h) (p, b)) (hi : c.plan.instructions[i]? = some d)
    (hpc : d.pc = p.guest.pc) (hq : q.limit.toNat ≤ c.recipe.h.output + c.recipe.h.length)
    (hr : d.returns = false) (hb : d.branch = false) {l : Loaded} {g : Host}
    (hl : d.memory = none ∧ l = .nothing ∨ ∃ m, d.memory = some m ∧ d.inst.mnemonic = .lea ∧
      l = .address (operandOf c d m h.core))
    (hv : view c.regs g = view c.regs h) (hready : Ready c d h g)
    (hflags : g.core.flags = h.core.flags) :
    accessed d = none ∧ Tracks c W q ptr (i + 1, { g with core := (c.isa.exec d.inst g.core l).1 })
      (follow c d p, b) := by
  have hd : d ∈ c.plan.instructions := List.mem_of_getElem? hi
  have hmem : d.memory = d.inst.memory := (ha.admissible d hd).memory hr
  have hbody : Body c i d h (.next (i + 1) { g with core := (c.isa.exec d.inst g.core l).1 }) :=
    .quiet hr hb hl hv hready hflags
  -- the operand is the same for the guest
  have hload : loadedFrom c.recipe.h d.source d.inst p.guest = l ∧ storesTo d.inst = none := by
    unfold loadedFrom storesTo
    rw [← hmem]
    rcases hl with ⟨hm, rfl⟩ | ⟨m, hm, hlea, rfl⟩
    · simp [hm]
    · simp only [hm, if_pos hlea]
      refine ⟨congrArg Loaded.address ?_, if_neg fun hc => hc.1 hlea⟩
      exact (operandOf_same ha hd hr hm ht.guest.same.gpr).symm
  obtain ⟨hload, hst⟩ := hload
  have hadv := advance_quiet c.isa c.recipe.h p.guest hb hst
  rw [hload] at hadv
  have hx := view_exec c (ha.gprs d hd hr) l g.mem g.log g
  obtain ⟨h1, h2, -⟩ := exec_same hw ha hd hr hb (ht.guest.ready hpc hready) hpc l
  refine ⟨?_, ht.next hq (t := []) (hbody.kept ha hd) ?_ ?_ ?_ rfl ?_ (.quiet rfl ?_)⟩
  · unfold accessed
    rcases hl with ⟨hm, -⟩ | ⟨m, hm, hlea, -⟩
    · simp [hm]
    · simp [hm, hlea]
  · simp only [follow, hadv]
    exact ha.successor hw hi (by simp [Decoded.falls, hr, hb])
  · simp only [follow, hadv]
    exact ⟨h1, h2⟩
  · have hcur : (view c.regs g).word .cursor = p.cursor := by
      rw [hv]
      exact ht.fields.cursor
    rw [hx]
    exact hcur
  · have hgm : g.mem = h.mem := congrArg View.mem hv
    simp only [follow, hadv, hgm]
    exact ht.mem
  · simp only [follow, hadv]

/-- **A load.** -/
theorem Tracks.load (hf : Fed c W q.limit) (ht : Tracks c W q ptr (i, h) (p, b))
    (hi : c.plan.instructions[i]? = some d)
    (hpc : d.pc = p.guest.pc) (hq : q.limit.toNat ≤ c.recipe.h.output + c.recipe.h.length)
    (hr : d.returns = false) (hb : d.branch = false) {m : Mem} {x : Word} {g : Host}
    (hm : d.memory = some m) (hl : d.inst.mnemonic ≠ .lea) (hrd : m.action ≠ .write)
    (hs : served c d m (p.fields q.limit) (operandOf c d m p.guest.core) = some x)
    (hv : view c.regs g = view c.regs h) (hready : Ready c d h g)
    (hbody : Body c i d h (.next (i + 1)
      { g with
        core := (c.isa.exec d.inst g.core (.bytes (readBytes g.mem x (m.size / 8)))).1
        log := g.log ++ [.load x (m.size / 8)] })) :
    Tracks c W q ptr (i + 1, { g with
      core := (c.isa.exec d.inst g.core (.bytes (readBytes g.mem x (m.size / 8)))).1
      log := g.log ++ [.load x (m.size / 8)] }) (follow c d p, b) := by
  have hd : d ∈ c.plan.instructions := List.mem_of_getElem? hi
  have hmem : d.memory = d.inst.memory := (ha.admissible d hd).memory hr
  have hrec : c.recipe = r := ha.recipe
  have hacc : accessed d = some m := by simp [accessed, hb, hm, hl]
  have hread : m.action = .read := (accessed_action ha hd hacc).resolve_right hrd
  -- the bytes are those that the guest reads
  have hbytes : readBytes g.mem x (m.size / 8) =
      readBytes p.guest.mem (operandOf c d m p.guest.core) (m.size / 8) := by
    have hgm : g.mem = W.host p.cursor p.guest.mem := (congrArg View.mem hv).trans ht.mem
    unfold served at hs
    split_ifs at hs with h1
    obtain ⟨s, hfind, rfl⟩ := Option.map_eq_some_iff.mp hs
    rw [hgm]
    exact host_load (hrec ▸ hw) hf ht.sound ht.limit hfind
  have hload : loadedFrom c.recipe.h d.source d.inst p.guest =
      .bytes (readBytes g.mem x (m.size / 8)) := by
    rw [hbytes]
    unfold loadedFrom
    rw [← hmem, hm]
    simp only [if_neg hl, if_pos hread]
    rfl
  have hst : storesTo d.inst = none := by
    unfold storesTo
    rw [← hmem, hm]
    exact if_neg fun hc => hrd hc.2
  have hadv := advance_quiet c.isa c.recipe.h p.guest hb hst
  rw [hload] at hadv
  have hx := view_exec c (ha.gprs d hd hr) (.bytes (readBytes g.mem x (m.size / 8))) g.mem
    (g.log ++ [.load x (m.size / 8)]) g
  obtain ⟨h1, h2, -⟩ := exec_same hw ha hd hr hb (ht.guest.ready hpc hready) hpc
    (.bytes (readBytes g.mem x (m.size / 8)))
  refine ht.next hq (t := []) (hbody.kept ha hd) ?_ ?_ ?_ rfl ?_ (.quiet rfl ?_)
  · simp only [follow, hadv]
    exact ha.successor hw hi (by simp [Decoded.falls, hr, hb])
  · simp only [follow, hadv]
    exact ⟨h1, h2⟩
  · have hcur : (view c.regs g).word .cursor = p.cursor := by
      rw [hv]
      exact ht.fields.cursor
    rw [hx]
    exact hcur
  · have hgm : g.mem = h.mem := congrArg View.mem hv
    simp only [follow, hadv, hgm]
    exact ht.mem
  · simp only [follow, hadv]

/-- **A store.** -/
theorem Tracks.store (ht : Tracks c W q ptr (i, h) (p, b)) (hi : c.plan.instructions[i]? = some d)
    (hpc : d.pc = p.guest.pc) (hq : q.limit.toNat ≤ c.recipe.h.output + c.recipe.h.length)
    (hr : d.returns = false) (hb : d.branch = false) {m : Mem} {g : Host}
    (hm : d.memory = some m) (hl : d.inst.mnemonic ≠ .lea) (hwr : m.action = .write)
    (hcur : operandOf c d m p.guest.core = p.cursor)
    (hs : served c d m (p.fields q.limit) (operandOf c d m p.guest.core) ≠ none)
    (hal : ¬ d.inst.unaligned.aligned = true)
    (hv : view c.regs g = guardView m p.cursor (view c.regs h)) (hready : Ready c d h g)
    (hbody : Body c i d h (.next (i + 1)
      { g with
        core := (c.isa.exec d.inst g.core .nothing).1
        mem := writeBytes g.mem (p.cursor + W.delta) (c.isa.exec d.inst g.core .nothing).2
        log := g.log ++ [.store (p.cursor + W.delta) (m.size / 8)] })) :
    Tracks c W q ptr (i + 1, { g with
      core := (c.isa.exec d.inst g.core .nothing).1
      mem := writeBytes g.mem (p.cursor + W.delta) (c.isa.exec d.inst g.core .nothing).2
      log := g.log ++ [.store (p.cursor + W.delta) (m.size / 8)] })
      ({ follow c d p with cursor := p.cursor + BitVec.ofNat 64 (m.size / 8) }, b) := by
  have hd : d ∈ c.plan.instructions := List.mem_of_getElem? hi
  have hmem : d.memory = d.inst.memory := (ha.admissible d hd).memory hr
  have hacc : accessed d = some m := by simp [accessed, hb, hm, hl]
  have hload : loadedFrom c.recipe.h d.source d.inst p.guest = .nothing := by
    unfold loadedFrom
    rw [← hmem, hm]
    simp only [if_neg hl, hwr, reduceCtorEq, if_false]
  have hst : storesTo d.inst = some m := by
    unfold storesTo
    rw [← hmem, hm]
    exact if_pos ⟨hl, hwr⟩
  obtain ⟨x, hx⟩ := Option.ne_none_iff_exists'.mp hs
  rw [hcur] at hx
  have hnext : body c q.limit d p =
      .inl { follow c d p with cursor := p.cursor + BitVec.ofNat 64 (m.size / 8) } := by
    unfold body
    rw [hr, hacc]
    simp only [Bool.false_eq_true, if_false, hx, hal, false_and, if_pos hwr, hcur]
  obtain ⟨-, -, -, htaken⟩ := body_taken ha hd hnext
  have hadv := advance_store c.isa c.recipe.h p.guest hb hst
  have hop : operandAddress c.recipe.h d.source d.inst m p.guest.core = p.cursor := hcur
  rw [hload, hop] at hadv
  have hview := view_exec c (ha.gprs d hd hr) .nothing
    (writeBytes g.mem (p.cursor + W.delta) (c.isa.exec d.inst g.core .nothing).2)
    (g.log ++ [.store (p.cursor + W.delta) (m.size / 8)]) g
  obtain ⟨h1, h2, h3⟩ := exec_same hw ha hd hr hb (ht.guest.ready hpc hready) hpc .nothing
  have hlen := c.isa.exec_stores d.inst g.core .nothing m (hmem ▸ hm) hwr hl
  have hfit : p.cursor.toNat + m.size / 8 < 2 ^ 64 := by
    unfold served at hx
    split_ifs at hx with _ h2
    exact h2.2.1
  refine ht.next hq (hbody.kept ha hd) ?_ ?_ ?_ rfl ?_ htaken
  · simp only [follow, hadv]
    exact ha.successor hw hi (by simp [Decoded.falls, hr, hb])
  · simp only [follow, hadv]
    exact ⟨h1, h2⟩
  · rw [hview]
    change (view c.regs g).word .cursor = _
    rw [hv, guardView, if_pos hwr, View.word_setWord_self]
  · have hgm : g.mem = W.host p.cursor p.guest.mem :=
      ((congrArg View.mem hv).trans (guardView_rest m p.cursor (view c.regs h)).2.2.2.2.1).trans
        ht.mem
    have hstart := ht.start
    simp only at hstart
    simp only [follow, hadv]
    rw [hgm, W.host_store hstart (by rw [hlen]; exact hfit), hlen, ← h3]

/-- **Behind its block start** a piece does what the interpreter does. -/
theorem Tracks.body (hf : Fed c W q.limit) (ht : Tracks c W q ptr (i, h) (p, b))
    (hi : c.plan.instructions[i]? = some d) (hpc : d.pc = p.guest.pc)
    (hq : q.limit.toNat ≤ c.recipe.h.output + c.recipe.h.length) {f : Flow} (hb : Body c i d h f) :
    Sum.LiftRel (Tracks c W q ptr) (Ended c W ptr) (toSum f)
      ((Interpreter.body c q.limit d p).map (fun p => (p, b)) fun x => (x.1, x.2, b)) := by
  have hd : d ∈ c.plan.instructions := List.mem_of_getElem? hi
  have hop : ∀ {m}, d.returns = false → d.memory = some m →
      operandOf c d m h.core = operandOf c d m p.guest.core := fun hr hm =>
    operandOf_same ha hd hr hm ht.guest.same.gpr
  cases hb with
  | returned hr hfin hv =>
    have hbody : Interpreter.body c q.limit d p = .inr (.returned, p) := by
      rw [Interpreter.body, hr, if_pos rfl, if_pos ((finished_iff ha ht).mp hfin)]
    rw [hbody]
    exact .inr (ht.ended (by decide) (by rw [if_pos (.inl rfl)]; exact hv))
  | diverged hr hfin hv =>
    have hbody : Interpreter.body c q.limit d p = .inr (.diverged, p) := by
      rw [Interpreter.body, hr, if_pos rfl, if_neg fun hc => hfin ((finished_iff ha ht).mpr hc)]
    rw [hbody]
    exact .inr (ht.ended (by decide) (by rw [if_neg (by decide)]; exact hv))
  | branch hr hb =>
    have hacc : accessed d = none := by simp [accessed, hb]
    have hbody : Interpreter.body c q.limit d p = .inl (follow c d p) := by
      simp only [Interpreter.body, hr, hacc, Bool.false_eq_true, if_false]
    obtain ⟨j, h', hjump, hnext⟩ := ht.branch hw ha hi hpc hq hr hb
    rw [hbody, hjump]
    exact .inl hnext
  | @quiet g l hr hb hl hv hready hflags =>
    obtain ⟨hacc, hnext⟩ := ht.quiet hw ha hi hpc hq hr hb hl hv hready hflags
    have hbody : Interpreter.body c q.limit d p = .inl (follow c d p) := by
      simp only [Interpreter.body, hr, hacc, Bool.false_eq_true, if_false]
    rw [hbody]
    exact .inl hnext
  | @rejected g m hr hb hm hl hs hv =>
    have hacc : accessed d = some m := by simp [accessed, hb, hm, hl]
    rw [served_fields ht.fields, hop hr hm, Option.map_eq_none_iff] at hs
    have hbody : Interpreter.body c q.limit d p = .inr (.rejected, p) := by
      simp only [Interpreter.body, hr, hacc, hs, Bool.false_eq_true, if_false]
    rw [hbody]
    exact .inr (ht.ended (by decide) (by rw [if_neg (by decide)]; exact hv))
  | @faulted g m x hr hb hm hl hs hal hx hv =>
    have hacc : accessed d = some m := by simp [accessed, hb, hm, hl]
    -- only loads are aligned
    have hrd : m.action ≠ .write := by
      intro hwr
      have hadm := ha.admissible d hd
      have hno := c.isa.store_unaligned d.inst _ m hadm.decoded (hadm.permits hb hr)
        (by rw [← hadm.memory hr, hm]) hwr
      rw [hno] at hal
      cases hal
    rw [served_fields ht.fields, hop hr hm] at hs
    simp only [if_neg hrd, Option.map_id'] at hs
    have hbody : Interpreter.body c q.limit d p = .inr (.faulted, p) := by
      simp only [Interpreter.body, hr, hacc, hs, Bool.false_eq_true, if_false]
      rw [if_pos ⟨hal, hx⟩]
    rw [hbody]
    exact .inr (ht.ended (by decide) (by
      rw [if_pos (.inr rfl), hv, guardView, if_neg hrd]))
  | @store g m x hr hb hm hl hwr hs hal hv hready =>
    have hbody' : Body c i d h _ := .store hr hb hm hl hwr hs hal hv hready
    have hacc : accessed d = some m := by simp [accessed, hb, hm, hl]
    have hadm := ha.admissible d hd
    have hno := c.isa.store_unaligned d.inst _ m hadm.decoded (hadm.permits hb hr)
      (by rw [← hadm.memory hr, hm]) hwr
    rw [served_fields ht.fields, hop hr hm] at hs
    simp only [if_pos hwr] at hs
    obtain ⟨y, hy, hyx⟩ := Option.map_eq_some_iff.mp hs
    -- a store goes to the cursor
    have hcur : operandOf c d m p.guest.core = p.cursor ∧ y = p.cursor := by
      unfold served at hy
      split_ifs at hy with _ h2
      have h0 := h2.1
      have h1 := Option.some.inj hy
      change operandOf c d m p.guest.core = p.cursor at h0
      change operandOf c d m p.guest.core + 0#64 = y at h1
      exact ⟨h0, by rw [← h1, h0, BitVec.add_zero]⟩
    obtain ⟨hcur, rfl⟩ := hcur
    have hx : p.cursor + W.delta = x := by
      rw [← hyx]
      exact congrArg _ ht.delta.symm
    subst hx
    rw [hop hr hm, hcur] at hv
    rw [hcur] at hy
    have hnext := ht.store hw ha hi hpc hq hr hb hm hl hwr hcur (by rw [hcur, hy]; simp)
      (by rw [hno]; simp)
      hv hready hbody'
    have hbody : Interpreter.body c q.limit d p =
        .inl { follow c d p with cursor := p.cursor + BitVec.ofNat 64 (m.size / 8) } := by
      simp only [Interpreter.body, hr, hacc, hy, hno, Bool.false_eq_true, if_false,
        false_and, if_pos hwr, hcur]
    rw [hbody]
    exact .inl hnext
  | @load g m x hr hb hm hl hrd hs hal hv hready =>
    have hbody' : Body c i d h _ := .load hr hb hm hl hrd hs hal hv hready
    have hacc : accessed d = some m := by simp [accessed, hb, hm, hl]
    rw [served_fields ht.fields, hop hr hm] at hs
    simp only [if_neg hrd, Option.map_id'] at hs
    have hnext := ht.load hw ha hf hi hpc hq hr hb hm hl hrd hs hv hready hbody'
    have hbody : Interpreter.body c q.limit d p = .inl (follow c d p) := by
      simp only [Interpreter.body, hr, hacc, hs, Bool.false_eq_true, if_false,
        if_neg hal, if_neg hrd]
    rw [hbody]
    exact .inl hnext

/-- **One piece** does what one step of the interpreter does. -/
theorem piece_tracks (hf : Fed c W q.limit)
    (hq : q.limit.toNat ≤ c.recipe.h.output + c.recipe.h.length) (s : ℕ × Host) (t : Point × Ledger)
    (ht : Tracks c W q ptr s t) :
    Option.Rel (Sum.LiftRel (Tracks c W q ptr) (Ended c W ptr)) (hostStep c s)
      (Interpreter.step c q t) := by
  obtain ⟨i, h⟩ := s
  obtain ⟨p, b⟩ := t
  obtain ⟨d, hi, hpc⟩ := ht.position
  have hd : d ∈ c.plan.instructions := List.mem_of_getElem? hi
  have hfind : find c.plan.instructions p.guest.pc = some d := by
    rw [← hpc]
    exact ha.find_pc hw hd
  have hstep := piece_step ha i hd h
  unfold hostStep Interpreter.step
  simp only [hi, hfind, Option.map_some]
  refine .some ?_
  have hno : Hot c (view c.regs h).word ∨ ¬ Yields (view c.regs h).word →
      ¬ (c.starts d = true ∧ q.validating = false ∧ p.cursor = q.limit) := by
    rintro hy ⟨-, hc⟩
    have hyes := ht.fields.yields.mpr hc
    rcases hy with hh | hn
    · exact (ht.fields.hot hh).1 hyes
    · exact hn hyes
  have haff : Affords c d (view c.regs h).word ↔
      ¬ p.remaining < BitVec.ofNat 64 (c.blockCount d) := by
    unfold Affords
    rw [ht.fields.remaining]
  generalize c.piece i d h = f at hstep
  cases hstep with
  | @yielded g hs hh hy hv =>
    have hyes := ht.fields.yields.mp hy
    rw [if_pos ⟨hs, hyes⟩]
    have hword : ∀ f, f ≠ Field.entry → (view c.regs g).word f = (view c.regs h).word f :=
      fun f hfe => by
      rw [hv]
      exact View.word_setWord_of_ne hfe _ (view c.regs h)
    refine .inr ⟨?_, rfl, ?_, ?_, ?_, ?_, ?_, ?_, ?_, ?_, ?_, ht.sound, fun _ => ?_⟩
    · rw [hv]
      exact ht.pointer
    · exact (hword .cursor (by decide)).trans ht.fields.cursor
    · exact (hword .remaining (by decide)).trans ht.fields.remaining
    · exact (hword .collecting (by decide)).trans ht.fields.collecting
    · exact (hword .nextPage (by decide)).trans ht.fields.nextPage
    · exact (hword .nextFrame (by decide)).trans ht.fields.nextFrame
    · exact (hword .stop (by decide)).trans ht.fields.stop
    · exact (hword .error (by decide)).trans ht.fields.error
    · have hframes : g.frames = h.frames := congrArg View.frames hv
      intro a
      simp only [hframes]
      exact ht.frames a
    · exact (congrArg View.mem hv).trans ht.mem
    · have hx := persisted_holds hw ha hi hpc ht
      simp only [finalState, hv]
      exact hx
  | @exhausted g hs hy haff' hv =>
    rw [if_neg (hno hy), if_pos ⟨hs, by simpa using mt haff.mpr haff'⟩]
    have hcross := passedView_crossed c i d h
    -- the host in front of the failure, with the registers as they were
    have hcrossed : crossed c d p b = b.pass c p := if_pos hs
    rw [hcrossed]
    have hwords := hcross.word
    have hfields : Fields c q (passedView c i d h).word (spend c d p) (b.pass c p) := by
      rw [hwords]
      exact ht.fields.charged hs
    have hword : ∀ f, f ≠ Field.error → (view c.regs g).word f = (passedView c i d h).word f :=
      fun f hfe => by
        rw [hv]
        exact View.word_setWord_of_ne hfe 1 (passedView c i d h)
    refine .inr ⟨?_, rfl, ?_, ?_, ?_, ?_, ?_, ?_, ?_, ?_, ?_, ?_, fun h => by cases h⟩
    · rw [hv]
      exact hcross.pointer.trans ht.pointer
    · exact (hword .cursor (by decide)).trans hfields.cursor
    · exact (hword .remaining (by decide)).trans hfields.remaining
    · exact (hword .collecting (by decide)).trans hfields.collecting
    · exact (hword .nextPage (by decide)).trans hfields.nextPage
    · exact (hword .nextFrame (by decide)).trans hfields.nextFrame
    · exact (hword .stop (by decide)).trans hfields.stop
    · rw [if_neg (by simp), finalState, hv]
      exact View.word_setWord_self .error 1 (passedView c i d h)
    · have hframes : g.frames = (passedView c i d h).frames := congrArg View.frames hv
      intro a
      simp only [hframes]
      exact ht.passed_frames hw ha hi hpc hcross a
    · have hmem : g.mem = h.mem := (congrArg View.mem hv).trans hcross.mem
      simp only [hmem, spend_cursor, spend_guest]
      exact ht.mem
    · exact ⟨by simpa using ht.sound.low, by
        simpa using ht.sound.high, by simpa using ht.sound.outside⟩
  | @start g f hs hy haff' hp hb =>
    rw [if_neg (hno hy), if_neg fun hc => haff.mp haff' hc.2]
    have hcrossed : crossed c d p b = b.pass c p := if_pos hs
    rw [hcrossed]
    have htrack := ht.passed hw ha hi hpc hs hp.crossed (ht.guest.ready hpc hp.ready) rfl rfl
    exact htrack.body hw ha hf hi (by simpa using hpc) hq hb
  | inner hs hb =>
    have hcrossed : crossed c d p b = b := if_neg (by simp [hs])
    have hspend : spend c d p = p := if_neg (by simp [hs])
    rw [if_neg fun hc => by simp [hs] at hc, if_neg fun hc => by simp [hs] at hc, hcrossed, hspend]
    exact ht.body hw ha hf hi hpc hq hb

/-- **A run of the generated code** ends as the interpreter does, after as many instructions. -/
theorem run_tracks (hf : Fed c W q.limit)
    (hq : q.limit.toNat ≤ c.recipe.h.output + c.recipe.h.length) (fuel : ℕ)
    (ht : Tracks c W q ptr (i, h) (p, b)) :
    Option.Rel (fun x y => Ended c W ptr (x.1, x.2.1) y.1 ∧ x.2.2 = y.2 + lastCount x.1)
      (c.run fuel i h) (Machine.run (Interpreter.step c q) fuel (p, b)) := by
  have hrel := Machine.run_rel (piece_tracks hw ha hf hq) fuel ht
  rw [run_eq]
  generalize Machine.run (hostStep c) fuel (i, h) = x at hrel
  generalize Machine.run (Interpreter.step c q) fuel (p, b) = y at hrel
  cases hrel with
  | none => exact .none
  | some hxy => exact .some ⟨hxy.1, by simp only [hxy.2]⟩

/-! ### Calls -/

/-- **A host in front of a call**: the `State` object behind `RDI` holds a point. -/
structure Called (c : Compiler) (W : Window) (q : Extent) (h : Host) (p : Point) (b : Ledger) :
    Prop where
  holds : Holds c (h.state (h.core.gpr 7)) p
  present : present c.plan.instructions p.guest.pc = true
  fields : Fields c q (h.state (h.core.gpr 7)).word p b
  delta : (h.state (h.core.gpr 7)).word .delta = W.delta
  frames : ∀ a, FrameAt c W a (b.frames a) (h.frames a)
  mem : h.mem = W.host p.cursor p.guest.mem
  sound : Sound c p
  start : W.start ≤ p.cursor.toNat
  limit : p.cursor.toNat ≤ q.limit.toNat

omit hw in
theorem label_toNat {pc : ℕ} (hp : present c.plan.instructions pc = true) :
    (BitVec.ofNat 64 (c.label pc)).toNat = c.label pc := by
  obtain ⟨d, hd, -⟩ := Budget.label_spec hp
  have hlt := (List.getElem?_eq_some_iff.mp hd).1
  have hlen : c.plan.instructions.length = r.code.length := by rw [← ha.sources, List.length_map]
  have hsub := ha.subset
  unfold subsetExceeded at hsub
  simp only [Bool.or_eq_false_iff, decide_eq_false_iff_not] at hsub
  rw [BitVec.toNat_ofNat]
  exact Nat.mod_eq_of_lt (by omega)

omit hw ha in
/-- **The code in front of the first piece.** -/
theorem Called.tracks (hc : Called c W q h p b) :
    Tracks c W q (h.core.gpr 7) (c.label p.guest.pc, c.enter h) (p, b) := by
  have he := enter_spec (c := c) h
  refine ⟨Budget.label_spec hc.present, ⟨⟨fun k hk => ?_, fun k hk => ?_, ?_⟩, ?_⟩, ?_, ?_,
    he.pointer, ?_, ?_,
    hc.sound, hc.start, hc.limit⟩
  · rw [he.gpr k hk]
    exact hc.holds.same.gpr k hk
  · rw [he.xmm k hk]
    exact hc.holds.same.xmm k hk
  · rw [he.mxcsr]
    exact hc.holds.same.mxcsr
  · rw [he.flags]
    exact hc.holds.flags
  · rw [he.word]
    exact hc.fields
  · rw [he.word]
    exact hc.delta
  · simp only [he.frames]
    exact hc.frames
  · simp only [he.mem]
    exact hc.mem

/-- **A call of the generated code** ends as the interpreter does, after as many instructions. -/
theorem call_tracks (hf : Fed c W q.limit)
    (hq : q.limit.toNat ≤ c.recipe.h.output + c.recipe.h.length) (fuel : ℕ)
    (hc : Called c W q h p b) :
    Option.Rel (fun x y => Left c W (x.2.1.state (h.core.gpr 7)) (x.1, x.2.1) y.1 ∧
        x.2.2 = y.2 + lastCount x.1)
      (c.call fuel h) (Machine.run (Interpreter.step c q) fuel (p, b)) := by
  have hrel := run_tracks hw ha hf hq fuel hc.tracks
  have hentry : ((c.enter h).get c.regs .entry).toNat = c.label p.guest.pc := by
    have hword : (c.enter h).get c.regs .entry = _ := congrFun (enter_spec (c := c) h).word .entry
    rw [hword, hc.holds.entry]
    exact label_toNat ha hc.present
  unfold Compiler.call
  simp only [hentry]
  generalize c.run fuel (c.label p.guest.pc) (c.enter h) = x at hrel
  generalize Machine.run (Interpreter.step c q) fuel (p, b) = y at hrel
  cases hrel with
  | none => exact .none
  | @some x y hxy =>
    obtain ⟨⟨hptr, hl⟩, hn⟩ := hxy
    obtain ⟨hstate, hframes, hmem, -⟩ := exit_spec (c := c) x.2.1
    refine .some ⟨?_, hn⟩
    have hfinal : (c.exit x.2.1).state (h.core.gpr 7) = finalState c x.2.1 := by
      rw [hstate, hptr, Function.update_self]
      rfl
    simp only [hfinal]
    exact ⟨hl.exit, hl.cursor, hl.remaining, hl.collecting, hl.nextPage, hl.nextFrame,
      hl.stop, hl.error, by simp only [hframes]; exact hl.frames,
      by simp only [hmem]; exact hl.mem, hl.sound, hl.yields⟩

end Pieces

end

end Afterfree.Native.Simulation
