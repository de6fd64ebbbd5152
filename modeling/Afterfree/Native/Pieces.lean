import Afterfree.Native.Compile

/-!
# What the pieces of the generated code do

A view of the host leaves out what the guard code may clobber: the scratch register and the flags.
Each operation of the guard code is one update of the view, and each part of a piece has a lemma
that says which view it leaves and which way it goes.
-/

namespace Afterfree.Native.Pieces

open Afterfree.Common Afterfree.Codec Afterfree.Native.X86 Afterfree.Native.Decode
open Afterfree.Native.Reference Afterfree.Native.Compile

/-- The host without scratch register and flags: fields by their names, the context register, the
guest's registers, and the rest of the `State` object. -/
@[ext] structure View where
  word : Field → Word
  pointer : Word
  gpr : Fin 16 → Word
  xmm : Fin 16 → BitVec 128
  mxcsr : BitVec 32
  stack : List Word
  saved : State
  frames : Word → Frame
  mem : Memory
  log : List Access

namespace View

def setWord (f : Field) (x : Word) (v : View) : View :=
  { v with word := Function.update v.word f x }

def setGpr (r : Fin 16) (x : Word) (v : View) : View := { v with gpr := Function.update v.gpr r x }

def setStack (l : List Word) (v : View) : View := { v with stack := l }

def setSaved (s : State) (v : View) : View := { v with saved := s }

def setFrame (w : Word) (f : Frame) (v : View) : View :=
  { v with frames := Function.update v.frames w f }

def addLog (x : Access) (v : View) : View := { v with log := v.log ++ [x] }

@[simp] theorem word_setWord_self (f : Field) (x : Word) (v : View) : (v.setWord f x).word f = x :=
  Function.update_self ..

theorem word_setWord_of_ne {f g : Field} (h : g ≠ f) (x : Word) (v : View) :
    (v.setWord f x).word g = v.word g := Function.update_of_ne h ..

end View

/-- **The view of a host.** -/
def view (a : Allocation) (h : Host) : View where
  word f := h.get a f
  pointer := h.core.gpr a.context
  gpr r := if r ∈ a.used then h.core.gpr r else 0
  xmm := h.core.xmm
  mxcsr := h.core.mxcsr
  stack := h.stack
  saved := { h.context a with word := fun _ => 0 }
  frames := h.frames
  mem := h.mem
  log := h.log

section Registers
variable (a : Allocation)

theorem lookup_mem {f : Field} {r : Fin 16} (h : a.hot.lookup f = some r) : (f, r) ∈ a.hot := by
  have hk : ∀ {l : List (Field × Fin 16)}, l.lookup f = some r → (f, r) ∈ l := by
    intro l
    induction l with
    | nil => intro h; cases h
    | cons x xs ih =>
      intro h
      rw [List.lookup_cons] at h
      split at h
      · next he =>
        obtain rfl := Option.some.inj h
        have hx : f = x.1 := by simpa using he
        rw [hx]
        exact List.mem_cons_self
      · exact List.mem_cons_of_mem _ (ih h)
  exact hk h

theorem lookup_inj {f g : Field} {r : Fin 16} (hf : a.hot.lookup f = some r)
    (hg : a.hot.lookup g = some r) : f = g := by
  have h1 := lookup_mem a hf
  have h2 := lookup_mem a hg
  have hinj := List.inj_on_of_nodup_map a.hot_registers
  exact congrArg Prod.fst (hinj h1 h2 rfl)

theorem lookup_free {f : Field} {r : Fin 16} (hf : a.hot.lookup f = some r) :
    r ∉ a.used ∧ r ≠ a.context ∧ r ≠ a.scratch := a.hot_free _ (lookup_mem a hf)

theorem view_setGpr_free {r : Fin 16} {v : Word} {h : Host} (h1 : ∀ f, a.hot.lookup f ≠ some r)
    (h2 : r ≠ a.context) (h3 : r ∉ a.used) : view a (h.setGpr r v) = view a h := by
  have hctx : (h.setGpr r v).core.gpr a.context = h.core.gpr a.context :=
    Function.update_of_ne h2.symm _ _
  have hget : ∀ f, (h.setGpr r v).get a f = h.get a f := by
    intro f
    unfold Host.get Host.context
    cases hf : a.hot.lookup f with
    | none => simp only [hctx]; rfl
    | some q =>
      have hq : q ≠ r := fun e => h1 f (e ▸ hf)
      exact Function.update_of_ne hq _ _
  have hgpr : ∀ q, (if q ∈ a.used then (h.setGpr r v).core.gpr q else 0) =
      if q ∈ a.used then h.core.gpr q else 0 := by
    intro q
    split_ifs with hq
    · exact Function.update_of_ne (fun e : q = r => h3 (e ▸ hq)) _ _
    · rfl
  unfold view Host.context
  simp only [hget, hctx, hgpr]
  rfl

@[simp] theorem view_setScratch (v : Word) (h : Host) : view a (h.setScratch a v) = view a h :=
  view_setGpr_free a (fun _ hf => (lookup_free a hf).2.2 rfl) a.scratch_ne a.scratch_free

@[simp] theorem view_setFlags (v : Word) (h : Host) : view a (h.setFlags v) = view a h := rfl

@[simp] theorem view_cmp (isa : Isa) (x y : Word) (h : Host) :
    view a (h.cmp isa x y) = view a h := rfl

@[simp] theorem view_addScratch (isa : Isa) (v : Word) (h : Host) :
    view a (h.addScratch isa a v) = view a h := by
  unfold Host.addScratch
  rw [view_setFlags, view_setScratch]

@[simp] theorem view_subScratch (isa : Isa) (v : Word) (h : Host) :
    view a (h.subScratch isa a v) = view a h := by
  unfold Host.subScratch
  rw [view_setFlags, view_setScratch]

/-- **A write to a field** changes that field only. -/
@[simp] theorem view_put (f : Field) (v : Word) (h : Host) :
    view a (h.put a f v) = (view a h).setWord f v := by
  unfold Host.put
  cases hf : a.hot.lookup f with
  | some r =>
    obtain ⟨hu, hc, -⟩ := lookup_free a hf
    have hctx : (h.setGpr r v).core.gpr a.context = h.core.gpr a.context :=
      Function.update_of_ne hc.symm _ _
    have hget : ∀ g, (h.setGpr r v).get a g = Function.update (view a h).word f v g := by
      intro g
      by_cases hg : g = f
      · subst hg
        rw [Function.update_self]
        unfold Host.get
        rw [hf]
        exact Function.update_self _ _ _
      · rw [Function.update_of_ne hg]
        change _ = h.get a g
        unfold Host.get Host.context
        cases hq : a.hot.lookup g with
        | none => simp only [hctx]; rfl
        | some q =>
          have hne : q ≠ r := fun e => hg (lookup_inj a (e ▸ hq) hf)
          exact Function.update_of_ne hne _ _
    have hgpr : ∀ q, (if q ∈ a.used then (h.setGpr r v).core.gpr q else 0) =
        if q ∈ a.used then h.core.gpr q else 0 := by
      intro q
      split_ifs with hq
      · exact Function.update_of_ne (fun e : q = r => hu (e ▸ hq)) _ _
      · rfl
    unfold View.setWord view Host.context
    simp only [hget, hctx, hgpr]
    rfl
  | none =>
    have hget : ∀ g, (h.modify a fun s => { s with word := Function.update s.word f v }).get a g =
        Function.update (view a h).word f v g := by
      intro g
      by_cases hg : g = f
      · subst hg
        rw [Function.update_self]
        simp [Host.get, hf, Host.context, Host.modify, Host.setContext]
      · rw [Function.update_of_ne hg]
        change _ = h.get a g
        unfold Host.get
        cases hq : a.hot.lookup g with
        | none => simp [Host.context, Host.modify, Host.setContext, hg]
        | some q => rfl
    unfold View.setWord view
    simp only [hget]
    simp [Host.context, Host.modify, Host.setContext]
    rfl

@[simp] theorem view_addField (isa : Isa) (f : Field) (v : Word) (h : Host) :
    view a (h.addField isa a f v) = (view a h).setWord f ((view a h).word f + v) := by
  unfold Host.addField
  rw [view_setFlags, view_put]
  rfl

@[simp] theorem view_push (v : Word) (h : Host) :
    view a (h.push v) = (view a h).setStack (v :: (view a h).stack) := rfl

@[simp] theorem view_pushf (h : Host) :
    view a h.pushf = (view a h).setStack (h.core.flags :: (view a h).stack) := rfl

@[simp] theorem view_popf (h : Host) :
    view a h.popf = (view a h).setStack (view a h).stack.tail := rfl

@[simp] theorem view_note (x : Access) (h : Host) :
    view a (h.note x) = (view a h).addLog x := rfl

@[simp] theorem view_setFrame (w : Word) (change : Frame → Frame) (h : Host) :
    view a (h.setFrame w change) = (view a h).setFrame w (change ((view a h).frames w)) := rfl

theorem view_setGpr_used {r : Fin 16} (hr : r ∈ a.used) (v : Word) (h : Host) :
    view a (h.setGpr r v) = (view a h).setGpr r v := by
  have hc : a.context ≠ r := fun e => a.context_free (e ▸ hr)
  have hctx : (h.setGpr r v).core.gpr a.context = h.core.gpr a.context :=
    Function.update_of_ne hc _ _
  have hget : ∀ f, (h.setGpr r v).get a f = h.get a f := by
    intro f
    unfold Host.get Host.context
    cases hf : a.hot.lookup f with
    | none => simp only [hctx]; rfl
    | some q =>
      have hq : q ≠ r := fun e => (lookup_free a hf).1 (e ▸ hr)
      exact Function.update_of_ne hq _ _
  have hgpr : ∀ q, (if q ∈ a.used then (h.setGpr r v).core.gpr q else 0) =
      Function.update (view a h).gpr r v q := by
    intro q
    by_cases hq : q = r
    · subst hq
      rw [Function.update_self, if_pos hr]
      exact Function.update_self _ _ _
    · rw [Function.update_of_ne hq]
      change _ = if q ∈ a.used then h.core.gpr q else 0
      split_ifs
      · exact Function.update_of_ne hq _ _
      · rfl
  unfold View.setGpr view Host.context
  simp only [hget, hctx]
  congr 1
  exact funext hgpr

theorem view_storeFrame (hr : (0 : Fin 16) ∈ a.used) (w v : Word) (part : Word → Frame → Frame)
    (h : Host) : view a (h.storeFrame w v part) =
      ((view a h).setGpr 0 v).setFrame w (part v ((view a h).frames w)) := by
  have hv : (h.setGpr 0 v).core.gpr 0 = v := by simp [Host.setGpr]
  unfold Host.storeFrame
  rw [view_setFrame, hv, view_setGpr_used a hr]
  rfl

theorem view_pop {r : Fin 16} (hr : r ∈ a.used) (h : Host) : view a (h.pop r) =
    ((view a h).setGpr r ((view a h).stack.headD 0)).setStack (view a h).stack.tail := by
  have hpop : view a (h.pop r) = (view a (h.setGpr r (h.stack.headD 0))).setStack h.stack.tail :=
    rfl
  rw [hpop, view_setGpr_used a hr]
  rfl

theorem view_modify {change : State → State} (h : Host) (hw : ∀ s, (change s).word = s.word)
    (he : ∀ s, change { s with word := fun _ => 0 } = { change s with word := fun _ => 0 }) :
    view a (h.modify a change) = (view a h).setSaved (change (view a h).saved) := by
  have hget : ∀ f, (h.modify a change).get a f = h.get a f := by
    intro f
    unfold Host.get
    cases a.hot.lookup f with
    | none => simp [Host.context, Host.modify, Host.setContext, hw]
    | some q => rfl
  unfold View.setSaved view
  simp only [hget, he]
  simp [Host.context, Host.modify, Host.setContext]

/-! ### Flags and the scratch register -/

@[simp] theorem scratch_setScratch (v : Word) (h : Host) : (h.setScratch a v).scratch a = v :=
  Function.update_self _ _ _

@[simp] theorem scratch_setFlags (v : Word) (h : Host) :
    (h.setFlags v).scratch a = h.scratch a := rfl

@[simp] theorem scratch_cmp (isa : Isa) (x y : Word) (h : Host) :
    (h.cmp isa x y).scratch a = h.scratch a := rfl

@[simp] theorem scratch_addScratch (isa : Isa) (v : Word) (h : Host) :
    (h.addScratch isa a v).scratch a = h.scratch a + v := scratch_setScratch a _ _

@[simp] theorem scratch_subScratch (isa : Isa) (v : Word) (h : Host) :
    (h.subScratch isa a v).scratch a = h.scratch a - v := scratch_setScratch a _ _

@[simp] theorem scratch_put (f : Field) (v : Word) (h : Host) :
    (h.put a f v).scratch a = h.scratch a := by
  unfold Host.put
  cases hf : a.hot.lookup f with
  | none => rfl
  | some r => exact Function.update_of_ne (lookup_free a hf).2.2.symm _ _

@[simp] theorem get_eq (f : Field) (h : Host) : h.get a f = (view a h).word f := rfl

@[simp] theorem flags_setScratch (v : Word) (h : Host) :
    (h.setScratch a v).core.flags = h.core.flags := rfl

end Registers

section Conditions
variable (isa : Isa) (x y : Word) (h : Host)

@[simp] theorem jumps_below : (h.cmp isa x y).jumps 2 = decide (x < y) := isa.sub_carry _ _ _

@[simp] theorem jumps_equal : (h.cmp isa x y).jumps 4 = decide (x = y) := isa.sub_zero _ _ _

@[simp] theorem jumps_differ : (h.cmp isa x y).jumps 5 = !decide (x = y) :=
  congrArg not (isa.sub_zero _ _ _)

@[simp] theorem jumps_notAbove : (h.cmp isa x y).jumps 6 = decide (x ≤ y) := by
  have hc := isa.sub_carry h.core.flags x y
  have hz := isa.sub_zero h.core.flags x y
  unfold Host.jumps Host.cmp Host.setFlags condition
  rw [hc, hz, ← Bool.decide_or]
  refine decide_eq_decide.mpr ?_
  rw [BitVec.lt_def, BitVec.le_def, ← BitVec.toNat_inj]
  omega

@[simp] theorem jumps_above : (h.cmp isa x y).jumps 7 = decide (y < x) := by
  have h6 := jumps_notAbove isa x y h
  have h7 : (h.cmp isa x y).jumps 7 = !(h.cmp isa x y).jumps 6 := rfl
  rw [h7, h6, ← decide_not]
  refine decide_eq_decide.mpr ?_
  rw [BitVec.lt_def, BitVec.le_def]
  omega

end Conditions

/-! ### Block starts -/

/-- The block start is one where a window ends. -/
def Yields (w : Field → Word) : Prop := w .validating = 0 ∧ w .cursor = w .limit

instance (w : Field → Word) : Decidable (Yields w) := inferInstanceAs (Decidable (_ ∧ _))

/-- A checkpoint is due, or the block has missed it. -/
def Due (w : Field → Word) : Prop :=
  w .collecting ≠ 0 ∧ w .cursor ≠ w .stop ∧ ¬ w .cursor < w .nextPage

instance (w : Field → Word) : Decidable (Due w) := inferInstanceAs (Decidable (_ ∧ _))

/-- The fields behind the checkpoint part. -/
def collected (size : ℕ) (w : Field → Word) : Field → Word :=
  if Due w then
    if w .cursor = w .nextPage then
      Function.update (Function.update w .nextFrame (w .nextFrame + BitVec.ofNat 64 size)) .nextPage
        (w .nextPage + BitVec.ofNat 64 PAGE)
    else Function.update w .collecting 0
  else w

/-- The trigger that goes with the other fields. -/
def triggerOf (w : Field → Word) : Word :=
  if w .collecting = 0 ∨ w .limit ≤ w .nextPage then w .limit else w .nextPage

/-- The trigger does not lie behind a point where something is due. -/
structure TriggerOk (w : Field → Word) : Prop where
  limit : w .trigger ≤ w .limit
  page : w .collecting ≠ 0 → w .trigger ≤ w .nextPage

theorem triggerOf_le (w : Field → Word) :
    triggerOf w ≤ w .limit ∧ (w .collecting ≠ 0 → triggerOf w ≤ w .nextPage) := by
  unfold triggerOf
  split_ifs with h
  · refine ⟨BitVec.le_refl _, fun hc => ?_⟩
    rcases h with h | h
    · exact absurd h hc
    · exact h
  · rw [not_or] at h
    refine ⟨?_, fun _ => BitVec.le_refl _⟩
    have := h.2
    rw [BitVec.le_def] at this ⊢
    omega

theorem TriggerOk.of_eq {w : Field → Word} (h : w .trigger = triggerOf w) : TriggerOk w := by
  obtain ⟨h1, h2⟩ := triggerOf_le w
  rw [← h] at h1 h2
  exact ⟨h1, h2⟩

theorem TriggerOk.congr {w w' : Field → Word} (h : TriggerOk w)
    (hw : ∀ f ∈ [Field.trigger, .limit, .collecting, .nextPage], w' f = w f) : TriggerOk w' := by
  simp only [List.forall_mem_cons, List.not_mem_nil, false_imp_iff, implies_true, and_true] at hw
  obtain ⟨h1, h2, h3, h4⟩ := hw
  exact ⟨by rw [h1, h2]; exact h.limit, by rw [h1, h3, h4]; exact h.page⟩

/-- **Below the trigger nothing is due.** -/
theorem TriggerOk.quiet {w : Field → Word} (h : TriggerOk w) (hlt : w .cursor < w .trigger) :
    ¬ Yields w ∧ ¬ Due w := by
  have hlim := h.limit
  rw [BitVec.lt_def] at hlt
  rw [BitVec.le_def] at hlim
  constructor
  · rintro ⟨-, he⟩
    rw [he] at hlt
    omega
  · rintro ⟨hc, -, hn⟩
    have := h.page hc
    rw [BitVec.le_def] at this
    rw [BitVec.lt_def] at hn
    omega

section Boundaries
variable (c : Compiler)

/-- The checkpoint of a view; its flags are on the stack, or dead. -/
def frameOf (position : ℕ) (preserving : Bool) (v : View) : Frame where
  entry := BitVec.ofNat 64 position
  cursor := v.word .cursor
  remaining := v.word .remaining
  flags := if preserving then v.stack.headD 0 else v.saved.flags
  mxcsr := v.mxcsr
  gprs := c.gprs.map fun i => v.gpr (physical i)
  vectors := c.plan.vectors.map v.xmm

/-- The view behind a checkpoint. -/
def captureView (position : ℕ) (preserving : Bool) (v : View) : View :=
  (((v.addLog (.frame (v.word .nextFrame))).setFrame (v.word .nextFrame)
    (frameOf c position preserving v)).setWord .nextFrame (v.word .nextFrame +
      BitVec.ofNat 64 c.frameSize)).setWord .nextPage (v.word .nextPage + BitVec.ofNat 64 PAGE)

/-- The view behind the checkpoint part. -/
def collectView (position : ℕ) (preserving : Bool) (v : View) : View :=
  if Due v.word then
    if v.word .cursor = v.word .nextPage then captureView c position preserving v
    else v.setWord .collecting 0
  else v

theorem atLimit_spec (h : Host) : view c.regs (c.atLimit h).1 = view c.regs h ∧
    (c.atLimit h).2 = decide (Yields (view c.regs h).word) := by
  unfold Compiler.atLimit Yields
  simp only [get_eq, view_cmp, view_setScratch, scratch_setScratch, jumps_differ]
  by_cases h1 : (view c.regs h).word .validating = 0
  · by_cases h2 : (view c.regs h).word .cursor = (view c.regs h).word .limit
    · simp only [h1, h2, decide_true, Bool.not_true, Bool.false_eq_true, if_false, view_cmp,
        view_setScratch, and_self]
    · simp only [h1, h2, decide_true, decide_false, Bool.not_true, Bool.not_false,
        Bool.false_eq_true, if_false, if_true, view_cmp, view_setScratch, and_self, and_false]
  · simp only [h1, decide_false, Bool.not_false, if_true, view_cmp, false_and, and_self]

theorem gpr_eq {a : Allocation} {r : Fin 16} (hr : r ∈ a.used) (h : Host) :
    h.core.gpr r = (view a h).gpr r := (if_pos hr).symm

/-- A checkpoint is being filled: `RAX` is on the stack. -/
structure Filling (v g : View) (w : Word) (f : Frame) : Prop where
  word : g.word = v.word
  pointer : g.pointer = v.pointer
  gpr : ∀ r, r ≠ 0 → g.gpr r = v.gpr r
  xmm : g.xmm = v.xmm
  mxcsr : g.mxcsr = v.mxcsr
  stack : g.stack = v.gpr 0 :: v.stack
  saved : g.saved = v.saved
  frames : g.frames = Function.update v.frames w f
  mem : g.mem = v.mem
  log : g.log = v.log ++ [.frame w]

theorem Filling.store {a : Allocation} (hrax : (0 : Fin 16) ∈ a.used) {v : View} {g : Host}
    {w : Word} {f : Frame} (hf : Filling v (view a g) w f) (x : Word)
    (part : Word → Frame → Frame) :
    Filling v (view a (g.storeFrame w x part)) w (part x f) := by
  rw [view_storeFrame a hrax]
  refine ⟨hf.word, hf.pointer, fun r hr => ?_, hf.xmm, hf.mxcsr, hf.stack, hf.saved, ?_,
    hf.mem, hf.log⟩
  · exact (Function.update_of_ne hr _ _).trans (hf.gpr r hr)
  · simp only [View.setFrame, View.setGpr, hf.frames, Function.update_self, Function.update_idem]

/-- **A checkpoint** holds the registers in use, the fields and the flags; `RAX` is put back. -/
theorem capture_spec (hrax : (0 : Fin 16) ∈ c.regs.used) (position : ℕ) (preserving : Bool)
    (h : Host) :
    view c.regs (c.capture position preserving h) = captureView c position preserving
      (view c.regs h) := by
  have hgprs : ∀ (h' : Host), view c.regs h' = view c.regs h →
      (c.gprs.map fun i => h'.core.gpr (physical i)) =
        c.gprs.map fun i => (view c.regs h).gpr (physical i) := by
    intro h' hv
    refine List.map_congr_left fun i hi => ?_
    have hu : physical i ∈ c.regs.used := by simpa [Compiler.gprs] using hi
    rw [gpr_eq hu h', hv]
  unfold Compiler.capture
  simp only [get_eq, scratch_setScratch]
  generalize hw : (view c.regs h).word .nextFrame = w
  -- the registers, then `RAX` is free for the other parts
  generalize h1 : ((h.setScratch c.regs w).note (.frame w)).setFrame w _ = g1
  generalize hold : (view c.regs h).frames w = old
  generalize hgs : (c.gprs.map fun i => (view c.regs h).gpr (physical i)) = gs
  generalize hvs : c.plan.vectors.map (view c.regs h).xmm = vs
  have v1 : view c.regs g1 = ((view c.regs h).addLog (.frame w)).setFrame w
      ⟨old.entry, old.cursor, old.remaining, old.flags, old.mxcsr, gs, vs⟩ := by
    have hg := (hgprs (h.setScratch c.regs w) (view_setScratch _ _ _)).trans hgs
    rw [← h1, view_setFrame, view_note, view_setScratch]
    simp only [Host.note, hg, View.addLog, hold]
    rw [← hvs]
    rfl
  have hrax1 : g1.core.gpr 0 = (view c.regs h).gpr 0 := by
    rw [gpr_eq hrax g1, v1]
    rfl
  generalize h2 : g1.push (g1.core.gpr 0) = g2
  have f2 : Filling (view c.regs h) (view c.regs g2) w
      ⟨old.entry, old.cursor, old.remaining, old.flags, old.mxcsr, gs, vs⟩ := by
    rw [← h2, view_push, v1, hrax1]
    exact ⟨rfl, rfl, fun _ _ => rfl, rfl, rfl, rfl, rfl, rfl, rfl, rfl⟩
  have f3 : Filling (view c.regs h) _ w ⟨BitVec.ofNat 64 position, old.cursor,
    old.remaining, old.flags,
      old.mxcsr, gs, vs⟩ := f2.store hrax (BitVec.ofNat 64 position) fun v f =>
        { f with entry := v }
  generalize g2.storeFrame w _ _ = g3 at f3 ⊢
  have f4 : Filling (view c.regs h) _ w ⟨BitVec.ofNat 64 position, (view c.regs g3).word .cursor,
      old.remaining, old.flags, old.mxcsr, gs, vs⟩ :=
    f3.store hrax ((view c.regs g3).word .cursor) fun v f => { f with cursor := v }
  generalize g3.storeFrame w _ _ = g4 at f4 ⊢
  have f5 : Filling (view c.regs h) _ w ⟨BitVec.ofNat 64 position, (view c.regs g3).word .cursor,
      (view c.regs g4).word .remaining, old.flags, old.mxcsr, gs, vs⟩ :=
    f4.store hrax ((view c.regs g4).word .remaining) fun v f => { f with remaining := v }
  generalize g4.storeFrame w _ _ = g5 at f5 ⊢
  have hstack : g5.stack = (view c.regs h).gpr 0 :: h.stack := f5.stack
  have hflags : (g5.context c.regs).flags = (h.context c.regs).flags := by
    have hs : (view c.regs g5).saved.flags = (view c.regs h).saved.flags := by rw [f5.saved]
    exact hs
  have htop : ((view c.regs h).gpr 0 :: h.stack).getD 1 0 = h.stack.headD 0 := by
    cases h.stack <;> rfl
  rw [hstack, hflags, htop]
  generalize hfl : (if preserving = true then h.stack.headD 0 else (h.context c.regs).flags) = flags
  have hfl' : (if preserving = true then (view c.regs h).stack.headD 0
    else (view c.regs h).saved.flags) =
      flags := hfl
  have f6 : Filling (view c.regs h) _ w ⟨BitVec.ofNat 64 position, (view c.regs g3).word .cursor,
      (view c.regs g4).word .remaining, flags, old.mxcsr, gs, vs⟩ :=
    f5.store hrax flags fun v f => { f with flags := v }
  generalize g5.storeFrame w _ _ = g6 at f6 ⊢
  have hmxcsr : g6.core.mxcsr = (view c.regs h).mxcsr := f6.mxcsr
  rw [f3.word, f4.word] at f6
  rw [hmxcsr, view_addField, view_addField, view_pop _ hrax, view_setFrame]
  have hgpr : Function.update (view c.regs g6).gpr 0 ((view c.regs h).gpr 0) =
    (view c.regs h).gpr := by
    funext r
    by_cases hr : r = 0
    · rw [hr, Function.update_self]
    · rw [Function.update_of_ne hr, f6.gpr r hr]
  ext1 <;> simp only [View.setWord, View.setStack, View.setGpr, View.setFrame,
    View.addLog, captureView, frameOf, f6.word, f6.pointer, f6.xmm, f6.mxcsr, f6.stack, f6.saved,
    f6.frames, f6.mem, f6.log, hw, hgs,
    hvs, hfl', hgpr, List.headD_cons, List.tail_cons, Function.update_self, Function.update_idem,
    Function.update_of_ne (show Field.nextPage ≠ Field.nextFrame by decide)]

/-- **The checkpoint part** of a block start. -/
theorem collect_spec (hrax : (0 : Fin 16) ∈ c.regs.used) (position : ℕ) (preserving : Bool)
    (h : Host) :
    view c.regs (c.collect position preserving h) = collectView c position preserving
      (view c.regs h) := by
  unfold Compiler.collect
  simp only [get_eq, view_cmp, view_setScratch, scratch_cmp, scratch_setScratch,
    jumps_equal, jumps_below]
  unfold collectView Due
  by_cases h1 : (view c.regs h).word .collecting = 0
  · simp only [h1, decide_true, if_true, view_cmp, ne_eq, not_true_eq_false, false_and, if_false]
  by_cases h2 : (view c.regs h).word .cursor = (view c.regs h).word .stop
  · simp only [h1, h2, decide_true, decide_false, Bool.false_eq_true, if_true, if_false, view_cmp,
      view_setScratch, ne_eq, not_true_eq_false, false_and, and_false]
  by_cases h3 : (view c.regs h).word .cursor < (view c.regs h).word .nextPage
  · simp only [h1, h2, h3, decide_true, decide_false, Bool.false_eq_true, if_true,
      if_false, view_cmp, view_setScratch, ne_eq, not_true_eq_false, not_false_eq_true, and_false]
  by_cases h4 : (view c.regs h).word .cursor = (view c.regs h).word .nextPage
  · simp only [h1, h2, h3, decide_false, Bool.false_eq_true, if_false, ne_eq,
      not_false_eq_true, and_self, if_true]
    simp only [h4, decide_true, if_true]
    rw [capture_spec c hrax]
    simp only [view_cmp, view_setScratch]
  · simp only [h1, h2, h3, h4, decide_false, Bool.false_eq_true, if_false, ne_eq,
      not_false_eq_true, and_self, if_true, view_put, view_cmp, view_setScratch]

theorem retrigger_spec (h : Host) : view c.regs (c.retrigger h) =
    (view c.regs h).setWord .trigger (triggerOf (view c.regs h).word) := by
  unfold Compiler.retrigger triggerOf
  simp only [get_eq, view_cmp, view_setScratch, scratch_cmp, scratch_setScratch, jumps_equal,
    jumps_notAbove]
  by_cases h1 : (view c.regs h).word .collecting = 0
  · simp only [h1, decide_true, if_true, true_or, view_put, view_cmp, view_setScratch]
  by_cases h2 : (view c.regs h).word .limit ≤ (view c.regs h).word .nextPage
  · simp only [h1, h2, decide_true, decide_false, Bool.false_eq_true, if_true, if_false,
      or_true, view_put, view_cmp, view_setScratch]
  · simp only [h1, h2, decide_false, Bool.false_eq_true, if_false, or_self, view_put, view_cmp,
      view_setScratch]

/-- The `State` object that a yield leaves. -/
def persistState (preserving : Bool) (v : View) : State where
  word _ := 0
  regs i := if i ∈ c.gprs then v.gpr (physical i) else v.saved.regs i
  flags := if preserving then v.stack.headD 0 else v.saved.flags
  xmm k := if k ∈ c.plan.vectors then v.xmm k else v.saved.xmm k
  mxcsr := v.mxcsr
  hostMxcsr := v.saved.hostMxcsr

/-- **A yield** keeps the state of the guest. -/
theorem persist_spec (position : ℕ) (preserving : Bool) (h : Host) :
    view c.regs (c.persist position preserving h) =
      ((view c.regs h).setWord .entry (BitVec.ofNat 64 position)).setSaved
        (persistState c preserving (view c.regs h)) := by
  unfold Compiler.persist
  simp only [scratch_setScratch]
  generalize hg1 : (h.setScratch c.regs (BitVec.ofNat 64 position)).put c.regs .entry
    (BitVec.ofNat 64 position) = g1
  have v1 : view c.regs g1 = (view c.regs h).setWord .entry (BitVec.ofNat 64 position) := by
    rw [← hg1, view_put, view_setScratch]
  have hgpr : ∀ i ∈ c.gprs, g1.core.gpr (physical i) = (view c.regs h).gpr (physical i) := by
    intro i hi
    have hu : physical i ∈ c.regs.used := by simpa [Compiler.gprs] using hi
    rw [gpr_eq hu g1, v1]
    rfl
  have hxmm : g1.core.xmm = (view c.regs h).xmm := congrArg View.xmm v1
  have hregs : (fun i => if i ∈ c.gprs then g1.core.gpr (physical i)
    else (view c.regs h).saved.regs i) =
      (persistState c preserving (view c.regs h)).regs := by
    funext i
    unfold persistState
    simp only
    split_ifs with hi
    · exact hgpr i hi
    · rfl
  generalize hg2 : g1.modify c.regs _ = g2
  have v2 : view c.regs g2 = ((view c.regs h).setWord .entry (BitVec.ofNat 64 position)).setSaved
      { persistState c preserving (view c.regs h) with
        flags := (view c.regs h).saved.flags
        mxcsr := (view c.regs h).saved.mxcsr } := by
    rw [← hg2, view_modify]
    · rw [v1]
      simp only [View.setWord, View.setSaved, hregs, hxmm]
      rfl
    · exact fun _ => rfl
    · exact fun _ => rfl
  have hstack : g2.stack = (view c.regs h).stack := congrArg View.stack v2
  generalize hg3 : (if preserving = true then _ else g2 : Host) = g3
  have v3 : view c.regs g3 = ((view c.regs h).setWord .entry (BitVec.ofNat 64 position)).setSaved
      { persistState c preserving (view c.regs h) with mxcsr := (view c.regs h).saved.mxcsr } := by
    rw [← hg3]
    cases preserving with
    | false => exact v2
    | true =>
      simp only [if_true]
      rw [view_modify]
      · rw [view_setScratch, hstack, v2]
        rfl
      · exact fun _ => rfl
      · exact fun _ => rfl
  have hm3 : g3.core.mxcsr = (view c.regs h).mxcsr := congrArg View.mxcsr v3
  rw [view_modify]
  · rw [v3, hm3]
    rfl
  · exact fun _ => rfl
  · exact fun _ => rfl

/-- The budget is enough for the block. -/
def Affords (d : Decoded) (w : Field → Word) : Prop :=
  ¬ w .remaining < BitVec.ofNat 64 (c.blockCount d)

instance (d : Decoded) (w : Field → Word) : Decidable (Affords c d w) :=
  inferInstanceAs (Decidable (¬ _))

/-- The view behind the budget check. -/
def chargeView (d : Decoded) (v : View) : View :=
  v.setWord .remaining (v.word .remaining - BitVec.ofNat 64 (c.blockCount d))

/-- The flags on the stack are popped. -/
def popView (preserving : Bool) (v : View) : View :=
  if preserving then v.setStack v.stack.tail else v

/-- **The budget check.** -/
theorem charge_spec (d : Decoded) (h : Host) :
    (Affords c d (view c.regs h).word → (c.charge d h).2 = true ∧
      view c.regs (c.charge d h).1 = popView (c.preserving d) (chargeView c d (view c.regs h)) ∧
      (c.preserving d = true → (c.charge d h).1.core.flags = h.stack.headD 0)) ∧
    (¬ Affords c d (view c.regs h).word → (c.charge d h).2 = false ∧
      view c.regs (c.charge d h).1 = chargeView c d (view c.regs h)) := by
  unfold Affords chargeView Compiler.charge
  dsimp only
  generalize hg : (h.put c.regs .remaining _).setFlags _ = g
  have hv : view c.regs g = (view c.regs h).setWord .remaining
      ((view c.regs h).word .remaining - BitVec.ofNat 64 (c.blockCount d)) := by
    rw [← hg, view_setFlags, view_put]
    rfl
  have hj : g.jumps 2 =
    decide ((view c.regs h).word .remaining < BitVec.ofNat 64 (c.blockCount d)) := by
    rw [← hg]
    exact c.isa.sub_carry _ _ _
  have hstack : g.stack = h.stack := congrArg View.stack hv
  rw [hj]
  constructor
  · intro hle
    simp only [hle, decide_false, Bool.false_eq_true, if_false, true_and]
    cases c.preserving d with
    | false => exact ⟨hv, fun hc => by cases hc⟩
    | true =>
      simp only [if_true, forall_const]
      refine ⟨?_, congrArg (fun l => List.headD l 0) hstack⟩
      rw [view_popf, hv]
      rfl
  · intro hlt
    rw [not_not] at hlt
    simp only [hlt, decide_true, if_true, hv, and_self]

/-- The trigger says that nothing is to be done here. -/
def Hot (w : Field → Word) : Prop := c.fastBoundary = true ∧ w .cursor < w .trigger

instance (w : Field → Word) : Decidable (Hot c w) := inferInstanceAs (Decidable (_ ∧ _))

/-- The view with the flags saved. -/
def pushView (preserving : Bool) (flags : Word) (v : View) : View :=
  if preserving then v.setStack (flags :: v.stack) else v

/-- The view behind the slow part, when it does not yield. -/
def settled (position : ℕ) (preserving : Bool) (v : View) : View :=
  if c.fastBoundary then
    (collectView c position preserving v).setWord .trigger
      (triggerOf (collectView c position preserving v).word)
  else collectView c position preserving v

/-- The view in front of the budget check. -/
def checkedView (position : ℕ) (preserving : Bool) (v : View) : View :=
  if Hot c v.word then v else settled c position preserving v

/-- **The slow part.** -/
theorem cold_spec (hrax : (0 : Fin 16) ∈ c.regs.used) (position : ℕ) (d : Decoded) (h : Host) :
    (Yields (view c.regs h).word → (c.cold position d h).2 = true ∧
      view c.regs (c.cold position d h).1 =
        ((view c.regs h).setWord .entry (BitVec.ofNat 64 position)).setSaved
          (persistState c (c.preserving d) (view c.regs h))) ∧
    (¬ Yields (view c.regs h).word → (c.cold position d h).2 = false ∧
      view c.regs (c.cold position d h).1 = settled c position (c.preserving d)
        (view c.regs h)) := by
  obtain ⟨hv, hy⟩ := atLimit_spec c h
  unfold Compiler.cold settled
  simp only [hy]
  constructor
  · intro hyes
    simp only [hyes, decide_true, if_true, persist_spec, hv, and_self]
  · intro hno
    simp only [hno, decide_false, Bool.false_eq_true, if_false, true_and]
    cases c.fastBoundary with
    | false => simp only [Bool.false_eq_true, if_false, collect_spec c hrax, hv]
    | true => simp only [if_true, retrigger_spec, collect_spec c hrax, hv]

theorem view_pushed (preserving : Bool) (h : Host) :
    view c.regs (if preserving then h.pushf else h) = pushView preserving h.core.flags
      (view c.regs h) := by
  cases preserving <;> rfl

/-- How a block start goes on. -/
structure Started (position : ℕ) (d : Decoded) (flags : Word) (v : View) (x : Host × Option Exit) :
    Prop where
  yields : ¬ Hot c v.word → Yields v.word → x.2 = some .yielded ∧
    view c.regs x.1 = (v.setWord .entry (BitVec.ofNat 64 position)).setSaved
      (persistState c (c.preserving d) v)
  exhausts : Hot c v.word ∨ ¬ Yields v.word →
    ¬ Affords c d (checkedView c position (c.preserving d) v).word → x.2 = some .exhausted ∧
    view c.regs x.1 = chargeView c d (checkedView c position (c.preserving d) v)
  passes : Hot c v.word ∨ ¬ Yields v.word →
    Affords c d (checkedView c position (c.preserving d) v).word → x.2 = none ∧
    view c.regs x.1 = popView (c.preserving d)
      (chargeView c d (checkedView c position (c.preserving d) v)) ∧
    (c.preserving d = true → x.1.core.flags = flags)

theorem collectView_stack (position : ℕ) (preserving : Bool) (v : View) :
    (collectView c position preserving v).stack = v.stack := by
  unfold collectView captureView
  split_ifs <;> rfl

theorem checkedView_stack (position : ℕ) (preserving : Bool) (v : View) :
    (checkedView c position preserving v).stack = v.stack := by
  unfold checkedView settled
  split_ifs
  · rfl
  · exact collectView_stack c position preserving v
  · exact collectView_stack c position preserving v

/-- **The code of a block start.** -/
theorem boundary_spec (hrax : (0 : Fin 16) ∈ c.regs.used) (position : ℕ) (d : Decoded) (h : Host) :
    Started c position d h.core.flags (pushView (c.preserving d) h.core.flags (view c.regs h))
      (c.boundary position d h) := by
  unfold Compiler.boundary
  dsimp only
  generalize hg : (if c.preserving d = true then h.pushf else h) = g
  have hv : view c.regs g = pushView (c.preserving d) h.core.flags (view c.regs h) := by
    rw [← hg]
    exact view_pushed c (c.preserving d) h
  rw [← hv]
  have hstack : c.preserving d = true → (view c.regs g).stack.headD 0 = h.core.flags := by
    intro hp
    rw [hv, pushView, if_pos hp]
    rfl
  generalize hhot : (g.setScratch c.regs _).cmp c.isa _ _ = g2
  have hv2 : view c.regs g2 = view c.regs g := by rw [← hhot, view_cmp, view_setScratch]
  have hj : g2.jumps 2 = decide ((view c.regs g).word .cursor < (view c.regs g).word .trigger) := by
    rw [← hhot, jumps_below, scratch_setScratch, get_eq, get_eq, view_setScratch]
  rw [hj]
  -- the host in front of the budget check, and whether the window yields
  generalize hx : (if c.fastBoundary = true then _ else _ : Host × Bool) = x
  have hcheck : (¬ Hot c (view c.regs g).word → Yields (view c.regs g).word → x.2 = true ∧
      view c.regs x.1 = ((view c.regs g).setWord .entry (BitVec.ofNat 64 position)).setSaved
        (persistState c (c.preserving d) (view c.regs g))) ∧
      (Hot c (view c.regs g).word ∨ ¬ Yields (view c.regs g).word → x.2 = false ∧
        view c.regs x.1 = checkedView c position (c.preserving d) (view c.regs g)) := by
    have hcold := cold_spec c hrax position d g
    have hcold2 := cold_spec c hrax position d g2
    rw [hv2] at hcold2
    rw [← hx]
    unfold checkedView Hot
    by_cases hf : c.fastBoundary = true
    · simp only [hf, if_true, true_and]
      by_cases hlt : (view c.regs g).word .cursor < (view c.regs g).word .trigger
      · simp only [hlt, decide_true, if_true, not_true_eq_false, false_imp_iff,
          true_or, forall_const, true_and, hv2]
      · simp only [hlt, decide_false, Bool.false_eq_true, if_false, not_false_eq_true,
          forall_const, false_or]
        exact hcold2
    · simp only [hf, Bool.false_eq_true, if_false, false_and, not_false_eq_true,
        forall_const, false_or]
      exact hcold
  obtain ⟨hyes, hno⟩ := hcheck
  refine ⟨fun h1 h2 => ?_, fun h1 h2 => ?_, fun h1 h2 => ?_⟩
  · obtain ⟨hx2, hx1⟩ := hyes h1 h2
    simp only [hx2, if_true, hx1, and_self]
  · obtain ⟨hx2, hx1⟩ := hno h1
    rw [← hx1] at h2
    obtain ⟨hc2, hc1⟩ := (charge_spec c d x.1).2 h2
    rw [hx1] at hc1
    simp only [hx2, Bool.false_eq_true, if_false, hc2, hc1, and_self]
  · obtain ⟨hx2, hx1⟩ := hno h1
    rw [← hx1] at h2
    obtain ⟨hc2, hc1, hc3⟩ := (charge_spec c d x.1).1 h2
    rw [hx1] at hc1
    simp only [hx2, Bool.false_eq_true, if_false, hc2, if_true, hc1, true_and]
    intro hp
    rw [hc3 hp, ← hstack hp, ← checkedView_stack c position (c.preserving d), ← hx1]
    rfl

/-! ### Instructions -/

/-- The view behind a common exit. -/
def leaveView (e : Exit) (preserving : Bool) (v : View) : View :=
  if e = .yielded ∨ e = .returned then popView preserving v
  else (popView preserving v).setWord .error 1

/-- **The common exits.** -/
theorem leave_spec (e : Exit) (preserving : Bool) (h : Host) :
    ∃ h', c.leave e preserving h = .stop e h' ∧
      view c.regs h' = leaveView e preserving (view c.regs h) := by
  have hv : view c.regs (if preserving then h.popf else h) =
    popView preserving (view c.regs h) := by
    cases preserving <;> rfl
  refine ⟨_, rfl, ?_⟩
  unfold leaveView
  by_cases he : e = .yielded ∨ e = .returned
  · rw [if_pos he, if_pos he, hv]
  · rw [if_neg he, if_neg he, view_put, hv]

/-- What a return has to find. -/
def Finished (v : View) : Prop :=
  v.word .cursor = v.word .stop ∧ v.word .remaining = 0 ∧
    v.gpr 0 = BitVec.ofNat 64 c.recipe.h.result

instance (v : View) : Decidable (Finished c v) := inferInstanceAs (Decidable (_ ∧ _))

/-- **The checks of a return.** -/
theorem ret_spec (hrax : (0 : Fin 16) ∈ c.regs.used) (h : Host) :
    ∃ h', c.ret h = .stop (if Finished c (view c.regs h) then .returned else .diverged) h' ∧
      view c.regs h' = leaveView (if Finished c (view c.regs h) then .returned else .diverged) false
        (view c.regs h) := by
  have hleave : ∀ (e : Exit) (g : Host), view c.regs g = view c.regs h →
      ∃ h', c.leave e false g = .stop e h' ∧ view c.regs h' =
        leaveView e false (view c.regs h) := by
    intro e g hg
    rw [← hg]
    exact leave_spec c e false g
  unfold Compiler.ret
  dsimp only
  generalize hg1 : (h.setScratch c.regs _).cmp c.isa _ _ = g1
  have v1 : view c.regs g1 = view c.regs h := by rw [← hg1, view_cmp, view_setScratch]
  have j1 : g1.jumps 5 = !decide ((view c.regs h).word .cursor = (view c.regs h).word .stop) := by
    rw [← hg1, jumps_differ, scratch_setScratch, get_eq, get_eq, view_setScratch]
  by_cases h1 : (view c.regs h).word .cursor = (view c.regs h).word .stop
  · rw [j1, decide_eq_true h1]
    generalize hg2 : g1.cmp c.isa (g1.get c.regs .remaining) 0 = g2
    have v2 : view c.regs g2 = view c.regs h := by rw [← hg2, view_cmp, v1]
    have j2 : g2.jumps 5 = !decide ((view c.regs h).word .remaining = 0) := by
      rw [← hg2, jumps_differ, get_eq, v1]
    by_cases h2 : (view c.regs h).word .remaining = 0
    · rw [j2, decide_eq_true h2]
      generalize hg3 : g2.cmp c.isa (g2.core.gpr 0) _ = g3
      have v3 : view c.regs g3 = view c.regs h := by rw [← hg3, view_cmp, v2]
      have j3 : g3.jumps 5 =
          !decide ((view c.regs h).gpr 0 = BitVec.ofNat 64 c.recipe.h.result) := by
        rw [← hg3, jumps_differ, gpr_eq hrax g2, v2]
      by_cases h3 : (view c.regs h).gpr 0 = BitVec.ofNat 64 c.recipe.h.result
      · have hyes : Finished c (view c.regs h) := ⟨h1, h2, h3⟩
        rw [j3, decide_eq_true h3]
        simp only [if_pos hyes, Bool.not_true, Bool.false_eq_true, if_false]
        exact hleave _ g3 v3
      · have hno : ¬ Finished c (view c.regs h) := fun hc => h3 hc.2.2
        rw [j3, decide_eq_false h3]
        simp only [if_neg hno, Bool.not_true, Bool.not_false, Bool.false_eq_true, if_false, if_true]
        exact hleave _ g3 v3
    · have hno : ¬ Finished c (view c.regs h) := fun hc => h2 hc.2.1
      rw [j2, decide_eq_false h2]
      simp only [if_neg hno, Bool.not_true, Bool.not_false, Bool.false_eq_true, if_false, if_true]
      exact hleave _ g2 v2
  · have hno : ¬ Finished c (view c.regs h) := fun hc => h1 hc.1
    rw [j1, decide_eq_false h1]
    simp only [if_neg hno, Bool.not_false, if_true]
    exact hleave _ g1 v1

/-- A store of `n` bytes at an address extends the output and stays below the limit. -/
def Writable (n : ℕ) (w : Field → Word) (a : Word) : Prop :=
  a = w .cursor ∧ a.toNat + n < 2 ^ 64 ∧ ¬ w .limit < a + BitVec.ofNat 64 n

instance (n : ℕ) (w : Field → Word) (a : Word) : Decidable (Writable n w a) :=
  inferInstanceAs (Decidable (_ ∧ _))

/-- **The guard of a store.** -/
theorem writes_spec {n : ℕ} (hn : n < 2 ^ 64) (h : Host) :
    (Writable n (view c.regs h).word (h.scratch c.regs) → (c.writes n h).2 = true ∧
      view c.regs (c.writes n h).1 =
        (view c.regs h).setWord .cursor (h.scratch c.regs + BitVec.ofNat 64 n) ∧
      (c.writes n h).1.scratch c.regs = h.scratch c.regs + (view c.regs h).word .delta) ∧
    (¬ Writable n (view c.regs h).word (h.scratch c.regs) → (c.writes n h).2 = false ∧
      view c.regs (c.writes n h).1 = view c.regs h) := by
  generalize ha : h.scratch c.regs = a
  unfold Compiler.writes Writable
  dsimp only
  generalize hg1 : h.cmp c.isa _ _ = g1
  have v1 : view c.regs g1 = view c.regs h := by rw [← hg1, view_cmp]
  have a1 : g1.scratch c.regs = a := by rw [← hg1, scratch_cmp, ha]
  have j1 : g1.jumps 5 = !decide (a = (view c.regs h).word .cursor) := by
    rw [← hg1, jumps_differ, ha, get_eq]
  generalize hg2 : g1.addScratch c.isa c.regs _ = g2
  have v2 : view c.regs g2 = view c.regs h := by rw [← hg2, view_addScratch, v1]
  have a2 : g2.scratch c.regs = a + BitVec.ofNat 64 n := by rw [← hg2, scratch_addScratch, a1]
  have j2 : g2.jumps 2 = decide (2 ^ 64 ≤ a.toNat + n) := by
    have hc := c.isa.add_carry g1.core.flags (g1.scratch c.regs) (BitVec.ofNat 64 n)
    rw [a1, BitVec.toNat_ofNat, Nat.mod_eq_of_lt hn] at hc
    rw [← hg2, ← hc, ← a1]
    rfl
  generalize hg3 : g2.cmp c.isa _ _ = g3
  have v3 : view c.regs g3 = view c.regs h := by rw [← hg3, view_cmp, v2]
  have a3 : g3.scratch c.regs = a + BitVec.ofNat 64 n := by rw [← hg3, scratch_cmp, a2]
  have j3 : g3.jumps 7 = decide ((view c.regs h).word .limit < a + BitVec.ofNat 64 n) := by
    rw [← hg3, jumps_above, a2, get_eq, v2]
  rw [j1, j2, j3]
  by_cases h1 : a = (view c.regs h).word .cursor
  · by_cases h2 : 2 ^ 64 ≤ a.toNat + n
    · have h2' : ¬ a.toNat + n < 2 ^ 64 := by omega
      simp only [h2, h2', v2, ← h1, decide_true, Bool.not_true, Bool.false_eq_true,
        if_false, if_true, and_false, false_and, false_imp_iff, not_false_eq_true,
        forall_const, and_self]
    · have h2' : a.toNat + n < 2 ^ 64 := by omega
      by_cases h3 : (view c.regs h).word .limit < a + BitVec.ofNat 64 n
      · simp only [h2, h2', h3, v3, ← h1, decide_true, decide_false, Bool.not_true,
          Bool.false_eq_true, if_false, if_true, not_true_eq_false, and_false, false_imp_iff,
          not_false_eq_true, forall_const,
          and_self]
      · simp only [h2, h2', h3, ← h1, a3, decide_true, decide_false, Bool.not_true,
          Bool.false_eq_true, if_false, not_false_eq_true, and_self, forall_const,
          not_true_eq_false, false_imp_iff, and_true,
          true_and, view_addScratch, view_subScratch, view_put, v3, scratch_addScratch,
            scratch_subScratch,
          scratch_put, get_eq]
        rw [BitVec.add_sub_cancel]
        simp only [View.setWord, ne_eq, reduceCtorEq, not_false_eq_true, Function.update_of_ne]
  · simp only [h1, decide_false, Bool.not_false, if_true, v1, false_and, false_imp_iff,
      not_false_eq_true, forall_const, and_self]

/-- The input serves loads of `n` bytes at an address. -/
def Serves (n : ℕ) (a : Word) (s : Segment) : Bool :=
  c.readable n s && !decide (a < BitVec.ofNat 64 s.address) &&
    !decide (BitVec.ofNat 64 (s.address + s.bytes.length - n) < a)

/-- The host's address for the guest's. -/
def translated (a : Word) (s : Segment) : Word := a + (c.data s - BitVec.ofNat 64 s.address)

/-- **The guard of a load** finds the first input that serves it. -/
theorem reads_spec (n : ℕ) : ∀ (inputs : List Segment) (h : Host),
    view c.regs (c.reads n inputs h).1 = view c.regs h ∧
      match inputs.find? (Serves c n (h.scratch c.regs)) with
      | some s => (c.reads n inputs h).2 = true ∧
          (c.reads n inputs h).1.scratch c.regs = translated c (h.scratch c.regs) s
      | none => (c.reads n inputs h).2 = false
  | [], h => ⟨rfl, rfl⟩
  | s :: rest, h => by
    have ih : ∀ g : Host, view c.regs g = view c.regs h → g.scratch c.regs = h.scratch c.regs →
        view c.regs (c.reads n rest g).1 = view c.regs h ∧
          match rest.find? (Serves c n (h.scratch c.regs)) with
          | some s => (c.reads n rest g).2 = true ∧
              (c.reads n rest g).1.scratch c.regs = translated c (h.scratch c.regs) s
          | none => (c.reads n rest g).2 = false := by
      intro g hv hs
      rw [← hv, ← hs]
      exact reads_spec n rest g
    have hskip : ∀ g : Host, view c.regs g = view c.regs h → g.scratch c.regs = h.scratch c.regs →
        Serves c n (h.scratch c.regs) s = false →
        view c.regs (c.reads n rest g).1 = view c.regs h ∧
          match (s :: rest).find? (Serves c n (h.scratch c.regs)) with
          | some s => (c.reads n rest g).2 = true ∧
              (c.reads n rest g).1.scratch c.regs = translated c (h.scratch c.regs) s
          | none => (c.reads n rest g).2 = false := by
      intro g hv hs hno
      rw [List.find?_cons_of_neg (by simp [hno])]
      exact ih g hv hs
    rw [Compiler.reads]
    by_cases h0 : c.readable n s = false
    · rw [if_pos h0]
      exact hskip h rfl rfl (by simp [Serves, h0])
    rw [if_neg h0]
    dsimp only
    generalize hg1 : h.cmp c.isa _ _ = g1
    have v1 : view c.regs g1 = view c.regs h := by rw [← hg1, view_cmp]
    have a1 : g1.scratch c.regs = h.scratch c.regs := by rw [← hg1, scratch_cmp]
    have j1 : g1.jumps 2 = decide (h.scratch c.regs < BitVec.ofNat 64 s.address) := by
      rw [← hg1, jumps_below]
    by_cases h1 : h.scratch c.regs < BitVec.ofNat 64 s.address
    · rw [j1, decide_eq_true h1, if_pos rfl]
      exact hskip g1 v1 a1 (by simp [Serves, h1])
    rw [j1, decide_eq_false h1, if_neg Bool.false_ne_true]
    generalize hg2 : g1.cmp c.isa _ _ = g2
    have v2 : view c.regs g2 = view c.regs h := by rw [← hg2, view_cmp, v1]
    have a2 : g2.scratch c.regs = h.scratch c.regs := by rw [← hg2, scratch_cmp, a1]
    have j2 : g2.jumps 7 = decide (BitVec.ofNat 64 (s.address + s.bytes.length - n) <
        h.scratch c.regs) := by
      rw [← hg2, jumps_above, a1]
    by_cases h2 : BitVec.ofNat 64 (s.address + s.bytes.length - n) < h.scratch c.regs
    · rw [j2, decide_eq_true h2, if_pos rfl]
      exact hskip g2 v2 a2 (by simp [Serves, h2])
    rw [j2, decide_eq_false h2, if_neg Bool.false_ne_true]
    have hyes : Serves c n (h.scratch c.regs) s = true := by
      simp only [Serves, h1, h2, decide_false, Bool.not_false, Bool.and_true]
      simpa using h0
    rw [List.find?_cons_of_pos hyes]
    refine ⟨by rw [view_addScratch, v2], rfl, ?_⟩
    rw [scratch_addScratch, a2]
    rfl

/-- The host's address for a memory operand, when its guard lets it through. -/
def served (d : Decoded) (m : Mem) (w : Field → Word) (a : Word) : Option Word :=
  if d.inst.mnemonic.unaligned.isSome = true ∧ a &&& 15 ≠ 0 then none
  else if m.action = .write then
    if Writable (m.size / 8) w a then some (a + w .delta) else none
  else (c.recipe.inputs.find? (Serves c (m.size / 8) a)).map (translated c a)

/-- The view behind the guard of a memory operand: a store moves the cursor. -/
def guardView (m : Mem) (a : Word) (v : View) : View :=
  if m.action = .write then v.setWord .cursor (a + BitVec.ofNat 64 (m.size / 8)) else v

/-- **The guard of a memory operand.** -/
theorem guard_spec {d : Decoded} {m : Mem} (hm : m.size ≤ 128) (h : Host) :
    match served c d m (view c.regs h).word (h.scratch c.regs) with
    | some x => (c.guard d m h).2 = true ∧ (c.guard d m h).1.scratch c.regs = x ∧
        view c.regs (c.guard d m h).1 = guardView m (h.scratch c.regs) (view c.regs h)
    | none => (c.guard d m h).2 = false ∧ view c.regs (c.guard d m h).1 = view c.regs h := by
  -- behind the alignment check the host is the same up to flags
  have hrest : ∀ g : Host, view c.regs g = view c.regs h → g.scratch c.regs = h.scratch c.regs →
      ∀ x : Host × Bool, x = (if m.action = .write then c.writes (m.size / 8) g
        else c.reads (m.size / 8) c.recipe.inputs g) →
      match (if m.action = .write then
          if Writable (m.size / 8) (view c.regs h).word (h.scratch c.regs) then
            some (h.scratch c.regs + (view c.regs h).word .delta) else none
        else (c.recipe.inputs.find? (Serves c (m.size / 8) (h.scratch c.regs))).map
          (translated c (h.scratch c.regs))) with
      | some y => x.2 = true ∧ x.1.scratch c.regs = y ∧
          view c.regs x.1 = guardView m (h.scratch c.regs) (view c.regs h)
      | none => x.2 = false ∧ view c.regs x.1 = view c.regs h := by
    rintro g hv ha x rfl
    unfold guardView
    by_cases hw : m.action = .write
    · simp only [if_pos hw]
      obtain ⟨hyes, hno⟩ := writes_spec c (n := m.size / 8) (by omega) g
      rw [hv, ha] at hyes hno
      by_cases hok : Writable (m.size / 8) (view c.regs h).word (h.scratch c.regs)
      · rw [if_pos hok]
        obtain ⟨h1, h2, h3⟩ := hyes hok
        exact ⟨h1, h3, h2⟩
      · rw [if_neg hok]
        exact hno hok
    · simp only [if_neg hw]
      obtain ⟨hv', hs⟩ := reads_spec c (m.size / 8) c.recipe.inputs g
      rw [ha] at hs
      rw [hv] at hv'
      cases hf : c.recipe.inputs.find? (Serves c (m.size / 8) (h.scratch c.regs)) with
      | none =>
        rw [hf] at hs
        exact ⟨hs, hv'⟩
      | some s =>
        rw [hf] at hs
        exact ⟨hs.1, hs.2, hv'⟩
  unfold served Compiler.guard
  by_cases hu : d.inst.mnemonic.unaligned.isSome = true
  · simp only [hu, if_true, true_and]
    generalize hg : h.setFlags _ = g
    have v1 : view c.regs g = view c.regs h := by rw [← hg, view_setFlags]
    have a1 : g.scratch c.regs = h.scratch c.regs := by rw [← hg, scratch_setFlags]
    have j1 : g.jumps 5 = !decide (h.scratch c.regs &&& 15 = 0) := by
      rw [← hg]
      exact congrArg not (c.isa.test_zero _ _ _)
    by_cases h0 : h.scratch c.regs &&& 15 = 0
    · rw [j1, decide_eq_true h0, if_neg (not_not.mpr h0)]
      exact hrest g v1 a1 _ rfl
    · rw [j1, decide_eq_false h0, if_pos h0]
      exact ⟨rfl, v1⟩
  · have hu' : d.inst.mnemonic.unaligned.isSome = false := by simpa using hu
    simp only [hu', Bool.false_eq_true, if_false, false_and]
    exact hrest h rfl rfl _ rfl

/-- The view with the registers of another core. -/
def View.setCore (used : List (Fin 16)) (core : Core) (v : View) : View :=
  { v with
    gpr := fun r => if r ∈ used then core.gpr r else 0
    xmm := core.xmm
    mxcsr := core.mxcsr }

/-- **An instruction of the guest** leaves everything but the guest's registers and memory alone. -/
theorem view_exec {i : Inst} (hi : ∀ r ∈ i.gprs, r ∈ c.regs.used) (l : Loaded) (mem : Memory)
    (log : List Access) (h : Host) :
    view c.regs { h with core := (c.isa.exec i h.core l).1, mem := mem, log := log } =
      { (view c.regs h).setCore c.regs.used (c.isa.exec i h.core l).1 with
        mem := mem, log := log } := by
  have hkeep : ∀ r ∉ c.regs.used, (c.isa.exec i h.core l).1.gpr r = h.core.gpr r := fun r hr =>
    c.isa.exec_gpr i h.core l r fun hc => hr (hi r hc)
  have hctx := hkeep c.regs.context c.regs.context_free
  have hget : ∀ f, Host.get c.regs f { h with
      core := (c.isa.exec i h.core l).1, mem := mem, log := log } = h.get c.regs f := by
    intro f
    unfold Host.get Host.context
    cases hf : c.regs.hot.lookup f with
    | none => simp only [hctx]
    | some q => exact hkeep q (lookup_free c.regs hf).1
  unfold View.setCore view
  simp only [hget, hctx, Host.context]

/-- The host right in front of an emitted instruction. -/
structure Ready (d : Decoded) (h g : Host) : Prop where
  gpr : ∀ r ∈ c.regs.used, g.core.gpr r = h.core.gpr r
  xmm : g.core.xmm = h.core.xmm
  mxcsr : g.core.mxcsr = h.core.mxcsr
  flags : c.preserving d = true → g.core.flags = h.core.flags

theorem Ready.of_view {d : Decoded} {h g : Host} (hg : (view c.regs g).gpr = (view c.regs h).gpr)
    (hx : (view c.regs g).xmm = (view c.regs h).xmm)
    (hm : (view c.regs g).mxcsr = (view c.regs h).mxcsr)
    (hf : c.preserving d = true → g.core.flags = h.core.flags) : Ready c d h g :=
  ⟨fun r hr => by rw [gpr_eq hr g, gpr_eq hr h, hg], hx, hm, hf⟩

/-- The address of the memory operand in front of its guard. -/
def operandOf (d : Decoded) (m : Mem) (core : Core) : Word :=
  operandAddress c.recipe.h d.source d.inst m core

/-- **An instruction with a guarded memory operand.** -/
theorem plain_spec (position : ℕ) {d : Decoded} {m : Mem} (hm : d.memory = some m)
    (hlea : d.inst.mnemonic ≠ .lea) (hsize : m.size ≤ 128) (h : Host) :
    match served c d m (view c.regs h).word (operandOf c d m h.core) with
    | some x => ∃ g, c.plain position d h = c.access position d m g ∧ g.scratch c.regs = x ∧
        view c.regs g = guardView m (operandOf c d m h.core) (view c.regs h) ∧ Ready c d h g
    | none => ∃ g, c.plain position d h = .stop .rejected g ∧
        view c.regs g = (view c.regs h).setWord .error 1 := by
  unfold Compiler.plain
  simp only [hm, if_neg hlea]
  generalize hg1 : (if c.preserving d = true then h.pushf else h) = g1
  have c1 : g1.core = h.core := by rw [← hg1]; split_ifs <;> rfl
  have v1 : view c.regs g1 = pushView (c.preserving d) h.core.flags (view c.regs h) := by
    rw [← hg1]
    exact view_pushed c (c.preserving d) h
  rw [c1]
  generalize hg2 : g1.setScratch c.regs _ = g2
  have v2 : view c.regs g2 = pushView (c.preserving d) h.core.flags (view c.regs h) := by
    rw [← hg2, view_setScratch, v1]
  have a2 : g2.scratch c.regs = operandOf c d m h.core := by rw [← hg2, scratch_setScratch]; rfl
  have hword : (view c.regs g2).word = (view c.regs h).word := by
    rw [v2]
    unfold pushView
    split_ifs <;> rfl
  have hguard := guard_spec c (d := d) hsize g2
  rw [a2, hword] at hguard
  generalize c.guard d m g2 = y at hguard
  generalize operandOf c d m h.core = a at *
  -- popping the flags gives the view without the saved flags back
  have hpop : popView (c.preserving d) (pushView (c.preserving d) h.core.flags (view c.regs h)) =
      view c.regs h := by
    unfold popView pushView
    cases c.preserving d <;> rfl
  cases hs : served c d m (view c.regs h).word a with
  | none =>
    rw [hs] at hguard
    obtain ⟨hy, hv⟩ := hguard
    obtain ⟨g, hleave, hvg⟩ := leave_spec c .rejected (c.preserving d) y.1
    refine ⟨g, by simp only [hy, Bool.false_eq_true, if_false, hleave], ?_⟩
    rw [hvg, hv, v2, leaveView, if_neg (by decide), hpop]
  | some x =>
    rw [hs] at hguard
    obtain ⟨hy, hx, hv⟩ := hguard
    generalize hg3 : (if c.preserving d = true then y.1.popf else y.1) = g3
    have v3 : view c.regs g3 = guardView m a (view c.regs h) := by
      have hp : view c.regs g3 = popView (c.preserving d) (view c.regs y.1) := by
        rw [← hg3]
        cases c.preserving d <;> rfl
      rw [hp, hv, v2]
      unfold guardView popView pushView
      cases c.preserving d <;> split_ifs <;> rfl
    have hkept : (guardView m a (view c.regs h)).gpr = (view c.regs h).gpr ∧
        (guardView m a (view c.regs h)).xmm = (view c.regs h).xmm ∧
        (guardView m a (view c.regs h)).mxcsr = (view c.regs h).mxcsr := by
      unfold guardView
      split_ifs <;> exact ⟨rfl, rfl, rfl⟩
    refine ⟨g3, by simp only [hy, if_true], ?_, v3, Ready.of_view c ?_ ?_ ?_ ?_⟩
    · rw [← hg3, ← hx]
      split_ifs <;> rfl
    · rw [v3, hkept.1]
    · rw [v3, hkept.2.1]
    · rw [v3, hkept.2.2]
    · intro hp
      have hstack : y.1.stack = (view c.regs y.1).stack := rfl
      have htop : (guardView m a (pushView true h.core.flags (view c.regs h))).stack.headD 0 =
          h.core.flags := by
        rw [pushView, if_pos rfl]
        unfold guardView
        split_ifs <;> rfl
      rw [← hg3, if_pos hp]
      change y.1.stack.headD 0 = _
      rw [hstack, hv, v2, hp, htop]

/-! ### The steps of a run -/

/-- A block start takes a checkpoint. -/
def Captures (w : Field → Word) : Prop := ¬ Hot c w ∧ Due w ∧ w .cursor = w .nextPage

instance (w : Field → Word) : Decidable (Captures c w) := inferInstanceAs (Decidable (_ ∧ _))

/-- The fields in front of the budget check. -/
def settledWord (w : Field → Word) : Field → Word :=
  if Hot c w then w
  else if c.fastBoundary then
    Function.update (collected c.frameSize w) .trigger (triggerOf (collected c.frameSize w))
  else collected c.frameSize w

/-- The fields behind a block start. -/
def chargedWord (d : Decoded) (w : Field → Word) : Field → Word :=
  Function.update (settledWord c w) .remaining (w .remaining - BitVec.ofNat 64 (c.blockCount d))

/-- The checkpoint of a block start. -/
def checkpoint (position : ℕ) (d : Decoded) (h : Host) : Frame where
  entry := BitVec.ofNat 64 position
  cursor := (view c.regs h).word .cursor
  remaining := (view c.regs h).word .remaining
  flags := if c.preserving d then h.core.flags else (view c.regs h).saved.flags
  mxcsr := (view c.regs h).mxcsr
  gprs := c.gprs.map fun i => (view c.regs h).gpr (physical i)
  vectors := c.plan.vectors.map (view c.regs h).xmm

theorem collectView_word (position : ℕ) (preserving : Bool) (v : View) :
    (collectView c position preserving v).word = collected c.frameSize v.word := by
  unfold collectView collected
  split_ifs <;> rfl

theorem checkedView_word (position : ℕ) (preserving : Bool) (v : View) :
    (checkedView c position preserving v).word = settledWord c v.word := by
  unfold checkedView settled settledWord
  split_ifs
  · rfl
  · simp only [View.setWord, collectView_word]
  · exact collectView_word c position preserving v

theorem settledWord_remaining (w : Field → Word) : settledWord c w .remaining = w .remaining := by
  unfold settledWord collected
  split_ifs <;>
    simp only [ne_eq, reduceCtorEq, not_false_eq_true, Function.update_of_ne]

/-- The view behind a block start that goes on. -/
def passedView (position : ℕ) (d : Decoded) (h : Host) : View :=
  popView (c.preserving d) (chargeView c d
    (checkedView c position (c.preserving d)
      (pushView (c.preserving d) h.core.flags (view c.regs h))))

/-- What a block start changes. -/
structure Crossed (position : ℕ) (d : Decoded) (h : Host) (v : View) : Prop where
  word : v.word = chargedWord c d (view c.regs h).word
  pointer : v.pointer = (view c.regs h).pointer
  stack : v.stack = h.stack
  saved : v.saved = (view c.regs h).saved
  frames : v.frames = if Captures c (view c.regs h).word then
    Function.update h.frames ((view c.regs h).word .nextFrame) (checkpoint c position d h)
      else h.frames
  mem : v.mem = h.mem
  log : v.log = if Captures c (view c.regs h).word then
    h.log ++ [.frame ((view c.regs h).word .nextFrame)] else h.log
  gpr : v.gpr = (view c.regs h).gpr
  xmm : v.xmm = (view c.regs h).xmm
  mxcsr : v.mxcsr = (view c.regs h).mxcsr

theorem checkedView_captures (position : ℕ) (preserving : Bool) (v : View) :
    (checkedView c position preserving v).frames = (if Captures c v.word then
      Function.update v.frames (v.word .nextFrame) (frameOf c position preserving v)
        else v.frames) ∧
    (checkedView c position preserving v).log = (if Captures c v.word then
      v.log ++ [.frame (v.word .nextFrame)] else v.log) := by
  unfold checkedView settled collectView captureView
  by_cases h1 : Hot c v.word
  · have hno : ¬ Captures c v.word := fun hc => hc.1 h1
    simp only [if_pos h1, if_neg hno, and_self]
  by_cases h2 : Due v.word
  · by_cases h3 : v.word .cursor = v.word .nextPage
    · have hall : Captures c v.word := ⟨h1, h2, h3⟩
      simp only [if_neg h1, if_pos h2, if_pos h3, if_pos hall]
      cases c.fastBoundary <;> exact ⟨rfl, rfl⟩
    · have hno : ¬ Captures c v.word := fun hc => h3 hc.2.2
      simp only [if_neg h1, if_pos h2, if_neg h3, if_neg hno]
      cases c.fastBoundary <;> exact ⟨rfl, rfl⟩
  · have hno : ¬ Captures c v.word := fun hc => h2 hc.2.1
    simp only [if_neg h1, if_neg h2, if_neg hno]
    cases c.fastBoundary <;> exact ⟨rfl, rfl⟩

theorem checkedView_rest (position : ℕ) (preserving : Bool) (v : View) :
    (checkedView c position preserving v).pointer = v.pointer ∧
      (checkedView c position preserving v).saved = v.saved ∧
      (checkedView c position preserving v).mem = v.mem ∧
      (checkedView c position preserving v).gpr = v.gpr ∧
      (checkedView c position preserving v).xmm = v.xmm ∧
      (checkedView c position preserving v).mxcsr = v.mxcsr := by
  unfold checkedView settled collectView captureView
  split_ifs <;> exact ⟨rfl, rfl, rfl, rfl, rfl, rfl⟩

/-- **A block start that goes on.** -/
theorem passedView_crossed (position : ℕ) (d : Decoded) (h : Host) :
    Crossed c position d h (passedView c position d h) := by
  have hframe : frameOf c position (c.preserving d)
      (pushView (c.preserving d) h.core.flags (view c.regs h)) = checkpoint c position d h := by
    unfold frameOf checkpoint pushView
    cases c.preserving d <;> rfl
  unfold passedView
  generalize c.preserving d = p at *
  have hword := checkedView_word c position p (pushView p h.core.flags (view c.regs h))
  have hstack := checkedView_stack c position p (pushView p h.core.flags (view c.regs h))
  obtain ⟨hframes, hlog⟩ :=
    checkedView_captures c position p (pushView p h.core.flags (view c.regs h))
  obtain ⟨r1, r2, r3, r4, r5, r6⟩ :=
    checkedView_rest c position p (pushView p h.core.flags (view c.regs h))
  rw [hframe] at hframes
  generalize checkedView c position p (pushView p h.core.flags (view c.regs h)) = v at *
  cases p with
  | true =>
    refine ⟨?_, r1, ?_, r2, hframes, r3, hlog, r4, r5, r6⟩
    · simp only [popView, chargeView, if_true, View.setStack, View.setWord, chargedWord, hword,
        pushView, settledWord_remaining]
    · exact congrArg List.tail hstack
  | false =>
    refine ⟨?_, r1, hstack, r2, hframes, r3, hlog, r4, r5, r6⟩
    simp only [popView, chargeView, Bool.false_eq_true, if_false, View.setWord, chargedWord, hword,
      pushView, settledWord_remaining]

/-- What a block start does when it goes on. -/
structure Passed (position : ℕ) (d : Decoded) (h g : Host) : Prop where
  crossed : Crossed c position d h (view c.regs g)
  ready : Ready c d h g

theorem passed_of_view {position : ℕ} {d : Decoded} {h g : Host}
    (hv : view c.regs g = passedView c position d h)
    (hf : c.preserving d = true → g.core.flags = h.core.flags) : Passed c position d h g := by
  have hc := passedView_crossed c position d h
  rw [← hv] at hc
  exact ⟨hc, Ready.of_view c hc.gpr hc.xmm hc.mxcsr hf⟩

/-- What the piece of an instruction does behind its block start. -/
inductive Body (position : ℕ) (d : Decoded) (h : Host) : Flow → Prop
  | returned {g : Host} (hr : d.returns = true) (hf : Finished c (view c.regs h))
    (hv : view c.regs g = view c.regs h) : Body position d h (.stop .returned g)
  | diverged {g : Host} (hr : d.returns = true) (hf : ¬ Finished c (view c.regs h))
    (hv : view c.regs g = (view c.regs h).setWord .error 1) : Body position d h (.stop .diverged g)
  | branch (hr : d.returns = false) (hb : d.branch = true) : Body position d h (c.jump position d h)
  | quiet {g : Host} {l : Loaded} (hr : d.returns = false) (hb : d.branch = false)
    (hl : d.memory = none ∧ l = .nothing ∨ ∃ m, d.memory = some m ∧ d.inst.mnemonic = .lea ∧
      l = .address (operandOf c d m h.core))
    (hv : view c.regs g = view c.regs h) (hready : Ready c d h g)
    (hflags : g.core.flags = h.core.flags) :
    Body position d h (.next (position + 1) { g with core := (c.isa.exec d.inst g.core l).1 })
  | rejected {g : Host} {m : Mem} (hr : d.returns = false) (hb : d.branch = false)
    (hm : d.memory = some m) (hl : d.inst.mnemonic ≠ .lea)
    (hs : served c d m (view c.regs h).word (operandOf c d m h.core) = none)
    (hv : view c.regs g = (view c.regs h).setWord .error 1) : Body position d h (.stop .rejected g)
  | faulted {g : Host} {m : Mem} {x : Word} (hr : d.returns = false) (hb : d.branch = false)
    (hm : d.memory = some m) (hl : d.inst.mnemonic ≠ .lea)
    (hs : served c d m (view c.regs h).word (operandOf c d m h.core) = some x)
    (ha : d.inst.unaligned.aligned = true) (hx : x.toNat % 16 ≠ 0)
    (hv : view c.regs g = guardView m (operandOf c d m h.core) (view c.regs h)) :
    Body position d h (.stop .faulted g)
  | store {g : Host} {m : Mem} {x : Word} (hr : d.returns = false) (hb : d.branch = false)
    (hm : d.memory = some m) (hl : d.inst.mnemonic ≠ .lea) (hw : m.action = .write)
    (hs : served c d m (view c.regs h).word (operandOf c d m h.core) = some x)
    (ha : ¬ (d.inst.unaligned.aligned = true ∧ x.toNat % 16 ≠ 0))
    (hv : view c.regs g = guardView m (operandOf c d m h.core) (view c.regs h))
    (hready : Ready c d h g) :
    Body position d h (.next (position + 1)
      { g with
        core := (c.isa.exec d.inst g.core .nothing).1
        mem := writeBytes g.mem x (c.isa.exec d.inst g.core .nothing).2
        log := g.log ++ [.store x (m.size / 8)] })
  | load {g : Host} {m : Mem} {x : Word} (hr : d.returns = false) (hb : d.branch = false)
    (hm : d.memory = some m) (hl : d.inst.mnemonic ≠ .lea) (hw : m.action ≠ .write)
    (hs : served c d m (view c.regs h).word (operandOf c d m h.core) = some x)
    (ha : ¬ (d.inst.unaligned.aligned = true ∧ x.toNat % 16 ≠ 0))
    (hv : view c.regs g = view c.regs h) (hready : Ready c d h g) :
    Body position d h (.next (position + 1)
      { g with
        core := (c.isa.exec d.inst g.core (.bytes (readBytes g.mem x (m.size / 8)))).1
        log := g.log ++ [.load x (m.size / 8)] })

/-- The `State` object that a yield leaves. -/
def persisted (d : Decoded) (h : Host) : State where
  word _ := 0
  regs i := if i ∈ c.gprs then (view c.regs h).gpr (physical i) else (view c.regs h).saved.regs i
  flags := if c.preserving d then h.core.flags else (view c.regs h).saved.flags
  xmm k := if k ∈ c.plan.vectors then (view c.regs h).xmm k else (view c.regs h).saved.xmm k
  mxcsr := (view c.regs h).mxcsr
  hostMxcsr := (view c.regs h).saved.hostMxcsr

/-- **What a piece can do.** -/
inductive Step (position : ℕ) (d : Decoded) (h : Host) : Flow → Prop
  | yielded {g : Host} (hs : c.starts d = true) (hh : ¬ Hot c (view c.regs h).word)
    (hy : Yields (view c.regs h).word)
    (hv : view c.regs g = ((view c.regs h).setWord .entry (BitVec.ofNat 64 position)).setSaved
      (persisted c d h)) : Step position d h (.stop .yielded g)
  | exhausted {g : Host} (hs : c.starts d = true)
    (hy : Hot c (view c.regs h).word ∨ ¬ Yields (view c.regs h).word)
    (ha : ¬ Affords c d (view c.regs h).word)
    (hv : view c.regs g = (passedView c position d h).setWord .error 1) :
    Step position d h (.stop .exhausted g)
  | start {g : Host} {f : Flow} (hs : c.starts d = true)
    (hy : Hot c (view c.regs h).word ∨ ¬ Yields (view c.regs h).word)
    (ha : Affords c d (view c.regs h).word) (hp : Passed c position d h g)
    (hb : Body c position d g f) : Step position d h f
  | inner {f : Flow} (hs : c.starts d = false) (hb : Body c position d h f) : Step position d h f

end Boundaries

section Steps
variable {c : Compiler}

/-- **Behind its block start** a piece does one of these. -/
theorem body_step {r : Recipe} (ha : Admitted c.isa r c.plan) (position : ℕ) {d : Decoded}
    (hd : d ∈ c.plan.instructions) (h : Host) :
    Body c position d h (if d.returns then c.ret h else if d.branch then c.jump position d h
      else c.plain position d h) := by
  cases hr : d.returns with
  | true =>
    obtain ⟨g, hret, hv⟩ := ret_spec c ha.result h
    simp only [if_true]
    rw [hret]
    by_cases hf : Finished c (view c.regs h)
    · rw [if_pos hf] at hv ⊢
      exact .returned hr hf hv
    · rw [if_neg hf] at hv ⊢
      exact .diverged hr hf hv
  | false =>
    simp only [Bool.false_eq_true, if_false]
    cases hb : d.branch with
    | true => exact .branch hr hb
    | false =>
      simp only [Bool.false_eq_true, if_false]
      cases hm : d.memory with
      | none =>
        unfold Compiler.plain
        rw [hm]
        exact .quiet hr hb (.inl ⟨hm, rfl⟩) rfl ⟨fun _ _ => rfl, rfl, rfl, fun _ => rfl⟩ rfl
      | some m =>
        by_cases hlea : d.inst.mnemonic = .lea
        · unfold Compiler.plain
          simp only [hm, if_pos hlea, scratch_setScratch]
          have hv := view_setScratch c.regs (operandAddress c.recipe.h d.source d.inst m h.core) h
          exact .quiet hr hb (.inr ⟨m, hm, hlea, rfl⟩) hv
            (Ready.of_view c (by rw [hv]) (by rw [hv]) (by rw [hv]) fun _ => rfl) rfl
        · have hspec := plain_spec c position hm hlea
            ((ha.admissible d hd).addressable m hm).le h
          cases hs : served c d m (view c.regs h).word (operandOf c d m h.core) with
          | none =>
            rw [hs] at hspec
            obtain ⟨g, hp, hv⟩ := hspec
            rw [hp]
            exact .rejected hr hb hm hlea hs hv
          | some x =>
            rw [hs] at hspec
            obtain ⟨g, hp, hx, hv, hready⟩ := hspec
            rw [hp]
            unfold Compiler.access
            simp only [hx, c.isa.exec_unaligned]
            by_cases hal : d.inst.unaligned.aligned = true ∧ x.toNat % 16 ≠ 0
            · rw [if_pos hal]
              exact .faulted hr hb hm hlea hs hal.1 hal.2 hv
            · rw [if_neg hal]
              by_cases hw : m.action = .write
              · rw [if_pos hw]
                exact .store hr hb hm hlea hw hs hal hv hready
              · rw [if_neg hw]
                rw [guardView, if_neg hw] at hv
                exact .load hr hb hm hlea hw hs hal hv hready

theorem affords_settled (d : Decoded) (position : ℕ) (preserving : Bool) (v : View) :
    Affords c d (checkedView c position preserving v).word ↔ Affords c d v.word := by
  unfold Affords
  rw [checkedView_word, settledWord_remaining]

/-- **Every piece is one of these steps.** -/
theorem piece_step {r : Recipe} (ha : Admitted c.isa r c.plan) (position : ℕ) {d : Decoded}
    (hd : d ∈ c.plan.instructions) (h : Host) : Step c position d h (c.piece position d h) := by
  unfold Compiler.piece
  cases hs : c.starts d with
  | false =>
    simp only [Bool.false_eq_true, if_false]
    exact .inner hs (body_step ha position hd h)
  | true =>
    simp only [if_true]
    have hb := boundary_spec c ha.result position d h
    generalize c.boundary position d h = x at hb
    have hpush : (pushView (c.preserving d) h.core.flags (view c.regs h)).word =
      (view c.regs h).word := by
      unfold pushView
      split_ifs <;> rfl
    by_cases hy : ¬ Hot c (view c.regs h).word ∧ Yields (view c.regs h).word
    · obtain ⟨hx, hv⟩ := hb.yields (by rw [hpush]; exact hy.1) (by rw [hpush]; exact hy.2)
      obtain ⟨g, hg, hvg⟩ := leave_spec c .yielded (c.preserving d) x.1
      simp only [hx]
      rw [hg]
      refine .yielded hs hy.1 hy.2 ?_
      rw [hvg, hv, leaveView, if_pos (.inl rfl)]
      unfold popView pushView persistState persisted
      cases c.preserving d <;> rfl
    · have hn : Hot c (view c.regs h).word ∨ ¬ Yields (view c.regs h).word := by
        by_contra hc
        rw [not_or, not_not] at hc
        exact hy hc
      by_cases haff : Affords c d (view c.regs h).word
      · obtain ⟨hx, hv, hf⟩ := hb.passes (by rw [hpush]; exact hn)
          ((affords_settled d _ _ _).mpr (by rw [hpush]; exact haff))
        simp only [hx]
        exact .start hs hn haff (passed_of_view c hv hf) (body_step ha position hd x.1)
      · obtain ⟨hx, hv⟩ := hb.exhausts (by rw [hpush]; exact hn)
          (fun hc => haff (by rw [← hpush]; exact (affords_settled d _ _ _).mp hc))
        obtain ⟨g, hg, hvg⟩ := leave_spec c .exhausted (c.preserving d) x.1
        simp only [hx]
        rw [hg]
        refine .exhausted hs hn haff ?_
        rw [hvg, hv, leaveView, if_neg (by decide)]
        rfl

/-- What an instruction leaves alone, and where it goes. -/
structure Kept (position : ℕ) (d : Decoded) (h : Host) (position' : ℕ) (h' : Host) : Prop where
  returns : d.returns = false
  goes : d.falls = true ∧ position' = position + 1 ∨ d.branch = true ∧ position' = c.label d.target
  word : ∀ f, f ≠ .cursor → (view c.regs h').word f = (view c.regs h).word f
  pointer : (view c.regs h').pointer = (view c.regs h).pointer
  stack : h'.stack = h.stack
  saved : (view c.regs h').saved = (view c.regs h).saved
  frames : h'.frames = h.frames

theorem guardView_word (m : Mem) (a : Word) (v : View) {f : Field} (hf : f ≠ .cursor) :
    (guardView m a v).word f = v.word f := by
  unfold guardView
  split_ifs
  · exact Function.update_of_ne hf _ _
  · rfl

theorem guardView_rest (m : Mem) (a : Word) (v : View) :
    (guardView m a v).pointer = v.pointer ∧ (guardView m a v).stack = v.stack ∧
      (guardView m a v).saved = v.saved ∧ (guardView m a v).frames = v.frames ∧
      (guardView m a v).mem = v.mem ∧ (guardView m a v).log = v.log := by
  unfold guardView
  split_ifs <;> exact ⟨rfl, rfl, rfl, rfl, rfl, rfl⟩

/-- **An instruction that goes on.** -/
theorem Body.kept {r : Recipe} (ha : Admitted c.isa r c.plan) {position position' : ℕ} {d : Decoded}
    (hd : d ∈ c.plan.instructions) {h h' : Host} (hb : Body c position d h (.next position' h')) :
    Kept (c := c) position d h position' h' := by
  generalize hf : Flow.next position' h' = f at hb
  cases hb with
  | returned | diverged | rejected | faulted => cases hf
  | branch hr hb =>
    unfold Compiler.jump at hf
    cases hc : d.condition with
    | none =>
      rw [hc] at hf
      cases hf
      exact ⟨hr, .inr ⟨hb, rfl⟩, fun _ _ => rfl, rfl, rfl, rfl, rfl⟩
    | some code =>
      rw [hc] at hf
      simp only at hf
      split_ifs at hf
      · cases hf
        exact ⟨hr, .inr ⟨hb, rfl⟩, fun _ _ => rfl, rfl, rfl, rfl, rfl⟩
      · cases hf
        exact ⟨hr, .inl ⟨by simp [Decoded.falls, hr, hc], rfl⟩, fun _ _ => rfl, rfl, rfl, rfl, rfl⟩
  | @quiet g l hr hb hl hv hready hflags =>
    cases hf
    have hx := view_exec c (ha.gprs d hd hr) l g.mem g.log g
    refine ⟨hr, .inl ⟨by simp [Decoded.falls, hr, hb], rfl⟩, fun f _ => ?_, ?_, ?_, ?_, ?_⟩
    · rw [hx, ← hv]; rfl
    · rw [hx, ← hv]; rfl
    · exact congrArg View.stack hv
    · rw [hx, ← hv]; rfl
    · exact congrArg View.frames hv
  | @store g m x hr hb hm hl hw hs hal hv hready =>
    cases hf
    have hx := view_exec c (ha.gprs d hd hr) .nothing
      (writeBytes g.mem x (c.isa.exec d.inst g.core .nothing).2)
      (g.log ++ [.store x (m.size / 8)]) g
    obtain ⟨k1, k2, k3, k4, -, -⟩ := guardView_rest m (operandOf c d m h.core) (view c.regs h)
    refine ⟨hr, .inl ⟨by simp [Decoded.falls, hr, hb], rfl⟩, fun f hfc => ?_, ?_, ?_, ?_, ?_⟩
    · rw [hx, ← guardView_word m (operandOf c d m h.core) (view c.regs h) hfc, ← hv]; rfl
    · rw [hx, ← k1, ← hv]; rfl
    · exact (congrArg View.stack hv).trans k2
    · rw [hx, ← k3, ← hv]; rfl
    · exact (congrArg View.frames hv).trans k4
  | @load g m x hr hb hm hl hw hs hal hv hready =>
    cases hf
    have hx := view_exec c (ha.gprs d hd hr) (.bytes (readBytes g.mem x (m.size / 8))) g.mem
      (g.log ++ [.load x (m.size / 8)]) g
    refine ⟨hr, .inl ⟨by simp [Decoded.falls, hr, hb], rfl⟩, fun f _ => ?_, ?_, ?_, ?_, ?_⟩
    · rw [hx, ← hv]; rfl
    · rw [hx, ← hv]; rfl
    · exact congrArg View.stack hv
    · rw [hx, ← hv]; rfl
    · exact congrArg View.frames hv

theorem operandOf_same {r : Recipe} (ha : Admitted c.isa r c.plan) {d : Decoded}
    (hd : d ∈ c.plan.instructions) (hr : d.returns = false) {m : Mem} (hm : d.memory = some m)
    {core core' : Core} (hs : ∀ r ∈ c.regs.used, core.gpr r = core'.gpr r) :
    operandOf c d m core = operandOf c d m core' := by
  have hmem : d.inst.memory = some m := by rw [← (ha.admissible d hd).memory hr, hm]
  have huse : ∀ k high, m.base = .gp k high ∨ m.index = .gp k high → k ∈ c.regs.used :=
    fun k high hk => ha.gprs d hd hr k (Inst.memory_gprs hmem hk)
  have hv : ∀ x : Register, (∀ k high, x = .gp k high → k ∈ c.regs.used) →
      x.value core = x.value core' := by
    intro x hx
    cases x with
    | gp k high => exact hs k (hx k high rfl)
    | none | rip | flags | mxcsr | xmm | other => rfl
  unfold operandOf operandAddress effective
  rw [hv m.base fun k high h => huse k high (.inl h), hv m.index fun k high h =>
    huse k high (.inr h)]

end Steps

end Afterfree.Native.Pieces
