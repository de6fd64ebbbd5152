import Afterfree.Native.Liveness

/-!
# The generated code

`NativeReplay::compile` of `native_replay.hpp`. The code is one piece for each instruction, in the
order of the map; a piece is written down as what its operations do to the host, one after the
other, and a jump over a part of it is a condition on the host's flags. Control falls from one piece
into the next and jumps to the beginning of a piece, whose position in the list stands for its
address. Constants behind `State` are written as their values.
-/

namespace Afterfree.Native.Compile

open Afterfree.Common Afterfree.Codec Afterfree.Native.X86 Afterfree.Native.Decode
open Afterfree.Native.Reference

/-! ### The host -/

/-- One checkpoint: the first 40 bytes, then the registers in use. -/
structure Frame where
  entry : Word
  cursor : Word
  remaining : Word
  flags : Word
  mxcsr : BitVec 32
  gprs : List Word
  vectors : List (BitVec 128)

/-- `struct State`: `word` are its 64-bit fields, `regs` the first sixteen of `regs[18]` and `flags`
the last. -/
structure State where
  word : Field → Word
  regs : Fin 16 → Word
  flags : Word
  xmm : Fin 16 → BitVec 128
  mxcsr : BitVec 32
  hostMxcsr : BitVec 32

/-- What the generated code does to memory beside `State` and its stack: loads and stores of `n`
bytes, and a whole checkpoint. -/
inductive Access
  | load (a : Word) (n : ℕ)
  | store (a : Word) (n : ℕ)
  | frame (a : Word)
deriving DecidableEq, Repr

/-- The processor and the memory that the generated code runs on. `State` objects and checkpoints
are kept apart from the other memory, by their addresses. -/
structure Host where
  core : Core
  stack : List Word
  state : Word → State
  frames : Word → Frame
  mem : Memory
  log : List Access

namespace Host

def setGpr (r : Fin 16) (v : Word) (h : Host) : Host :=
  { h with core := { h.core with gpr := Function.update h.core.gpr r v } }

def setFlags (v : Word) (h : Host) : Host := { h with core := { h.core with flags := v } }

def push (v : Word) (h : Host) : Host := { h with stack := v :: h.stack }

/-- `PUSHF`. -/
def pushf (h : Host) : Host := h.push h.core.flags

/-- `POPF`. -/
def popf (h : Host) : Host := { h.setFlags (h.stack.headD 0) with stack := h.stack.tail }

/-- The `State` object that the context register points to. -/
def context (a : Allocation) (h : Host) : State := h.state (h.core.gpr a.context)

def setContext (a : Allocation) (s : State) (h : Host) : Host :=
  { h with state := Function.update h.state (h.core.gpr a.context) s }

/-- A write to the `State` object. -/
def modify (a : Allocation) (change : State → State) (h : Host) : Host :=
  h.setContext a (change (h.context a))

/-- `field` as a source: the register of a hot field, or the memory behind the context register. -/
def get (a : Allocation) (f : Field) (h : Host) : Word :=
  match a.hot.lookup f with
  | some r => h.core.gpr r
  | none => (h.context a).word f

/-- `field` as a destination. -/
def put (a : Allocation) (f : Field) (v : Word) (h : Host) : Host :=
  match a.hot.lookup f with
  | some r => h.setGpr r v
  | none => h.modify a fun s => { s with word := Function.update s.word f v }

def scratch (a : Allocation) (h : Host) : Word := h.core.gpr a.scratch

def setScratch (a : Allocation) (v : Word) (h : Host) : Host := h.setGpr a.scratch v

/-- `CMP`. -/
def cmp (isa : Isa) (x y : Word) (h : Host) : Host := h.setFlags (isa.subFlags h.core.flags x y)

/-- `ADD` to a field. -/
def addField (isa : Isa) (a : Allocation) (f : Field) (v : Word) (h : Host) : Host :=
  (h.put a f (h.get a f + v)).setFlags (isa.addFlags h.core.flags (h.get a f) v)

/-- `ADD` to the scratch register. -/
def addScratch (isa : Isa) (a : Allocation) (v : Word) (h : Host) : Host :=
  (h.setScratch a (h.scratch a + v)).setFlags (isa.addFlags h.core.flags (h.scratch a) v)

/-- `SUB` from the scratch register. -/
def subScratch (isa : Isa) (a : Allocation) (v : Word) (h : Host) : Host :=
  (h.setScratch a (h.scratch a - v)).setFlags (isa.subFlags h.core.flags (h.scratch a) v)

/-- A jump with condition code `code` is taken. -/
def jumps (code : ℕ) (h : Host) : Bool := condition code h.core.flags

/-- A part of the checkpoint at an address. -/
def setFrame (at' : Word) (change : Frame → Frame) (h : Host) : Host :=
  { h with frames := Function.update h.frames at' (change (h.frames at')) }

/-- `MOV RAX, v` and a store of `RAX` to a part of the checkpoint. -/
def storeFrame (at' v : Word) (part : Word → Frame → Frame) (h : Host) : Host :=
  let h := h.setGpr 0 v
  h.setFrame at' (part (h.core.gpr 0))

/-- `POP`. -/
def pop (r : Fin 16) (h : Host) : Host :=
  { h.setGpr r (h.stack.headD 0) with stack := h.stack.tail }

def note (x : Access) (h : Host) : Host := { h with log := h.log ++ [x] }

end Host

/-! ### What is compiled -/

/-- What `compile` depends on: the instruction set, the decoded recipe, `fast_boundary` and where
the bytes of each input are. -/
structure Compiler where
  isa : Isa
  plan : Plan
  fastBoundary : Bool
  data : Segment → Word

namespace Compiler

/-- The recipe. -/
def recipe (c : Compiler) : Recipe := c.plan.recipe

/-- The registers of the guard code. -/
def regs (c : Compiler) : Allocation := c.plan.registers

/-- `gprs`: the saved registers that are in use. -/
def gprs (c : Compiler) : List (Fin 16) :=
  (List.finRange 16).filter fun i => physical i ∈ c.regs.used

/-- `frame_size`. -/
def frameSize (c : Compiler) : ℕ := 40 + c.gprs.length * 8 + c.plan.vectors.length * 16

/-- `labels`: the position of the piece for an address. -/
def label (c : Compiler) (pc : ℕ) : ℕ := c.plan.instructions.findIdx fun d => d.pc = pc

/-- The flags have to be kept in front of the instruction. -/
def preserving (c : Compiler) (d : Decoded) : Bool := c.plan.flagsIn d.pc ≠ 0

/-- The instruction starts a block. -/
def starts (c : Compiler) (d : Decoded) : Bool := d.pc ∈ c.plan.starts

/-- The loop that counts the instructions of a block. -/
def countFrom (c : Compiler) : ℕ → ℕ → ℕ
  | 0, _ => 0
  | fuel + 1, next =>
    match find c.plan.instructions next with
    | none => 0
    | some found =>
      if found.ends then 1
      else if found.next ∈ c.plan.starts then 1
      else 1 + c.countFrom fuel found.next

/-- `count`. -/
def blockCount (c : Compiler) (d : Decoded) : ℕ := c.countFrom c.plan.instructions.length d.pc

end Compiler

/-- How a run of the generated code ends: at the limit, at a checked return, without budget, at a
memory guard, at a return whose checks fail, or with an alignment exception. -/
inductive Exit
  | yielded | returned | exhausted | rejected | diverged | faulted
deriving DecidableEq, Repr

/-- What a piece leads to: the next piece or the end of the run. -/
inductive Flow
  | next (position : ℕ) (h : Host)
  | stop (e : Exit) (h : Host)

namespace Compiler
open Host

variable (c : Compiler)

/-- The common exits: the saved flags are popped, and a failure sets `error`. -/
def leave (e : Exit) (preserving : Bool) (h : Host) : Flow :=
  let h := if preserving then h.popf else h
  .stop e (if e = .yielded ∨ e = .returned then h else h.put c.regs .error 1)

/-! ### Block starts -/

/-- Persist the boundary state when yielding a validation window. -/
def persist (position : ℕ) (preserving : Bool) (h : Host) : Host :=
  let h := h.setScratch c.regs (BitVec.ofNat 64 position)
  let h := h.put c.regs .entry (h.scratch c.regs)
  let h := h.modify c.regs fun s => { s with
    regs := fun i => if i ∈ c.gprs then h.core.gpr (physical i) else s.regs i
    xmm := fun k => if k ∈ c.plan.vectors then h.core.xmm k else s.xmm k }
  let h :=
    if preserving then
      let h := h.setScratch c.regs (h.stack.headD 0)
      h.modify c.regs fun s => { s with flags := h.scratch c.regs }
    else h
  h.modify c.regs fun s => { s with mxcsr := h.core.mxcsr }

/-- Write a checkpoint to `next_frame`. -/
def capture (position : ℕ) (preserving : Bool) (h : Host) : Host :=
  let h := h.setScratch c.regs (h.get c.regs .nextFrame)
  let at' := h.scratch c.regs
  let h := h.note (.frame at')
  let h := h.setFrame at' fun f => { f with
    gprs := c.gprs.map fun i => h.core.gpr (physical i)
    vectors := c.plan.vectors.map h.core.xmm }
  let h := h.push (h.core.gpr 0)
  let h := h.storeFrame at' (BitVec.ofNat 64 position) fun v f => { f with entry := v }
  let h := h.storeFrame at' (h.get c.regs .cursor) fun v f => { f with cursor := v }
  let h := h.storeFrame at' (h.get c.regs .remaining) fun v f => { f with remaining := v }
  let h := h.storeFrame at' (if preserving then h.stack.getD 1 0 else (h.context c.regs).flags)
    fun v f => { f with flags := v }
  let h := h.setFrame at' fun f => { f with mxcsr := h.core.mxcsr }
  let h := h.pop 0
  let h := h.addField c.isa c.regs .nextFrame (BitVec.ofNat 64 c.frameSize)
  h.addField c.isa c.regs .nextPage (BitVec.ofNat 64 PAGE)

/-- The checkpoint part of a block start. -/
def collect (position : ℕ) (preserving : Bool) (h : Host) : Host :=
  let h := h.cmp c.isa (h.get c.regs .collecting) 0
  if h.jumps 4 then h
  else
    let h := h.setScratch c.regs (h.get c.regs .cursor)
    let h := h.cmp c.isa (h.scratch c.regs) (h.get c.regs .stop)
    if h.jumps 4 then h
    else
      let h := h.cmp c.isa (h.scratch c.regs) (h.get c.regs .nextPage)
      if h.jumps 2 then h
      else if h.jumps 4 then c.capture position preserving h
      else h.put c.regs .collecting 0

/-- The new trigger. -/
def retrigger (h : Host) : Host :=
  let h := h.setScratch c.regs (h.get c.regs .limit)
  let h := h.cmp c.isa (h.get c.regs .collecting) 0
  if h.jumps 4 then h.put c.regs .trigger (h.scratch c.regs)
  else
    let h := h.cmp c.isa (h.scratch c.regs) (h.get c.regs .nextPage)
    if h.jumps 6 then h.put c.regs .trigger (h.scratch c.regs)
    else
      let h := h.setScratch c.regs (h.get c.regs .nextPage)
      h.put c.regs .trigger (h.scratch c.regs)

/-- The limit check: whether the window yields here. -/
def atLimit (h : Host) : Host × Bool :=
  let h := h.cmp c.isa (h.get c.regs .validating) 0
  if h.jumps 5 then (h, false)
  else
    let h := h.setScratch c.regs (h.get c.regs .cursor)
    let h := h.cmp c.isa (h.scratch c.regs) (h.get c.regs .limit)
    if h.jumps 5 then (h, false) else (h, true)

/-- The budget of the block, and the end of the code of a block start. -/
def charge (d : Decoded) (h : Host) : Host × Bool :=
  let count := BitVec.ofNat 64 (c.blockCount d)
  let old := h.get c.regs .remaining
  let h := (h.put c.regs .remaining (old - count)).setFlags (c.isa.subFlags h.core.flags old count)
  if h.jumps 2 then (h, false) else (if c.preserving d then h.popf else h, true)

/-- The slow part of a block start, behind the comparison with the trigger. -/
def cold (position : ℕ) (d : Decoded) (h : Host) : Host × Bool :=
  let x := c.atLimit h
  if x.2 then (c.persist position (c.preserving d) x.1, true)
  else
    let h := c.collect position (c.preserving d) x.1
    (if c.fastBoundary then c.retrigger h else h, false)

/-- **The code of a block start**: what it hands to the instruction, or the exit it takes. -/
def boundary (position : ℕ) (d : Decoded) (h : Host) : Host × Option Exit :=
  let h := if c.preserving d then h.pushf else h
  let hot :=
    let h := h.setScratch c.regs (h.get c.regs .cursor)
    h.cmp c.isa (h.scratch c.regs) (h.get c.regs .trigger)
  let x :=
    if c.fastBoundary then if hot.jumps 2 then (hot, false) else c.cold position d hot
    else c.cold position d h
  if x.2 then (x.1, some .yielded)
  else
    let y := c.charge d x.1
    if y.2 then (y.1, none) else (y.1, some .exhausted)

/-! ### Instructions -/

/-- The checks of a return. -/
def ret (h : Host) : Flow :=
  let h := h.setScratch c.regs (h.get c.regs .cursor)
  let h := h.cmp c.isa (h.scratch c.regs) (h.get c.regs .stop)
  if h.jumps 5 then c.leave .diverged false h
  else
    let h := h.cmp c.isa (h.get c.regs .remaining) 0
    if h.jumps 5 then c.leave .diverged false h
    else
      let h := h.cmp c.isa (h.core.gpr 0) (BitVec.ofNat 64 c.recipe.h.result)
      if h.jumps 5 then c.leave .diverged false h else c.leave .returned false h

/-- A branch. -/
def jump (position : ℕ) (d : Decoded) (h : Host) : Flow :=
  match d.condition with
  | none => .next (c.label d.target) h
  | some code => if h.jumps code then .next (c.label d.target) h else .next (position + 1) h

/-- An input that loads of `n` bytes may use. -/
def readable (n : ℕ) (s : Segment) : Bool :=
  !(s.bytes.length < n ||
    overlap s.address s.bytes.length c.recipe.h.output (rounded c.recipe.h.length))

/-- The guard of a load: it looks for the segment and turns the guest's address into the host's. -/
def reads (n : ℕ) : List Segment → Host → Host × Bool
  | [], h => (h, false)
  | s :: rest, h =>
    if c.readable n s = false then reads n rest h
    else
      let h := h.cmp c.isa (h.scratch c.regs) (BitVec.ofNat 64 s.address)
      if h.jumps 2 then reads n rest h
      else
        let h := h.cmp c.isa (h.scratch c.regs)
          (BitVec.ofNat 64 (s.address + s.bytes.length - n))
        if h.jumps 7 then reads n rest h
        else (h.addScratch c.isa c.regs (c.data s - BitVec.ofNat 64 s.address), true)

/-- The guard of a store: it moves the cursor and turns the guest's address into the host's. -/
def writes (n : ℕ) (h : Host) : Host × Bool :=
  let h := h.cmp c.isa (h.scratch c.regs) (h.get c.regs .cursor)
  if h.jumps 5 then (h, false)
  else
    let h := h.addScratch c.isa c.regs (BitVec.ofNat 64 n)
    if h.jumps 2 then (h, false)
    else
      let h := h.cmp c.isa (h.scratch c.regs) (h.get c.regs .limit)
      if h.jumps 7 then (h, false)
      else
        let h := h.put c.regs .cursor (h.scratch c.regs)
        let h := h.subScratch c.isa c.regs (BitVec.ofNat 64 n)
        (h.addScratch c.isa c.regs (h.get c.regs .delta), true)

/-- The guard of a memory operand that is accessed. -/
def guard (d : Decoded) (m : Mem) (h : Host) : Host × Bool :=
  let aligned :=
    if d.inst.mnemonic.unaligned.isSome then
      let h := h.setFlags (c.isa.testFlags h.core.flags (h.scratch c.regs) 15)
      (h, !h.jumps 5)
    else (h, true)
  if aligned.2 = false then aligned
  else if m.action = .write then c.writes (m.size / 8) aligned.1
  else c.reads (m.size / 8) c.recipe.inputs aligned.1

/-- The emitted instruction with its memory operand at the scratch register. -/
def access (position : ℕ) (d : Decoded) (m : Mem) (h : Host) : Flow :=
  let i := d.inst.unaligned
  let a := h.scratch c.regs
  let n := m.size / 8
  if i.aligned = true ∧ a.toNat % 16 ≠ 0 then .stop .faulted h
  else if m.action = .write then
    let x := c.isa.exec i h.core .nothing
    .next (position + 1)
      { h with core := x.1, mem := writeBytes h.mem a x.2, log := h.log ++ [.store a n] }
  else
    let x := c.isa.exec i h.core (.bytes (readBytes h.mem a n))
    .next (position + 1) { h with core := x.1, log := h.log ++ [.load a n] }

/-- An instruction that is no branch and no return. -/
def plain (position : ℕ) (d : Decoded) (h : Host) : Flow :=
  match d.memory with
  | none => .next (position + 1) { h with core := (c.isa.exec d.inst h.core .nothing).1 }
  | some m =>
    if d.inst.mnemonic = .lea then
      let h := h.setScratch c.regs (operandAddress c.recipe.h d.source d.inst m h.core)
      let x := c.isa.exec d.inst h.core (.address (h.scratch c.regs))
      .next (position + 1) { h with core := x.1 }
    else
      let h := if c.preserving d then h.pushf else h
      let h := h.setScratch c.regs (operandAddress c.recipe.h d.source d.inst m h.core)
      let x := c.guard d m h
      if x.2 then c.access position d m (if c.preserving d then x.1.popf else x.1)
      else c.leave .rejected (c.preserving d) x.1

/-- **The piece of one instruction.** -/
def piece (position : ℕ) (d : Decoded) (h : Host) : Flow :=
  let x := if c.starts d then c.boundary position d h else (h, none)
  match x.2 with
  | some e => c.leave e (c.preserving d) x.1
  | none =>
    if d.returns then c.ret x.1
    else if d.branch then c.jump position d x.1
    else c.plain position d x.1

/-- **A run of the generated code** from the beginning of a piece on: how it ends, the host then,
and the number of guest instructions it has executed. -/
def run : ℕ → ℕ → Host → Option (Exit × Host × ℕ)
  | 0, _, _ => none
  | fuel + 1, position, h =>
    match c.plan.instructions[position]? with
    | none => none
    | some d =>
      match c.piece position d h with
      | .next position' h' => (run fuel position' h').map fun x => (x.1, x.2.1, x.2.2 + 1)
      | .stop e h' => some (e, h', if e = .returned ∨ e = .diverged then 1 else 0)

/-! ### Calls -/

/-- The code in front of the first piece: `RDI` points to the `State` object. -/
def enter (h : Host) : Host :=
  let h := h.pushf
  let h := [3, 5, 12, 13, 14, 15].foldl (fun h r => h.push (h.core.gpr r)) h
  let h := h.setGpr c.regs.context (h.core.gpr 7)
  let s := h.context c.regs
  let h := { h with core := { h.core with
    gpr := fun r =>
      match c.regs.hot.find? fun x : Field × Fin 16 => x.2 = r with
      | some x => s.word x.1
      | none => h.core.gpr r } }
  let h := h.modify c.regs fun s => { s with hostMxcsr := h.core.mxcsr }
  { h with core :=
    { gpr := fun r => if r ∈ c.regs.used then s.regs (savedAt r) else h.core.gpr r
      xmm := fun k => if k ∈ c.plan.vectors then s.xmm k else h.core.xmm k
      flags := s.flags
      mxcsr := s.mxcsr } }

/-- The code behind the last piece: the hot fields go back to the `State` object. -/
def exit (h : Host) : Host :=
  let h := h.modify c.regs fun s => { s with word := fun f => h.get c.regs f }
  let h := { h with core := { h.core with mxcsr := (h.context c.regs).hostMxcsr } }
  let h := [15, 14, 13, 12, 5, 3].foldl (fun h r => h.pop r) h
  h.popf

/-- **A call of the generated code** with the address of a `State` object in `RDI`. -/
def call (fuel : ℕ) (h : Host) : Option (Exit × Host × ℕ) :=
  let h := c.enter h
  (c.run fuel (h.get c.regs .entry).toNat h).map fun x => (x.1, c.exit x.2.1, x.2.2)

end Compiler

end Afterfree.Native.Compile
