import Afterfree.Codec
import Afterfree.Recording.Masks

/-!
# The recorder

`recorder.hpp`: what the callbacks note down while a producer runs. Written bytes are kept twice, as
the part of the output that has been filled without a gap (`output_frontier`) and as masks of pages;
the bytes that are read before they are written are copied when they are first read. `finish` turns
the notes into a recipe.

An exception of the source is an `error` that carries the recorder at the throw.
-/

namespace Afterfree.Recording.Capture

open Afterfree.Common Afterfree.Codec Afterfree.Recording.Masks
open Std (TreeMap)

/-- `ObservedPage`. The source allocates `data` (zeroed) with the first input. -/
structure ObservedPage where
  written : ByteMask
  input : ByteMask
  data : ℕ → UInt8

/-- A page nothing is known of. -/
def ObservedPage.fresh : ObservedPage := ⟨ByteMask.empty, ByteMask.empty, fun _ => 0⟩

/-- `Plan`: an instruction as it was when it was instrumented. -/
structure Plan where
  instruction : Instruction
  rejection : Option String

/-- A plan as `plans` makes it. -/
def Plan.fresh : Plan := ⟨⟨0, 0, List.replicate 15 0⟩, none⟩

/-- `Recorder`: the fields that decide what `finish` returns. -/
structure Recorder where
  h : Header
  pages : TreeMap ℕ ObservedPage
  code : TreeMap ℕ Instruction
  plans : TreeMap ℕ Plan
  blockCounts : ℕ → ℕ → Option ℕ
  liveBytes : ℕ
  steps : ℕ
  began : Bool
  outputFrontier : ℕ
  lastStoreEnd : ℕ
  cachedBase : ℕ
  rejection : Option String

/-- The buffer a recorder is made for: `af_capture` and the preload library pass the address and the
length of an allocation, which is page aligned and ends below the top of the address space. -/
structure Target where
  output : ℕ
  length : ℕ
  aligned : output % PAGE = 0
  pos : 0 < length
  fits : output + rounded length ≤ UINT64_MAX

theorem buffer_aligned : 0x10000 % PAGE = 0 := by decide

/-- The header a recorder starts from. -/
def Header.blank : Header where
  magic := MAGIC
  version := 1
  entry := 0
  stop := 0
  output := 0
  length := 0
  result := 0
  steps := 0
  inputBytes := 0
  fsBase := 0
  gsBase := 0
  regs := List.replicate 18 0
  xmm := List.replicate 16 (List.replicate 16 0)
  mxcsr := 0
  pageCount := 0
  codeCount := 0
  inputCount := 0
  digest := List.replicate 32 0

/-- `Recorder::Recorder`, with the segment bases the system calls return. -/
def Recorder.make (t : Target) (fsBase gsBase : ℕ) : Recorder where
  h := { Header.blank with output := t.output, length := t.length, fsBase, gsBase }
  pages := ∅
  code := ∅
  plans := ∅
  blockCounts := fun _ _ => none
  liveBytes := 0
  steps := 0
  began := false
  outputFrontier := t.output
  lastStoreEnd := 0
  cachedBase := UINT64_MAX
  rejection := none

/-- A result, or the message of an exception with the recorder it leaves behind. -/
abbrev Result := Except (Recorder × String) Recorder

namespace Recorder

/-- `reject`: the first reason stays. -/
def reject (r : Recorder) (why : String) : Recorder :=
  { r with rejection := some (r.rejection.getD why) }

/-- The record of the page of an address. -/
def pageAt (r : Recorder) (addr : ℕ) : ObservedPage :=
  (r.pages[base addr]?).getD ObservedPage.fresh

/-- Write back the record of the page of an address. -/
def setPage (r : Recorder) (addr : ℕ) (p : ObservedPage) : Recorder :=
  { r with pages := r.pages.insert (base addr) p }

/-- `page`: makes sure that the page of an address is noted. -/
def page (r : Recorder) (addr : ℕ) : Result :=
  if base addr = r.cachedBase then .ok r
  else if 262144 < r.pages.size then .error (r, "capture page limit exceeded")
  else .ok
    { r with
      cachedBase := base addr
      pages := r.pages.insertIfNew (base addr) ObservedPage.fresh }

/-! ### Reads and writes -/

/-- The set bits of a word, lowest first: what the loop over `__builtin_ctzll` visits. -/
def bitsOf (w : BitVec 64) : List ℕ := (List.range 64).filter fun i => w.getLsbD i

section Word

variable {F : Type → Type} [Monad F] (access : Access F)

/-- The bytes of the word at `addr` that `read` has to copy. -/
def neededWith (r : Recorder) (addr count : ℕ) : F (BitVec 64) := do
  let p := r.pageAt addr
  let off := addr % PAGE
  let span ← access.mask (off % 64) count
  let word ← access.index (off / 64)
  let bits := span &&& ~~~(p.written.words word ||| p.input.words word)
  let low := max addr r.h.output
  let high := min (addr + count) r.outputFrontier
  if low < high then do
    let fresh ← access.mask (low % 64) (high - low)
    pure (bits &&& ~~~fresh)
  else pure bits

/-- Copy bytes of the word at `addr`. `none` when the inputs become too many. -/
def copyWord (m : ℕ → UInt8) (r : Recorder) (addr : ℕ) (bits : BitVec 64) : Option Recorder :=
  let p := r.pageAt addr
  let off := addr % PAGE
  if bits = 0#64 then some r
  else
    let live := r.liveBytes + (bitsOf bits).length
    if MAX_BLOB / 2 < live then none
    else
      let data := (bitsOf bits).foldl
        (fun d bit => Function.update d (off / 64 * 64 + bit)
          (m (base addr + (off / 64 * 64 + bit))))
        p.data
      some ({ r with liveBytes := live }.setPage addr
        { p with input := p.input.orWord (off / 64) bits, data })

/-- The loop of `read`. -/
def readLoopWith (m : ℕ → UInt8) : ℕ → Recorder → ℕ → ℕ → F Result
  | 0, r, _, n => if n = 0 then pure (.ok r) else access.stuck (.ok r)
  | fuel + 1, r, addr, n =>
    if n = 0 then pure (.ok r)
    else
      match r.page addr with
      | .error e => pure (.error e)
      | .ok r => do
        let count := min n (64 - addr % PAGE % 64)
        let bits ← neededWith access r addr count
        match r.copyWord m addr bits with
        | none => pure (.ok (r.reject "live inputs exceed 32 MiB"))
        | some r => readLoopWith m fuel r (addr + count) (n - count)

end Word

def needed (r : Recorder) (addr count : ℕ) : BitVec 64 := neededWith Access.plain r addr count

/-- The body of the loop of `read`, after `page`. -/
def readWord (m : ℕ → UInt8) (r : Recorder) (addr count : ℕ) : Option Recorder :=
  r.copyWord m addr (r.needed addr count)

def readLoop (m : ℕ → UInt8) (fuel : ℕ) (r : Recorder) (addr n : ℕ) : Result :=
  readLoopWith Access.plain m fuel r addr n

theorem needed_eq (r : Recorder) (addr count : ℕ) :
    r.needed addr count =
      if max addr r.h.output < min (addr + count) r.outputFrontier then
        (mask (addr % PAGE % 64) count &&& ~~~((r.pageAt addr).written.words (addr % PAGE / 64) |||
          (r.pageAt addr).input.words (addr % PAGE / 64))) &&&
          ~~~(mask (max addr r.h.output % 64)
            (min (addr + count) r.outputFrontier - max addr r.h.output))
      else mask (addr % PAGE % 64) count &&& ~~~((r.pageAt addr).written.words
        (addr % PAGE / 64) |||
        (r.pageAt addr).input.words (addr % PAGE / 64)) := rfl

theorem readLoop_zero (m : ℕ → UInt8) (r : Recorder) (addr n : ℕ) : r.readLoop m 0 addr n = .ok r :=
  ite_self _

theorem readLoop_succ (m : ℕ → UInt8) (fuel : ℕ) (r : Recorder) (addr n : ℕ) :
    r.readLoop m (fuel + 1) addr n =
      if n = 0 then .ok r
      else r.page addr >>= fun r =>
        match r.readWord m addr (min n (64 - addr % PAGE % 64)) with
        | none => .ok (r.reject "live inputs exceed 32 MiB")
        | some r => r.readLoop m fuel (addr + min n (64 - addr % PAGE % 64))
            (n - min n (64 - addr % PAGE % 64)) := by
  unfold readLoop
  rw [readLoopWith]
  cases r.page addr <;> rfl

/-- `read`, over the memory `m`. -/
def read (m : ℕ → UInt8) (r : Recorder) (addr n : ℕ) : Result :=
  if addr < PAGE ∨ PAGE * 16 < n ∨ UINT64_MAX - n < addr then
    .ok (r.reject "unresolved or unbounded memory read")
  else readLoop m n r addr n

/-- The loop of `write`. -/
def writeLoop : ℕ → Recorder → ℕ → ℕ → Result
  | 0, r, _, _ => .ok r
  | fuel + 1, r, addr, n =>
    if n = 0 then .ok r
    else do
      let count := min n (PAGE - addr % PAGE)
      let r ← r.page addr
      let p := r.pageAt addr
      let r := r.setPage addr { p with written := p.written.mark (addr % PAGE) count }
      writeLoop fuel r (addr + count) (n - count)

/-- `write`. -/
def write (r : Recorder) (addr n : ℕ) : Result :=
  if PAGE * 16 < n ∨ UINT64_MAX - n < addr then .ok (r.reject "unbounded memory write")
  else
    let r := { r with lastStoreEnd := addr + n }
    if r.h.output ≤ addr ∧ addr ≤ r.outputFrontier ∧ addr + n ≤ r.h.output + r.h.length then
      .ok { r with outputFrontier := max r.outputFrontier (addr + n) }
    else writeLoop n r addr n

/-! ### The callbacks -/

/-- The `catch` of a callback. -/
def caught : Result → Recorder
  | .ok r => r
  | .error (r, what) => r.reject what

/-- `read_access` for one access of known size. -/
def readAccess (m : ℕ → UInt8) (r : Recorder) (addr n : ℕ) : Recorder :=
  if r.rejection.isSome then r else caught (r.read m addr n)

/-- `write_access` for one access of known size. -/
def writeAccess (r : Recorder) (addr n : ℕ) : Recorder :=
  if r.rejection.isSome then r else caught (r.write addr n)

/-- `begin`: the registers at the first instruction, and the return address on the stack. -/
def begin (m : ℕ → UInt8) (r : Recorder) (regs : List ℕ) (xmm : List (List UInt8)) (mxcsr : ℕ) :
    Recorder :=
  if r.began then r
  else
    let rsp := regs.getD 15 0
    { r with
      began := true
      h := { r.h with
        regs, xmm, mxcsr
        entry := regs.getD 16 0
        stop := leNat ((List.range 8).map fun i => m (rsp + i)) } }

/-- What `rule` gets of an instruction. `InstAnalysis` has at most fifteen bytes of an instruction
in the address space of the process. -/
structure Analysis where
  address : ℕ
  size : ℕ
  pos : 0 < size
  short : size ≤ 15
  fits : address + size ≤ UINT64_MAX
  unsupported : Option String

theorem three_bytes : 0 < 3 := by decide

theorem three_short : 3 ≤ 15 := by decide

theorem three_fit : 0x5000 + 3 ≤ UINT64_MAX := by decide

/-- `plans[address]`, which makes the plan when there is none. -/
def planAt (r : Recorder) (address : ℕ) : Plan := (r.plans[address]?).getD Plan.fresh

/-- The plan that `rule` leaves. An instruction that was instrumented before keeps its rejection,
and the bytes behind those of the instruction. -/
def plan (m : ℕ → UInt8) (r : Recorder) (a : Analysis) : Plan where
  instruction := ⟨a.address, a.size, ((List.range a.size).map fun i => m (a.address + i)) ++
    (r.planAt a.address).instruction.bytes.drop a.size⟩
  rejection := a.unsupported.or (r.planAt a.address).rejection

/-- The part of `rule` that notes the instruction. -/
def rule (m : ℕ → UInt8) (r : Recorder) (a : Analysis) : Recorder :=
  if 1000000 ≤ r.plans.size then r.reject "instruction metadata limit exceeded"
  else { r with plans := r.plans.insert a.address (r.plan m a) }

/-- The plans of a block, in address order. -/
def planned (r : Recorder) (start stop : ℕ) : List Plan :=
  (r.plans.toList.filter fun x => decide (start ≤ x.1 ∧ x.1 < stop)).map Prod.snd

/-- One instruction of a block that is entered for the first time. -/
def notePlan (r : Recorder) (p : Plan) : Recorder :=
  let r := match p.rejection with
    | none => r
    | some why => r.reject why
  { r with code := r.code.insertIfNew p.instruction.address p.instruction }

/-- `block`, from the bounds of the basic block that is entered. -/
def block (r : Recorder) (start stop : ℕ) : Recorder :=
  let (r, count) := match r.blockCounts start stop with
    | some count => (r, count)
    | none =>
      let ps := r.planned start stop
      let r := ps.foldl notePlan r
      let r := if ps.length = 0 then r.reject "block has no instruction metadata" else r
      ({ r with
        blockCounts := Function.update r.blockCounts start
          (Function.update (r.blockCounts start) stop (some ps.length)) }, ps.length)
  let r := { r with steps := r.steps + count }
  if 500000000 < r.steps then r.reject "500 million instruction capture limit" else r

end Recorder

/-! ### Events -/

/-- What happens while a producer runs: its first instruction is reached, an instruction is
instrumented, a block is entered, memory is read, memory has been written. -/
inductive Event
  | begin (regs : List ℕ) (xmm : List (List UInt8)) (mxcsr : ℕ)
  | rule (a : Recorder.Analysis)
  | block (start stop : ℕ)
  | read (addr n : ℕ)
  | write (addr : ℕ) (bytes : List UInt8)

/-- Put bytes into memory. -/
def store (m : ℕ → UInt8) (addr : ℕ) (bytes : List UInt8) : ℕ → UInt8 := fun a =>
  if addr ≤ a ∧ a < addr + bytes.length then bytes.getD (a - addr) 0 else m a

/-- The memory after an event. -/
def Event.update (m : ℕ → UInt8) : Event → ℕ → UInt8
  | .write addr bytes => store m addr bytes
  | _ => m

/-- The callback of an event. `write_access` runs after the instruction, the others before it. -/
def Event.note (m : ℕ → UInt8) (r : Recorder) : Event → Recorder
  | .begin regs xmm mxcsr => r.begin m regs xmm mxcsr
  | .rule a => r.rule m a
  | .block start stop => r.block start stop
  | .read addr n => r.readAccess m addr n
  | .write addr bytes => r.writeAccess addr bytes.length

/-- A capture: memory and recorder after a sequence of events. -/
def capture (m : ℕ → UInt8) (r : Recorder) : List Event → (ℕ → UInt8) × Recorder
  | [] => (m, r)
  | e :: es => capture (e.update m) (e.note m r) es

/-! ### `finish` -/

namespace Recorder

/-- The offsets `0, PAGE, …` below `n`. -/
def pageOffsets (n : ℕ) : List ℕ := (List.range (rounded n / PAGE)).map (· * PAGE)

/-- `covered` of `finish`. -/
def covered (r : Recorder) (start count : ℕ) : Bool :=
  if start + count ≤ r.outputFrontier then true
  else
    let first := if start < r.outputFrontier then r.outputFrontier - start else 0
    match r.pages[base start]? with
    | none => false
    | some p => p.written.all first (count - first)

/-- What the search for the longest covered region keeps. -/
structure Scan where
  complete : Bool
  run : ℕ
  bestStart : ℕ
  bestLength : ℕ
deriving DecidableEq, Repr

/-- One page of the search. -/
def scanPage (r : Recorder) (s : Scan) (offset : ℕ) : Scan :=
  let length := min PAGE (r.h.length - offset)
  if !r.covered (r.h.output + offset) length then { s with complete := false, run := 0 }
  else if length = PAGE then
    let run := s.run + PAGE
    if s.bestLength < run then
      { s with run, bestLength := run, bestStart := offset + PAGE - run }
    else { s with run }
  else s

/-- The search. -/
def scan (r : Recorder) : Scan :=
  (pageOffsets r.h.length).foldl r.scanPage ⟨true, 0, 0, 0⟩

/-- Run a step that may throw for each element of a list. -/
def each {α : Type} (f : Recorder → α → Result) : Recorder → List α → Result
  | r, [] => .ok r
  | r, x :: xs => do
    let r ← f r x
    each f r xs

/-- `page(at).written.mark(0, min(PAGE, output_frontier - at))`, after `page`. -/
def markFrontier (r : Recorder) (start : ℕ) : Recorder :=
  let p := r.pageAt start
  r.setPage start { p with written := p.written.mark 0 (min PAGE (r.outputFrontier - start)) }

/-- A page the frontier has passed that is outside the chosen region. -/
def keepOutside (r : Recorder) (start : ℕ) : Result :=
  if start < r.h.output ∨ r.h.output + r.h.length ≤ start then do
    let r ← r.page start
    .ok (r.markFrontier start)
  else .ok r

/-- Narrow the output to its longest covered region, when the whole is not covered. -/
def narrow (r : Recorder) : Result :=
  let s := r.scan
  if !s.complete ∧ max 65536 (rounded (r.h.length / 2)) ≤ s.bestLength then do
    let original := r.h.output
    let r := { r with h := { r.h with output := r.h.output + s.bestStart, length := s.bestLength } }
    let r ← each keepOutside r ((pageOffsets (r.outputFrontier - original)).map (original + ·))
    .ok { r with
      outputFrontier := max r.h.output (min r.outputFrontier (r.h.output + r.h.length)) }
  else .ok r

/-- One page of the coverage check. -/
def coverPage (r : Recorder) (i : ℕ) : Result := do
  let r ← r.page (r.h.output + i)
  let r := if r.h.output + i < r.outputFrontier then r.markFrontier (r.h.output + i) else r
  if !(r.pageAt (r.h.output + i)).written.all 0 (min PAGE (r.h.length - i)) then
    .error (r, "output was not fully produced by this call")
  else .ok r

/-- The coverage check. -/
def cover (r : Recorder) : Result :=
  if r.outputFrontier ≠ r.h.output + r.h.length then each coverPage r (pageOffsets r.h.length)
  else .ok r

/-- One byte of the check that no code page was written. -/
def codeByte (r : Recorder) (a : ℕ) : Result := do
  let r ← r.page a
  if (r.pageAt a).written.any then .error (r, "self-modifying code is ineligible") else .ok r

/-- One instruction of that check. -/
def codeCheck (r : Recorder) (c : Instruction) : Result :=
  each codeByte r ((List.range c.size).map (c.address + ·))

/-- The recorded instructions, in address order. -/
def instructions (r : Recorder) : List Instruction := r.code.toList.map Prod.snd

/-- The page is outside the output. -/
def outside (h : Header) (p : ℕ) : Bool := decide (p < h.output ∨ h.output + rounded h.length ≤ p)

/-- `while (i < PAGE && p.input[i]) i++`. -/
def runEnd (p : ObservedPage) : ℕ → ℕ → ℕ
  | 0, i => i
  | fuel + 1, i => if i < PAGE ∧ p.input.test i then runEnd p fuel (i + 1) else i

/-- The inputs of a page from byte `i` on: one segment for each run of input bytes. -/
def segments (addr : ℕ) (p : ObservedPage) : ℕ → ℕ → List Segment
  | 0, _ => []
  | fuel + 1, i =>
    if PAGE ≤ i then []
    else if !p.input.test i then segments addr p fuel (i + 1)
    else
      let stop := runEnd p (PAGE - i) i
      ⟨addr + i, (List.range (stop - i)).map fun k => p.data (i + k)⟩ ::
        segments addr p fuel stop

/-- Narrow the output when regions are allowed. -/
def region (r : Recorder) (regions : Bool) : Result := if regions then r.narrow else .ok r

/-- The part of `finish` that may change the recorder. -/
def prepare (r : Recorder) (result : ℕ) (regions : Bool) : Result := do
  let r ← r.region regions
  let r := { r with h := { r.h with result, steps := r.steps, inputBytes := r.liveBytes } }
  let r ← r.cover
  each codeCheck r r.instructions

/-- The recipe of a recorder: what `finish` pushes back. -/
def recipe (r : Recorder) : Recipe where
  h := r.h
  pages := r.pages.keys.filter (outside r.h)
  code := r.instructions
  inputs := r.pages.toList.flatMap fun x => segments x.1 x.2 PAGE 0

/-- `finish`: the recipe, or the message of the exception. `regions` is `allow_region` without
`AF_DISABLE_REGIONS` in the environment. -/
def finish (r : Recorder) (result : ℕ) (regions : Bool) : Except String Recipe :=
  match r.rejection with
  | some why => .error why
  | none =>
    if !r.began then .error "no native instructions captured"
    else
      match r.prepare result regions with
      | .error (_, what) => .error what
      | .ok r =>
        let scratch := r.pages.keys.filter (outside r.h)
        if r.h.length / 4 + 4 * 2 ^ 20 < scratch.length * PAGE then
          .error "replay scratch exceeds the group budget"
        else .ok r.recipe

end Recorder

end Afterfree.Recording.Capture
