import Afterfree.Common
import Afterfree.Lib.Search
import Afterfree.Lib.Span

/-!
# The application side: buffers, mappings and the worker's store

The state of `runtime.cpp`: the slots of `buffers`, the ordered index over them, the counters, and
beside them what the operating system keeps (the bytes and the protection of every page) and what
the worker keeps (the validated output of every committed recipe).

Everything the environment decides is an argument of the operation that asks for it: whether a
system call succeeds, where `mmap` places a mapping, whether a send or a receive succeeds, what a
clock shows, and how the worker answers. A property of every run is then a property of all
sequences of operations with all such arguments.
-/

namespace Afterfree.Runtime.State

open Afterfree.Common Afterfree.Lib

/-! ### Pages and buffers -/

/-- The values of `Buffer::pages`: `0` (cold), `1` (clean) and `3` (dirty). -/
inductive PageState
  | cold | clean | dirty
deriving DecidableEq, Repr

/-- `enum State`: RESIDENT, SEALED, EVICTED, PINNED. -/
inductive BufferState
  | resident | sealed | evicted | pinned
deriving DecidableEq, Repr

/-- `struct af_stats`, without the fields that `af_get_stats` copies from elsewhere. -/
structure Stats where
  length : ℕ := 0
  recipeBytes : ℕ := 0
  inputBytes : ℕ := 0
  instructions : ℕ := 0
  evictions : ℕ := 0
  captureNs : ℕ := 0
  validationNs : ℕ := 0
  retainedBytes : ℕ := 0
  pageBytes : ℕ := 0
  backend : ℕ := 0
deriving DecidableEq, Repr

/-- `SIZE_MAX`. -/
def SIZE_MAX : ℕ := 2 ^ 64 - 1

/-- `struct Buffer`. A slot is free when `data` is null. `pages` is indexed by page number. -/
structure Buffer where
  data : ℕ := 0
  mapped : ℕ := 0
  recipeOffset : ℕ := 0
  recipeLength : ℕ := 0
  id : ℕ := 0
  stats : Stats := {}
  state : BufferState := .resident
  faultCount : ℕ := 0
  restoreTime : ℕ := 0
  pages : ℕ → PageState := fun _ => .cold
  residentPages : ℕ := 0
  reconstructed : ℕ := 0
  fullRestores : ℕ := 0
  lastFaultEnd : ℕ := SIZE_MAX
  readahead : ℕ := 1
  recipeLive : Bool := false

/-- `Buffer::clear`. -/
def Buffer.clear : Buffer := {}

namespace Buffer

/-- The number of pages of the mapping. -/
def pageCount (b : Buffer) : ℕ := b.mapped / PAGE

/-- The first page of the recipe region. -/
def regionFirst (b : Buffer) : ℕ := b.recipeOffset / PAGE

/-- The page after the recipe region: `(recipe_offset + rounded(recipe_length)) / PAGE`. -/
def regionLast (b : Buffer) : ℕ := (b.recipeOffset + rounded b.recipeLength) / PAGE

/-- Page `i` is present: its entry of `pages` is not zero. -/
def Present (b : Buffer) (i : ℕ) : Prop := b.pages i ≠ .cold

instance (b : Buffer) : DecidablePred b.Present := fun _ => inferInstanceAs (Decidable (_ ≠ _))

end Buffer

/-! ### What the operating system keeps -/

/-- The protections the pager uses: `PROT_NONE`, `PROT_READ`, `PROT_READ | PROT_WRITE`. -/
inductive Prot
  | none | read | readWrite
deriving DecidableEq, Repr

/-- The address space: one byte per address, one protection per page number. -/
structure Memory where
  bytes : ℕ → UInt8
  prot : ℕ → Prot

namespace Memory

/-- A successful `mprotect` of the pages of `[address, address + length)`. -/
def mprotect (m : Memory) (address length : ℕ) (p : Prot) : Memory :=
  { m with prot := Span.fill m.prot (address / PAGE) ((address + length) / PAGE) p }

/-- A successful `madvise(MADV_DONTNEED)` of a private anonymous mapping: the bytes read zero. -/
def dontneed (m : Memory) (address length : ℕ) : Memory :=
  { m with bytes := Span.fill m.bytes address (address + length) 0 }

/-- A fresh anonymous mapping: zero bytes, readable and writable. -/
def mmap (m : Memory) (address length : ℕ) : Memory :=
  (m.dontneed address length).mprotect address length .readWrite

/-- `memcpy` (or `read`) of `length` bytes into `address`. -/
def copyIn (m : Memory) (address length : ℕ) (source : ℕ → UInt8) : Memory :=
  { m with bytes := fun a =>
      if address ≤ a ∧ a < address + length then source (a - address) else m.bytes a }

/-- One byte stored by the application. -/
def store (m : Memory) (address : ℕ) (v : UInt8) : Memory :=
  { m with bytes := Function.update m.bytes address v }

/-- `memcmp` of `length` bytes at `address` with `source`. -/
def same (m : Memory) (address length : ℕ) (source : ℕ → UInt8) : Bool :=
  (List.range length).all fun i => source i == m.bytes (address + i)

/-- Whether the protection of the page of `address` lets the access through. -/
def permits (m : Memory) (address : ℕ) (writing : Bool) : Bool :=
  match m.prot (address / PAGE) with
  | .none => false
  | .read => !writing
  | .readWrite => true

end Memory

/-! ### What the worker keeps -/

/-- A reconstructed output: its length and its bytes (those below the length count). -/
structure Output where
  length : ℕ
  byte : ℕ → UInt8

/-- The worker as the application sees it: for every id with a committed recipe, the output that
was validated when the recipe was committed. -/
structure Peer where
  store : ℕ → Option Output

/-- `DROP`. -/
def Peer.drop (p : Peer) (id : ℕ) : Peer :=
  { store := fun i => if i = id then Option.none else p.store i }

/-- Commit the output `o` under `id`. -/
def Peer.commit (p : Peer) (id : ℕ) (o : Output) : Peer :=
  { store := fun i => if i = id then some o else p.store i }

/-! ### The runtime -/

/-- `MAX_SLOTS`. -/
def MAX_SLOTS : ℕ := 4096

/-- The pages and bytes one `restore_span` asks for. -/
structure Extent where
  first : ℕ
  last : ℕ
  offset : ℕ
  length : ℕ
deriving DecidableEq, Repr

/-- The globals of `runtime.cpp`. `allocationIndex` lists slot numbers; `arena` is the shared
window, if there is one; `asked` is a record of the requests for pages with the slot of each, which
nothing reads. -/
structure World where
  buffers : ℕ → Buffer
  allocationIndex : List ℕ
  nextid : ℕ
  residentTarget : ℕ
  automaticEvictions : ℕ
  restoreOperations : ℕ
  restoredBytes : ℕ
  residentManaged : ℕ
  peakOverTarget : ℕ
  arena : Option Arena
  channelBroken : Bool
  error : String
  memory : Memory
  peer : Peer
  asked : List (ℕ × Extent)

/-- The state after `af_init`. -/
def World.initial (arena : Option Arena) (memory : Memory) : World where
  buffers := fun _ => {}
  allocationIndex := []
  nextid := 1
  residentTarget := 0
  automaticEvictions := 0
  restoreOperations := 0
  restoredBytes := 0
  residentManaged := 0
  peakOverTarget := 0
  arena := arena
  channelBroken := false
  error := ""
  memory := memory
  peer := { store := fun _ => none }
  asked := []

namespace World

/-- Replace the contents of one slot. -/
def setBuffer (w : World) (slot : ℕ) (b : Buffer) : World :=
  { w with buffers := Function.update w.buffers slot b }

/-- A request for pages is made. -/
def ask (w : World) (slot : ℕ) (x : Extent) : World := { w with asked := w.asked ++ [(slot, x)] }

/-- `fail`: record the message. The caller returns `-1`. -/
def fail (w : World) (message : String) : World := { w with error := message }

/-- A slot that holds a buffer. -/
def Live (w : World) (slot : ℕ) : Prop := slot < MAX_SLOTS ∧ (w.buffers slot).data ≠ 0

instance (w : World) : DecidablePred w.Live := fun _ => inferInstanceAs (Decidable (_ ∧ _))

/-- The start address of the `i`-th entry of the index. -/
def indexData (w : World) (i : ℕ) : ℕ := (w.buffers (w.allocationIndex.getD i 0)).data

/-- `after_address`: the number of indexed buffers that start at or below `address`. -/
def afterAddress (w : World) (address : ℕ) : ℕ :=
  Search.bisect (fun i => decide (w.indexData i ≤ address)) w.allocationIndex.length 0
    w.allocationIndex.length

/-- `index_insert`. -/
def indexInsert (w : World) (slot : ℕ) : World :=
  let pos := w.afterAddress (w.buffers slot).data
  { w with allocationIndex := w.allocationIndex.take pos ++ slot :: w.allocationIndex.drop pos }

/-- `index_remove`; `none` is the `abort`. -/
def indexRemove (w : World) (pointer : ℕ) : Option World :=
  let pos := w.afterAddress pointer
  if pos = 0 ∨ w.indexData (pos - 1) ≠ pointer then none
  else some { w with
    allocationIndex := w.allocationIndex.take (pos - 1) ++ w.allocationIndex.drop pos }

/-- `containing`: the slot of the buffer whose mapping holds `address`. -/
def containing (w : World) (address : ℕ) : Option ℕ :=
  let pos := w.afterAddress address
  if pos = 0 then none
  else
    let slot := w.allocationIndex.getD (pos - 1) 0
    if address - (w.buffers slot).data < (w.buffers slot).mapped then some slot else none

/-- `find`: the slot of the buffer that starts at `p`. -/
def find (w : World) (p : ℕ) : Option ℕ :=
  match w.containing p with
  | some slot => if (w.buffers slot).data = p then some slot else none
  | none => none

/-- `observe_target`. -/
def observeTarget (w : World) : World :=
  let excess := if w.residentTarget ≠ 0 ∧ w.residentTarget < w.residentManaged then
    w.residentManaged - w.residentTarget else 0
  { w with peakOverTarget := max w.peakOverTarget excess }

end World

end Afterfree.Runtime.State
