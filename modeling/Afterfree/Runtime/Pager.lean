import Afterfree.Runtime.State

/-!
# The pager: requests, restores, faults, eviction

`request`, `restore_span`, `materialize`, `fault`, `prepare` and `af_evict` of `runtime.cpp`. A
function that returns `false` to a caller that then calls `pager_failure` returns `none` here:
nothing runs afterwards.
-/

namespace Afterfree.Runtime.Pager

open Afterfree.Common Afterfree.Lib Afterfree.Runtime.State

/-- Why nothing runs any more: `pager_failure`, a fault handed back to its default action, `abort`,
or a loop that does not come to its end. -/
inductive Stop
  | pagerFailure | raised | aborted | diverged
deriving DecidableEq, Repr

/-- Who makes a call: `getpid() == owner`, `single_thread()`, `gettid() == owner_thread`. -/
structure Caller where
  ownerProcess : Bool
  singleThread : Bool
  ownerThread : Bool
deriving DecidableEq, Repr

/-- The application thread that called `af_init`. -/
def Caller.owner : Caller := ⟨true, true, true⟩

/-- `usable`, after a successful `af_init`: the message of the check that fails, if one does. -/
def usable (c : Caller) : Option String :=
  if !c.ownerProcess then some "Afterfree cannot be used after fork"
  else if !c.singleThread then some "Afterfree requires one application thread"
  else if !c.ownerThread then some "Afterfree belongs to a different application thread"
  else none

/-! ### Requests -/

/-- Whether `write_all` and then `read_all` succeed. -/
structure Link where
  sent : Bool
  received : Bool
deriving DecidableEq, Repr

/-- `request`. The worker handles a request that was sent in full, also when the application then
fails to receive the answer; after a failure the channel is broken and no request is made. -/
def request {α : Type} (l : Link) (w : World) (handle : Peer → Peer × α) : World × Option α :=
  if w.channelBroken then (w, none)
  else if !l.sent then ({ w with channelBroken := true }, none)
  else if !l.received then
    ({ w with peer := (handle w.peer).1, channelBroken := true }, none)
  else ({ w with peer := (handle w.peer).1 }, some (handle w.peer).2)

/-- The worker's answer to `DROP`. -/
def handleDrop (id : ℕ) (p : Peer) : Peer × Response := (p.drop id, ⟨0, 0, "dropped"⟩)

/-- The worker's answer to `RESTORE`, `RESTORE_RANGE` and `RESTORE_SHARED`: a refusal, or status
zero with the requested bytes of the output validated for this id. -/
def handleRestore (willing : Bool) (q : Request) (p : Peer) :
    Peer × Response × (ℕ → UInt8) :=
  match p.store q.id with
  | none => (p, ⟨1, 0, "recipe not found"⟩, fun _ => 0)
  | some o =>
    let offset := if q.command = .restore then 0 else rangeOffset q.size
    let length := if q.command = .restore then o.length else rangeLength q.size
    if willing ∧ length ≠ 0 ∧ offset ≤ o.length ∧ length ≤ o.length - offset then
      (p, ⟨0, length, "restored"⟩, fun i => o.byte (offset + i))
    else (p, ⟨1, 0, "invalid reconstruction range"⟩, fun _ => 0)

/-! ### Restoring -/

/-- What the environment decides in one `restore_span`: the exchange, which requests the worker can
answer, the two `mprotect` calls, the receipt of the payload, and the time it takes. -/
structure SpanEnv where
  link : Link
  willing : Request → Bool
  opened : Bool
  payload : Bool
  closed : Bool
  elapsed : ℕ

/-- The cold pages `[first, last)`, or the whole region when the recipe cannot be sliced. -/
def extentOf (b : Buffer) (first last : ℕ) : Extent :=
  if b.stats.pageBytes ≠ 0 then
    { first, last, offset := first * PAGE
      length := min (last * PAGE) (b.recipeOffset + b.recipeLength) - first * PAGE }
  else
    { first := b.recipeOffset / PAGE
      last := (b.recipeOffset + rounded b.recipeLength) / PAGE
      offset := b.recipeOffset
      length := b.recipeLength }

/-- The window is used for sliced recipes whose span fits into it. -/
def usesWindow (arena : Option Arena) (b : Buffer) (x : Extent) : Bool :=
  match arena with
  | some a => decide (b.stats.pageBytes ≠ 0) && decide (x.length ≤ a.capacity)
  | none => false

/-- The request for an extent. -/
def restoreRequest (arena : Option Arena) (b : Buffer) (x : Extent) : Request where
  command := if usesWindow arena b x then .restoreShared
    else if b.stats.pageBytes ≠ 0 then .restoreRange else .restore
  id := b.id
  size := if b.stats.pageBytes ≠ 0 then packRange (x.offset - b.recipeOffset) x.length else 0

/-- The buffer after its extent has been restored. -/
def restored (b : Buffer) (x : Extent) (elapsed : ℕ) : Buffer :=
  let resident := b.residentPages + (x.last - x.first)
  let full := resident = b.mapped / PAGE
  { b with
    pages := Span.fill b.pages x.first x.last .clean
    residentPages := resident
    state := if full ∧ b.state ≠ .pinned then .sealed else b.state
    fullRestores := if full then b.fullRestores + 1 else b.fullRestores
    restoreTime := b.restoreTime + elapsed
    reconstructed := b.reconstructed + x.length }

/-- The effect of a complete `restore_span`: the bytes, the protection, the page states and the
counters. -/
def applyRestore (w : World) (slot : ℕ) (x : Extent) (payload : ℕ → UInt8) (elapsed : ℕ) : World :=
  let b := w.buffers slot
  let destination := b.data + x.offset
  let mapped := (x.last - x.first) * PAGE
  let memory := ((w.memory.mprotect destination mapped .readWrite).copyIn destination
    x.length payload).mprotect destination mapped .read
  let w := { w with memory, residentManaged := w.residentManaged + mapped }
  let w := (w.setBuffer slot (restored b x elapsed)).observeTarget
  { w with
    restoreOperations := w.restoreOperations + 1
    restoredBytes := w.restoredBytes + x.length }

/-- `restore_span`. -/
def restoreSpan (e : SpanEnv) (w : World) (slot first last : ℕ) : Option World :=
  let b := w.buffers slot
  let x := extentOf b first last
  let q := restoreRequest w.arena b x
  match request e.link (w.ask slot x) (handleRestore (e.willing q) q) with
  | (_, none) => none
  | (w, some (r, payload)) =>
    if r.status ≠ 0 ∨ r.size ≠ x.length then none
    else if !e.opened then none
    else if !(usesWindow w.arena b x || e.payload) then none
    else if !e.closed then none
    else some (applyRestore w slot x payload e.elapsed)

/-- The inner loop of `materialize`: extend a run of cold pages up to the window size. -/
def coldEnd (b : Buffer) (page last window : ℕ) : ℕ → ℕ → ℕ
  | 0, stop => stop
  | fuel + 1, stop =>
    if stop < last ∧ stop - page < window ∧ b.pages stop = .cold then
      coldEnd b page last window fuel (stop + 1)
    else stop

/-- `window_pages`. -/
def windowPages (arena : Option Arena) : ℕ :=
  match arena with
  | some a => a.capacity / PAGE
  | none => 16

/-- The loop of `materialize` over the pages of `[page, last)`. -/
def restoreLoop (e : ℕ → SpanEnv) (slot last : ℕ) : ℕ → World → ℕ → Option World
  | 0, w, _ => some w
  | fuel + 1, w, page =>
    if page < last then
      let b := w.buffers slot
      if b.pages page ≠ .cold then restoreLoop e slot last fuel w (page + 1)
      else
        let stop := coldEnd b page last (windowPages w.arena) (last - page) (page + 1)
        match restoreSpan (e page) w slot page stop with
        | none => none
        | some w => restoreLoop e slot last fuel w stop
    else some w

/-- What the environment decides in one `materialize`: every `restore_span` by its first page, the
`mprotect` that makes the pages writable, and the exchange of the final `DROP`. -/
structure MaterializeEnv where
  span : ℕ → SpanEnv
  unlocked : Bool
  drop : Link

/-- The buffer after its pages `[first, last)` became writable. -/
def written (b : Buffer) (first last : ℕ) : Buffer :=
  { b with
    pages := Span.fill b.pages first last .dirty
    state := if b.state ≠ .resident ∧
        first < (b.recipeOffset + rounded b.recipeLength) / PAGE ∧ b.recipeOffset / PAGE < last
      then .pinned else b.state }

/-- The pages `[first, last)` become writable. -/
def applyUnlock (w : World) (slot first last : ℕ) : World :=
  let b := w.buffers slot
  let memory := w.memory.mprotect (b.data + first * PAGE) ((last - first) * PAGE) .readWrite
  { w with memory }.setBuffer slot (written b first last)

/-- The part of `materialize` that makes restored pages writable. -/
def unlock (e : MaterializeEnv) (w : World) (slot first last : ℕ) (writing : Bool) :
    Option World :=
  if writing ∧ first < last then
    if !e.unlocked then none else some (applyUnlock w slot first last)
  else some w

/-- The end of `materialize`: a fully resident pinned buffer gives up its recipe. -/
def retire (l : Link) (w : World) (slot : ℕ) : World :=
  let b := w.buffers slot
  if b.state = .pinned ∧ b.residentPages = b.mapped / PAGE ∧ b.recipeLive then
    match request l w (handleDrop b.id) with
    | (w, some r) =>
      if r.status = 0 then
        w.setBuffer slot { b with
          recipeLive := false
          stats := { b.stats with retainedBytes := b.mapped / PAGE } }
      else w
    | (w, none) => w
  else w

/-- `materialize`. -/
def materialize (e : MaterializeEnv) (w : World) (slot first last : ℕ) (writing : Bool) :
    Option World :=
  match restoreLoop e.span slot last (last - first) w first with
  | none => none
  | some w =>
    match unlock e w slot first last writing with
    | none => none
    | some w => some (retire e.drop w slot)

/-! ### Faults -/

/-- The read-ahead loop of `fault`. -/
def readaheadEnd (b : Buffer) (page : ℕ) : ℕ → ℕ → ℕ
  | 0, stop => stop
  | fuel + 1, stop =>
    if stop < b.mapped / PAGE ∧ stop - page < b.readahead ∧ b.pages stop = .cold then
      readaheadEnd b page fuel (stop + 1)
    else stop

/-- The read-ahead bookkeeping of `fault`: the buffer with its new counters and the end of the
span to materialize. -/
def planFault (b : Buffer) (page : ℕ) (writing : Bool) : Buffer × ℕ :=
  let b := { b with faultCount := b.faultCount + 1 }
  if !writing ∧ b.stats.pageBytes ≠ 0 then
    let b := { b with
      readahead := if page = b.lastFaultEnd then min 16 (b.readahead * 2) else 1 }
    let stop := readaheadEnd b page 16 (page + 1)
    ({ b with lastFaultEnd := stop }, stop)
  else (b, page + 1)

/-- `fault`, the SIGSEGV handler, for an access to `address`. -/
def fault (c : Caller) (e : MaterializeEnv) (w : World) (address : ℕ) (writing : Bool) :
    Except Stop World :=
  match w.containing address with
  | none => .error .raised
  | some slot =>
    let b := w.buffers slot
    if !(c.ownerProcess && c.ownerThread) then .error .pagerFailure
    else
      let page := (address - b.data) / PAGE
      if b.pages page = .cold ∨ (writing = true ∧ b.pages page = .clean) then
        let (b, stop) := planFault b page writing
        match materialize e (w.setBuffer slot b) slot page stop writing with
        | none => .error .pagerFailure
        | some w => .ok w
      else .error .raised

/-- An access of the application to one byte. The processor delivers a fault when the protection
forbids the access and then executes the instruction again. -/
def access (c : Caller) (e : MaterializeEnv) (w : World) (address : ℕ) (writing : Bool) :
    Except Stop World :=
  if w.memory.permits address writing then .ok w
  else
    match fault c e w address writing with
    | .error s => .error s
    | .ok w => if w.memory.permits address writing then .ok w else .error .raised

/-- A read of one byte. -/
def readByte (c : Caller) (e : MaterializeEnv) (w : World) (address : ℕ) :
    Except Stop (World × UInt8) :=
  match access c e w address false with
  | .error s => .error s
  | .ok w => .ok (w, w.memory.bytes address)

/-- A write of one byte. -/
def writeByte (c : Caller) (e : MaterializeEnv) (w : World) (address : ℕ) (v : UInt8) :
    Except Stop World :=
  match access c e w address true with
  | .error s => .error s
  | .ok w => .ok { w with memory := w.memory.store address v }

/-! ### Prefaults -/

/-- The loop of `prepare` over the index from position `pos`. -/
def prepareLoop (c : Caller) (e : ℕ → MaterializeEnv) (first size : ℕ) (writing : Bool) :
    ℕ → World → ℕ → Except Stop World
  | 0, w, _ => .ok w
  | fuel + 1, w, pos =>
    if pos < w.allocationIndex.length then
      let slot := w.allocationIndex.getD pos 0
      let b := w.buffers slot
      let start := b.data
      if first + size ≤ start then .ok w
      else if !(c.ownerProcess && c.ownerThread) then .error .pagerFailure
      else
        let begin_ := (max first start - start) / PAGE
        let stop := rounded (min (first + size) (start + b.mapped) - start) / PAGE
        match materialize (e pos) w slot begin_ stop writing with
        | none => .error .pagerFailure
        | some w => prepareLoop c e first size writing fuel w (pos + 1)
    else .ok w

/-- The position in the index that `prepare` starts from. -/
def preparePos (w : World) (first : ℕ) : ℕ :=
  let pos := w.afterAddress first
  if pos ≠ 0 ∧ first - w.indexData (pos - 1) <
      (w.buffers (w.allocationIndex.getD (pos - 1) 0)).mapped then pos - 1 else pos

/-- `prepare`. -/
def prepare (c : Caller) (e : ℕ → MaterializeEnv) (w : World) (first size : ℕ) (writing : Bool) :
    Except Stop (World × Int) :=
  if size = 0 then .ok (w, 0)
  else if 2 ^ 64 - 1 - size < first then .ok (w, -1)
  else
    let pos := preparePos w first
    match prepareLoop c e first size writing (w.allocationIndex.length - pos) w pos with
    | .error s => .error s
    | .ok w => .ok (w, 0)

/-! ### Eviction -/

/-- What the environment decides in one `af_evict`: the `mprotect` to `PROT_NONE`, the `madvise`,
and the per-page `mprotect` calls that undo the first one. -/
structure EvictEnv where
  hidden : Bool
  discarded : Bool
  reprotected : ℕ → Bool

/-- The pages of the region that are present. -/
def removedPages (b : Buffer) : ℕ :=
  Span.countIn b.Present (b.recipeOffset / PAGE)
    (b.recipeOffset / PAGE + rounded b.recipeLength / PAGE)

/-- The protections `af_evict` puts back when `madvise` failed. -/
def reprotect (b : Buffer) (m : Memory) (first : ℕ) : ℕ → Memory
  | 0 => m
  | n + 1 =>
    (reprotect b m first n).mprotect (b.data + (first + n) * PAGE) PAGE
      (if b.pages (first + n) = .cold then .none else .read)

/-- The buffer after its region has been discarded. -/
def discardedBuffer (b : Buffer) : Buffer :=
  let first := b.recipeOffset / PAGE
  let last := first + rounded b.recipeLength / PAGE
  { b with
    state := .evicted
    residentPages := b.residentPages - removedPages b
    pages := Span.fill b.pages first last .cold
    lastFaultEnd := SIZE_MAX
    readahead := 1
    stats := { b.stats with evictions := b.stats.evictions + 1 } }

/-- The effect of a complete `af_evict`. -/
def applyDiscard (w : World) (slot : ℕ) : World :=
  let b := w.buffers slot
  let region := b.data + b.recipeOffset
  let w := { w with
    memory := (w.memory.mprotect region (rounded b.recipeLength) .none).dontneed region
      (rounded b.recipeLength)
    residentManaged := w.residentManaged - removedPages b * PAGE }
  w.setBuffer slot (discardedBuffer b)

/-- `af_evict`. -/
def evict (c : Caller) (e : EvictEnv) (w : World) (output : ℕ) : Except Stop (World × Int) :=
  match usable c with
  | some m => .ok (w.fail m, -1)
  | none =>
    match w.find output with
    | none => .ok (w.fail "unknown buffer", -1)
    | some slot =>
      let b := w.buffers slot
      let first := b.recipeOffset / PAGE
      let last := first + rounded b.recipeLength / PAGE
      if b.state = .evicted ∧ removedPages b = 0 then .ok (w, 0)
      else if b.state ≠ .sealed ∧ b.state ≠ .evicted then
        .ok (w.fail (if b.state = .pinned then "buffer was modified; its recipe is retired"
          else "buffer has no validated recipe"), -1)
      else if !e.hidden then .ok (w.fail "mprotect failed", -1)
      else
        if !e.discarded then
          let m := w.memory.mprotect (b.data + b.recipeOffset) (rounded b.recipeLength) .none
          if (List.range (last - first)).all fun i => e.reprotected (first + i) then
            .ok ({ w with memory := reprotect b m first (last - first) }.fail
              "MADV_DONTNEED failed", -1)
          else .error .pagerFailure
        else .ok (applyDiscard w slot, 0)

end Afterfree.Runtime.Pager
