import Afterfree.Runtime.Submit

/-!
# The entry points and runs of them

The residency policy, allocation, release and the remaining entry points of `runtime.cpp`, and the
runs they make: an `Op` is one call or one access of the application together with everything the
environment decides in it.
-/

namespace Afterfree.Runtime.Api

open Afterfree.Common Afterfree.Lib Afterfree.Runtime.State Afterfree.Runtime.Pager
open Afterfree.Runtime.Submit

/-! ### The residency policy -/

/-- A buffer the policy may evict: sealed, never evicted, never faulted, not the protected one. -/
def eligible (b : Buffer) (protectedOutput : ℕ) : Bool :=
  b.data ≠ 0 && b.data ≠ protectedOutput && b.state = .sealed && b.stats.evictions = 0 &&
    b.faultCount = 0

/-- The bytes an eviction frees beyond what the recipe keeps. -/
def benefit (b : Buffer) : ℕ := rounded b.recipeLength - b.stats.retainedBytes

/-- The time a replay is expected to take. -/
def cost (b : Buffer) : ℕ := max 1 b.stats.validationNs

/-- One step of the scan of `collect` over the slots: keep the better candidate. -/
def better (w : World) (protectedOutput : ℕ) (best : Option ℕ) (slot : ℕ) : Option ℕ :=
  let b := w.buffers slot
  if !eligible b protectedOutput || benefit b = 0 then best
  else
    match best with
    | none => some slot
    | some old =>
      let o := w.buffers old
      if benefit o * cost b < benefit b * cost o ∨
          (benefit b * cost o = benefit o * cost b ∧ b.id < o.id) then some slot
      else best

/-- The candidate `collect` evicts next. -/
@[irreducible] def candidate (w : World) (protectedOutput : ℕ) : Option ℕ :=
  (List.range MAX_SLOTS).foldl (better w protectedOutput) none

/-- The loop of `collect` for at most `fuel` rounds; `resident` is its running value. The
environment of an eviction is chosen by the id of the buffer. -/
def collectLoop (c : Caller) (e : ℕ → EvictEnv) (incoming protectedOutput : ℕ) :
    ℕ → World → ℕ → Except Stop (World × Int)
  | 0, _, _ => .error .diverged
  | fuel + 1, w, resident =>
    if w.residentTarget < resident + incoming then
      match candidate w protectedOutput with
      | none => .ok (w, 0)
      | some slot =>
        let b := w.buffers slot
        match evict c (e b.id) w b.data with
        | .error s => .error s
        | .ok (w, r) =>
          if r ≠ 0 then .ok (w, -1)
          else
            let w := { w with automaticEvictions := w.automaticEvictions + 1 }
            collectLoop c e incoming protectedOutput fuel w
              (resident - rounded (w.buffers slot).recipeLength)
    else .ok (w, 0)

/-- `collect`. Every round evicts a buffer that was never evicted before, so `MAX_SLOTS` rounds
are enough. -/
def collect (c : Caller) (e : ℕ → EvictEnv) (w : World) (incoming protectedOutput : ℕ) :
    Except Stop (World × Int) :=
  if w.residentTarget = 0 then .ok (w, 0)
  else collectLoop c e incoming protectedOutput (MAX_SLOTS + 1) w w.residentManaged

/-! ### Allocation and release -/

/-- What the environment decides in one `af_alloc`: the evictions of `collect`, the address `mmap`
returns, and whether the page metadata can be allocated. -/
structure AllocEnv where
  evict : ℕ → EvictEnv
  place : Option ℕ
  metadata : Bool

/-- The kernel places a mapping of `length` bytes only at a nonzero page boundary below the end of
the address space, where no live mapping is. -/
def placeable (w : World) (address length : ℕ) : Bool :=
  decide (address ≠ 0 ∧ address % PAGE = 0 ∧ address + length < 2 ^ 47) &&
    w.allocationIndex.all fun slot =>
      let b := w.buffers slot
      decide (b.data + b.mapped ≤ address ∨ address + length ≤ b.data)

/-- The slot `af_alloc` fills in. -/
def fresh (p size id : ℕ) : Buffer :=
  { Buffer.clear with
    pages := fun _ => .dirty
    residentPages := rounded size / PAGE
    data := p
    mapped := rounded size
    recipeLength := size
    id := id
    stats := { length := size } }

/-- The end of `af_alloc`: the new mapping, its slot and its place in the index. -/
def place (w : World) (slot p size : ℕ) : World :=
  let w := { w with
    memory := w.memory.mmap p (rounded size)
    nextid := w.nextid + 1
    buffers := Function.update w.buffers slot (fresh p size w.nextid) }
  let w := w.indexInsert slot
  { w with residentManaged := w.residentManaged + rounded size }.observeTarget

/-- `af_alloc`; the value is the address, `0` for a null pointer. -/
def alloc (c : Caller) (e : AllocEnv) (w : World) (size : ℕ) : Except Stop (World × ℕ) :=
  match usable c with
  | some m => .ok (w.fail m, 0)
  | none =>
    if size = 0 ∨ MAX_BUFFER < size then
      .ok (w.fail "buffer size must be 1 byte through 256 MiB", 0)
    else
      match (List.range MAX_SLOTS).find? fun i => (w.buffers i).data = 0 with
      | none => .ok (w.fail "4096 buffer limit reached", 0)
      | some slot =>
        match collect c e.evict w (rounded size) 0 with
        | .error s => .error s
        | .ok (w, r) =>
          if r ≠ 0 then .ok (w, 0)
          else
            match e.place with
            | none => .ok (w.fail "mmap failed", 0)
            | some p =>
              if !placeable w p (rounded size) then .ok (w.fail "mmap failed", 0)
              else if !e.metadata then
                .ok ((w.setBuffer slot Buffer.clear).fail "page metadata allocation failed", 0)
              else .ok (place w slot p size, p)

/-- What the environment decides in one `af_free`. -/
structure FreeEnv where
  drop : Link
  unmapped : Bool

/-- `af_free`. -/
def free (c : Caller) (e : FreeEnv) (w : World) (output : ℕ) : Except Stop (World × Int) :=
  match usable c with
  | some m => .ok (w.fail m, -1)
  | none =>
    match w.find output with
    | none => .ok (w.fail "unknown buffer", -1)
    | some slot =>
      let b := w.buffers slot
      let w := if b.recipeLive then (request e.drop w (handleDrop b.id)).1 else w
      if !e.unmapped then .ok (w.fail "munmap failed", -1)
      else
        let w := { w with
          memory := w.memory.mprotect output b.mapped .none
          residentManaged := w.residentManaged - b.residentPages * PAGE }
        match w.indexRemove output with
        | none => .error .aborted
        | some w => .ok (w.setBuffer slot Buffer.clear, 0)

/-! ### The other entry points -/

/-- `af_set_resident_target`. -/
def setResidentTarget (c : Caller) (w : World) (bytes : ℕ) : World × Int :=
  match usable c with
  | some m => (w.fail m, -1)
  | none =>
    if MAX_BUFFER * MAX_SLOTS < bytes then
      (w.fail "managed resident target exceeds supported address space", -1)
    else ({ w with residentTarget := bytes, peakOverTarget := 0 }.observeTarget, 0)

/-- `af_manage`. -/
def manage (c : Caller) (e : ℕ → EvictEnv) (w : World) (newlySealed : ℕ) :
    Except Stop (World × Int) :=
  match usable c with
  | some m => .ok (w.fail m, -1)
  | none =>
    if w.residentTarget = 0 then
      match evict c (e 0) w newlySealed with
      | .error s => .error s
      | .ok (w, r) =>
        .ok (if r = 0 then { w with automaticEvictions := w.automaticEvictions + 1 } else w, r)
    else collect c e w 0 newlySealed

/-- `af_materialize`. -/
def materializeAll (c : Caller) (e : MaterializeEnv) (w : World) (output : ℕ) :
    Except Stop (World × Int) :=
  match usable c with
  | some m => .ok (w.fail m, -1)
  | none =>
    match w.find output with
    | none => .ok (w.fail "unknown buffer", -1)
    | some slot =>
      match materialize e w slot 0 ((w.buffers slot).mapped / PAGE) false with
      | none => .error .pagerFailure
      | some w => .ok (w, 0)

/-! ### Runs -/

/-- One step of a run: a call of an entry point or an access of the application to one byte, with
what the environment decides in it. -/
inductive Op
  | alloc (c : Caller) (e : AllocEnv) (size : ℕ)
  | read (c : Caller) (e : MaterializeEnv) (address : ℕ)
  | write (c : Caller) (e : MaterializeEnv) (address : ℕ) (v : UInt8)
  | prepareRead (c : Caller) (e : ℕ → MaterializeEnv) (address size : ℕ)
  | prepareWrite (c : Caller) (e : ℕ → MaterializeEnv) (address size : ℕ)
  | submit (c : Caller) (e : SubmitEnv) (output : ℕ) (data : Option (List UInt8)) (captureNs : ℕ)
  | submitRegion (c : Caller) (e : SubmitEnv) (output : ℕ) (data : Option (List UInt8))
      (captureNs : ℕ)
  | evict (c : Caller) (e : EvictEnv) (output : ℕ)
  | manage (c : Caller) (e : ℕ → EvictEnv) (output : ℕ)
  | setResidentTarget (c : Caller) (bytes : ℕ)
  | materialize (c : Caller) (e : MaterializeEnv) (output : ℕ)
  | free (c : Caller) (e : FreeEnv) (output : ℕ)

/-- What a step returns to the application. -/
inductive Ret
  | code (r : Int)
  | pointer (p : ℕ)
  | byte (v : UInt8)
  | stored
deriving DecidableEq, Repr

/-- One step. -/
def step (w : World) : Op → Except Stop (World × Ret)
  | .alloc c e size => (Api.alloc c e w size).map fun x => (x.1, .pointer x.2)
  | .read c e a => (readByte c e w a).map fun x => (x.1, .byte x.2)
  | .write c e a v => (writeByte c e w a v).map fun x => (x, .stored)
  | .prepareRead c e a n => (prepare c e w a n false).map fun x => (x.1, .code x.2)
  | .prepareWrite c e a n => (prepare c e w a n true).map fun x => (x.1, .code x.2)
  | .submit c e p d t => let x := Submit.submit c e w p d t false; .ok (x.1, .code x.2)
  | .submitRegion c e p d t => let x := Submit.submit c e w p d t true; .ok (x.1, .code x.2)
  | .evict c e p => (Pager.evict c e w p).map fun x => (x.1, .code x.2)
  | .manage c e p => (Api.manage c e w p).map fun x => (x.1, .code x.2)
  | .setResidentTarget c n => let x := Api.setResidentTarget c w n; .ok (x.1, .code x.2)
  | .materialize c e p => (materializeAll c e w p).map fun x => (x.1, .code x.2)
  | .free c e p => (Api.free c e w p).map fun x => (x.1, .code x.2)

/-- A step of a run with what it returned. -/
abbrev Event : Type := Op × Ret

/-- `w'` is reached from `w` by the steps of `events`, none of which ends the process. -/
inductive Runs : World → List Event → World → Prop
  | nil (w : World) : Runs w [] w
  | cons {w w' w'' : World} {op : Op} {r : Ret} {events : List Event} :
      step w op = .ok (w', r) → Runs w' events w'' → Runs w ((op, r) :: events) w''

theorem Runs.append {w w1 w2 : World} {before after : List Event} (h : Runs w before w1)
    (h' : Runs w1 after w2) : Runs w (before ++ after) w2 := by
  induction h with
  | nil => exact h'
  | cons hs _ ih => exact .cons hs (ih h')

/-- Take the steps `ops` one after the other; `none` if one of them ends the process. -/
def play : World → List Op → Option (World × List Event)
  | w, [] => some (w, [])
  | w, op :: ops =>
    match step w op with
    | .error _ => none
    | .ok (w', r) => (play w' ops).map fun x => (x.1, (op, r) :: x.2)

theorem play_runs : ∀ {ops : List Op} {w : World} {x : World × List Event},
    play w ops = some x → Runs w x.2 x.1
  | [], w, x, h => by
    cases h
    exact .nil w
  | op :: ops, w, x, h => by
    unfold play at h
    split at h
    · cases h
    · next w' r hs =>
      obtain ⟨y, hy, rfl⟩ := Option.map_eq_some_iff.mp h
      exact .cons hs (play_runs hy)

theorem play_ops : ∀ {ops : List Op} {w : World} {x : World × List Event},
    play w ops = some x → x.2.map Prod.fst = ops
  | [], w, x, h => by
    cases h
    rfl
  | op :: ops, w, x, h => by
    unfold play at h
    split at h
    · cases h
    · next w' r hs =>
      obtain ⟨y, hy, rfl⟩ := Option.map_eq_some_iff.mp h
      rw [List.map_cons, play_ops hy]

theorem play_any {w : World} {ops : List Op} {p : World × List Event → Prop} [DecidablePred p]
    (h : ((play w ops).any fun x => decide (p x)) = true) :
    ∃ x : World × List Event, Runs w x.2 x.1 ∧ x.2.map Prod.fst = ops ∧ p x := by
  rcases hp : play w ops with _ | x
  · rw [hp] at h
    cases h
  · rw [hp] at h
    exact ⟨x, play_runs hp, play_ops hp, of_decide_eq_true h⟩

/-! ### A small run -/

/-- Zero bytes, no page accessible. -/
def sampleMemory : Memory := ⟨fun _ => 0, fun _ => .none⟩

/-- The image of a recipe without code for `length` bytes at `output`. -/
def sampleImage (output length : ℕ) : List UInt8 :=
  leBytes 8 MAGIC ++ leBytes 8 1 ++ List.replicate 16 0 ++ leBytes 8 output ++ leBytes 8 length ++
    List.replicate 488 0

/-- Every system call of an eviction succeeds. -/
def sampleEvict : EvictEnv := ⟨true, true, fun _ => true⟩

/-- Every call and transfer of a restore succeeds. -/
def sampleMaterialize : MaterializeEnv :=
  ⟨fun _ => ⟨⟨true, true⟩, fun _ => true, true, true, true, 0⟩, true, ⟨true, true⟩⟩

/-- Every transfer of a registration without streaming succeeds, and the worker commits. -/
def sampleSubmit (output : ℕ → UInt8) (registration : Registration) : SubmitEnv where
  streamingDisabled := true
  requestSent := true
  blobSent := true
  link := fun _ => ⟨true, true⟩
  registrationReceived := true
  chunkReceived := fun _ => true
  elapsed := 0
  isProtected := true
  drop := ⟨true, true⟩
  committed := true
  script := ⟨none, .committed output registration "emulator replay validated"⟩

/-- A seven followed by zeros. -/
def sampleBytes (i : ℕ) : UInt8 := if i = 0 then 7 else 0

/-- Allocate 537 bytes, write a seven, register a recipe for them and evict them. -/
def sampleOps : List Op :=
  [.alloc Caller.owner ⟨fun _ => sampleEvict, some 0x100000, true⟩ 537,
    .write Caller.owner sampleMaterialize 0x100000 7,
    .submit Caller.owner (sampleSubmit sampleBytes ⟨0, 0, 0⟩) 0x100000
      (some (sampleImage 0x100000 537)) 0,
    .evict Caller.owner sampleEvict 0x100000]

/-- Allocate 4097 bytes and 537 bytes in front of them, register recipes for both, the longer one
with page digests, and evict both. -/
def pairOps : List Op :=
  [.alloc Caller.owner ⟨fun _ => sampleEvict, some 0x101000, true⟩ 4097,
    .alloc Caller.owner ⟨fun _ => sampleEvict, some 0x100000, true⟩ 537,
    .write Caller.owner sampleMaterialize 0x100000 7,
    .submit Caller.owner (sampleSubmit (fun _ => 0) ⟨1, PAGE, 0⟩) 0x101000
      (some (sampleImage 0x101000 4097)) 0,
    .submit Caller.owner (sampleSubmit sampleBytes ⟨0, 0, 0⟩) 0x100000
      (some (sampleImage 0x100000 537)) 0,
    .evict Caller.owner sampleEvict 0x101000,
    .evict Caller.owner sampleEvict 0x100000]

end Afterfree.Runtime.Api
