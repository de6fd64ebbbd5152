import Afterfree.Worker.Checked

/-!
# The worker's command loop

`main` of `worker.cpp` for the commands that touch the recipe store: `PUT`, `REGISTER`,
`REGISTER_STREAM`, `DROP` and the three restores. What the environment decides (transfers,
allocation sizes, what compilation, generated code and emulator do) is part of the input of a step.
-/

namespace Afterfree.Worker.Server

open Afterfree.Common Afterfree.Codec Afterfree.Worker.Checked

/-! ### The store -/

/-- `struct Stored`; `retained` is the value of `retained()`. -/
structure Stored where
  recipe : Recipe
  native : Option Native
  retained : ℕ

/-- `recipes` and `bytes` of the command loop. -/
structure State where
  recipes : ℕ → Option Stored
  bytes : ℕ

/-- The state in which the worker enters its loop. -/
def State.initial : State := ⟨fun _ => none, 0⟩

/-- The retained-size budget of the worker: 512 MiB. -/
def BUDGET : ℕ := 512 * 2 ^ 20

/-- The retained size of what is stored under an id. -/
def State.retainedOf (s : State) (id : ℕ) : ℕ :=
  match s.recipes id with
  | some st => st.retained
  | none => 0

/-! ### Registration -/

/-- What the environment decides in one registration: the receipt of the image, the exception of
the `NativeReplay` constructor if it throws, the calls of the generated code and the
acknowledgements of its windows, the emulation, the sending of the restart message and the
acknowledgements after it, the retained size, and the sending of the answer. -/
structure RegisterEnv where
  received : Bool
  rejected : Option String
  whole : Call
  call : ℕ → Call
  acked : ℕ → Bool
  last : Call
  emulation : Emulation
  restarted : Bool
  emulatorAcked : ℕ → Bool
  retained : ℕ
  sent : Bool

/-- What `validate` ends with when it does not return an output. -/
inductive Abort
  | refuse (message : String)
  | stop
deriving DecidableEq, Repr

/-- The native attempt at a validation. -/
def validateNative (sha256 : List UInt8 → List UInt8) (e : RegisterEnv) (window : Option ℕ)
    (h : Header) : Except Failure (Native × List UInt8) :=
  match e.rejected with
  | some message => .error (.other message)
  | none =>
    match window with
    | some capacity => validateStream sha256 capacity h e.call e.acked e.last
    | none =>
      match Native.fresh.run sha256 h 0 h.length true e.whole with
      | .error message => .error (.other message)
      | .ok x => .ok x

/-- Whether every window of the emulator's output is acknowledged. -/
def allAcked (acked : ℕ → Bool) (capacity n : ℕ) : Bool :=
  (List.range ((n + capacity - 1) / capacity)).all fun i => acked (i * capacity)

/-- The validation of a registration; `window` is the capacity of the window when it streams. The
result is the native code, if that validated the recipe, the validated output and the message. -/
def validate (sha256 : List UInt8 → List UInt8) (e : RegisterEnv) (window : Option ℕ)
    (h : Header) : Except Abort (Option Native × List UInt8 × String) :=
  match validateNative sha256 e window h with
  | .ok (n, out) => .ok (some n, out, "native replay validated")
  | .error (.protocol message) => .error (.refuse message)
  | .error (.other message) =>
    match emulate sha256 h e.emulation with
    | .error message => .error (.refuse message)
    | .ok out =>
      let done := .ok (none, out, "emulator replay validated; native: " ++ message)
      match window with
      | none => done
      | some capacity =>
        if !e.restarted then .error .stop
        else if allAcked e.emulatorAcked capacity h.length then done
        else .error (.refuse "validation window acknowledgement failed")

/-- What the application is told. `closed` is the end of the worker. -/
inductive Answer
  | closed
  | refused (message : String)
  | committed (id : ℕ) (output : List UInt8) (registration : Registration) (message : String)
  | dropped (id : ℕ)
  | restored (id offset : ℕ) (bytes : List UInt8)
deriving DecidableEq, Repr

/-- `PUT`, `REGISTER` and `REGISTER_STREAM` for an image of `size` bytes. -/
def register (sha256 : List UInt8 → List UInt8) (arena : Option Arena) (e : RegisterEnv)
    (s : State) (streaming : Bool) (id : ℕ) (blob : List UInt8) : State × Answer :=
  if MAX_BLOB < blob.length ∨ blob.length < HEADER_SIZE then (s, .closed)
  else if BUDGET < s.bytes + blob.length then
    (s, if e.received then .refused "worker recipe budget exceeded" else .closed)
  else if !e.received then (s, .closed)
  else
    match decode blob with
    | .error message => (s, .refused message)
    | .ok recipe =>
      match streaming, arena with
      | true, none => (s, .refused "streaming requires a shared window")
      | _, _ =>
        let window := if streaming then arena.map Arena.capacity else none
        match validate sha256 e window recipe.h with
        | .error (.refuse message) => (s, .refused message)
        | .error .stop => (s, .closed)
        | .ok (native, out, message) =>
          let bytes := s.bytes - s.retainedOf id + e.retained
          if BUDGET < bytes then (s, .refused "worker recipe budget exceeded")
          else
            let pageBytes := match native with
              | some n => if n.pages then PAGE else 0
              | none => 0
            let registration : Registration :=
              ⟨if native.isSome then 1 else 0, pageBytes, e.retained⟩
            let s := { s with
              recipes := Function.update s.recipes id (some ⟨recipe, native, e.retained⟩)
              bytes := bytes }
            (s, if e.sent then .committed id out registration message else .closed)

/-! ### Restores -/

/-- What the environment decides in one restore: the call of the generated code, the emulation,
and the sending of the answer. -/
structure RestoreEnv where
  call : Call
  emulation : Emulation
  sent : Bool

/-- The range checks of a restore. -/
def invalidRange (arena : Option Arena) (st : Stored) (range shared : Bool) (offset length : ℕ) :
    Bool :=
  let whole := st.recipe.h.length
  let pageable := match st.native with
    | some n => n.pages
    | none => false
  let fits := match arena with
    | some a => decide (length ≤ a.capacity)
    | none => false
  length = 0 || whole < offset || whole - offset < length || (shared && !fits) ||
    (range && (!pageable || offset % PAGE ≠ 0 || (length % PAGE ≠ 0 && offset + length ≠ whole)))

/-- The offset and the length a restore asks for. -/
def rangeOf (st : Stored) (q : Request) : ℕ × ℕ :=
  if q.command = .restore then (0, st.recipe.h.length)
  else (rangeOffset q.size, rangeLength q.size)

/-- The reconstruction a restore asks for. -/
def reconstruct (sha256 : List UInt8 → List UInt8) (arena : Option Arena) (e : RestoreEnv)
    (st : Stored) (q : Request) : Except String (List UInt8) :=
  let (offset, length) := rangeOf st q
  if invalidRange arena st (q.command ≠ .restore) (q.command = .restoreShared) offset length then
    .error "invalid reconstruction range"
  else
    match st.native with
    | some n => (n.run sha256 st.recipe.h offset length false e.call).map Prod.snd
    | none => emulate sha256 st.recipe.h e.emulation

/-- `RESTORE`, `RESTORE_RANGE` and `RESTORE_SHARED`. -/
def restore (sha256 : List UInt8 → List UInt8) (arena : Option Arena) (e : RestoreEnv)
    (s : State) (q : Request) : State × Answer :=
  if !e.sent then (s, .closed)
  else
    match s.recipes q.id with
    | none => (s, .refused "recipe not found")
    | some st =>
      match reconstruct sha256 arena e st q with
      | .error message => (s, .refused message)
      | .ok bytes => (s, .restored q.id (rangeOf st q).1 bytes)

/-! ### Steps and runs -/

/-- One request with what the environment decides in it. -/
inductive Input
  | register (e : RegisterEnv) (streaming : Bool) (id : ℕ) (blob : List UInt8)
  | drop (sent : Bool) (id : ℕ)
  | restore (e : RestoreEnv) (command : Command) (id size : ℕ)

/-- `DROP`. -/
def drop (s : State) (sent : Bool) (id : ℕ) : State × Answer :=
  ({ recipes := Function.update s.recipes id none, bytes := s.bytes - s.retainedOf id },
    if sent then .dropped id else .closed)

/-- One round of the command loop. -/
def step (sha256 : List UInt8 → List UInt8) (arena : Option Arena) (s : State) :
    Input → State × Answer
  | .register e streaming id blob => register sha256 arena e s streaming id blob
  | .drop sent id => drop s sent id
  | .restore e command id size => restore sha256 arena e s ⟨command, id, size⟩

/-- The worker comes from `s` to `s'` and gives the answers on the way; it has not ended. -/
inductive Serves (sha256 : List UInt8 → List UInt8) (arena : Option Arena) :
    State → List Answer → State → Prop
  | nil (s : State) : Serves sha256 arena s [] s
  | cons {s s' s'' : State} {i : Input} {a : Answer} {answers : List Answer} :
      step sha256 arena s i = (s', a) → a ≠ .closed → Serves sha256 arena s' answers s'' →
      Serves sha256 arena s (a :: answers) s''

end Afterfree.Worker.Server
