import Mathlib.Data.List.AList
import Afterfree.Wrapping
import Afterfree.Worker.Server

/-!
# The command loop over its socket

`main` of `worker.cpp` byte by byte: what each request takes off the socket, what is sent for it,
and what becomes of `recipes` and `bytes`. The bytes still to come are a list, its end is the end of
the stream; the peer goes away after some number of sends, and from then on every send fails. What
allocations, compilation, generated code and emulator do is part of the input of a round.

* `round_consistent`, `Reachable.consistent`: the counter is the sum of what is retained and within
  the budget, in every state the loop reaches.
* `register_refused`: a registration that is answered with status 1 changes nothing and has taken
  its request, its image and one acknowledgement for every window it has announced.
* `round_server`: the round is a step of the command loop of `Worker.Server`, which knows no bytes.
-/

namespace Afterfree.Worker.Loop

open Afterfree.Common Afterfree.Codec Afterfree.Wrapping Afterfree.Worker.Checked
open Afterfree.Worker.Server (BUDGET)

/-! ### The socket -/

/-- What the worker sends. `chunk` is the response that announces a window of a validation. -/
inductive Reply
  | response (status size : ℕ) (message : String)
  | chunk (size : ℕ)
  | registration (r : Registration)
  | payload (bytes : List UInt8)
deriving DecidableEq, Repr

/-- The worker's end of the socket: the bytes to come, the sends that succeed before the peer is
gone, and what was sent. -/
structure Socket where
  incoming : List UInt8
  sends : ℕ
  log : List Reply
deriving DecidableEq, Repr

/-- `read_all`. -/
def Socket.readAll (n : ℕ) (c : Socket) : Socket × Option (List UInt8) :=
  if c.incoming.length < n then ({ c with incoming := [] }, none)
  else ({ c with incoming := c.incoming.drop n }, some (c.incoming.take n))

/-- `write_all`. -/
def Socket.writeAll (reply : Reply) (c : Socket) : Socket × Bool :=
  if c.sends = 0 then (c, false)
  else ({ c with sends := c.sends - 1, log := c.log ++ [reply] }, true)

/-- `respond`. -/
def respond (status : ℕ) (message : String) (data : List UInt8) (c : Socket) : Socket × Bool :=
  match c.writeAll (.response status data.length message) with
  | (c, false) => (c, false)
  | (c, true) => if data = [] then (c, true) else c.writeAll (.payload data)

/-- `sizeof(Request)`. -/
def REQUEST_SIZE : ℕ := 24

/-- The values of `enum Command`. -/
def commandOf : ℕ → Option Command
  | 1 => some .put
  | 2 => some .restore
  | 3 => some .drop
  | 4 => some .quit
  | 5 => some .ping
  | 6 => some .policyProbe
  | 7 => some .register
  | 8 => some .restoreRange
  | 9 => some .peakRss
  | 10 => some .profile
  | 11 => some .restoreShared
  | 12 => some .registerStream
  | 13 => some .streamAck
  | _ => none

/-- A `Request` as it was read. -/
structure Received where
  command : Option Command
  id : ℕ
  size : ℕ
deriving DecidableEq, Repr

/-- `read_all(fd, &q, sizeof q)` gives `q`. -/
def Received.ofBytes (image : List UInt8) : Received :=
  ⟨commandOf (fieldAt image 0 8), fieldAt image 8 8, fieldAt image 16 8⟩

/-! ### The store -/

/-- The sizes `NativeReplay::retained_bytes` adds up. -/
structure NativeSizes where
  object : ℕ
  executable : ℕ
  frames : ℕ
  constants : ℕ
  digests : ℕ
  gprs : ℕ
  vectors : ℕ
  hotFields : ℕ

/-- `NativeReplay::retained_bytes`. -/
def NativeSizes.retainedBytes (n : NativeSizes) : ℕ :=
  n.object + n.executable + n.frames + n.constants * 8 + n.digests * 32 + n.gprs * 4 +
    n.vectors * 4 + n.hotFields * 16

/-- The capacities of the vectors of a `Stored`. They are those of one object in memory, so what
they add up to is below the size of the user's address space. -/
structure Capacities where
  pages : ℕ
  code : ℕ
  inputs : ℕ
  bytes : List ℕ
  native : NativeSizes
  resident : 616 + 64 + pages * 8 + code * 24 + inputs * 32 + bytes.sum +
    (native.retainedBytes) < 2 ^ 47

/-- `struct Stored`. -/
structure Stored where
  recipe : Recipe
  native : Option Native
  capacity : Capacities

/-- `Stored::retained`: `sizeof(Stored)` is 616. -/
def Stored.retained (s : Stored) : ℕ :=
  616 + 64 + s.capacity.pages * 8 + s.capacity.code * 24 + s.capacity.inputs * 32 +
    s.capacity.bytes.sum + if s.native.isSome then s.capacity.native.retainedBytes else 0

/-- `recipes` and `bytes`. -/
structure Store where
  recipes : AList fun _ : ℕ => Stored
  bytes : ℕ

/-- The store in which the loop is entered. -/
def Store.initial : Store := ⟨∅, 0⟩

/-- The sum of `retained()` over the stored recipes. -/
def total (recipes : AList fun _ : ℕ => Stored) : ℕ :=
  (recipes.entries.map fun x => x.2.retained).sum

/-! ### Validation -/

/-- What the environment decides in one round: whether `Stored` and its vectors are allocated, the
exception of the `NativeReplay` constructor, whether the digest context and the output are
allocated, the calls of the generated code, the emulation, the capacities, whether `recipes[q.id]`
is allocated, the payload of `PROFILE` and what `PING`, `PEAK_RSS` and `POLICY_PROBE` find. -/
structure Environment where
  allocated : Bool
  rejected : Option String
  context : Bool
  output : Bool
  whole : Call
  call : ℕ → Call
  last : Call
  emulation : Emulation
  capacity : Capacities
  inserted : Bool
  profile : List UInt8
  pid : Option String
  usage : Option String
  denied : Bool

/-- `publish`: announce a window and wait for its acknowledgement. The result is the new `sent`;
`none` is a `ProtocolFailure`. -/
def publish (id sent length : ℕ) (c : Socket) : Socket × Option ℕ :=
  let sent := sent + length
  match c.writeAll (.chunk length) with
  | (c, false) => (c, none)
  | (c, true) =>
    match c.readAll REQUEST_SIZE with
    | (c, none) => (c, none)
    | (c, some image) =>
      let ack := Received.ofBytes image
      if ack.command ≠ some .streamAck ∨ ack.id ≠ id ∨ ack.size ≠ sent then (c, none)
      else (c, some sent)

/-- The loop of `validate_stream` with `publish` as its sink. -/
def windows (sha256 : List UInt8 → List UInt8) (id capacity : ℕ) (h : Header) (call : ℕ → Call) :
    ℕ → ℕ → ℕ → List UInt8 → List (List UInt8) → Socket →
      Socket × Except Failure (List UInt8 × List (List UInt8))
  | 0, _, _, done, digests, c => (c, .ok (done, digests))
  | fuel + 1, offset, sent, done, digests, c =>
    if offset < h.length then
      let size := min capacity (h.length - offset)
      if !(call offset).completed then
        (c, .error (.other "native validation cannot yield at the requested boundary"))
      else if !(call offset).updated then (c, .error (.other "validation digest update failed"))
      else if !(call offset).paged then (c, .error (.other "native page digest failed"))
      else
        match publish id sent size c with
        | (c, none) => (c, .error (.protocol "validation window acknowledgement failed"))
        | (c, some sent) =>
          let window := content (call offset).written size
          windows sha256 id capacity h call fuel (offset + size) sent (done ++ window)
            (digests ++ pageDigests sha256 window) c
    else (c, .ok (done, digests))

/-- `NativeReplay::validate_stream`. -/
def validateStream (sha256 : List UInt8 → List UInt8) (e : Environment) (id capacity : ℕ)
    (h : Header) (c : Socket) : Socket × Except Failure (Native × List UInt8) :=
  if capacity = 0 ∨ capacity % PAGE ≠ 0 then (c, .error (.other "invalid validation window"))
  else if !e.context then (c, .error (.other "cannot initialize validation digest"))
  else
    match windows sha256 id capacity h e.call h.length 0 0 [] [] c with
    | (c, .error f) => (c, .error f)
    | (c, .ok (out, digests)) =>
      if e.last.hashed = false ∨ sha256 out ≠ h.digest then
        (c, .error (.other "native replay digest mismatch"))
      else if e.last.collected then (c, .ok (⟨true, digests⟩, out))
      else (c, .ok (⟨false, []⟩, out))

/-- The native attempt; `window` is the capacity of the window when the registration streams. -/
def attempt (sha256 : List UInt8 → List UInt8) (e : Environment) (id : ℕ) (window : Option ℕ)
    (h : Header) (c : Socket) : Socket × Except Failure (Native × List UInt8) :=
  match e.rejected with
  | some message => (c, .error (.other message))
  | none =>
    match window with
    | some capacity => validateStream sha256 e id capacity h c
    | none =>
      if !e.output then (c, .error (.other "std::bad_alloc"))
      else
        match Native.fresh.run sha256 h 0 h.length true e.whole with
        | .error message => (c, .error (.other message))
        | .ok x => (c, .ok x)

/-- The windows of the emulator's output. -/
def republish (id capacity length : ℕ) : ℕ → ℕ → ℕ → Socket → Socket × Bool
  | 0, _, _, c => (c, true)
  | fuel + 1, offset, sent, c =>
    if offset < length then
      match publish id sent (min capacity (length - offset)) c with
      | (c, none) => (c, false)
      | (c, some sent) => republish id capacity length fuel (offset + capacity) sent c
    else (c, true)

/-- The validation of a registration, with the emulator when the native attempt fails. -/
def validate (sha256 : List UInt8 → List UInt8) (e : Environment) (id : ℕ) (window : Option ℕ)
    (h : Header) (c : Socket) :
    Socket × Except Server.Abort (Option Native × List UInt8 × String) :=
  match attempt sha256 e id window h c with
  | (c, .ok (n, out)) => (c, .ok (some n, out, "native replay validated"))
  | (c, .error (.protocol message)) => (c, .error (.refuse message))
  | (c, .error (.other message)) =>
    match emulate sha256 h e.emulation with
    | .error message => (c, .error (.refuse message))
    | .ok out =>
      let done := .ok (none, out, "emulator replay validated; native: " ++ message)
      match window with
      | none => (c, done)
      | some capacity =>
        match respond 2 "restart comparison with strict emulator" [] c with
        | (c, false) => (c, .error .stop)
        | (c, true) =>
          match republish id capacity h.length h.length 0 0 c with
          | (c, true) => (c, done)
          | (c, false) => (c, .error (.refuse "validation window acknowledgement failed"))

/-! ### One round -/

/-- The outer handler: answer with status 1. -/
def refuse (s : Store) (message : String) (c : Socket) : Store × Socket × Bool :=
  let (c, ok) := respond 1 message [] c
  (s, c, ok)

/-- The loop that takes a refused image off the socket, 4096 bytes at a time. -/
def drain : ℕ → ℕ → Socket → Socket × Bool
  | 0, _, c => (c, true)
  | fuel + 1, left, c =>
    if left = 0 then (c, true)
    else
      match c.readAll (min 4096 left) with
      | (c, none) => (c, false)
      | (c, some _) => drain fuel (left - min 4096 left) c

/-- What a committed registration is answered with. -/
def acknowledge (command : Command) (registration : Registration) (message : String)
    (validated : List UInt8) (c : Socket) : Socket × Bool :=
  if command = .registerStream then
    match c.writeAll (.response 0 0 message) with
    | (c, false) => (c, false)
    | (c, true) => c.writeAll (.registration registration)
  else if command = .register then
    match c.writeAll (.response 0 validated.length message) with
    | (c, false) => (c, false)
    | (c, true) =>
      match c.writeAll (.registration registration) with
      | (c, false) => (c, false)
      | (c, true) => c.writeAll (.payload validated)
  else respond 0 message validated c

/-- The end of a registration: the budget, the commit and the answer. -/
def commit (e : Environment) (s : Store) (command : Command) (id : ℕ) (value : Stored)
    (message : String) (validated : List UInt8) (c : Socket) : Store × Socket × Bool :=
  let oldSize := match s.recipes.lookup id with
    | some st => st.retained
    | none => 0
  let newSize := value.retained
  if BUDGET < add64 (sub64 s.bytes oldSize) newSize then
    refuse s "worker recipe budget exceeded" c
  else if !e.inserted then refuse s "std::bad_alloc" c
  else
    let pageBytes := match value.native with
      | some n => if n.pages then PAGE else 0
      | none => 0
    let registration : Registration := ⟨if value.native.isSome then 1 else 0, pageBytes, newSize⟩
    let (c, ok) := acknowledge command registration message validated c
    (⟨s.recipes.insert id value, add64 (sub64 s.bytes oldSize) newSize⟩, c, ok)

/-- The body of the `try` of a registration. -/
def admitBlob (sha256 : List UInt8 → List UInt8) (arena : Option Arena) (e : Environment)
    (s : Store) (command : Command) (id : ℕ) (blob : List UInt8) (c : Socket) :
    Store × Socket × Bool :=
  if !e.allocated then refuse s "std::bad_alloc" c
  else
    match decode blob with
    | .error message => refuse s message c
    | .ok recipe =>
      if command = .registerStream ∧ arena.isNone then
        refuse s "streaming requires a shared window" c
      else
        let window := if command = .registerStream then arena.map Arena.capacity else none
        match validate sha256 e id window recipe.h c with
        | (c, .error (.refuse message)) => refuse s message c
        | (c, .error .stop) => (s, c, false)
        | (c, .ok (native, out, message)) =>
          commit e s command id ⟨recipe, native, e.capacity⟩ message out c

/-- `PUT`, `REGISTER` and `REGISTER_STREAM`. -/
def register (sha256 : List UInt8 → List UInt8) (arena : Option Arena) (e : Environment) (s : Store)
    (command : Command) (id size : ℕ) (c : Socket) : Store × Socket × Bool :=
  if MAX_BLOB < size ∨ size < HEADER_SIZE then
    (s, (respond 1 "invalid protocol size" [] c).1, false)
  else if BUDGET < add64 s.bytes size then
    match drain size size c with
    | (c, false) => (s, c, false)
    | (c, true) => refuse s "worker recipe budget exceeded" c
  else
    match c.readAll size with
    | (c, none) => (s, c, false)
    | (c, some blob) => admitBlob sha256 arena e s command id blob c

/-- `DROP`. -/
def drop (s : Store) (id : ℕ) (c : Socket) : Store × Socket × Bool :=
  let s := match s.recipes.lookup id with
    | some st => ⟨s.recipes.erase id, sub64 s.bytes st.retained⟩
    | none => s
  let (c, ok) := respond 0 "dropped" [] c
  (s, c, ok)

/-- What a restore answers when the reconstruction has ended. -/
def restored (s : Store) (command : Command) (result : Except String (List UInt8)) (c : Socket) :
    Store × Socket × Bool :=
  match result with
  | .error message => refuse s message c
  | .ok bytes =>
    let (c, ok) := if command = .restoreShared then c.writeAll (.response 0 bytes.length "")
      else respond 0 "restored" bytes c
    (s, c, ok)

/-- `RESTORE`, `RESTORE_RANGE` and `RESTORE_SHARED`. A `run` without validation writes nothing of
the stored object. -/
def restore (sha256 : List UInt8 → List UInt8) (arena : Option Arena) (e : Environment) (s : Store)
    (q : Request) (c : Socket) : Store × Socket × Bool :=
  match s.recipes.lookup q.id with
  | none => refuse s "recipe not found" c
  | some st =>
    let stored : Server.Stored := ⟨st.recipe, st.native, st.retained⟩
    let (offset, length) := Server.rangeOf stored q
    if Server.invalidRange arena stored (q.command ≠ .restore) (q.command = .restoreShared) offset
        length then restored s q.command (.error "invalid reconstruction range") c
    else
      match st.native with
      | some n =>
        if q.command ≠ .restoreShared ∧ e.output = false then
          restored s q.command (.error "std::bad_alloc") c
        else
          let result := (n.run sha256 st.recipe.h offset length false e.whole).map Prod.snd
          restored s q.command result c
      | none => restored s q.command (emulate sha256 st.recipe.h e.emulation) c

/-- A command that only sends an answer, `none` if it cannot. -/
def inform (s : Store) (status : ℕ) (message : Option String) (data : List UInt8) (c : Socket) :
    Store × Socket × Bool :=
  match message with
  | none => (s, c, false)
  | some message =>
    let (c, ok) := respond status message data c
    (s, c, ok)

/-- What the loop does with a request. -/
def dispatch (sha256 : List UInt8 → List UInt8) (arena : Option Arena) (e : Environment) (s : Store)
    (q : Received) (c : Socket) : Store × Socket × Bool :=
  match q.command with
  | some .profile => inform s 0 (some "profile") e.profile c
  | some .quit => (s, c, false)
  | some .policyProbe =>
    inform s (if e.denied then 0 else 1) (some "network and file writes denied") [] c
  | some .ping => inform s 0 e.pid [] c
  | some .drop => drop s q.id c
  | some .peakRss => inform s 0 e.usage [] c
  | some .put => register sha256 arena e s .put q.id q.size c
  | some .register => register sha256 arena e s .register q.id q.size c
  | some .registerStream => register sha256 arena e s .registerStream q.id q.size c
  | some .restore => restore sha256 arena e s ⟨.restore, q.id, q.size⟩ c
  | some .restoreRange => restore sha256 arena e s ⟨.restoreRange, q.id, q.size⟩ c
  | some .restoreShared => restore sha256 arena e s ⟨.restoreShared, q.id, q.size⟩ c
  | some .streamAck => (s, (respond 1 "unknown command" [] c).1, false)
  | none => (s, (respond 1 "unknown command" [] c).1, false)

/-- **One round of the loop**: the store, the socket, and whether the loop goes on. -/
def round (sha256 : List UInt8 → List UInt8) (arena : Option Arena) (e : Environment) (s : Store)
    (c : Socket) : Store × Socket × Bool :=
  match c.readAll REQUEST_SIZE with
  | (c, none) => (s, c, false)
  | (c, some image) => dispatch sha256 arena e s (Received.ofBytes image) c

/-- What the loop reaches from its first round on; the end of the loop included. -/
inductive Reachable (sha256 : List UInt8 → List UInt8) (arena : Option Arena) (c₀ : Socket) :
    Store → Socket → Bool → Prop
  | start : Reachable sha256 arena c₀ Store.initial c₀ true
  | round {s s' : Store} {c c' : Socket} {more : Bool} {e : Environment} :
      Reachable sha256 arena c₀ s c true → round sha256 arena e s c = (s', c', more) →
      Reachable sha256 arena c₀ s' c' more

/-! ### The sum over the store -/

theorem sum_kerase (id : ℕ) : ∀ l : List (Σ _ : ℕ, Stored),
    (l.map fun x => x.2.retained).sum =
      ((l.dlookup id).map Stored.retained).getD 0 + ((l.kerase id).map fun x => x.2.retained).sum
  | [] => rfl
  | ⟨a, b⟩ :: l => by
    by_cases h : id = a
    · subst h
      have e : List.kerase id (⟨id, b⟩ :: l) = l := List.kerase_cons_eq rfl
      rw [e, List.dlookup_cons_eq]
      rfl
    · rw [List.kerase_cons_ne h, List.dlookup_cons_ne l ⟨a, b⟩ h, List.map_cons, List.sum_cons,
        sum_kerase id l, List.map_cons, List.sum_cons]
      omega

/-- The retained size of what is stored under an id. -/
def retainedOf (recipes : AList fun _ : ℕ => Stored) (id : ℕ) : ℕ :=
  ((recipes.lookup id).map Stored.retained).getD 0

theorem total_erase (recipes : AList fun _ : ℕ => Stored) (id : ℕ) :
    total recipes = retainedOf recipes id + total (recipes.erase id) :=
  sum_kerase id recipes.entries

theorem total_insert (recipes : AList fun _ : ℕ => Stored) (id : ℕ) (value : Stored) :
    total (recipes.insert id value) = value.retained + total (recipes.erase id) := by
  unfold total
  rw [AList.entries_insert, List.map_cons, List.sum_cons]
  rfl

theorem Stored.retained_lt (s : Stored) : s.retained < 2 ^ 47 := by
  have h := s.capacity.resident
  unfold Stored.retained
  split_ifs <;> omega

/-- **The counter is right**: it is the sum of what is retained, and within the budget. -/
structure Consistent (s : Store) : Prop where
  sum : s.bytes = total s.recipes
  budget : s.bytes ≤ BUDGET

theorem Consistent.initial : Consistent Store.initial := ⟨rfl, Nat.zero_le _⟩

theorem Consistent.replaced {s : Store} (h : Consistent s) (id : ℕ) (value : Stored) :
    add64 (sub64 s.bytes (retainedOf s.recipes id)) value.retained =
      value.retained + total (s.recipes.erase id) := by
  have hsum := h.sum
  have hbudget := h.budget
  have herase := total_erase s.recipes id
  have hvalue := value.retained_lt
  unfold BUDGET at hbudget
  have hmax : UINT64_MAX = 18446744073709551615 := rfl
  rw [sub64_eq (by omega) (by omega), add64_eq (by omega)]
  omega

theorem Consistent.insert {s : Store} (h : Consistent s) {id : ℕ} {value : Stored}
    (hb : add64 (sub64 s.bytes (retainedOf s.recipes id)) value.retained ≤ BUDGET) :
    Consistent ⟨s.recipes.insert id value,
      add64 (sub64 s.bytes (retainedOf s.recipes id)) value.retained⟩ where
  sum := (h.replaced id value).trans (total_insert s.recipes id value).symm
  budget := hb

theorem Consistent.erase {s : Store} (h : Consistent s) (id : ℕ) :
    Consistent ⟨s.recipes.erase id, sub64 s.bytes (retainedOf s.recipes id)⟩ := by
  have hsum := h.sum
  have hbudget := h.budget
  have herase := total_erase s.recipes id
  unfold BUDGET at hbudget
  have hmax : UINT64_MAX = 18446744073709551615 := rfl
  have e : sub64 s.bytes (retainedOf s.recipes id) = total (s.recipes.erase id) := by
    rw [sub64_eq (by omega) (by omega)]
    omega
  exact ⟨e, by unfold BUDGET; dsimp only; omega⟩

/-! ### What a round takes and sends -/

/-- From `c` to `c'` the worker has taken `n` bytes and sent `replies`. -/
structure Moves (c c' : Socket) (n : ℕ) (replies : List Reply) : Prop where
  log : c'.log = c.log ++ replies
  incoming : c'.incoming = c.incoming.drop n

theorem Moves.refl (c : Socket) : Moves c c 0 [] := ⟨(List.append_nil _).symm, rfl⟩

theorem Moves.trans {c c' c'' : Socket} {n m : ℕ} {r r' : List Reply} (h : Moves c c' n r)
    (h' : Moves c' c'' m r') : Moves c c'' (n + m) (r ++ r') where
  log := by rw [h'.log, h.log, List.append_assoc]
  incoming := by rw [h'.incoming, h.incoming, List.drop_drop]

theorem moves_readAll {c c' : Socket} {n : ℕ} {r : Option (List UInt8)}
    (h : c.readAll n = (c', r)) : Moves c c' n [] := by
  unfold Socket.readAll at h
  split_ifs at h with hn
  · cases h
    exact ⟨(List.append_nil _).symm, (List.drop_eq_nil_of_le (Nat.le_of_lt hn)).symm⟩
  · cases h
    exact ⟨(List.append_nil _).symm, rfl⟩

theorem moves_writeAll {c c' : Socket} {reply : Reply} {ok : Bool}
    (h : c.writeAll reply = (c', ok)) : Moves c c' 0 (if ok then [reply] else []) := by
  unfold Socket.writeAll at h
  split_ifs at h
  · cases h
    exact Moves.refl c
  · cases h
    exact ⟨rfl, rfl⟩

/-- The windows announced. -/
def announced (replies : List Reply) : ℕ :=
  replies.countP fun r => match r with
    | .chunk _ => true
    | _ => false

/-- There is an answer with status 1. -/
def Refused (replies : List Reply) : Prop :=
  ∃ size message, Reply.response 1 size message ∈ replies

theorem announced_append (r r' : List Reply) : announced (r ++ r') = announced r + announced r' :=
  List.countP_append

theorem refused_append {r r' : List Reply} : Refused (r ++ r') ↔ Refused r ∨ Refused r' := by
  unfold Refused
  constructor
  · rintro ⟨size, message, h⟩
    rcases List.mem_append.mp h with h | h
    · exact .inl ⟨size, message, h⟩
    · exact .inr ⟨size, message, h⟩
  · rintro (⟨size, message, h⟩ | ⟨size, message, h⟩)
    · exact ⟨size, message, List.mem_append_left _ h⟩
    · exact ⟨size, message, List.mem_append_right _ h⟩

/-- **In step with the peer**: no answer with status 1, and one request record taken for every
window announced. -/
def Streams (c c' : Socket) : Prop :=
  ∃ r, Moves c c' (REQUEST_SIZE * announced r) r ∧ ¬ Refused r

theorem Streams.refl (c : Socket) : Streams c c :=
  ⟨[], Moves.refl c, by rintro ⟨_, _, h⟩; cases h⟩

theorem Streams.trans {c c' c'' : Socket} (h : Streams c c') (h' : Streams c' c'') :
    Streams c c'' := by
  obtain ⟨r, hm, hr⟩ := h
  obtain ⟨r', hm', hr'⟩ := h'
  refine ⟨r ++ r', ?_, fun hf => (refused_append.mp hf).elim hr hr'⟩
  rw [announced_append, Nat.mul_add]
  exact hm.trans hm'

theorem streams_writeAll {c c' : Socket} {reply : Reply} {ok : Bool}
    (h : c.writeAll reply = (c', ok)) (hc : announced [reply] = 0) (hr : ¬ Refused [reply]) :
    Streams c c' := by
  have hm := moves_writeAll h
  cases ok with
  | false => exact ⟨[], hm, by rintro ⟨_, _, h⟩; cases h⟩
  | true => exact ⟨[reply], by rw [hc]; exact hm, hr⟩

theorem not_refused_response {status size : ℕ} {message : String} (h : status ≠ 1) :
    ¬ Refused [.response status size message] := by
  rintro ⟨_, _, hm⟩
  cases List.mem_singleton.mp hm
  exact h rfl

theorem not_refused_registration {r : Registration} : ¬ Refused [.registration r] := by
  rintro ⟨_, _, hm⟩
  cases List.mem_singleton.mp hm

theorem not_refused_payload {bytes : List UInt8} : ¬ Refused [.payload bytes] := by
  rintro ⟨_, _, hm⟩
  cases List.mem_singleton.mp hm

theorem streams_respond {status : ℕ} {message : String} {data : List UInt8} {c c' : Socket}
    {ok : Bool} (h : respond status message data c = (c', ok)) (hs : status ≠ 1) :
    Streams c c' := by
  unfold respond at h
  rcases hw : c.writeAll (.response status data.length message) with ⟨c₁, ok₁⟩
  have h₁ := streams_writeAll hw rfl (not_refused_response hs)
  rw [hw] at h
  cases ok₁ with
  | false =>
    cases h
    exact h₁
  | true =>
    dsimp only at h
    split_ifs at h
    · cases h
      exact h₁
    · exact h₁.trans (streams_writeAll h rfl not_refused_payload)

/-- **One window**: announced and acknowledged, or neither. -/
theorem streams_publish {id sent length : ℕ} {c c' : Socket} {r : Option ℕ}
    (h : publish id sent length c = (c', r)) : Streams c c' := by
  unfold publish at h
  dsimp only at h
  rcases hw : c.writeAll (.chunk length) with ⟨c₁, ok⟩
  have h₁ := moves_writeAll hw
  rw [hw] at h
  cases ok with
  | false =>
    cases h
    exact ⟨[], h₁, by rintro ⟨_, _, hm⟩; cases hm⟩
  | true =>
    rcases hr : c₁.readAll REQUEST_SIZE with ⟨c₂, image⟩
    have h₂ := moves_readAll hr
    dsimp only at h
    rw [hr] at h
    have hc : c' = c₂ := by
      cases image with
      | none => exact (congrArg Prod.fst h).symm
      | some image =>
        dsimp only at h
        split_ifs at h
        · exact (congrArg Prod.fst h).symm
        · exact (congrArg Prod.fst h).symm
    subst hc
    refine ⟨[.chunk length], ?_, ?_⟩
    · have := h₁.trans h₂
      exact ⟨by simpa using this.log, by simpa [announced] using this.incoming⟩
    · rintro ⟨_, _, hm⟩
      cases List.mem_singleton.mp hm

theorem streams_windows {sha256 : List UInt8 → List UInt8} {id capacity : ℕ} {h : Header}
    {call : ℕ → Call} : ∀ {fuel offset sent : ℕ} {done : List UInt8} {digests : List (List UInt8)}
      {c c' : Socket} {r : Except Failure (List UInt8 × List (List UInt8))},
    windows sha256 id capacity h call fuel offset sent done digests c = (c', r) → Streams c c'
  | 0, _, _, _, _, c, c', _, hw => by
    cases hw
    exact Streams.refl c
  | fuel + 1, offset, sent, done, digests, c, c', r, hw => by
    unfold windows at hw
    dsimp only at hw
    split_ifs at hw
    · cases hw
      exact Streams.refl c
    · cases hw
      exact Streams.refl c
    · cases hw
      exact Streams.refl c
    · rcases hp : publish id sent (min capacity (h.length - offset)) c with ⟨c₁, r₁⟩
      have h₁ := streams_publish hp
      rw [hp] at hw
      cases r₁ with
      | none =>
        cases hw
        exact h₁
      | some sent' => exact h₁.trans (streams_windows hw)
    · cases hw
      exact Streams.refl c

theorem streams_republish {id capacity length : ℕ} : ∀ {fuel offset sent : ℕ} {c c' : Socket}
    {ok : Bool}, republish id capacity length fuel offset sent c = (c', ok) → Streams c c'
  | 0, _, _, c, c', _, hr => by
    cases hr
    exact Streams.refl c
  | fuel + 1, offset, sent, c, c', ok, hr => by
    unfold republish at hr
    split_ifs at hr
    · rcases hp : publish id sent (min capacity (length - offset)) c with ⟨c₁, r₁⟩
      have h₁ := streams_publish hp
      rw [hp] at hr
      cases r₁ with
      | none =>
        cases hr
        exact h₁
      | some sent' => exact h₁.trans (streams_republish hr)
    · cases hr
      exact Streams.refl c

theorem streams_validateStream {sha256 : List UInt8 → List UInt8} {e : Environment}
    {id capacity : ℕ} {h : Header} {c c' : Socket} {r : Except Failure (Native × List UInt8)}
    (hv : validateStream sha256 e id capacity h c = (c', r)) : Streams c c' := by
  unfold validateStream at hv
  rcases hw : windows sha256 id capacity h e.call h.length 0 0 [] [] c with ⟨c₁, r₁⟩
  have h₁ := streams_windows hw
  rw [hw] at hv
  cases r₁ with
  | error f =>
    dsimp only at hv
    split_ifs at hv <;> cases hv
    · exact Streams.refl c
    · exact Streams.refl c
    · exact h₁
  | ok x =>
    dsimp only at hv
    split_ifs at hv <;> cases hv
    · exact Streams.refl c
    · exact Streams.refl c
    · exact h₁
    · exact h₁
    · exact h₁

theorem streams_attempt {sha256 : List UInt8 → List UInt8} {e : Environment} {id : ℕ}
    {window : Option ℕ} {h : Header} {c c' : Socket} {r : Except Failure (Native × List UInt8)}
    (ha : attempt sha256 e id window h c = (c', r)) : Streams c c' := by
  unfold attempt at ha
  cases hrej : e.rejected with
  | some message =>
    rw [hrej] at ha
    cases ha
    exact Streams.refl c
  | none =>
    rw [hrej] at ha
    cases window with
    | some capacity => exact streams_validateStream ha
    | none =>
      dsimp only at ha
      split_ifs at ha
      · cases ha
        exact Streams.refl c
      · cases hn : Native.fresh.run sha256 h 0 h.length true e.whole with
        | error message =>
          rw [hn] at ha
          cases ha
          exact Streams.refl c
        | ok x =>
          rw [hn] at ha
          cases ha
          exact Streams.refl c

/-- **The validation stays in step**, also when it is restarted with the emulator. -/
theorem streams_validate {sha256 : List UInt8 → List UInt8} {e : Environment} {id : ℕ}
    {window : Option ℕ} {h : Header} {c c' : Socket}
    {r : Except Server.Abort (Option Native × List UInt8 × String)}
    (hv : validate sha256 e id window h c = (c', r)) : Streams c c' := by
  unfold validate at hv
  rcases ha : attempt sha256 e id window h c with ⟨c₁, r₁⟩
  have h₁ := streams_attempt ha
  rw [ha] at hv
  match r₁ with
  | .ok (n, out) =>
    cases hv
    exact h₁
  | .error (.protocol message) =>
    cases hv
    exact h₁
  | .error (.other message) =>
    dsimp only at hv
    cases he : emulate sha256 h e.emulation with
    | error message =>
      rw [he] at hv
      cases hv
      exact h₁
    | ok out =>
      rw [he] at hv
      cases window with
      | none =>
        cases hv
        exact h₁
      | some capacity =>
        dsimp only at hv
        rcases hs : respond 2 "restart comparison with strict emulator" [] c₁ with ⟨c₂, ok⟩
        have h₂ := h₁.trans (streams_respond hs (by decide))
        rw [hs] at hv
        cases ok with
        | false =>
          cases hv
          exact h₂
        | true =>
          dsimp only at hv
          rcases hp : republish id capacity h.length h.length 0 0 c₂ with ⟨c₃, ok₃⟩
          have h₃ := h₂.trans (streams_republish hp)
          rw [hp] at hv
          cases ok₃ <;> cases hv <;> exact h₃

/-! ### Registrations -/

/-- **The outer handler** changes nothing; it has answered or the peer is gone. -/
theorem refuse_cases {s s' : Store} {message : String} {c c' : Socket} {more : Bool}
    (h : refuse s message c = (s', c', more)) :
    s' = s ∧
      (more = false ∧ Moves c c' 0 [] ∨ more = true ∧ Moves c c' 0 [.response 1 0 message]) := by
  unfold refuse respond at h
  rcases hw : c.writeAll (.response 1 ([] : List UInt8).length message) with ⟨c₁, ok⟩
  have h₁ := moves_writeAll hw
  rw [hw] at h
  cases ok with
  | false =>
    cases h
    exact ⟨rfl, .inl ⟨rfl, h₁⟩⟩
  | true =>
    cases h
    exact ⟨rfl, .inr ⟨rfl, h₁⟩⟩

theorem streams_acknowledge {command : Command} {registration : Registration} {message : String}
    {validated : List UInt8} {c c' : Socket} {ok : Bool}
    (h : acknowledge command registration message validated c = (c', ok)) : Streams c c' := by
  unfold acknowledge at h
  split_ifs at h
  · rcases hw : c.writeAll (.response 0 0 message) with ⟨c₁, ok₁⟩
    have h₁ := streams_writeAll hw rfl (not_refused_response (by decide))
    rw [hw] at h
    cases ok₁ with
    | false =>
      cases h
      exact h₁
    | true => exact h₁.trans (streams_writeAll h rfl not_refused_registration)
  · rcases hw : c.writeAll (.response 0 validated.length message) with ⟨c₁, ok₁⟩
    have h₁ := streams_writeAll hw rfl (not_refused_response (by decide))
    rw [hw] at h
    cases ok₁ with
    | false =>
      cases h
      exact h₁
    | true =>
      dsimp only at h
      rcases hw₂ : c₁.writeAll (.registration registration) with ⟨c₂, ok₂⟩
      have h₂ := h₁.trans (streams_writeAll hw₂ rfl not_refused_registration)
      rw [hw₂] at h
      cases ok₂ with
      | false =>
        cases h
        exact h₂
      | true => exact h₂.trans (streams_writeAll h rfl not_refused_payload)
  · exact streams_respond h (by decide)

/-- The store after a commit. -/
def Store.put (s : Store) (id : ℕ) (value : Stored) : Store :=
  ⟨s.recipes.insert id value, add64 (sub64 s.bytes (retainedOf s.recipes id)) value.retained⟩

/-- **What a registration does once its image is read**: it is refused after a validation that
stayed in step, the loop ends there, or the value is committed within the budget. -/
inductive Admitted (s : Store) (id : ℕ) (c : Socket) : Store × Socket × Bool → Prop
  | refused {c₁ : Socket} {message : String} : Streams c c₁ →
      Admitted s id c (refuse s message c₁)
  | ended {c₁ : Socket} : Streams c c₁ → Admitted s id c (s, c₁, false)
  | committed {c₁ : Socket} {value : Stored} {more : Bool} : Streams c c₁ →
      add64 (sub64 s.bytes (retainedOf s.recipes id)) value.retained ≤ BUDGET →
      Admitted s id c (s.put id value, c₁, more)

theorem oldSize_eq (recipes : AList fun _ : ℕ => Stored) (id : ℕ) :
    (match recipes.lookup id with
      | some st => st.retained
      | none => 0) = retainedOf recipes id := by
  unfold retainedOf
  cases recipes.lookup id <;> rfl

theorem commit_admitted {e : Environment} {s : Store} {command : Command} {id : ℕ} {value : Stored}
    {message : String} {validated : List UInt8} {c c₀ : Socket} (h₀ : Streams c₀ c) :
    Admitted s id c₀ (commit e s command id value message validated c) := by
  unfold commit
  rw [oldSize_eq]
  dsimp only
  split
  · exact .refused h₀
  next hb =>
    split
    · exact .refused h₀
    · exact .committed (h₀.trans (streams_acknowledge rfl)) (Nat.not_lt.mp hb)

theorem admit_admitted {sha256 : List UInt8 → List UInt8} {arena : Option Arena} {e : Environment}
    {s : Store} {command : Command} {id : ℕ} {blob : List UInt8} {c : Socket} :
    Admitted s id c (admitBlob sha256 arena e s command id blob c) := by
  unfold admitBlob
  split
  · exact .refused (Streams.refl c)
  cases decode blob with
  | error message => exact .refused (Streams.refl c)
  | ok recipe =>
    dsimp only
    split
    · exact .refused (Streams.refl c)
    rcases hv : validate sha256 e id (if command = .registerStream then arena.map Arena.capacity
      else none) recipe.h c with ⟨c₁, r⟩
    have h₁ := streams_validate hv
    match r with
    | .error (.refuse message) => exact .refused h₁
    | .error .stop => exact .ended h₁
    | .ok (native, out, message) => exact commit_admitted h₁

theorem moves_drain : ∀ {fuel left : ℕ} {c c' : Socket} {ok : Bool}, left ≤ fuel →
    drain fuel left c = (c', ok) → ∃ n, Moves c c' n [] ∧ (ok = true → n = left)
  | 0, left, c, c', ok, hl, hd => by
    cases hd
    exact ⟨0, Moves.refl c, fun _ => (Nat.le_zero.mp hl).symm⟩
  | fuel + 1, left, c, c', ok, hl, hd => by
    unfold drain at hd
    split_ifs at hd with h₀
    · cases hd
      exact ⟨0, Moves.refl c, fun _ => h₀.symm⟩
    · rcases hr : c.readAll (min 4096 left) with ⟨c₁, r₁⟩
      have h₁ := moves_readAll hr
      rw [hr] at hd
      cases r₁ with
      | none =>
        cases hd
        exact ⟨_, h₁, fun hf => Bool.noConfusion hf⟩
      | some image =>
        obtain ⟨n, h₂, hn⟩ := moves_drain (by omega) hd
        refine ⟨_, h₁.trans h₂, fun hok => ?_⟩
        rw [hn hok]
        omega

/-- The sizes the protocol refuses. -/
def InvalidSize (size : ℕ) : Prop := MAX_BLOB < size ∨ size < HEADER_SIZE

theorem put_consistent {s : Store} (h : Consistent s) {id : ℕ} {c : Socket}
    {r : Store × Socket × Bool} (ha : Admitted s id c r) : Consistent r.1 := by
  cases ha with
  | refused _ => exact h
  | ended _ => exact h
  | committed _ hb => exact h.insert hb

theorem register_consistent {sha256 : List UInt8 → List UInt8} {arena : Option Arena}
    {e : Environment} {s : Store} (h : Consistent s) {command : Command} {id size : ℕ}
    {c : Socket} :
    Consistent (register sha256 arena e s command id size c).1 := by
  unfold register
  split
  · exact h
  split
  · rcases drain size size c with ⟨c₁, ok⟩
    cases ok <;> exact h
  · rcases c.readAll size with ⟨c₁, r⟩
    cases r with
    | none => exact h
    | some blob => exact put_consistent h admit_admitted

theorem Admitted.unchanged {s s' : Store} {id : ℕ} {c c' : Socket} {more : Bool}
    (h : Admitted s id c (s', c', more)) {replies : List Reply} (hl : c'.log = c.log ++ replies)
    (hr : Refused replies) :
    s' = s ∧ more = true ∧ c'.incoming = c.incoming.drop (REQUEST_SIZE * announced replies) := by
  -- what is sent is determined by the two logs
  have same : ∀ {r : List Reply} {n : ℕ}, Moves c c' n r → replies = r := fun hm =>
    List.append_cancel_left (hl.symm.trans hm.log)
  generalize hx : (s', c', more) = x at h
  cases h with
  | refused h₁ =>
    obtain ⟨r, hm, hn⟩ := h₁
    obtain ⟨hs, ⟨-, hc⟩ | ⟨hmore, hc⟩⟩ := refuse_cases hx.symm
    · have e := same (hm.trans hc)
      rw [List.append_nil] at e
      exact absurd (e ▸ hr) hn
    · have hall := hm.trans hc
      have e := same hall
      refine ⟨hs, hmore, ?_⟩
      rw [e, announced_append]
      exact hall.incoming
  | ended h₁ =>
    obtain ⟨r, hm, hn⟩ := h₁
    cases hx
    exact absurd (same hm ▸ hr) hn
  | committed h₁ _ =>
    obtain ⟨r, hm, hn⟩ := h₁
    cases hx
    exact absurd (same hm ▸ hr) hn

/-- **A refused registration** changes nothing and leaves the loop after its image and its
acknowledgements; one of an invalid size ends the loop. -/
theorem register_refused {sha256 : List UInt8 → List UInt8} {arena : Option Arena}
    {e : Environment} {s s' : Store} {command : Command} {id size : ℕ} {c c' : Socket} {more : Bool}
    (h : register sha256 arena e s command id size c = (s', c', more)) {replies : List Reply}
    (hl : c'.log = c.log ++ replies) (hr : Refused replies) :
    s' = s ∧ (InvalidSize size → more = false) ∧ (¬ InvalidSize size →
      more = true ∧ c'.incoming = c.incoming.drop (size + REQUEST_SIZE * announced replies)) := by
  have same : ∀ {c₁ : Socket} {n : ℕ}, Moves c c₁ n [] → c'.log = c₁.log ++ replies := fun hm => by
    rw [hl, hm.log, List.append_nil]
  have silent : ∀ {n : ℕ}, Moves c c' n [] → ¬ Refused replies := fun hm => by
    rw [List.append_cancel_left (hl.symm.trans hm.log)]
    rintro ⟨_, _, hf⟩
    cases hf
  unfold register at h
  split_ifs at h with h₁ h₂
  · cases h
    exact ⟨rfl, fun _ => rfl, fun hn => absurd h₁ hn⟩
  · rcases hd : drain size size c with ⟨c₁, ok⟩
    obtain ⟨n, hm, hn⟩ := moves_drain le_rfl hd
    rw [hd] at h
    cases ok with
    | false =>
      cases h
      exact absurd hr (silent hm)
    | true =>
      obtain rfl := hn rfl
      have ha : Admitted s id c₁ (s', c', more) := h ▸ .refused (Streams.refl c₁)
      obtain ⟨hs, hmore, hi⟩ := ha.unchanged (same hm) hr
      refine ⟨hs, fun hbad => absurd hbad h₁, fun _ => ⟨hmore, ?_⟩⟩
      rw [hi, hm.incoming, List.drop_drop]
  · rcases hd : c.readAll size with ⟨c₁, r⟩
    have hm := moves_readAll hd
    rw [hd] at h
    cases r with
    | none =>
      cases h
      exact absurd hr (silent hm)
    | some blob =>
      have ha : Admitted s id c₁ (s', c', more) := h ▸ admit_admitted
      obtain ⟨hs, hmore, hi⟩ := ha.unchanged (same hm) hr
      refine ⟨hs, fun hbad => absurd hbad h₁, fun _ => ⟨hmore, ?_⟩⟩
      rw [hi, hm.incoming, List.drop_drop]

/-! ### Every round -/

theorem restored_store (s : Store) (command : Command) (result : Except String (List UInt8))
    (c : Socket) : (restored s command result c).1 = s := by
  cases result <;> rfl

theorem restore_store {sha256 : List UInt8 → List UInt8} {arena : Option Arena} {e : Environment}
    (s : Store) (q : Request) (c : Socket) : (restore sha256 arena e s q c).1 = s := by
  unfold restore
  cases s.recipes.lookup q.id with
  | none => rfl
  | some st =>
    dsimp only
    split
    · exact restored_store ..
    · cases st.native with
      | none => exact restored_store ..
      | some n =>
        dsimp only
        split
        · exact restored_store ..
        · exact restored_store ..

theorem inform_store (s : Store) (status : ℕ) (message : Option String) (data : List UInt8)
    (c : Socket) : (inform s status message data c).1 = s := by
  cases message <;> rfl

theorem drop_store {s : Store} (h : Consistent s) (id : ℕ) (c : Socket) :
    (∀ i, (drop s id c).1.recipes.lookup i = if i = id then none else s.recipes.lookup i) ∧
      Consistent (drop s id c).1 := by
  have herased : ∀ i, (s.recipes.erase id).lookup i =
      if i = id then none else s.recipes.lookup i := fun i => by
    split_ifs with hi
    · rw [hi, AList.lookup_erase]
    · exact AList.lookup_erase_ne hi
  unfold drop
  cases hs : s.recipes.lookup id with
  | none =>
    refine ⟨fun i => ?_, h⟩
    dsimp only
    split_ifs with hi
    · rw [hi, hs]
    · rfl
  | some st =>
    have hr : retainedOf s.recipes id = st.retained := by
      unfold retainedOf
      rw [hs]
      rfl
    have he := h.erase id
    rw [hr] at he
    exact ⟨herased, he⟩

/-- **Every round keeps the counter right.** -/
theorem round_consistent {sha256 : List UInt8 → List UInt8} {arena : Option Arena}
    {e : Environment} {s s' : Store} {c c' : Socket} {more : Bool} (h : Consistent s)
    (hr : round sha256 arena e s c = (s', c', more)) : Consistent s' := by
  rw [show s' = (round sha256 arena e s c).1 by rw [hr]]
  unfold round
  rcases c.readAll REQUEST_SIZE with ⟨c₁, r⟩
  cases r with
  | none => exact h
  | some image =>
    dsimp only
    generalize Received.ofBytes image = q
    unfold dispatch
    split
    · rwa [inform_store]
    · exact h
    · rwa [inform_store]
    · rwa [inform_store]
    · exact (drop_store h _ _).2
    · rwa [inform_store]
    · exact register_consistent h
    · exact register_consistent h
    · exact register_consistent h
    · rwa [restore_store]
    · rwa [restore_store]
    · rwa [restore_store]
    · exact h
    · exact h

/-- **In every state the loop reaches** the counter is right. -/
theorem Reachable.consistent {sha256 : List UInt8 → List UInt8} {arena : Option Arena}
    {c₀ c : Socket} {s : Store} {more : Bool} (h : Reachable sha256 arena c₀ s c more) :
    Consistent s := by
  induction h with
  | start => exact Consistent.initial
  | round _ hr ih =>
    exact round_consistent ih hr

/-- The request at the front of what is to come. -/
def nextRequest (c : Socket) : Option Received :=
  if c.incoming.length < REQUEST_SIZE then none
  else some (Received.ofBytes (c.incoming.take REQUEST_SIZE))

theorem round_eq {sha256 : List UInt8 → List UInt8} {arena : Option Arena} {e : Environment}
    {s : Store} {c : Socket} {q : Received} (hq : nextRequest c = some q) :
    round sha256 arena e s c = dispatch sha256 arena e s q
      { c with incoming := c.incoming.drop REQUEST_SIZE } := by
  unfold nextRequest at hq
  unfold round Socket.readAll
  split_ifs at hq with hn
  cases hq
  rw [if_neg hn]

/-- **Atomic registrations within the budget.** Whatever bytes arrive and whatever the environment
does, in every state the loop reaches:

* the counter is the sum of what the stored recipes retain, and at most 512 MiB;
* a registration that is answered with status 1 leaves store and counter as they were; unless its
  size is invalid, which ends the loop, the loop goes on at the byte after the request, its image
  and one acknowledgement for each window that was announced for it;
* `DROP` removes its id and no other. -/
theorem store_atomic {sha256 : List UInt8 → List UInt8} {arena : Option Arena} {c₀ c : Socket}
    {s : Store} {more : Bool} (h : Reachable sha256 arena c₀ s c more) :
    (s.bytes = total s.recipes ∧ s.bytes ≤ 512 * 2 ^ 20) ∧
    ∀ e s' c' more', round sha256 arena e s c = (s', c', more') →
      ∀ q, nextRequest c = some q →
      (q.command = some .put ∨ q.command = some .register ∨ q.command = some .registerStream →
        ∀ replies, c'.log = c.log ++ replies → Refused replies →
          s' = s ∧ (InvalidSize q.size → more' = false) ∧
          (¬ InvalidSize q.size → more' = true ∧ c'.incoming =
            c.incoming.drop (REQUEST_SIZE + q.size + REQUEST_SIZE * announced replies))) ∧
      (q.command = some .drop →
        ∀ id, s'.recipes.lookup id = if id = q.id then none else s.recipes.lookup id) := by
  have hc := h.consistent
  refine ⟨⟨hc.sum, hc.budget⟩, fun e s' c' more' hr q hq => ⟨fun hcmd replies hl hf => ?_,
    fun hcmd id => ?_⟩⟩
  · rw [round_eq hq] at hr
    -- the three commands are one family
    have hreg : ∃ command, register sha256 arena e s command q.id q.size
        { c with incoming := c.incoming.drop REQUEST_SIZE } = (s', c', more') := by
      unfold dispatch at hr
      rcases hcmd with hcmd | hcmd | hcmd <;> rw [hcmd] at hr <;> exact ⟨_, hr⟩
    obtain ⟨command, hreg⟩ := hreg
    obtain ⟨hs, hbad, hgood⟩ := register_refused hreg hl hf
    refine ⟨hs, hbad, fun hn => ⟨(hgood hn).1, ?_⟩⟩
    rw [(hgood hn).2, List.drop_drop, Nat.add_assoc]
  · rw [round_eq hq] at hr
    unfold dispatch at hr
    rw [hcmd] at hr
    have := (drop_store hc q.id { c with incoming := c.incoming.drop REQUEST_SIZE }).1 id
    dsimp only at hr
    rw [hr] at this
    exact this

/-- A recipe under the id 5, 536 zero bytes under the same id, and the first byte of what follows
them. -/
def sampleSocket : Socket where
  incoming := leBytes 8 1 ++ leBytes 8 5 ++ leBytes 8 Wrapping.sampleBytes.length ++
    Wrapping.sampleBytes ++
    (leBytes 8 7 ++ leBytes 8 5 ++ leBytes 8 536 ++ (List.replicate 536 0 ++ [7]))
  sends := 5
  log := []

/-- Rounds in which nothing of the environment fails. -/
def sampleEnvironment : Environment where
  allocated := true
  rejected := none
  context := true
  output := true
  whole := ⟨true, true, fun _ => 0, true, true, true, true⟩
  call := fun _ => ⟨true, true, fun _ => 0, true, true, true, true⟩
  last := ⟨true, true, fun _ => 0, true, true, true, true⟩
  emulation := ⟨none, fun _ => 0, true⟩
  capacity := ⟨1, 2, 1, [2], ⟨0, 0, 0, 0, 0, 0, 0, 0⟩, by decide⟩
  inserted := true
  profile := []
  pid := none
  usage := none
  denied := true

/-- The round of the recipe, whose output has the digest of its header. -/
def sampleRound : Store × Socket × Bool :=
  round (fun _ => List.replicate 32 0) none sampleEnvironment Store.initial sampleSocket

theorem sampleRound_eq : sampleRound = commit sampleEnvironment Store.initial .put 5
    ⟨Wrapping.sampleRecipe, some ⟨true, [List.replicate 32 0]⟩, sampleEnvironment.capacity⟩
    "native replay validated" [0]
    ⟨leBytes 8 7 ++ leBytes 8 5 ++ leBytes 8 536 ++ (List.replicate 536 0 ++ [7]), 5, []⟩ := by
  have hq : nextRequest sampleSocket = some ⟨some .put, 5, Wrapping.sampleBytes.length⟩ := by
    decide +kernel
  have hsize : ¬ (MAX_BLOB < Wrapping.sampleBytes.length ∨ Wrapping.sampleBytes.length <
    HEADER_SIZE) ∧
      ¬ BUDGET < add64 Store.initial.bytes Wrapping.sampleBytes.length := by decide +kernel
  have hread : ({ sampleSocket with incoming := sampleSocket.incoming.drop REQUEST_SIZE } :
    Socket).readAll
      Wrapping.sampleBytes.length =
        (⟨leBytes 8 7 ++ leBytes 8 5 ++ leBytes 8 536 ++ (List.replicate 536 0 ++ [7]), 5, []⟩,
          some Wrapping.sampleBytes) := by decide +kernel
  have hdecode : decode Wrapping.sampleBytes = .ok Wrapping.sampleRecipe := by
    rw [← (Wrapping.codec Wrapping.sampleBytes (by decide +kernel)).1]
    exact Wrapping.codec_sample.1
  have hput : ∀ (e : Environment) (id size : ℕ) (c : Socket),
    dispatch (fun _ => List.replicate 32 0) none e
      Store.initial ⟨some .put, id, size⟩ c =
        register (fun _ => List.replicate 32 0) none e Store.initial .put id size c :=
          fun _ _ _ _ => rfl
  unfold sampleRound
  rw [round_eq hq, hput]
  unfold register
  rw [if_neg hsize.1, if_neg hsize.2, hread]
  simp only
  unfold admitBlob
  rw [hdecode]
  rfl

/-- The recipe is stored, and stays as it is when another one for its id is refused. -/
theorem store_atomic_sample :
    (sampleRound.1.recipes.lookup 5).isSome = true ∧
    (round (fun _ => List.replicate 32 0) none sampleEnvironment sampleRound.1
      sampleRound.2.1).2.1 =
      ⟨[7], 2, sampleRound.2.1.log ++ [.response 1 0 "invalid recipe header"]⟩ ∧
    (round (fun _ => List.replicate 32 0) none sampleEnvironment sampleRound.1 sampleRound.2.1).1 =
      sampleRound.1 := by
  have hstored : (sampleRound.1.recipes.lookup 5).isSome = true ∧ sampleRound.2.2 = true := by
    rw [sampleRound_eq]
    decide +kernel
  have hr : (round (fun _ => List.replicate 32 0) none sampleEnvironment sampleRound.1
    sampleRound.2.1).2.1 =
      ⟨[7], 2, sampleRound.2.1.log ++ [.response 1 0 "invalid recipe header"]⟩ := by
    rw [sampleRound_eq]
    decide +kernel
  have hq : nextRequest sampleRound.2.1 = some ⟨some .register, 5, 536⟩ := by
    rw [sampleRound_eq]
    decide +kernel
  have hreach : Reachable (fun _ => List.replicate 32 0) none sampleSocket sampleRound.1
    sampleRound.2.1 true :=
    .round .start (show sampleRound = _ by rw [← hstored.2])
  rcases hx : round (fun _ => List.replicate 32 0) none sampleEnvironment sampleRound.1
    sampleRound.2.1 with
    ⟨s', c', more⟩
  rw [hx] at hr
  obtain rfl : c' = _ := hr
  have h := (store_atomic hreach).2 _ _ _ _ hx _ hq
  exact ⟨hstored.1, rfl, (h.1 (.inr (.inl rfl)) [.response 1 0 "invalid recipe header"] rfl
    ⟨0, _, List.mem_singleton_self _⟩).1⟩

/-! ### The loop without its bytes -/

/-- The store as `Worker.Server` has it. -/
def Store.abstract (s : Store) : Server.State where
  recipes := fun id => (s.recipes.lookup id).map fun st => ⟨st.recipe, st.native, st.retained⟩
  bytes := s.bytes

theorem abstract_retainedOf (s : Store) (id : ℕ) :
    s.abstract.retainedOf id = retainedOf s.recipes id := by
  unfold Server.State.retainedOf Store.abstract retainedOf
  dsimp only
  cases s.recipes.lookup id <;> rfl

theorem windows_acked {sha256 : List UInt8 → List UInt8} {id capacity : ℕ} {h : Header}
    {call : ℕ → Call} : ∀ {fuel offset sent : ℕ} {done : List UInt8} {digests : List (List UInt8)}
      {c c' : Socket} {r : Except Failure (List UInt8 × List (List UInt8))},
    windows sha256 id capacity h call fuel offset sent done digests c = (c', r) →
    (∀ message, r ≠ .error (.protocol message)) →
    windowLoop sha256 capacity h call (fun _ => true) fuel offset done digests = r
  | 0, _, _, _, _, _, _, _, hw, _ => by
    cases hw
    rfl
  | fuel + 1, offset, sent, done, digests, c, c', r, hw, hr => by
    unfold windows at hw
    unfold windowLoop
    dsimp only at hw ⊢
    split_ifs at hw ⊢ with h₁ h₂ h₃ h₄ h₅
    · cases hw
      rfl
    · cases hw
      rfl
    · cases hw
      rfl
    · exact absurd h₅ (by decide)
    · rcases hp : publish id sent (min capacity (h.length - offset)) c with ⟨c₁, r₁⟩
      rw [hp] at hw
      cases r₁ with
      | none =>
        cases hw
        exact absurd rfl (hr _)
      | some sent' => exact windows_acked hw hr
    · cases hw
      rfl

/-- What the environment decides, as `Worker.Server` is given it. -/
def Environment.abstract (e : Environment) (window : Option ℕ) (retained : ℕ) :
    Server.RegisterEnv where
  received := true
  rejected := e.rejected.or (match window with
    | some _ => if e.context then none else some "cannot initialize validation digest"
    | none => if e.output then none else some "std::bad_alloc")
  whole := e.whole
  call := e.call
  acked := fun _ => true
  last := e.last
  emulation := e.emulation
  restarted := true
  emulatorAcked := fun _ => true
  retained := retained
  sent := true

theorem attempt_abstract {sha256 : List UInt8 → List UInt8} {e : Environment} {id : ℕ}
    {window : Option ℕ} {h : Header} {c c' : Socket} {r : Except Failure (Native × List UInt8)}
    {retained : ℕ} (ha : attempt sha256 e id window h c = (c', r))
    (hw : ∀ capacity, window = some capacity → capacity ≠ 0 ∧ capacity % PAGE = 0)
    (hr : ∀ message, r ≠ .error (.protocol message)) :
    Server.validateNative sha256 (e.abstract window retained) window h = r := by
  unfold attempt at ha
  unfold Server.validateNative Environment.abstract
  cases hrej : e.rejected with
  | some message =>
    rw [hrej] at ha
    cases ha
    rfl
  | none =>
    rw [hrej] at ha
    dsimp only [Option.or] at ha ⊢
    cases window with
    | some capacity =>
      obtain ⟨hpos, hmod⟩ := hw capacity rfl
      dsimp only at ha ⊢
      unfold validateStream at ha
      unfold Checked.validateStream
      have hcap : ¬ (capacity = 0 ∨ capacity % PAGE ≠ 0) := by
        rintro (h0 | h0)
        · exact hpos h0
        · exact h0 hmod
      rw [if_neg hcap] at ha ⊢
      cases hctx : e.context with
      | false =>
        rw [hctx] at ha
        cases ha
        rfl
      | true =>
        rw [hctx] at ha
        rw [if_pos rfl]
        dsimp only at ha ⊢
        rw [if_neg (by decide)] at ha
        rcases hl : windows sha256 id capacity h e.call h.length 0 0 [] [] c with ⟨c₁, r₁⟩
        rw [hl] at ha
        have hacked : windowLoop sha256 capacity h e.call (fun _ => true) h.length 0
          [] [] = r₁ := by
          refine windows_acked hl fun message hp => ?_
          rw [hp] at ha
          cases ha
          exact hr message rfl
        rw [hacked]
        cases r₁ with
        | error f =>
          cases ha
          rfl
        | ok x =>
          dsimp only at ha ⊢
          split_ifs at ha ⊢ <;> cases ha <;> rfl
    | none =>
      dsimp only at ha ⊢
      cases hout : e.output with
      | false =>
        rw [hout] at ha
        cases ha
        rfl
      | true =>
        rw [hout] at ha
        rw [if_neg (by decide)] at ha
        cases hn : Native.fresh.run sha256 h 0 h.length true e.whole with
        | error message =>
          rw [hn] at ha
          cases ha
          rfl
        | ok x =>
          rw [hn] at ha
          cases ha
          rfl

/-- **A validation that lets its output through** is one of `Worker.Server`. -/
theorem validate_abstract {sha256 : List UInt8 → List UInt8} {e : Environment} {id : ℕ}
    {window : Option ℕ} {h : Header} {c c' : Socket} {x : Option Native × List UInt8 × String}
    {retained : ℕ} (hv : validate sha256 e id window h c = (c', .ok x))
    (hw : ∀ capacity, window = some capacity → capacity ≠ 0 ∧ capacity % PAGE = 0) :
    Server.validate sha256 (e.abstract window retained) window h = .ok x := by
  unfold validate at hv
  rcases ha : attempt sha256 e id window h c with ⟨c₁, r₁⟩
  rw [ha] at hv
  unfold Server.validate
  match r₁ with
  | .error (.protocol message) => cases hv
  | .ok (n, out) =>
    rw [attempt_abstract ha hw (fun _ hf => by cases hf)]
    cases hv
    rfl
  | .error (.other message) =>
    rw [attempt_abstract ha hw (fun _ hf => by cases hf)]
    dsimp only [Environment.abstract] at hv ⊢
    cases he : emulate sha256 h e.emulation with
    | error message =>
      rw [he] at hv
      cases hv
    | ok out =>
      rw [he] at hv
      cases window with
      | none =>
        cases hv
        rfl
      | some capacity =>
        dsimp only at hv ⊢
        rcases hs : respond 2 "restart comparison with strict emulator" [] c₁ with ⟨c₂, ok⟩
        rw [hs] at hv
        cases ok with
        | false => cases hv
        | true =>
          dsimp only at hv
          rcases hp : republish id capacity h.length h.length 0 0 c₂ with ⟨c₃, ok₃⟩
          rw [hp] at hv
          have hall : Server.allAcked (fun _ => true) capacity h.length = true := by
            unfold Server.allAcked
            rw [List.all_eq_true]
            exact fun _ _ => rfl
          cases ok₃ with
          | false => cases hv
          | true =>
            cases hv
            exact if_pos hall

theorem put_abstract {s : Store} (h : Consistent s) (id : ℕ) (value : Stored) :
    (s.put id value).abstract =
      { recipes := Function.update s.abstract.recipes id
          (some ⟨value.recipe, value.native, value.retained⟩)
        bytes := s.abstract.bytes - s.abstract.retainedOf id + value.retained } := by
  have herase := total_erase s.recipes id
  have hsum := h.sum
  have hbytes : (s.put id value).bytes = s.bytes - retainedOf s.recipes id + value.retained := by
    rw [show (s.put id value).bytes = _ from h.replaced id value]
    omega
  have hrecipes : (fun i => ((s.recipes.insert id value).lookup i).map fun st =>
      (⟨st.recipe, st.native, st.retained⟩ : Server.Stored)) =
      Function.update s.abstract.recipes id
        (some ⟨value.recipe, value.native, value.retained⟩) := by
    funext i
    by_cases hi : i = id
    · rw [hi, AList.lookup_insert, Function.update_self]
      rfl
    · rw [AList.lookup_insert_ne hi, Function.update_of_ne hi]
      rfl
  rw [abstract_retainedOf]
  unfold Store.abstract at hrecipes ⊢
  rw [hbytes]
  exact congrArg (fun r => Server.State.mk r _) hrecipes

theorem drop_abstract {s : Store} (h : Consistent s) (id : ℕ) (c : Socket)
    {sha256 : List UInt8 → List UInt8} {arena : Option Arena} :
    (Server.step sha256 arena s.abstract (.drop true id)).1 = (drop s id c).1.abstract := by
  obtain ⟨hlook, hcons⟩ := drop_store h id c
  have herase := total_erase s.recipes id
  have hsum := h.sum
  have hrecipes :
    Function.update s.abstract.recipes id none = (drop s id c).1.abstract.recipes := by
    funext i
    change _ = ((drop s id c).1.recipes.lookup i).map _
    rw [hlook i]
    by_cases hi : i = id
    · rw [hi, Function.update_self, if_pos rfl]
      rfl
    · rw [Function.update_of_ne hi, if_neg hi]
      rfl
  have hbytes : (drop s id c).1.bytes = s.bytes - retainedOf s.recipes id := by
    have hbudget := h.budget
    unfold BUDGET at hbudget
    have hmax : UINT64_MAX = 18446744073709551615 := rfl
    unfold drop retainedOf
    cases hs : s.recipes.lookup id with
    | none => rfl
    | some st =>
      have hst : retainedOf s.recipes id = st.retained := by
        unfold retainedOf
        rw [hs]
        rfl
      exact sub64_eq (by omega) (by omega)
  unfold Server.step Server.drop
  dsimp only
  rw [abstract_retainedOf, hrecipes]
  change Server.State.mk _ _ = Server.State.mk _ (drop s id c).1.bytes
  rw [hbytes]
  rfl

theorem commit_store (e : Environment) (s : Store) (command : Command) (id : ℕ) (value : Stored)
    (message : String) (validated : List UInt8) (c : Socket) :
    (commit e s command id value message validated c).1 = s ∨
      (commit e s command id value message validated c).1 = s.put id value ∧
        (s.put id value).bytes ≤ BUDGET := by
  unfold commit
  rw [oldSize_eq]
  dsimp only
  split
  · exact .inl rfl
  next hb =>
    split
    · exact .inl rfl
    · exact .inr ⟨rfl, Nat.not_lt.mp hb⟩

theorem server_register {sha256 : List UInt8 → List UInt8} {arena : Option Arena} {e : Environment}
    {s : Store} (h : Consistent s) (streaming : Bool) {id : ℕ} {blob : List UInt8} {recipe : Recipe}
    {native : Option Native} {out : List UInt8} {message : String} {window : Option ℕ}
    (hsize : ¬ InvalidSize blob.length) (hroom : s.bytes + blob.length ≤ BUDGET)
    (hd : decode blob = .ok recipe) (ha : ¬ (streaming = true ∧ arena.isNone = true))
    (hw : window = if streaming then arena.map Arena.capacity else none)
    (hv : Server.validate sha256
      (e.abstract window (Stored.retained ⟨recipe, native, e.capacity⟩)) window recipe.h =
      .ok (native, out, message))
    (hb : (s.put id ⟨recipe, native, e.capacity⟩).bytes ≤ BUDGET) :
    ∃ i, (Server.step sha256 arena s.abstract i).1 =
      (s.put id ⟨recipe, native, e.capacity⟩).abstract := by
  refine ⟨.register (e.abstract window (Stored.retained ⟨recipe, native, e.capacity⟩)) streaming id
    blob, ?_⟩
  have hput := put_abstract h id ⟨recipe, native, e.capacity⟩
  have hbytes := congrArg Server.State.bytes hput
  dsimp only at hbytes
  rw [show (s.put id ⟨recipe, native, e.capacity⟩).abstract.bytes =
    (s.put id ⟨recipe, native, e.capacity⟩).bytes from rfl] at hbytes
  unfold InvalidSize at hsize
  have hroom' : ¬ BUDGET < s.abstract.bytes + blob.length := Nat.not_lt.mpr hroom
  have hreceived : ¬ (!(e.abstract window
      (Stored.retained ⟨recipe, native, e.capacity⟩)).received) = true := by
    change ¬ (!true) = true
    decide
  unfold Server.step Server.register
  dsimp only
  rw [if_neg hsize, if_neg hroom', if_neg hreceived, hd]
  dsimp only
  split
  · exact absurd ⟨rfl, rfl⟩ ha
  · rw [← hw, hv]
    dsimp only
    rw [hput]
    refine congrArg Prod.fst (if_neg ?_)
    rw [hbytes] at hb
    exact Nat.not_lt.mpr hb

theorem register_server {sha256 : List UInt8 → List UInt8} {arena : Option Arena} {e : Environment}
    {s : Store} (h : Consistent s) {command : Command} {id size : ℕ} {c : Socket} :
    (register sha256 arena e s command id size c).1 = s ∨
      ∃ i, (Server.step sha256 arena s.abstract i).1 =
        (register sha256 arena e s command id size c).1.abstract := by
  unfold register
  split
  · exact .inl rfl
  next hsize =>
  split
  · rcases drain size size c with ⟨c₁, ok⟩
    cases ok <;> exact .inl rfl
  next hroom =>
  rcases hread : c.readAll size with ⟨c₁, r⟩
  cases r with
  | none => exact .inl rfl
  | some blob =>
    have hlen : blob.length = size := by
      unfold Socket.readAll at hread
      split_ifs at hread with hn
      · cases hread
      rw [← Option.some.inj (congrArg Prod.snd hread), List.length_take]
      omega
    have hroom' : s.bytes + blob.length ≤ BUDGET := by
      have hbudget := h.budget
      have hmax : UINT64_MAX = 18446744073709551615 := rfl
      unfold InvalidSize MAX_BLOB at *
      unfold BUDGET at *
      rw [add64_eq (by omega)] at hroom
      omega
    dsimp only
    unfold admitBlob
    split
    · exact .inl rfl
    cases hd : decode blob with
    | error message => exact .inl rfl
    | ok recipe =>
      dsimp only
      split
      · exact .inl rfl
      next ha =>
      rcases hv : validate sha256 e id (if command = .registerStream then
        arena.map Arena.capacity else none) recipe.h c₁ with ⟨c₂, r⟩
      match r with
      | .error (.refuse message) => exact .inl rfl
      | .error .stop => exact .inl rfl
      | .ok (native, out, message) =>
        have hwin : ∀ capacity, (if command = .registerStream then arena.map Arena.capacity
            else none) = some capacity → capacity ≠ 0 ∧ capacity % PAGE = 0 := by
          intro capacity hcap
          split_ifs at hcap
          obtain ⟨a, -, rfl⟩ := Option.map_eq_some_iff.mp hcap
          exact ⟨Nat.pos_iff_ne_zero.mp a.pos, a.aligned⟩
        rcases commit_store e s command id ⟨recipe, native, e.capacity⟩ message out c₂ with
          hs | ⟨hs, hb⟩
        · exact .inl hs
        · right
          dsimp only
          rw [hs]
          exact server_register h (decide (command = .registerStream))
            (by rw [hlen]; exact hsize) hroom' hd (by simpa using ha) (by simp)
            (validate_abstract hv hwin) hb

/-- **The loop refines the server**: a round leaves the store as it is, or is a step of the command
loop of `Worker.Server`. -/
theorem round_server {sha256 : List UInt8 → List UInt8} {arena : Option Arena} {e : Environment}
    {s s' : Store} {c c' : Socket} {more : Bool} (h : Consistent s)
    (hr : round sha256 arena e s c = (s', c', more)) :
    s' = s ∨ ∃ i, (Server.step sha256 arena s.abstract i).1 = s'.abstract := by
  have hs : s' = (round sha256 arena e s c).1 := by rw [hr]
  rw [hs]
  unfold round
  rcases c.readAll REQUEST_SIZE with ⟨c₁, r⟩
  cases r with
  | none => exact .inl rfl
  | some image =>
    dsimp only
    generalize Received.ofBytes image = q
    unfold dispatch
    split
    · exact .inl (inform_store ..)
    · exact .inl rfl
    · exact .inl (inform_store ..)
    · exact .inl (inform_store ..)
    · exact .inr ⟨.drop true q.id, drop_abstract h q.id _⟩
    · exact .inl (inform_store ..)
    · exact register_server h
    · exact register_server h
    · exact register_server h
    · exact .inl (restore_store ..)
    · exact .inl (restore_store ..)
    · exact .inl (restore_store ..)
    · exact .inl rfl
    · exact .inl rfl

end Afterfree.Worker.Loop
