import Afterfree.Codec
import Afterfree.Runtime.Api

/-!
# Registration between two processes

`submit` of `runtime.cpp` and the registration branch of `worker.cpp` as two processes that take
their steps in any order. They share the window of the arena and two first-in first-out channels;
every send and every receive of the application may fail, and the worker may die at any point. The
worker's end of the socket has no time-out, so a transfer fails there only when the connection is
gone, which is its end as well.

The registration record and the payload of a registration without streaming are messages of their
own; the payload is cut where the application's reads of 64 KiB cut it. The other entry points of
the application are steps of `Api`, taken while no registration is under way.

`commits` and the fields `before`, `commits`, `opened` and `log` of a session only record what
happened: no step depends on them.
-/

namespace Afterfree.Protocol.System

open Afterfree.Common Afterfree.Codec Afterfree.Runtime.State Afterfree.Runtime.Pager
open Afterfree.Runtime.Submit Afterfree.Runtime.Api

/-! ### Messages and the worker's work -/

/-- What is in flight to the application. -/
inductive Message
  | response (r : Response)
  | registration (g : Registration)
  | payload (o : Output)

/-- What is in flight to the worker. -/
inductive Order
  | request (q : Request)
  | image (blob : List UInt8)

/-- What the worker does in a registration once it has the image. -/
inductive Action
  | publish (o : Output)
  | restart
  | commit (recipe : Recipe) (o : Output)
  | send (m : Message)

/-- `respond(fd, 1, message)`. -/
def refuse (message : String) : Action := .send (.response (refusal message).response)

/-- The complete pass over an output, and what follows it. -/
def passActions (capacity : ℕ) (recipe : Recipe) : Verdict → List Action
  | .refused m => [refuse m]
  | .overBudget out m =>
    (windows capacity recipe.h.length out recipe.h.length 0).map .publish ++ [refuse m]
  | .committed out g m =>
    (windows capacity recipe.h.length out recipe.h.length 0).map .publish ++
      [.commit recipe ⟨recipe.h.length, out⟩, .send (.response (finalReply m).response),
        .send (.registration g)]

/-- A streamed registration. The emulator runs before its restart is announced, so a refused
emulation announces none. -/
def streamActions (s : Script) (capacity : ℕ) (recipe : Recipe) : List Action :=
  match s.speculative, s.verdict with
  | none, v => passActions capacity recipe v
  | some a, .refused m => (a.windows capacity recipe.h.length).map .publish ++ [refuse m]
  | some a, v =>
    (a.windows capacity recipe.h.length).map .publish ++ .restart :: passActions capacity recipe v

/-- The size of the application's `chunk` buffer. -/
def CHUNK : ℕ := 65536

/-- A registration without streaming. -/
def wholeActions (s : Script) (recipe : Recipe) : List Action :=
  match s.verdict with
  | .refused m => [refuse m]
  | .overBudget _ m => [refuse m]
  | .committed out g m =>
    [.commit recipe ⟨recipe.h.length, out⟩, .send (.response ⟨0, recipe.h.length, m⟩),
        .send (.registration g)] ++
      (windows CHUNK recipe.h.length out recipe.h.length 0).map fun o => .send (.payload o)

/-- What the worker does with an image. `exhausted` is the check of the budget before decoding; the
script stands for what compilation, generated code and emulator do. -/
def answerTo (arena : Option Arena) (exhausted streaming : Bool) (s : Script) (blob : List UInt8) :
    List Action :=
  if exhausted then [refuse "worker recipe budget exceeded"]
  else
    match decode blob with
    | .error m => [refuse m]
    | .ok recipe =>
      match streaming, arena with
      | true, some a => streamActions s a.capacity recipe
      | true, none => [refuse "streaming requires a shared window"]
      | false, _ => wholeActions s recipe

/-! ### The two processes -/

/-- Where the worker is. `acting` with nothing left is the head of the command loop; `sent` is the
variable of `publish`. -/
inductive WorkerPc
  | reading (q : Request)
  | acting (id sent : ℕ) (todo : List Action)
  | publishing (id sent : ℕ) (o : Output) (todo : List Action)
  | awaiting (id sent : ℕ) (todo : List Action)
  | ended

/-- One committed registration. -/
structure Commit where
  id : ℕ
  recipe : Recipe
  output : Output

/-- One comparison of `submit`: the offset, the worker's byte and the application's byte. -/
structure Compared where
  offset : ℕ
  theirs : UInt8
  ours : UInt8
deriving DecidableEq, Repr

/-- A call of `submit`, with the state it was made in. -/
structure Call where
  before : World
  commits : List Commit
  output : ℕ
  data : Option (List UInt8)

/-- A call that has passed the checks. `opened` is the state of the application without what the
worker does, `log` the comparisons of the pass under way. -/
structure Session extends Call where
  opened : World
  slot : ℕ
  image : List UInt8
  streaming : Bool
  log : List Compared

namespace Session

/-- The header of the image. -/
def header (x : Session) : Header := Header.ofBytes x.image

/-- `b->id`. -/
def id (x : Session) : ℕ := (x.opened.buffers x.slot).id

end Session

/-- Where `submit` is. -/
inductive Pc
  | request
  | image
  | receive (first : Bool) (p : Progress)
  | handle (p : Progress) (r : Response)
  | acknowledge (p : Progress)
  | registration (equal : Bool)
  | payload (g : Registration) (p : Progress)
  | settle (g : Registration) (equal : Bool)
  | withdraw (message : String)
  | withdrawn (message : String)

/-- Where the application is. -/
inductive AppPc
  | idle
  | submitting (x : Session) (pc : Pc)
  | returned (c : Call) (log : List Compared) (code : Int)

/-- The worker, the channels and the window, with the registrations committed so far. -/
structure Wire where
  worker : WorkerPc
  toWorker : List Order
  toApp : List Message
  window : ℕ → UInt8
  commits : List Commit

/-- The whole system. `world.peer` is the worker's store. -/
structure Sys extends Wire where
  world : World
  app : AppPc

/-- After `af_init`. -/
def Sys.initial (arena : Option Arena) (memory : Memory) : Sys where
  worker := .acting 0 0 []
  toWorker := []
  toApp := []
  window := fun _ => 0
  commits := []
  world := World.initial arena memory
  app := .idle

/-! ### The worker's steps -/

/-- The contents of the window after `o` was written to it. -/
def fillWindow (window : ℕ → UInt8) (o : Output) : ℕ → UInt8 :=
  fun i => if i < o.length then o.byte i else window i

/-- One step of the worker. -/
inductive WorkerStep (s : Sys) : Sys → Prop
  /-- It dies, or a transfer fails on its end. -/
  | ends : WorkerStep s { s with worker := .ended }
  | register {id sent : ℕ} {q : Request} {rest : List Order} :
      s.worker = .acting id sent [] → s.toWorker = .request q :: rest →
      q.command = .register ∨ q.command = .registerStream →
      HEADER_SIZE ≤ q.size ∧ q.size ≤ MAX_BLOB →
      WorkerStep s { s with worker := .reading q, toWorker := rest }
  | invalidSize {id sent : ℕ} {q : Request} {rest : List Order} :
      s.worker = .acting id sent [] → s.toWorker = .request q :: rest →
      q.command = .register ∨ q.command = .registerStream →
      q.size < HEADER_SIZE ∨ MAX_BLOB < q.size →
      WorkerStep s { s with
        worker := .ended, toWorker := rest
        toApp := s.toApp ++ [.response (refusal "invalid protocol size").response] }
  | drop {id sent : ℕ} {q : Request} {rest : List Order} :
      s.worker = .acting id sent [] → s.toWorker = .request q :: rest → q.command = .drop →
      WorkerStep s { s with
        world := { s.world with peer := (handleDrop q.id s.world.peer).1 }
        worker := .acting q.id 0 [.send (.response (handleDrop q.id s.world.peer).2)]
        toWorker := rest }
  /-- An acknowledgement is no command of the loop. -/
  | unknown {id sent : ℕ} {q : Request} {rest : List Order} :
      s.worker = .acting id sent [] → s.toWorker = .request q :: rest → q.command = .streamAck →
      WorkerStep s { s with
        worker := .ended, toWorker := rest
        toApp := s.toApp ++ [.response (refusal "unknown command").response] }
  | decoded {q : Request} {blob : List UInt8} {rest : List Order} (exhausted : Bool)
      (script : Script) :
      s.worker = .reading q → s.toWorker = .image blob :: rest →
      WorkerStep s { s with
        worker := .acting q.id 0
          (answerTo s.world.arena exhausted (q.command = .registerStream) script blob)
        toWorker := rest }
  | fill {id sent : ℕ} {o : Output} {todo : List Action} :
      s.worker = .acting id sent (.publish o :: todo) →
      WorkerStep s { s with
        worker := .publishing id sent o todo, window := fillWindow s.window o }
  | publish {id sent : ℕ} {o : Output} {todo : List Action} :
      s.worker = .publishing id sent o todo →
      WorkerStep s { s with
        worker := .awaiting id (sent + o.length) todo
        toApp := s.toApp ++ [.response (windowReply o).response] }
  | acknowledged {id sent : ℕ} {todo : List Action} {rest : List Order} :
      s.worker = .awaiting id sent todo → s.toWorker = .request ⟨.streamAck, id, sent⟩ :: rest →
      WorkerStep s { s with worker := .acting id sent todo, toWorker := rest }
  | unacknowledged {id sent : ℕ} {todo : List Action} {q : Request} {rest : List Order} :
      s.worker = .awaiting id sent todo → s.toWorker = .request q :: rest →
      q ≠ ⟨.streamAck, id, sent⟩ →
      WorkerStep s { s with
        worker := .acting id sent [refuse "validation window acknowledgement failed"]
        toWorker := rest }
  | restart {id sent : ℕ} {todo : List Action} :
      s.worker = .acting id sent (.restart :: todo) →
      WorkerStep s { s with
        worker := .acting id 0 todo, toApp := s.toApp ++ [.response restartReply.response] }
  | commit {id sent : ℕ} {recipe : Recipe} {o : Output} {todo : List Action} :
      s.worker = .acting id sent (.commit recipe o :: todo) →
      WorkerStep s { s with
        world := { s.world with peer := s.world.peer.commit id o }
        worker := .acting id sent todo
        commits := ⟨id, recipe, o⟩ :: s.commits }
  | send {id sent : ℕ} {m : Message} {todo : List Action} :
      s.worker = .acting id sent (.send m :: todo) →
      WorkerStep s { s with worker := .acting id sent todo, toApp := s.toApp ++ [m] }

section WorkerStep

variable {s s' : Sys}

theorem WorkerStep.frame (h : WorkerStep s s') :
    (∃ p, s'.world = { s.world with peer := p }) ∧ s'.app = s.app := by
  cases h <;> exact ⟨⟨_, rfl⟩, rfl⟩

theorem WorkerStep.of_ended (h : WorkerStep s s') (hw : s.worker = .ended) : s' = s := by
  cases h with
  | ends => rw [← hw]
  | _ => simp_all

theorem WorkerStep.of_loop (h : WorkerStep s s') {id sent : ℕ}
    (hw : s.worker = .acting id sent []) :
    s' = { s with worker := .ended } ∨ ∃ q rest, s.toWorker = .request q :: rest ∧
      (((q.command = .register ∨ q.command = .registerStream) ∧
        ((q.size < HEADER_SIZE ∨ MAX_BLOB < q.size) ∨
          s' = { s with worker := .reading q, toWorker := rest })) ∨
      (q.command = .drop ∧ s' = { s with
        world := { s.world with peer := s.world.peer.drop q.id }
        worker := .acting q.id 0 [.send (.response ⟨0, 0, "dropped"⟩)]
        toWorker := rest }) ∨
      q.command = .streamAck) := by
  cases h with
  | ends => exact Or.inl rfl
  | register _ hq hc _ => exact Or.inr ⟨_, _, hq, Or.inl ⟨hc, Or.inr rfl⟩⟩
  | invalidSize _ hq hc hsz => exact Or.inr ⟨_, _, hq, Or.inl ⟨hc, Or.inl hsz⟩⟩
  | drop _ hq hc => exact Or.inr ⟨_, _, hq, Or.inr (Or.inl ⟨hc, rfl⟩)⟩
  | unknown _ hq hc => exact Or.inr ⟨_, _, hq, Or.inr (Or.inr hc)⟩
  | _ => simp_all

end WorkerStep

/-! ### The application's steps -/

/-- Mark the channel broken and fail. -/
def Sys.sever (s : Sys) (x : Session) (message : String) : Sys :=
  { s with
    world := { s.world with channelBroken := true }.fail message
    app := .returned x.toCall x.log (-1) }

/-- What `submit` says when the send or the receive it is at fails. -/
def Pc.failure : Pc → Option String
  | .request => some "validation worker disconnected"
  | .image => some "validation worker disconnected"
  | .receive true _ => some "validation worker disconnected"
  | .receive false _ => some "validation stream interrupted"
  | .acknowledge _ => some "validation window acknowledgement failed"
  | .registration _ => some "invalid registration response"
  | .payload _ _ => some "validation stream interrupted"
  | .withdraw message => some message
  | .withdrawn message => some message
  | .handle _ _ => none
  | .settle _ _ => none

/-- The capacity of the window. -/
def capacity (w : World) : ℕ := match w.arena with
  | some a => a.capacity
  | none => 0

/-- What `submit` makes of a response. -/
def react (s : Sys) (x : Session) (p : Progress) (r : Response) : Next :=
  if x.streaming then
    onResponse (capacity s.world) x.header.length
      (fun o n => s.world.memory.same (x.header.output + o) n s.window) p r
  else if r.status ≠ 0 then .rejected ("validation rejected: " ++ r.message)
  else if r.size ≠ x.header.length then .invalid
  else .finished true

/-- The comparisons of `n` bytes at `offset` with `theirs`. -/
def comparisons (m : Memory) (output offset n : ℕ) (theirs : ℕ → UInt8) : List Compared :=
  (List.range n).map fun i => ⟨offset + i, theirs i, m.bytes (output + (offset + i))⟩

/-- The step of `submit` after a response. -/
def afterResponse (s : Sys) (x : Session) (p : Progress) (r : Response) : Sys :=
  match react s x p r with
  | .rejected m =>
    { s with world := s.world.fail m, app := .returned x.toCall x.log (-1) }
  | .invalid =>
    s.sever x (if x.streaming then "invalid validation window length"
      else "invalid validation response length")
  | .finished equal => { s with app := .submitting x (.registration equal) }
  | .restart => { s with app := .submitting { x with log := [] } (.receive false ⟨0, true⟩) }
  | .acknowledge p' =>
    let log := x.log ++ comparisons s.world.memory x.header.output p.offset r.size s.window
    { s with app := .submitting { x with log := log } (.acknowledge p') }

/-- A registration record that makes no sense. -/
def badRecord (g : Registration) : Bool :=
  decide (1 < g.backend) || (decide (g.pageBytes ≠ 0) && decide (g.pageBytes ≠ PAGE)) ||
    (decide (g.pageBytes ≠ 0) && decide (g.backend = 0))

/-- An operation that is no registration. -/
def Plain : Op → Prop
  | .submit _ _ _ _ _ => False
  | .submitRegion _ _ _ _ _ => False
  | _ => True

/-- One step of the application. -/
inductive AppStep (s : Sys) : Sys → Prop
  /-- Any other entry point, or an access. -/
  | other {op : Op} {w : World} {r : Ret} : s.app = .idle → Plain op →
      Runtime.Api.step s.world op = .ok (w, r) → AppStep s { s with world := w }
  /-- `submit` is called and its checks fail. -/
  | refused {c : Caller} {output : ℕ} {data : Option (List UInt8)} {captureNs : ℕ}
      {region : Bool} {m : String} : s.app = .idle →
      screen c s.world output data captureNs region = .error m →
      AppStep s { s with
        world := s.world.fail m
        app := .returned ⟨s.world, s.commits, output, data⟩ [] (-1) }
  /-- `submit` is called on a broken channel. -/
  | disconnected {c : Caller} {output : ℕ} {data : Option (List UInt8)} {captureNs : ℕ}
      {region : Bool} {w : World} {slot : ℕ} {image : List UInt8} : s.app = .idle →
      screen c s.world output data captureNs region = .ok (w, slot, image) →
      w.channelBroken = true →
      AppStep s { s with
        world := w.fail "validation worker disconnected"
        app := .returned ⟨s.world, s.commits, output, data⟩ [] (-1) }
  /-- `submit` is called. -/
  | call {c : Caller} {output : ℕ} {data : Option (List UInt8)} {captureNs : ℕ}
      {region : Bool} {w : World} {slot : ℕ} {image : List UInt8} (streamingDisabled : Bool) :
      s.app = .idle →
      screen c s.world output data captureNs region = .ok (w, slot, image) →
      w.channelBroken = false →
      AppStep s { s with
        world := w
        app := .submitting ⟨⟨s.world, s.commits, output, data⟩, w, slot, image,
          w.arena.isSome && !streamingDisabled, []⟩ .request }
  /-- A send or a receive fails. -/
  | severed {x : Session} {pc : Pc} {m : String} : s.app = .submitting x pc →
      pc.failure = some m → AppStep s (s.sever x m)
  | request {x : Session} : s.app = .submitting x .request →
      AppStep s { s with
        toWorker := s.toWorker ++ [.request
          ⟨if x.streaming then .registerStream else .register, x.id, x.image.length⟩]
        app := .submitting x .image }
  | image {x : Session} : s.app = .submitting x .image →
      AppStep s { s with
        toWorker := s.toWorker ++ [.image x.image]
        app := .submitting x (.receive true ⟨0, true⟩) }
  | receive {x : Session} {first : Bool} {p : Progress} {r : Response} {rest : List Message} :
      s.app = .submitting x (.receive first p) → s.toApp = .response r :: rest →
      AppStep s { s with toApp := rest, app := .submitting x (.handle p r) }
  | handle {x : Session} {p : Progress} {r : Response} :
      s.app = .submitting x (.handle p r) → AppStep s (afterResponse s x p r)
  | acknowledge {x : Session} {p : Progress} : s.app = .submitting x (.acknowledge p) →
      AppStep s { s with
        toWorker := s.toWorker ++ [.request ⟨.streamAck, x.id, p.offset⟩]
        app := .submitting x (.receive false p) }
  | badRegistration {x : Session} {equal : Bool} {g : Registration} {rest : List Message} :
      s.app = .submitting x (.registration equal) → s.toApp = .registration g :: rest →
      badRecord g = true →
      AppStep s ({ s with toApp := rest }.sever x "invalid registration response")
  | registration {x : Session} {equal : Bool} {g : Registration} {rest : List Message} :
      s.app = .submitting x (.registration equal) → s.toApp = .registration g :: rest →
      badRecord g = false →
      AppStep s { s with
        toApp := rest
        app := .submitting x (if x.streaming then .settle g equal else .payload g ⟨0, equal⟩) }
  | chunk {x : Session} {g : Registration} {p : Progress} {o : Output} {rest : List Message} :
      s.app = .submitting x (.payload g p) → p.offset < x.header.length →
      s.toApp = .payload o :: rest → o.length = min CHUNK (x.header.length - p.offset) →
      AppStep s { s with
        toApp := rest
        app := .submitting
          { x with log := x.log ++
              comparisons s.world.memory x.header.output p.offset o.length o.byte }
          (.payload g ⟨p.offset + o.length,
            p.equal && s.world.memory.same (x.header.output + p.offset) o.length o.byte⟩) }
  | delivered {x : Session} {g : Registration} {p : Progress} :
      s.app = .submitting x (.payload g p) → x.header.length ≤ p.offset →
      AppStep s { s with app := .submitting x (.settle g p.equal) }
  /-- The registration is complete. -/
  | sealed {x : Session} {g : Registration} {equal : Bool} {w : World} (elapsed : ℕ)
      (isProtected : Bool) : s.app = .submitting x (.settle g equal) →
      conclude g elapsed isProtected s.world x.slot x.header equal = (w, none) →
      AppStep s { s with world := w, app := .returned x.toCall x.log 0 }
  /-- The registration is to be taken back. -/
  | rejected {x : Session} {g : Registration} {equal : Bool} {w : World} {m : String} (elapsed : ℕ)
      (isProtected : Bool) : s.app = .submitting x (.settle g equal) →
      conclude g elapsed isProtected s.world x.slot x.header equal = (w, some m) →
      AppStep s { s with
        world := w
        app := .submitting { x with opened := { w with peer := x.opened.peer } } (.withdraw m) }
  | withdraw {x : Session} {m : String} : s.app = .submitting x (.withdraw m) →
      AppStep s { s with
        toWorker := s.toWorker ++ [.request ⟨.drop, x.id, 0⟩]
        app := .submitting x (.withdrawn m) }
  | withdrawn {x : Session} {m : String} {r : Response} {rest : List Message} :
      s.app = .submitting x (.withdrawn m) → s.toApp = .response r :: rest →
      AppStep s { s with
        toApp := rest
        world := s.world.fail m
        app := .returned x.toCall x.log (-1) }
  /-- The application goes on. -/
  | resume {c : Call} {log : List Compared} {code : Int} : s.app = .returned c log code →
      AppStep s { s with app := .idle }

/-- One step of the system. -/
inductive Step (s s' : Sys) : Prop
  | app : AppStep s s' → Step s s'
  | worker : WorkerStep s s' → Step s s'

/-- The states the system reaches from `s`. -/
def Reaches : Sys → Sys → Prop := Relation.ReflTransGen Step

end Afterfree.Protocol.System
