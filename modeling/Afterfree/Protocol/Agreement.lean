import Afterfree.Protocol.Dialogue
import Afterfree.Runtime.Recipes

/-!
# Both sides agree on a registration

The invariant of the two processes of `System`: what the application has compared, the messages in
flight and the position of the worker fit together (`Talk`), and between two registrations nothing
is in flight on a channel that is not broken. `registration_agreement` reads off what `submit`
returns: with `0` the worker has committed this image under this id, and every byte was compared
once with its output and was equal; with `-1` the buffer is as it was, and the worker holds nothing
for it unless the channel is broken.
-/

namespace Afterfree.Protocol.Agreement

open Afterfree.Common Afterfree.Codec Afterfree.Lib.Weak Afterfree.Runtime.State
open Afterfree.Runtime.Pager Afterfree.Runtime.Submit Afterfree.Runtime.Compared
open Afterfree.Runtime.Api Afterfree.Runtime.Changes Afterfree.Runtime.Decompose
open Afterfree.Runtime.Operations Afterfree.Runtime.Invariants Afterfree.Runtime.Recipes
open Afterfree.Protocol.System Afterfree.Protocol.Dialogue

/-! ### The pieces of the invariant -/

/-- What a session fixes: the window, the image, the id, and the worker's store and history before.
-/
structure Terms where
  streaming : Bool
  capacity : ℕ
  image : List UInt8
  id : ℕ
  peer : Peer
  commits : List Commit

/-- The terms of a session. -/
def terms (x : Session) : Terms :=
  ⟨x.streaming, capacity x.opened, x.image, x.id, x.opened.peer, x.commits⟩

namespace Terms

/-- The length of the output. -/
def length (t : Terms) : ℕ := (Header.ofBytes t.image).length

/-- The moves of the worker. -/
abbrev Moves (t : Terms) : Pos → Option Message → Pos → Prop :=
  Emits t.streaming t.capacity t.length

/-- The actions that are left. -/
abbrev Plan (t : Terms) : Pos → List Action → Prop :=
  Conforms t.streaming t.capacity t.length t.image

/-- The size of the window at `offset`. -/
def size (t : Terms) (offset : ℕ) : ℕ := min t.capacity (t.length - offset)

/-- The order. -/
def order (t : Terms) : Request :=
  ⟨if t.streaming then .registerStream else .register, t.id, t.image.length⟩

/-- The worker's store and history, once it has committed `out` or before it has. -/
def Stock (t : Terms) (peer : Peer) (commits : List Commit) : Option (ℕ → UInt8) → Prop
  | none => peer = t.peer ∧ commits = t.commits
  | some out => peer = t.peer.commit t.id ⟨t.length, out⟩ ∧
      ∃ recipe, decode t.image = .ok recipe ∧
        commits = ⟨t.id, recipe, ⟨t.length, out⟩⟩ :: t.commits

end Terms

/-- The worker is at the head of its loop. -/
def AtLoop (s : Wire) : Prop := ∃ id sent, s.worker = .acting id sent []

/-- Nothing is in flight. -/
def Resting (s : Wire) : Prop :=
  s.toApp = [] ∧ (s.worker = .ended ∨ (AtLoop s ∧ s.toWorker = []))

/-- The worker has taken the session to a position. -/
inductive WorkerAt (t : Terms) (s : Wire) : Pos → Prop
  | acting {w : Pos} {sent : ℕ} {todo : List Action} : s.worker = .acting t.id sent todo →
      t.Plan w todo → (∀ out offset, w = .pass out offset → sent = offset) → WorkerAt t s w
  | publishing {out : ℕ → UInt8} {offset : ℕ} {todo : List Action} :
      s.worker = .publishing t.id offset ⟨t.size offset, fun i => out (offset + i)⟩ todo →
      t.streaming = true → offset < t.length →
      (∀ i < t.size offset, s.window i = out (offset + i)) →
      t.Plan (.pass out (offset + t.size offset)) todo → WorkerAt t s (.pass out offset)
  | awaiting {out : ℕ → UInt8} {offset : ℕ} {todo : List Action} :
      s.worker = .awaiting t.id (offset + t.size offset) todo →
      t.Plan (.pass out (offset + t.size offset)) todo →
      WorkerAt t s (.window out offset (t.size offset))
  | ended {w : Pos} : s.worker = .ended → WorkerAt t s w

/-- The application is at position `a`, the worker at `w`, and the messages lie between: those of
the worker, or the acknowledgement that takes it on from its window. -/
inductive Linked (t : Terms) (s : Wire) : Pos → Pos → Prop
  | level {a w : Pos} : Trace t.Moves a s.toApp w → s.worker = .ended ∨ s.toWorker = [] →
      Linked t s a w
  | acknowledged {out : ℕ → UInt8} {offset : ℕ} : s.toApp = [] →
      s.worker = .ended ∨ s.toWorker = [.request ⟨.streamAck, t.id, offset + t.size offset⟩] →
      Linked t s (.pass out (offset + t.size offset)) (.window out offset (t.size offset))

/-- **The conversation of a session**, with the application at position `a`. -/
structure Talk (t : Terms) (peer : Peer) (s : Wire) (a w : Pos) : Prop where
  worker : WorkerAt t s w
  stock : t.Stock peer s.commits w.committed
  window : ∀ out offset k, w = .window out offset k → ∀ i < k, s.window i = out (offset + i)
  linked : Linked t s a w

/-- The order is on its way, with `rest` behind it. -/
def Ordered (t : Terms) (s : Wire) (rest : List Order) : Prop :=
  s.toApp = [] ∧ (s.worker = .ended ∨ (AtLoop s ∧ s.toWorker = .request t.order :: rest) ∨
    (s.worker = .reading t.order ∧ s.toWorker = rest))

/-- The recipe is being dropped. -/
inductive Withdrawing (t : Terms) (peer : Peer) (s : Wire) : Prop
  | ordered : (∃ out, t.Stock peer s.commits (some out)) → s.toApp = [] → AtLoop s →
      s.toWorker = [.request ⟨.drop, t.id, 0⟩] → Withdrawing t peer s
  | answering {sent : ℕ} {r : Response} : peer = t.peer.drop t.id → s.toApp = [] →
      s.worker = .acting t.id sent [.send (.response r)] → s.toWorker = [] → Withdrawing t peer s
  | answered {r : Response} : peer = t.peer.drop t.id → s.toApp = [.response r] →
      s.worker = .ended ∨ (AtLoop s ∧ s.toWorker = []) → Withdrawing t peer s
  | lost : s.worker = .ended → s.toApp = [] → Withdrawing t peer s

/-- What a pass over the first `n` bytes compares. -/
def passLog (m : Memory) (output n : ℕ) (out : ℕ → UInt8) : List Compared :=
  (List.range n).map fun i => ⟨i, out i, m.bytes (output + i)⟩

/-- **What the application knows of a pass**: every byte below the offset was compared once, and
they were equal if it says so. -/
structure Tracked (x : Session) (out : ℕ → UInt8) (p : Progress) : Prop where
  log : x.log = passLog x.opened.memory x.header.output p.offset out
  equal : p.equal = true → ∀ i < p.offset, out i = x.opened.memory.bytes (x.header.output + i)

/-- What holds at each point of `submit`. -/
def At (x : Session) (peer : Peer) (s : Wire) : Pc → Prop
  | .request => x.log = [] ∧ (terms x).Stock peer s.commits none ∧ Resting s
  | .image => x.log = [] ∧ (terms x).Stock peer s.commits none ∧ Ordered (terms x) s []
  | .receive _ p =>
    (p = ⟨0, true⟩ ∧ x.log = [] ∧ (terms x).Stock peer s.commits none ∧
      Ordered (terms x) s [.image x.image]) ∨
    ∃ out w, (x.streaming = false → p = ⟨0, true⟩) ∧ Tracked x out p ∧
      Talk (terms x) peer s (.pass out p.offset) w
  | .handle p r => ∃ out b c w, (x.streaming = false → p = ⟨0, true⟩) ∧ Tracked x out p ∧
      Trace (terms x).Moves (.pass out p.offset) [] b ∧
      (terms x).Moves b (some (.response r)) c ∧ Talk (terms x) peer s c w
  | .acknowledge p => ∃ out offset w, x.streaming = true ∧
      p.offset = offset + (terms x).size offset ∧ Tracked x out p ∧
      Talk (terms x) peer s (.window out offset ((terms x).size offset)) w
  | .registration equal => ∃ out w,
      Tracked x out ⟨if x.streaming then x.header.length else 0, equal⟩ ∧
      Talk (terms x) peer s (.final out) w
  | .payload _ p => ∃ out w, p.offset ≤ x.header.length ∧ Tracked x out p ∧
      Talk (terms x) peer s (.delivery out p.offset) w
  | .settle _ equal => ∃ out w, Tracked x out ⟨x.header.length, equal⟩ ∧
      Talk (terms x) peer s (.delivery out x.header.length) w
  | .withdraw _ => ∃ out w, Talk (terms x) peer s (.delivery out x.header.length) w
  | .withdrawn _ => Withdrawing (terms x) peer s

/-! ### The conversation -/

section Talk

variable {t : Terms} {peer : Peer} {a w : Pos} {out : ℕ → UInt8}

theorem window_no_plan {offset k : ℕ} {todo : List Action} :
    ¬ t.Plan (.window out offset k) todo := by
  intro h
  cases h with
  | send he _ _ => exact window_stuck _ _ he

theorem delivered_plan {todo : List Action} (h : t.Plan (.delivery out t.length) todo) :
    todo = [] := by
  cases h with
  | delivered => rfl
  | send he _ _ => exact absurd he (delivered_stuck _ _)

theorem refused_plan {todo : List Action} (h : t.Plan .refused todo) : todo = [] := by
  cases h with
  | refused => rfl
  | send he _ _ => exact absurd he (refused_stuck _ _)

theorem Talk.acting_orders {s : Wire} (h : Talk t peer s a w) {id sent : ℕ} {todo : List Action}
    (hw : s.worker = .acting id sent todo) :
    id = t.id ∧ t.Plan w todo ∧ (∀ out offset, w = .pass out offset → sent = offset) ∧
      s.toWorker = [] ∧ Trace t.Moves a s.toApp w := by
  have hne : s.worker ≠ .ended := by
    rw [hw]
    exact WorkerPc.noConfusion
  rcases h.worker with ⟨h1, h2, h3⟩ | ⟨h1, -, -, -, -⟩ | ⟨h1, -⟩ | h1
  · rw [hw] at h1
    cases h1
    rcases h.linked with ⟨ht, hq⟩ | ⟨-, -⟩
    · exact ⟨rfl, h2, h3, hq.resolve_left hne, ht⟩
    · exact absurd h2 window_no_plan
  · rw [hw] at h1
    cases h1
  · rw [hw] at h1
    cases h1
  · exact absurd h1 hne

/-- **A step of the worker keeps the conversation** and does not move the application. -/
theorem Talk.worker_step {s s' : Sys} (h : Talk t s.world.peer s.toWire a w)
    (hs : WorkerStep s s') : ∃ w', Talk t s'.world.peer s'.toWire a w' := by
  cases hs with
  | ends =>
    refine ⟨w, .ended rfl, h.stock, h.window, ?_⟩
    rcases h.linked with ⟨ht, -⟩ | ⟨h1, -⟩
    · exact .level ht (Or.inl rfl)
    · exact .acknowledged h1 (Or.inl rfl)
  | register hw hq _ _ =>
    rw [(h.acting_orders hw).2.2.2.1] at hq
    cases hq
  | invalidSize hw hq _ _ =>
    rw [(h.acting_orders hw).2.2.2.1] at hq
    cases hq
  | drop hw hq _ =>
    rw [(h.acting_orders hw).2.2.2.1] at hq
    cases hq
  | unknown hw hq _ =>
    rw [(h.acting_orders hw).2.2.2.1] at hq
    cases hq
  | decoded exhausted script hw _ =>
    rcases h.worker with ⟨h1, -, -⟩ | ⟨h1, -, -, -, -⟩ | ⟨h1, -⟩ | h1 <;> rw [hw] at h1 <;> cases h1
  | fill hw =>
    obtain ⟨rfl, hp, hsent, hq, ht⟩ := h.acting_orders hw
    cases hp with
    | @publish out offset _ hstr hlt hp =>
      obtain rfl := hsent out offset rfl
      refine ⟨_, .publishing rfl hstr hlt (fun i hi => ?_) hp, h.stock, fun _ _ _ he => ?_,
        .level ht (Or.inr hq)⟩
      · exact if_pos hi
      · cases he
  | publish hw =>
    rcases h.worker with ⟨h1, -, -⟩ | ⟨h1, hstr, hlt, hwin, hp⟩ | ⟨h1, -⟩ | h1 <;> rw [hw] at h1 <;>
      cases h1
    rcases h.linked with ⟨ht, hq⟩ | _
    refine ⟨_, .awaiting rfl hp, h.stock, fun out offset k he => ?_,
      .level (ht.snoc (Emits.window hstr hlt)) (hq.imp_left fun he => ?_)⟩
    · cases he
      exact hwin
    · rw [hw] at he
      cases he
  | acknowledged hw hq =>
    rcases h.worker with ⟨h1, -, -⟩ | ⟨h1, -, -, -, -⟩ | ⟨h1, hp⟩ | h1 <;>
      rw [hw] at h1 <;> cases h1
    rcases h.linked with ⟨-, hq'⟩ | ⟨hta, hq'⟩
    · rw [hw, hq] at hq'
      rcases hq' with he | he <;> cases he
    · rw [hw, hq] at hq'
      rcases hq' with he | he
      · cases he
      · cases he
        refine ⟨_, .acting rfl hp fun _ _ he => ?_, h.stock, fun _ _ _ he => ?_,
          .level ?_ (Or.inr rfl)⟩
        · cases he
          rfl
        · cases he
        · show Trace _ _ s.toApp _
          rw [hta]
          exact .refl _
  | unacknowledged hw hq hne =>
    rcases h.worker with ⟨h1, -, -⟩ | ⟨h1, -, -, -, -⟩ | ⟨h1, hp⟩ | h1 <;>
      rw [hw] at h1 <;> cases h1
    rcases h.linked with ⟨-, hq'⟩ | ⟨hta, hq'⟩
    · rw [hw, hq] at hq'
      rcases hq' with he | he <;> cases he
    · rw [hw, hq] at hq'
      rcases hq' with he | he
      · cases he
      · cases he
        exact absurd rfl hne
  | restart hw =>
    obtain ⟨rfl, hp, -, hq, ht⟩ := h.acting_orders hw
    cases hp with
    | restart hstr hp =>
      refine ⟨_, .acting rfl hp fun _ _ he => ?_, h.stock, fun _ _ _ he => ?_,
        .level (ht.snoc (Emits.restart hstr)) (Or.inr hq)⟩
      · cases he
        rfl
      · cases he
  | commit hw =>
    obtain ⟨rfl, hp, -, hq, ht⟩ := h.acting_orders hw
    cases hp with
    | commit hoff hd hp =>
      obtain ⟨hpeer, hcom⟩ := h.stock
      refine ⟨_, .acting rfl hp fun _ _ he => ?_, ⟨?_, _, hd, ?_⟩, fun _ _ _ he => ?_,
        .level (ht.snoc_silent (Emits.commit hoff)) (Or.inr hq)⟩
      · cases he
      · show s.world.peer.commit _ _ = _
        rw [hpeer]
      · show _ :: s.commits = _
        rw [hcom]
      · cases he
  | send hw =>
    obtain ⟨rfl, hp, -, hq, ht⟩ := h.acting_orders hw
    cases hp with
    | send he hb hp =>
      refine ⟨_, .acting rfl hp fun _ _ hb' => ?_, ?_, fun _ _ _ hb' => ?_,
        .level (ht.snoc he) (Or.inr hq)⟩
      · subst hb'
        exact hb.elim
      · -- a plain message commits nothing
        have := h.stock
        cases he with
        | restart => exact this
        | window => exact this
        | refusal => exact this
        | final => exact this
        | registration => exact this
        | payload => exact this
      · subst hb'
        exact hb.elim

theorem Talk.over {s : Wire} (h : Talk t peer s a w) (hs : ∀ l b, ¬ t.Moves a l b)
    (hp : ∀ todo, t.Plan a todo → todo = []) (ha : ∀ out offset k, a ≠ .window out offset k)
    (hpass : ∀ out offset, a ≠ .pass out offset) : t.Stock peer s.commits a.committed ∧
    Resting s := by
  rcases h.linked with ⟨ht, hq⟩ | ⟨-, -⟩
  · obtain ⟨hta, rfl⟩ := ht.stuck hs
    refine ⟨h.stock, hta, ?_⟩
    rcases h.worker with ⟨h1, h2, -⟩ | ⟨-, -, -, -, -⟩ | ⟨-, -⟩ | h1
    · rw [hp _ h2] at h1
      refine Or.inr ⟨⟨_, _, h1⟩, hq.resolve_left fun he => ?_⟩
      rw [h1] at he
      cases he
    · exact absurd rfl (hpass _ _)
    · exact absurd rfl (ha _ _ _)
    · exact Or.inl h1
  · exact absurd rfl (hpass _ _)

theorem Talk.delivered {s : Wire} (h : Talk t peer s (.delivery out t.length) w) :
    t.Stock peer s.commits (some out) ∧ Resting s :=
  h.over delivered_stuck (fun _ => delivered_plan) (fun _ _ _ he => by cases he)
    fun _ _ he => by cases he

theorem Talk.refused {s : Wire} (h : Talk t peer s .refused w) :
    t.Stock peer s.commits none ∧ Resting s :=
  h.over refused_stuck (fun _ => refused_plan) (fun _ _ _ he => by cases he)
    fun _ _ he => by cases he

theorem Talk.announced {s : Wire} {offset k : ℕ} (h : Talk t peer s (.window out offset k) w) :
    w = .window out offset k ∧ s.toApp = [] ∧ (s.worker = .ended ∨ s.toWorker = []) ∧
      ∀ i < k, s.window i = out (offset + i) := by
  generalize ha : Pos.window out offset k = a at h
  rcases h.linked with ⟨ht, hq⟩ | ⟨-, -⟩
  · subst ha
    obtain ⟨hta, rfl⟩ := ht.stuck window_stuck
    exact ⟨rfl, hta, hq, h.window out offset k rfl⟩
  · cases ha

/-- **Reading a message** moves the application along the worker's moves. -/
theorem Talk.read {s : Wire} (h : Talk t peer s a w) {m : Message} {rest : List Message}
    (hm : s.toApp = m :: rest) :
    ∃ b c, Trace t.Moves a [] b ∧ t.Moves b (some m) c ∧
      Talk t peer { s with toApp := rest } c w := by
  rcases h.linked with ⟨ht, hq⟩ | ⟨hta, -⟩
  · rw [hm] at ht
    obtain ⟨b, c, hb, hmove, hc⟩ := ht.head
    refine ⟨b, c, hb, hmove, ?_, h.stock, h.window, .level hc hq⟩
    rcases h.worker with ⟨h1, h2, h3⟩ | ⟨h1, h2, h3, h4, h5⟩ | ⟨h1, h2⟩ | h1
    · exact .acting h1 h2 h3
    · exact .publishing h1 h2 h3 h4 h5
    · exact .awaiting h1 h2
    · exact .ended h1
  · rw [hm] at hta
    cases hta

end Talk

end Afterfree.Protocol.Agreement
