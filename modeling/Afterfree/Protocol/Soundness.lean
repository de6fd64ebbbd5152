import Afterfree.Protocol.Agreement

/-!
# What `submit` returns

What a return code says (`Outcome`), the invariant of the whole system (`Sound`), and its
preservation by every step of both processes.
-/

namespace Afterfree.Protocol.Soundness

open Afterfree.Common Afterfree.Codec Afterfree.Lib.Weak Afterfree.Runtime.State
open Afterfree.Runtime.Pager Afterfree.Runtime.Submit Afterfree.Runtime.Compared
open Afterfree.Runtime.Api Afterfree.Runtime.Changes Afterfree.Runtime.Decompose
open Afterfree.Runtime.Operations Afterfree.Runtime.Invariants Afterfree.Runtime.Recipes
open Afterfree.Protocol.System Afterfree.Protocol.Dialogue Afterfree.Protocol.Agreement

/-! ### The outcome of a call -/

/-- **`submit` has returned `0`**: the worker has committed the recipe of the image under the id of
the buffer, and each byte of the region was compared once with its output, in order, and was
equal. -/
structure Registered (c : Call) (log : List Compared) (s : Sys) (slot : ℕ) (image : List UInt8)
    (recipe : Recipe) (out : ℕ → UInt8) : Prop where
  found : c.before.find c.output = some slot
  image_eq : c.data = some image
  decoded : decode image = .ok recipe
  committed : s.commits = ⟨(c.before.buffers slot).id, recipe,
    ⟨(Header.ofBytes image).length, out⟩⟩ :: c.commits
  stored : s.world.peer.store (c.before.buffers slot).id =
    some ⟨(Header.ofBytes image).length, out⟩
  compared : log = (List.range (Header.ofBytes image).length).map fun i =>
    ⟨i, out i, c.before.memory.bytes ((Header.ofBytes image).output + i)⟩
  equal : ∀ i < (Header.ofBytes image).length,
    out i = c.before.memory.bytes ((Header.ofBytes image).output + i)
  unbroken : s.world.channelBroken = false

/-- **`submit` has returned `-1`**: every buffer is as it was, and unless the channel is broken the
worker holds nothing for a resident one. -/
structure Declined (c : Call) (s : Sys) : Prop where
  state : ∀ u, (s.world.buffers u).state = (c.before.buffers u).state
  pages : ∀ u, (s.world.buffers u).pages = (c.before.buffers u).pages
  memory : s.world.memory = c.before.memory
  withdrawn : s.world.channelBroken = false → ∀ slot, c.before.find c.output = some slot →
    (c.before.buffers slot).state = .resident →
    s.world.peer.store (c.before.buffers slot).id = none

/-- What a return code says. -/
def Outcome (c : Call) (log : List Compared) (code : Int) (s : Sys) : Prop :=
  (code = 0 ∧ ∃ slot image recipe out, Registered c log s slot image recipe out) ∨
    (code = -1 ∧ Declined c s)

/-! ### The invariant -/

/-- Between two registrations. -/
structure Rested (s : Sys) : Prop where
  inv : Inv s.world
  unclaimed : Unclaimed s.world
  resting : s.world.channelBroken = false → Resting s.toWire

/-- What a session started from, and what the application has done since. -/
structure Standing (x : Session) (w : World) : Prop where
  inv : Inv x.before
  unclaimed : Unclaimed x.before
  unbroken : x.before.channelBroken = false
  screened : Screened x.before x.opened x.output x.data x.slot x.image
  streaming : x.streaming = true → ∃ a, x.opened.arena = some a
  world : w = { x.opened with peer := w.peer }

/-- **The invariant of the system.** -/
def Sound (s : Sys) : Prop :=
  match s.app with
  | .idle => Rested s
  | .submitting x pc => Standing x s.world ∧ At x s.world.peer s.toWire pc
  | .returned c log code => Rested s ∧ Outcome c log code s

/-! ### Sessions -/

section Standing

variable {x : Session} {w : World}

theorem Standing.opened_memory (h : Standing x w) : x.opened.memory = x.before.memory :=
  h.screened.rest.1

theorem Standing.opened_peer (h : Standing x w) : x.opened.peer = x.before.peer :=
  h.screened.rest.2.1

theorem Standing.opened_unbroken (h : Standing x w) : x.opened.channelBroken = false :=
  h.screened.rest.2.2.trans h.unbroken

theorem Standing.id_eq (h : Standing x w) : x.id = (x.before.buffers x.slot).id :=
  (h.screened.same x.slot).id

theorem Standing.buffers (h : Standing x w) : w.buffers = x.opened.buffers := by
  rw [h.world]

theorem Standing.memory (h : Standing x w) : w.memory = x.opened.memory := by
  rw [h.world]

theorem Standing.arena (h : Standing x w) : w.arena = x.opened.arena := by
  rw [h.world]

theorem Standing.channel (h : Standing x w) : w.channelBroken = false := by
  rw [h.world]
  exact h.opened_unbroken

theorem Standing.peer (h : Standing x w) (p : Peer) : Standing x { w with peer := p } :=
  ⟨h.inv, h.unclaimed, h.unbroken, h.screened, h.streaming, by rw [h.world]⟩

theorem Standing.logged (h : Standing x w) (l : List Compared) :
    Standing { x with log := l } w :=
  ⟨h.inv, h.unclaimed, h.unbroken, h.screened, h.streaming, h.world⟩

theorem Standing.opened_none (h : Standing x w) : x.opened.peer.store x.id = none := by
  obtain ⟨hl, -⟩ := (h.inv.indexed.find_iff _ _).mp h.screened.found
  rw [h.opened_peer, h.id_eq]
  exact h.unclaimed.resident h.unbroken _ hl h.screened.resident

end Standing

/-! ### Returning from `submit` -/

section Returning

variable {x : Session} {s s' : Sys}

theorem Standing.declined {w : World} (h : Standing x w)
    (hb : s'.world.buffers = x.opened.buffers) (hm : s'.world.memory = x.opened.memory)
    (hp : s'.world.channelBroken = false → s'.world.peer.store x.id = none) :
    Declined x.toCall s' := by
  refine ⟨fun u => ?_, fun u => ?_, hm.trans h.opened_memory, fun hu slot hf _ => ?_⟩
  · rw [hb]
    exact (h.screened.same u).state
  · rw [hb]
    exact (h.screened.same u).pages
  · have he : x.slot = slot := Option.some.inj (h.screened.found.symm.trans hf)
    rw [← he, ← h.id_eq]
    exact hp hu

theorem Standing.rested {w w' : World} (h : Standing x w) (hm : Moves x.opened w') :
    Inv w' ∧ Unclaimed w' := by
  obtain ⟨ho, -, -, -⟩ := h.screened.moves h.inv
  have hI := ho.steps.inv h.inv
  exact ⟨hm.steps.inv hI, Steps.unclaimed hm.steps hI (Steps.unclaimed ho.steps h.inv h.unclaimed)⟩

theorem Standing.severed {w : World} (h : Standing x s.world) (t : Wire) (m : String)
    (hw : w = s.world) : Sound (Sys.sever ⟨t, w, s.app⟩ x m) := by
  subst hw
  have hmv : Moves x.opened ({ s.world with channelBroken := true }.fail m) := by
    rw [h.world]
    exact (Moves.lose x.opened _).trans (Moves.fail _ m)
  obtain ⟨hI, hu⟩ := h.rested hmv
  exact ⟨⟨hI, hu, fun hb => Bool.noConfusion hb⟩,
    Or.inr ⟨rfl, h.declined h.buffers h.memory fun hb => Bool.noConfusion hb⟩⟩

theorem Standing.refused (h : Standing x s.world)
    (hst : (terms x).Stock s.world.peer s.commits none) (hr : Resting s.toWire) (m : String) :
    Sound { s with world := s.world.fail m, app := .returned x.toCall x.log (-1) } := by
  have hp : s.world.peer = x.opened.peer := hst.1
  have hw : s.world = x.opened := by
    rw [h.world, hp]
  have hmv : Moves x.opened (s.world.fail m) := by
    rw [hw]
    exact Moves.fail _ m
  obtain ⟨hI, hu⟩ := h.rested hmv
  refine ⟨⟨hI, hu, fun _ => hr⟩, Or.inr ⟨rfl, h.declined h.buffers h.memory fun _ => ?_⟩⟩
  show s.world.peer.store x.id = none
  rw [hp]
  exact h.opened_none

theorem Standing.taken_back (h : Standing x s.world)
    (hp : s.world.peer = x.opened.peer.drop x.id) (t : Wire) (hr : Resting t) (m : String) :
    Sound ⟨t, s.world.fail m, .returned x.toCall x.log (-1)⟩ := by
  obtain ⟨-, hl, hres, -⟩ := h.screened.moves h.inv
  have hmv : Moves x.opened (s.world.fail m) := by
    rw [h.world, hp]
    refine Moves.trans ?_ (Moves.fail _ m)
    exact ⟨Relation.ReflTransGen.single (.withdraw x.slot hl hres), fun _ => SameMapping.refl _,
      id, fun _ _ h => h⟩
  obtain ⟨hI, hu⟩ := h.rested hmv
  refine ⟨⟨hI, hu, fun _ => hr⟩, Or.inr ⟨rfl, h.declined h.buffers h.memory fun _ => ?_⟩⟩
  show s.world.peer.store x.id = none
  rw [hp]
  exact drop_self _ _

/-- **A session that ends well.** -/
theorem Standing.sealed (h : Standing x s.world) {g : Registration} {t : ℕ} {out : ℕ → UInt8}
    (hst : (terms x).Stock s.world.peer s.commits (some out)) (hr : Resting s.toWire)
    (htr : Tracked x out ⟨x.header.length, true⟩) :
    Sound { s with
      world := { s.world with
        memory := s.world.memory.mprotect x.header.output
          (rounded x.header.length) .read }.setBuffer
          x.slot (sealedBuffer (s.world.buffers x.slot) x.header g t)
      app := .returned x.toCall x.log 0 } := by
  obtain ⟨hpeer, recipe, hd, hcom⟩ := hst
  obtain ⟨-, hl, hres, hmatch⟩ := h.screened.moves h.inv
  have heq := htr.equal rfl
  have hmv := Moves.enroll (o := ⟨x.header.length, out⟩) hl hres hmatch rfl heq g t
  have hw : s.world =
    { x.opened with peer := x.opened.peer.commit x.id ⟨x.header.length, out⟩ } := by
    have := h.world
    rw [hpeer] at this
    exact this
  obtain ⟨hI, hu⟩ := h.rested hmv
  refine ⟨⟨?_, ?_, fun _ => hr⟩, Or.inl ⟨rfl, x.slot, x.image, recipe, out, ?_⟩⟩
  · show Inv (World.setBuffer _ _ _)
    rw [hw]
    exact hI
  · show Unclaimed (World.setBuffer _ _ _)
    rw [hw]
    exact hu
  · refine ⟨h.screened.found, h.screened.image_eq, hd, ?_, ?_, ?_, fun i hi => ?_, h.channel⟩
    · show s.commits = _
      rw [← h.id_eq]
      exact hcom
    · show s.world.peer.store _ = _
      rw [← h.id_eq, hpeer]
      exact if_pos rfl
    · rw [htr.log, ← h.opened_memory]
      rfl
    · rw [← h.opened_memory]
      exact heq i hi

end Returning

/-! ### The worker's steps -/

section Worker

variable {s s' : Sys} {t : Terms} {x : Session}

theorem Resting.ended {s : Wire} (h : Resting s) : Resting { s with worker := .ended } :=
  ⟨h.1, Or.inl rfl⟩

theorem Resting.worker_step (h : Resting s.toWire) (hs : WorkerStep s s') :
    s' = s ∨ s' = { s with worker := .ended } := by
  obtain ⟨-, he | ⟨⟨id, sent, hw⟩, hq⟩⟩ := h
  · exact Or.inl (hs.of_ended he)
  · rcases hs.of_loop hw with he | ⟨q, rest, hq', -⟩
    · exact Or.inr he
    · rw [hq] at hq'
      cases hq'

theorem Ordered.worker_step {rest : List Order} (h : Ordered t s.toWire rest)
    (hsize : HEADER_SIZE ≤ t.image.length ∧ t.image.length ≤ MAX_BLOB) (hs : WorkerStep s s') :
    (Ordered t s'.toWire rest ∧ s'.world.peer = s.world.peer ∧ s'.commits = s.commits) ∨
    ∃ blob rest' exhausted script, rest = .image blob :: rest' ∧ s' = { s with
      worker := .acting t.id 0 (answerTo s.world.arena exhausted t.streaming script blob)
      toWorker := rest' } := by
  obtain ⟨hta, he | ⟨⟨id, sent, hw⟩, hq⟩ | ⟨hw, hq⟩⟩ := h
  · rw [hs.of_ended he]
    exact Or.inl ⟨⟨hta, Or.inl he⟩, rfl, rfl⟩
  · rcases hs.of_loop hw with rfl | ⟨q, rest', hq', hcase⟩
    · exact Or.inl ⟨⟨hta, Or.inl rfl⟩, rfl, rfl⟩
    · rw [hq] at hq'
      obtain ⟨rfl, rfl⟩ : t.order = q ∧ rest = rest' := by simpa using hq'
      have hcmd : t.order.command = .register ∨ t.order.command = .registerStream := by
        show (if t.streaming then Command.registerStream else .register) = _ ∨
          (if t.streaming then Command.registerStream else .register) = _
        split_ifs
        · exact Or.inr rfl
        · exact Or.inl rfl
      rcases hcase with ⟨-, hbad | rfl⟩ | ⟨hc, -⟩ | hc
      · have : t.order.size = t.image.length := rfl
        omega
      · exact Or.inl ⟨⟨hta, Or.inr (Or.inr ⟨rfl, rfl⟩)⟩, rfl, rfl⟩
      · rw [hc] at hcmd
        rcases hcmd with he | he <;> cases he
      · rw [hc] at hcmd
        rcases hcmd with he | he <;> cases he
  · cases hs with
    | ends => exact Or.inl ⟨⟨hta, Or.inl rfl⟩, rfl, rfl⟩
    | @decoded q blob rest' exhausted script hw' hq' =>
      rw [hw] at hw'
      cases hw'
      refine Or.inr ⟨blob, rest', exhausted, script, hq.symm.trans hq', ?_⟩
      have hcmd : decide (t.order.command = .registerStream) = t.streaming := by
        unfold Terms.order
        cases t.streaming <;> rfl
      rw [hcmd]
      rfl
    | _ => simp_all

/-- The worker has the image: the conversation begins. -/
theorem Talk.begins {blob : List UInt8} {s : Wire} {peer : Peer} {arena : Option Arena}
    (hst : t.Stock peer s.commits none) (hta : s.toApp = []) (exhausted : Bool) (script : Script)
    (hblob : blob = t.image)
    (harena : t.streaming = true → ∃ a, arena = some a ∧ t.capacity = a.capacity) :
    ∃ out w, Talk t peer { s with
      worker := .acting t.id 0 (answerTo arena exhausted t.streaming script blob)
      toWorker := [] } (.pass out 0) w := by
  subst hblob
  obtain ⟨out, hout⟩ := (@answerTo_conforms _ _ t.image) exhausted script harena
  refine ⟨out, .pass out 0, .acting rfl hout fun _ _ he => ?_, hst, fun _ _ _ he => ?_,
    .level ?_ (Or.inr rfl)⟩
  · cases he
    rfl
  · cases he
  · show Trace _ _ s.toApp _
    rw [hta]
    exact .refl _

/-- **The worker drops the recipe** and answers. -/
theorem Withdrawing.worker_step (h : Withdrawing t s.world.peer s.toWire) (hs : WorkerStep s s') :
    Withdrawing t s'.world.peer s'.toWire := by
  rcases h with ⟨⟨out, hpeer, -⟩, hta, ⟨id, sent, hw⟩, hq⟩ | @⟨sent, r, hp, hta, hw,
    hq⟩ | ⟨hp, hta, hw⟩ |
    ⟨hw, hta⟩
  · rcases hs.of_loop hw with rfl | ⟨q, rest, hq', hcase⟩
    · exact .lost rfl hta
    · rw [hq] at hq'
      obtain ⟨rfl, rfl⟩ : (⟨.drop, t.id, 0⟩ : Request) = q ∧ [] = rest := by simpa using hq'
      rcases hcase with ⟨hc | hc, -⟩ | ⟨-, rfl⟩ | hc
      · cases hc
      · cases hc
      · refine .answering ?_ hta rfl rfl
        show s.world.peer.drop t.id = _
        rw [hpeer, commit_drop]
      · cases hc
  · cases hs with
    | ends => exact .lost rfl hta
    | send hw' =>
      rw [hw] at hw'
      cases hw'
      refine .answered (r := r) hp ?_ (Or.inr ⟨⟨_, _, rfl⟩, hq⟩)
      show s.toApp ++ _ = _
      rw [hta]
      rfl
    | _ => simp_all
  · rcases hw with hw | ⟨⟨id, sent, hw⟩, hq⟩
    · rw [hs.of_ended hw]
      exact .answered hp hta (Or.inl hw)
    · rcases hs.of_loop hw with rfl | ⟨q, rest, hq', -⟩
      · exact .answered hp hta (Or.inl rfl)
      · rw [hq] at hq'
        cases hq'
  · rw [hs.of_ended hw]
    exact .lost hw hta

theorem At.worker_step {pc : Pc} (hst : Standing x s.world) (h : At x s.world.peer s.toWire pc)
    (hs : WorkerStep s s') : At x s'.world.peer s'.toWire pc := by
  have hsize : HEADER_SIZE ≤ (terms x).image.length ∧ (terms x).image.length ≤ MAX_BLOB :=
    hst.screened.size
  cases pc with
  | request =>
    obtain ⟨hlog, hstock, hr⟩ := h
    rcases Resting.worker_step hr hs with rfl | rfl
    · exact ⟨hlog, hstock, hr⟩
    · exact ⟨hlog, hstock, Resting.ended hr⟩
  | image =>
    obtain ⟨hlog, hstock, ho⟩ := h
    rcases Ordered.worker_step ho hsize hs with ⟨ho', hp, hc⟩ | ⟨blob, rest, e, script, he, -⟩
    · exact ⟨hlog, by rw [hp, hc]; exact hstock, ho'⟩
    · cases he
  | receive first p =>
    rcases h with ⟨hp0, hlog, hstock, ho⟩ | ⟨out, w, hp0, htr, ht⟩
    · rcases Ordered.worker_step ho hsize hs with ⟨ho', hp, hc⟩ | ⟨blob, rest, e, script, he, rfl⟩
      · exact Or.inl ⟨hp0, hlog, by rw [hp, hc]; exact hstock, ho'⟩
      · obtain ⟨rfl, rfl⟩ : x.image = blob ∧ [] = rest := by simpa using he
        have harena : (terms x).streaming = true → ∃ a, s.world.arena = some a ∧
            (terms x).capacity = a.capacity := by
          intro hstr
          obtain ⟨a, ha⟩ := hst.streaming hstr
          refine ⟨a, hst.arena.trans ha, ?_⟩
          show capacity x.opened = _
          unfold capacity
          rw [ha]
        obtain ⟨out, w, ht⟩ := Talk.begins hstock ho.1 e script rfl harena
        subst hp0
        refine Or.inr ⟨out, w, fun _ => rfl, ⟨?_, fun _ i hi => absurd hi (Nat.not_lt_zero i)⟩, ht⟩
        rw [hlog]
        rfl
    · obtain ⟨w', ht'⟩ := ht.worker_step hs
      exact Or.inr ⟨out, w', hp0, htr, ht'⟩
  | handle p r =>
    obtain ⟨out, b, c, w, hp, htr, hb, hm, ht⟩ := h
    obtain ⟨w', ht'⟩ := ht.worker_step hs
    exact ⟨out, b, c, w', hp, htr, hb, hm, ht'⟩
  | acknowledge p =>
    obtain ⟨out, offset, w, hstr, hp, htr, ht⟩ := h
    obtain ⟨w', ht'⟩ := ht.worker_step hs
    exact ⟨out, offset, w', hstr, hp, htr, ht'⟩
  | registration equal =>
    obtain ⟨out, w, htr, ht⟩ := h
    obtain ⟨w', ht'⟩ := ht.worker_step hs
    exact ⟨out, w', htr, ht'⟩
  | payload g p =>
    obtain ⟨out, w, hle, htr, ht⟩ := h
    obtain ⟨w', ht'⟩ := ht.worker_step hs
    exact ⟨out, w', hle, htr, ht'⟩
  | settle g equal =>
    obtain ⟨out, w, htr, ht⟩ := h
    obtain ⟨w', ht'⟩ := ht.worker_step hs
    exact ⟨out, w', htr, ht'⟩
  | withdraw m =>
    obtain ⟨out, w, ht⟩ := h
    obtain ⟨w', ht'⟩ := ht.worker_step hs
    exact ⟨out, w', ht'⟩
  | withdrawn m => exact Withdrawing.worker_step h hs

theorem Rested.worker_step (h : Rested s) (hs : WorkerStep s s') : Rested s' := by
  by_cases hb : s.world.channelBroken = true
  · obtain ⟨⟨p, hp⟩, -⟩ := hs.frame
    have hlose : s'.world = { s.world with channelBroken := true, peer := p } := by
      rw [hp, ← hb]
    have hmv := Moves.lose s.world p
    refine ⟨?_, ?_, fun hu => ?_⟩
    · rw [hlose]
      exact hmv.steps.inv h.inv
    · rw [hlose]
      exact Steps.unclaimed hmv.steps h.inv h.unclaimed
    · rw [hlose] at hu
      cases hu
  · have hr := h.resting (by simpa using hb)
    rcases Resting.worker_step hr hs with rfl | rfl
    · exact h
    · exact ⟨h.inv, h.unclaimed, fun _ => Resting.ended hr⟩

theorem Outcome.worker_step {c : Call} {log : List Compared} {code : Int} (hr : Rested s)
    (h : Outcome c log code s) (hs : WorkerStep s s') : Outcome c log code s' := by
  by_cases hb : s.world.channelBroken = true
  · obtain ⟨⟨p, hp⟩, -⟩ := hs.frame
    rcases h with ⟨-, slot, image, recipe, out, hreg⟩ | ⟨hc, hd⟩
    · rw [hreg.unbroken] at hb
      cases hb
    · refine Or.inr ⟨hc, ⟨fun u => ?_, fun u => ?_, ?_, fun hu => ?_⟩⟩
      · rw [hp]
        exact hd.state u
      · rw [hp]
        exact hd.pages u
      · rw [hp]
        exact hd.memory
      · rw [hp] at hu
        exact absurd hb (by rw [show s.world.channelBroken = false from hu]; simp)
  · rcases Resting.worker_step (hr.resting (by simpa using hb)) hs with rfl | rfl
    · exact h
    · rcases h with ⟨hc, slot, image, recipe, out, hreg⟩ | ⟨hc, hd⟩
      · exact Or.inl ⟨hc, slot, image, recipe, out, ⟨hreg.found, hreg.image_eq, hreg.decoded,
          hreg.committed, hreg.stored, hreg.compared, hreg.equal, hreg.unbroken⟩⟩
      · exact Or.inr ⟨hc, ⟨hd.state, hd.pages, hd.memory, hd.withdrawn⟩⟩

/-- **Every step of the worker keeps the invariant.** -/
theorem Sound.worker_step (h : Sound s) (hs : WorkerStep s s') : Sound s' := by
  obtain ⟨⟨p, hp⟩, happ⟩ := hs.frame
  unfold Sound at h ⊢
  rw [happ]
  rcases hcase : s.app with _ | ⟨x, pc⟩ | ⟨c, log, code⟩
  · rw [hcase] at h
    exact Rested.worker_step h hs
  · rw [hcase] at h
    refine ⟨?_, At.worker_step h.1 h.2 hs⟩
    rw [hp]
    exact h.1.peer p
  · rw [hcase] at h
    exact ⟨Rested.worker_step h.1 hs, Outcome.worker_step h.1 h.2 hs⟩

end Worker

/-! ### The application's steps -/

section App

variable {s s' : Sys} {x : Session} {out : ℕ → UInt8} {p : Progress}

theorem Tracked.extend (h : Tracked x out p) {k : ℕ} {theirs : ℕ → UInt8}
    (hk : ∀ i < k, theirs i = out (p.offset + i)) :
    Tracked { x with
        log := x.log ++ comparisons x.opened.memory x.header.output p.offset k theirs }
      out ⟨p.offset + k,
        p.equal && x.opened.memory.same (x.header.output + p.offset) k theirs⟩ := by
  constructor
  · show x.log ++ _ = passLog _ _ _ _
    rw [h.log]
    unfold passLog comparisons
    rw [List.range_add, List.map_append, List.map_map]
    refine congrArg₂ (· ++ ·) rfl (List.map_congr_left fun i hi => ?_)
    rw [hk i (List.mem_range.mp hi)]
    rfl
  · intro he i hi
    obtain ⟨h1, h2⟩ := Bool.and_eq_true_iff.mp he
    by_cases hlt : i < p.offset
    · exact h.equal h1 i hlt
    · have hik : i - p.offset < k := by
        change i < p.offset + k at hi
        omega
      have h3 := (same_iff _ _ _ _).mp h2 (i - p.offset) hik
      rw [hk _ hik] at h3
      have e1 : p.offset + (i - p.offset) = i := by omega
      have e2 : x.header.output + p.offset + (i - p.offset) = x.header.output + i := by omega
      rw [e1, e2] at h3
      exact h3

theorem Tracked.start (x : Session) (out : ℕ → UInt8) :
    Tracked { x with log := [] } out ⟨0, true⟩ :=
  ⟨rfl, fun _ i hi => absurd hi (Nat.not_lt_zero i)⟩

/-- **The answer to a response.** What the application makes of it is what the worker meant. -/
theorem Sound.handle {r : Response} (hst : Standing x s.world)
    (h : At x s.world.peer s.toWire (.handle p r)) : Sound (afterResponse s x p r) := by
  obtain ⟨out, b, c, w, hp0, htr, hb, hm, ht⟩ := h
  -- the worker sent it before its commit or right after it
  have hb' : (b = .pass out p.offset) ∨
      (b = .sealed out ∧ (x.streaming = true → p.offset = x.header.length)) := by
    rcases silent_cases hb with rfl | ⟨out', offset, he, rfl, hoff⟩
    · exact Or.inl rfl
    · cases he
      exact Or.inr ⟨rfl, hoff⟩
  unfold afterResponse
  rcases hb' with rfl | ⟨rfl, hoff⟩
  · cases hm with
    | @restart _ out' _ hstr =>
      change x.streaming = true at hstr
      have hre : react s x p restartReply.response = .restart := by
        unfold react
        rw [if_pos hstr]
        rfl
      rw [hre]
      refine ⟨hst.logged [], Or.inr ⟨out', w, fun hf => ?_, Tracked.start x out', ht⟩⟩
      exact Bool.noConfusion (hstr.symm.trans hf)
    | window hstr hlt =>
      change x.streaming = true at hstr
      obtain ⟨a, ha⟩ := hst.streaming hstr
      have hcap : capacity s.world = (terms x).capacity := by
        show capacity s.world = capacity x.opened
        unfold capacity
        rw [hst.arena]
      have hpos : 0 < (terms x).capacity := by
        show 0 < capacity x.opened
        unfold capacity
        rw [ha]
        exact a.pos
      have hlen : (terms x).length = x.header.length := rfl
      have hk : 0 < min (terms x).capacity ((terms x).length - p.offset) := by omega
      obtain ⟨hw, hta, hq, hwin⟩ := ht.announced
      generalize hkk : min (terms x).capacity ((terms x).length - p.offset) = k at hk hwin ht hw
      have hre : react s x p ⟨0, k, ""⟩ = .acknowledge ⟨p.offset + k,
          p.equal && s.world.memory.same (x.header.output + p.offset) k s.window⟩ := by
        unfold react
        rw [if_pos hstr]
        unfold onResponse
        rw [if_neg (by simp), if_neg (by simp), if_neg (by show ¬ k = 0; omega),
          if_neg (by rw [hcap]; show ¬ (_ < k ∨ _ ∨ _ < k); omega)]
      rw [hre]
      have hext := Tracked.extend htr hwin
      rw [hst.memory]
      subst hkk
      exact ⟨hst.logged _, out, p.offset, w, hstr, rfl, hext, ht⟩
    | @refusal _ _ reason =>
      obtain ⟨hstock, hrest⟩ := ht.refused
      have hre : ∃ m, react s x p (refusal reason).response = .rejected m := by
        unfold react
        by_cases hstr : x.streaming = true
        · rw [if_pos hstr]
          exact ⟨_, rfl⟩
        · rw [if_neg hstr]
          exact ⟨_, rfl⟩
      obtain ⟨m, hre⟩ := hre
      rw [hre]
      exact hst.refused hstock hrest m
  · cases hm with
    | @final _ m =>
      by_cases hstr : x.streaming = true
      · have hre : react s x p ⟨0, if (terms x).streaming then 0 else (terms x).length, m⟩ =
            .finished (p.equal && decide (p.offset = x.header.length)) := by
          unfold react
          rw [if_pos hstr, if_pos (show (terms x).streaming = true from hstr)]
          rfl
        rw [hre]
        refine ⟨hst, out, w, ?_, ht⟩
        rw [if_pos hstr, hoff hstr, decide_eq_true rfl, Bool.and_true, ← hoff hstr]
        exact htr
      · have hre : react s x p ⟨0, if (terms x).streaming then 0 else (terms x).length, m⟩ =
            .finished true := by
          unfold react
          rw [if_neg hstr, if_neg (show ¬ (terms x).streaming = true from hstr)]
          rw [if_neg (by simp), if_neg (by simp [Terms.length, terms, Session.header])]
        rw [hre]
        refine ⟨hst, out, w, ?_, ht⟩
        rw [if_neg hstr]
        rw [hp0 (by simpa using hstr)] at htr
        exact htr

theorem Sound.refused {output : ℕ} {data : Option (List UInt8)} (h : Rested s) (m : String) :
    Sound { s with
      world := s.world.fail m
      app := .returned ⟨s.world, s.commits, output, data⟩ [] (-1) } := by
  have hmv := Moves.fail s.world m
  refine ⟨⟨hmv.steps.inv h.inv, Steps.unclaimed hmv.steps h.inv h.unclaimed, h.resting⟩,
    Or.inr ⟨rfl, fun _ => rfl, fun _ => rfl, rfl, fun hu slot hf hres => ?_⟩⟩
  obtain ⟨hl, -⟩ := (h.inv.indexed.find_iff _ _).mp hf
  exact h.unclaimed.resident hu slot hl hres

theorem Sound.disconnected {output slot : ℕ} {data : Option (List UInt8)} {image : List UInt8}
    {w : World} (h : Rested s) (hscr : Screened s.world w output data slot image)
    (hb : w.channelBroken = true) (m : String) :
    Sound { s with
      world := w.fail m
      app := .returned ⟨s.world, s.commits, output, data⟩ [] (-1) } := by
  obtain ⟨hmv, -, -, -⟩ := hscr.moves h.inv
  have hmv' := hmv.trans (Moves.fail w m)
  have habs : ∀ {α : Prop}, (w.fail m).channelBroken = false → α := fun hu =>
    Bool.noConfusion (hb.symm.trans hu)
  exact ⟨⟨hmv'.steps.inv h.inv, Steps.unclaimed hmv'.steps h.inv h.unclaimed, fun hu => habs hu⟩,
    Or.inr ⟨rfl, fun u => (hscr.same u).state, fun u => (hscr.same u).pages, hscr.rest.1,
      fun hu => habs hu⟩⟩

theorem Ordered.snoc {t : Terms} {s : Wire} {rest : List Order} (h : Ordered t s rest) (o : Order) :
    Ordered t { s with toWorker := s.toWorker ++ [o] } (rest ++ [o]) := by
  obtain ⟨hta, hw | ⟨hl, hq⟩ | ⟨hw, hq⟩⟩ := h
  · exact ⟨hta, Or.inl hw⟩
  · refine ⟨hta, Or.inr (Or.inl ⟨hl, ?_⟩)⟩
    show s.toWorker ++ [o] = _
    rw [hq, List.cons_append]
  · refine ⟨hta, Or.inr (Or.inr ⟨hw, ?_⟩)⟩
    show s.toWorker ++ [o] = _
    rw [hq]

theorem Resting.order {t : Terms} {s : Wire} (h : Resting s) :
    Ordered t { s with toWorker := s.toWorker ++ [.request t.order] } [] := by
  obtain ⟨hta, hw | ⟨hl, hq⟩⟩ := h
  · exact ⟨hta, Or.inl hw⟩
  · refine ⟨hta, Or.inr (Or.inl ⟨hl, ?_⟩)⟩
    show s.toWorker ++ _ = _
    rw [hq, List.nil_append]

theorem Talk.acknowledge {t : Terms} {peer : Peer} {s : Wire} {w : Pos} {offset : ℕ}
    (h : Talk t peer s (.window out offset (t.size offset)) w) :
    Talk t peer { s with
        toWorker := s.toWorker ++ [.request ⟨.streamAck, t.id, offset + t.size offset⟩] }
      (.pass out (offset + t.size offset)) w := by
  obtain ⟨rfl, hta, hq, hwin⟩ := h.announced
  refine ⟨?_, h.stock, h.window, .acknowledged hta (hq.imp id fun hq => ?_)⟩
  · rcases h.worker with ⟨h1, h2, -⟩ | ⟨-, -, -, -, -⟩ | ⟨h1, h2⟩ | h1
    · exact absurd h2 window_no_plan
    · exact .awaiting h1 h2
    · exact .ended h1
  · show s.toWorker ++ _ = _
    rw [hq, List.nil_append]

theorem At.registration {equal : Bool} {g : Registration} {rest : List Message} {peer : Peer}
    {s : Wire} (h : At x peer s (.registration equal)) (hm : s.toApp = .registration g :: rest) :
    At x peer { s with toApp := rest }
      (if x.streaming then .settle g equal else .payload g ⟨0, equal⟩) := by
  obtain ⟨out, w, htr, ht⟩ := h
  obtain ⟨b, c, hb, hmove, ht'⟩ := ht.read hm
  rcases silent_cases hb with rfl | ⟨_, _, he, -, -⟩
  · cases hmove with
    | registration =>
      by_cases hstr : x.streaming = true
      · rw [if_pos hstr] at htr ⊢
        rw [if_pos (show (terms x).streaming = true from hstr)] at ht'
        exact ⟨out, w, htr, ht'⟩
      · rw [if_neg hstr] at htr ⊢
        rw [if_neg (show ¬ (terms x).streaming = true from hstr)] at ht'
        exact ⟨out, w, Nat.zero_le _, htr, ht'⟩
  · cases he

theorem At.chunk {g : Registration} {o : Output} {rest : List Message} {peer : Peer} {s : Wire}
    (h : At x peer s (.payload g p)) (hm : s.toApp = .payload o :: rest) :
    At { x with
        log := x.log ++ comparisons x.opened.memory x.header.output p.offset o.length o.byte }
      peer { s with toApp := rest }
      (.payload g ⟨p.offset + o.length,
        p.equal && x.opened.memory.same (x.header.output + p.offset) o.length o.byte⟩) := by
  obtain ⟨out, w, hle, htr, ht⟩ := h
  obtain ⟨b, c, hb, hmove, ht'⟩ := ht.read hm
  rcases silent_cases hb with rfl | ⟨_, _, he, -, -⟩
  · cases hmove with
    | payload hlt =>
      have hext := Tracked.extend htr
        (k := min CHUNK ((terms x).length - p.offset)) fun i _ => rfl
      refine ⟨out, w, ?_, hext, ht'⟩
      show p.offset + min CHUNK (x.header.length - p.offset) ≤ x.header.length
      omega
  · cases he

/-- The registration is to be taken back: the session goes on with other statistics. -/
theorem Standing.restat {st : Stats} (h : Standing x s.world)
    (hst : st.length = (x.opened.buffers x.slot).stats.length) :
    Standing { x with opened :=
        x.opened.setBuffer x.slot { x.opened.buffers x.slot with stats := st } }
      (s.world.setBuffer x.slot { s.world.buffers x.slot with stats := st }) := by
  refine ⟨h.inv, h.unclaimed, h.unbroken, h.screened.restat hst, h.streaming, ?_⟩
  rw [h.world]
  rfl

theorem terms_restat (x : Session) (st : Stats) :
    terms { x with opened :=
      x.opened.setBuffer x.slot { x.opened.buffers x.slot with stats := st } } = terms x := by
  have hid : ((x.opened.setBuffer x.slot { x.opened.buffers x.slot with stats := st }).buffers
      x.slot).id = (x.opened.buffers x.slot).id := by
    show (Function.update x.opened.buffers x.slot _ x.slot).id = _
    rw [Function.update_self]
  unfold terms Session.id
  simp only [hid]
  rfl

theorem Sound.rejected {g : Registration} {equal isProtected : Bool} {t : ℕ} {w : World}
    {m : String} (hst : Standing x s.world) (h : At x s.world.peer s.toWire (.settle g equal))
    (hc : conclude g t isProtected s.world x.slot x.header equal = (w, some m)) :
    Sound { s with
      world := w
      app := .submitting { x with opened := { w with peer := x.opened.peer } } (.withdraw m) } := by
  obtain ⟨out, w', htr, ht⟩ := h
  rcases conclude_cases g t isProtected s.world x.slot x.header equal with
    ⟨st, m', hlen, hc'⟩ | ⟨-, hc'⟩
  · rw [hc'] at hc
    cases hc
    rw [hst.buffers] at hlen
    have ho : { s.world.setBuffer x.slot { s.world.buffers x.slot with stats := st } with
        peer := x.opened.peer } =
        x.opened.setBuffer x.slot { x.opened.buffers x.slot with stats := st } := by
      rw [hst.world]
      rfl
    rw [ho]
    refine ⟨hst.restat hlen, out, w', ?_⟩
    rw [terms_restat]
    exact ht
  · rw [hc'] at hc
    cases hc

/-- **Every step of the application keeps the invariant.** -/
theorem Sound.app_step (h : Sound s) (hs : AppStep s s') : Sound s' := by
  unfold Sound at h
  cases hs with
  | other happ _ hstep =>
    rw [happ] at h
    have he := step_effect h.inv hstep
    unfold Sound
    rw [happ]
    exact ⟨Effect.inv he h.inv, Effect.unclaimed he h.inv h.unclaimed,
      fun hu => h.resting (Effect.unbroken he hu)⟩
  | refused happ _ =>
    rw [happ] at h
    exact Sound.refused h _
  | disconnected happ hscr hb =>
    rw [happ] at h
    exact Sound.disconnected h (screen_ok hscr) hb _
  | call disabled happ hscr hu =>
    rw [happ] at h
    have hscr := screen_ok hscr
    have hub := hscr.rest.2.2.symm.trans hu
    refine ⟨⟨h.inv, h.unclaimed, hub, hscr, fun hstr => ?_, rfl⟩, rfl, ⟨rfl, rfl⟩, h.resting hub⟩
    exact Option.isSome_iff_exists.mp (Bool.and_eq_true_iff.mp hstr).1
  | severed happ _ =>
    rw [happ] at h
    exact h.1.severed _ _ rfl
  | request happ =>
    rw [happ] at h
    obtain ⟨hst, hlog, hstock, hr⟩ := h
    exact ⟨hst, hlog, hstock, Resting.order hr⟩
  | image happ =>
    rw [happ] at h
    obtain ⟨hst, hlog, hstock, ho⟩ := h
    exact ⟨hst, Or.inl ⟨rfl, hlog, hstock, Ordered.snoc ho _⟩⟩
  | receive happ hm =>
    rw [happ] at h
    obtain ⟨hst, ⟨-, -, -, hta, -⟩ | ⟨out, w, hp0, htr, ht⟩⟩ := h
    · rw [hm] at hta
      cases hta
    · obtain ⟨b, c, hb, hmove, ht'⟩ := ht.read hm
      exact ⟨hst, out, b, c, w, hp0, htr, hb, hmove, ht'⟩
  | handle happ =>
    rw [happ] at h
    exact Sound.handle h.1 h.2
  | acknowledge happ =>
    rw [happ] at h
    obtain ⟨hst, out, offset, w, hstr, hp, htr, ht⟩ := h
    refine ⟨hst, Or.inr ⟨out, w, fun hf => Bool.noConfusion (hstr.symm.trans hf), htr, ?_⟩⟩
    rw [hp]
    exact Talk.acknowledge ht
  | badRegistration happ _ _ =>
    rw [happ] at h
    exact h.1.severed _ _ rfl
  | registration happ hm _ =>
    rw [happ] at h
    exact ⟨h.1, At.registration h.2 hm⟩
  | chunk happ _ hm _ =>
    rw [happ] at h
    rw [h.1.memory]
    exact ⟨h.1.logged _, At.chunk h.2 hm⟩
  | delivered happ hge =>
    rw [happ] at h
    obtain ⟨hst, out, w, hle, htr, ht⟩ := h
    have he := le_antisymm hle hge
    refine ⟨hst, out, w, ?_, ?_⟩
    · rw [← he]
      exact htr
    · rw [← he]
      exact ht
  | @sealed x g equal w t isProtected happ hc =>
    rw [happ] at h
    obtain ⟨hst, out, w', htr, ht⟩ := h
    obtain ⟨hstock, hrest⟩ := ht.delivered
    rcases conclude_cases g t isProtected s.world x.slot x.header equal with
      ⟨st, m, -, hc'⟩ | ⟨rfl, hc'⟩
    · rw [hc'] at hc
      cases hc
    · rw [hc'] at hc
      cases hc
      exact hst.sealed hstock hrest htr
  | rejected t isProtected happ hc =>
    rw [happ] at h
    exact Sound.rejected h.1 h.2 hc
  | withdraw happ =>
    rw [happ] at h
    obtain ⟨hst, out, w, ht⟩ := h
    obtain ⟨hstock, hta, hw⟩ := ht.delivered
    refine ⟨hst, ?_⟩
    rcases hw with hw | ⟨hl, hq⟩
    · exact .lost hw hta
    · refine .ordered ⟨out, hstock⟩ hta hl ?_
      show s.toWorker ++ _ = _
      rw [hq]
      rfl
  | withdrawn happ hm =>
    rw [happ] at h
    obtain ⟨hst, ⟨-, hta, -, -⟩ | ⟨-, hta, -, -⟩ | ⟨hp, hta, hw⟩ | ⟨-, hta⟩⟩ := h
    · rw [hm] at hta
      cases hta
    · rw [hm] at hta
      cases hta
    · rw [hm] at hta
      cases hta
      exact hst.taken_back hp { s.toWire with toApp := [] } ⟨rfl, hw⟩ _
    · rw [hm] at hta
      cases hta
  | resume happ =>
    rw [happ] at h
    exact ⟨h.1.inv, h.1.unclaimed, h.1.resting⟩

end App

/-! ### Every state reached -/

theorem Sound.initial (arena : Option Arena) (memory : Memory) :
    Sound (Sys.initial arena memory) :=
  ⟨initial_inv arena memory, ⟨fun _ _ hl => absurd rfl hl.2, fun _ _ _ => rfl⟩,
    fun _ => ⟨rfl, Or.inr ⟨⟨0, 0, rfl⟩, rfl⟩⟩⟩

theorem Reaches.sound {s s' : Sys} (h : Reaches s s') (hs : Sound s) : Sound s' := by
  induction h with
  | refl => exact hs
  | tail _ hstep ih =>
    cases hstep with
    | app ha => exact ih.app_step ha
    | worker hw => exact ih.worker_step hw

end Afterfree.Protocol.Soundness
