import Afterfree.Runtime.Changes

/-!
# The entry points as sequences of changes

Each function of the pager is decomposed into elementary changes, under the invariant of the
world. `Moves` collects what is kept beside the invariant: pinned buffers stay pinned, and a pinned
buffer without a cold page gives its recipe up by the end of the operation that made it so.
-/

namespace Afterfree.Runtime.Decompose

open Afterfree.Common Afterfree.Lib Afterfree.Runtime.State Afterfree.Runtime.Pager
open Afterfree.Runtime.Submit Afterfree.Runtime.Api Afterfree.Runtime.Lookup
open Afterfree.Runtime.Representation Afterfree.Runtime.Changes

/-! ### What an operation keeps -/

/-- A pinned buffer without a cold page has given up its recipe. -/
def Retired (b : Buffer) : Prop :=
  b.state = .pinned → (∀ i < b.pageCount, b.Present i) → b.recipeLive = false

/-- On an unbroken channel every live buffer is `Retired`. -/
def AllRetired (w : World) : Prop :=
  w.channelBroken = false → ∀ s, w.Live s → Retired (w.buffers s)

/-- Pinned buffers stay pinned. -/
def PinnedKept (w w' : World) : Prop :=
  ∀ s, w.Live s → (w.buffers s).state = .pinned → (w'.buffers s).state = .pinned

/-- Two contents of a slot for the same allocation. -/
structure SameMapping (b b' : Buffer) : Prop where
  data : b'.data = b.data
  mapped : b'.mapped = b.mapped
  id : b'.id = b.id
  length : b'.stats.length = b.stats.length

theorem SameMapping.refl (b : Buffer) : SameMapping b b := ⟨rfl, rfl, rfl, rfl⟩

theorem SameMapping.trans {b1 b2 b3 : Buffer} (h1 : SameMapping b1 b2) (h2 : SameMapping b2 b3) :
    SameMapping b1 b3 :=
  ⟨h2.data.trans h1.data, h2.mapped.trans h1.mapped, h2.id.trans h1.id, h2.length.trans h1.length⟩

/-- What an operation does to the world. -/
structure Moves (w w' : World) : Prop where
  steps : Steps w w'
  mapping : ∀ s, SameMapping (w.buffers s) (w'.buffers s)
  retired : AllRetired w → AllRetired w'
  pinned : PinnedKept w w'

theorem Moves.live {w w' : World} (h : Moves w w') (s : ℕ) : w'.Live s ↔ w.Live s := by
  unfold World.Live
  rw [(h.mapping s).data]

theorem Moves.refl (w : World) : Moves w w :=
  ⟨Relation.ReflTransGen.refl, fun _ => SameMapping.refl _, id, fun _ _ hs => hs⟩

theorem Moves.trans {w1 w2 w3 : World} (h1 : Moves w1 w2) (h2 : Moves w2 w3) : Moves w1 w3 :=
  ⟨h1.steps.trans h2.steps, fun s => (h1.mapping s).trans (h2.mapping s),
    fun h => h2.retired (h1.retired h),
    fun s hl hs => h2.pinned s ((h1.live s).mpr hl) (h1.pinned s hl hs)⟩

theorem Moves.note {w w' : World} (hb : ∀ s, SameCore (w.buffers s) (w'.buffers s))
    (hm : w'.memory = w.memory) (hi : w'.allocationIndex = w.allocationIndex)
    (hn : w'.nextid = w.nextid) (hr : w'.residentManaged = w.residentManaged)
    (hc : w'.channelBroken = w.channelBroken) (hp : w'.peer = w.peer) : Moves w w' := by
  refine ⟨Relation.ReflTransGen.single (.note hb hm hi hn hr hc hp),
    fun s => ⟨(hb s).data, (hb s).mapped, (hb s).id, (hb s).length⟩, fun h hu s hl => ?_,
    fun s _ hs => (hb s).state.trans hs⟩
  have hlive : w.Live s := by
    unfold World.Live at *
    rw [← (hb s).data]
    exact hl
  have := h (hc ▸ hu) s hlive
  unfold Retired Buffer.Present Buffer.pageCount at *
  rw [(hb s).state, (hb s).pages, (hb s).recipeLive, (hb s).mapped]
  exact this

theorem Moves.fail (w : World) (m : String) : Moves w (w.fail m) :=
  Moves.note (fun _ => SameCore.refl _) rfl rfl rfl rfl rfl rfl

theorem Moves.lose (w : World) (p : Peer) : Moves w { w with channelBroken := true, peer := p } :=
  ⟨Relation.ReflTransGen.single (.lose p), fun _ => SameMapping.refl _,
    fun _ hu => Bool.noConfusion hu, fun _ _ hs => hs⟩

/-! ### Requests -/

/-- How a request ends: the channel was or becomes broken, or the worker has handled it. -/
theorem request_cases {α : Type} (l : Link) (w : World) (handle : Peer → Peer × α) :
    (request l w handle = (w, none) ∧ w.channelBroken = true) ∨
      (∃ p, request l w handle = ({ w with channelBroken := true, peer := p }, none)) ∨
      (request l w handle = ({ w with peer := (handle w.peer).1 }, some (handle w.peer).2) ∧
        w.channelBroken = false) := by
  unfold request
  by_cases hb : w.channelBroken = true
  · simp [hb]
  · rw [if_neg hb]
    by_cases hs : l.sent = true
    · by_cases hr : l.received = true
      · simp [hs, hr, hb]
      · simp only [hs, hr]
        exact Or.inr (Or.inl ⟨_, rfl⟩)
    · simp only [hs]
      exact Or.inr (Or.inl ⟨w.peer, rfl⟩)

theorem request_answered {α : Type} {l : Link} {w : World} {handle : Peer → Peer × α} {x : α}
    (h : (request l w handle).2 = some x) : w.channelBroken = false ∧ l = ⟨true, true⟩ := by
  obtain ⟨sent, received⟩ := l
  unfold request at h
  cases hb : w.channelBroken <;> cases sent <;> cases received <;> simp [hb] at h ⊢

/-! ### Restoring -/

theorem handleRestore_ok {willing : Bool} {q : Request} {p : Peer}
    (h : (handleRestore willing q p).2.1.status = 0) :
    ∃ o, p.store q.id = some o ∧ (handleRestore willing q p).1 = p ∧
      (handleRestore willing q p).2.1.size =
        (if q.command = .restore then o.length else rangeLength q.size) ∧
      (handleRestore willing q p).2.2 =
        fun i => o.byte ((if q.command = .restore then 0 else rangeOffset q.size) + i) := by
  unfold handleRestore at *
  rcases ho : p.store q.id with _ | o
  · rw [ho] at h
    simp at h
  · rw [ho] at h
    simp only at h ⊢
    split_ifs at h ⊢ with h1
    · exact ⟨o, rfl, rfl, rfl, rfl⟩
    · exact ⟨o, rfl, rfl, rfl, rfl⟩

theorem restoreRequest_command (arena : Option Arena) (b : Buffer) (x : Extent) :
    (restoreRequest arena b x).command = .restore ↔ b.stats.pageBytes = 0 := by
  unfold restoreRequest usesWindow
  by_cases hp : b.stats.pageBytes = 0
  · rcases arena with _ | c <;> simp [hp]
  · rcases arena with _ | c
    · simp [hp]
    · by_cases hc : x.length ≤ c.capacity <;> simp [hp, hc]

/-- **One `restore_span`.** It succeeds on an unbroken channel only, with the bytes the worker
keeps for this id. -/
theorem restoreSpan_eq {e : SpanEnv} {w w' : World} {slot first last : ℕ}
    (h : restoreSpan e w slot first last = some w') :
    ∃ o, w.channelBroken = false ∧ w.peer.store (w.buffers slot).id = some o ∧
      w' = applyRestore (w.ask slot (extentOf (w.buffers slot) first last)) slot
        (extentOf (w.buffers slot) first last)
        (fun i => o.byte ((extentOf (w.buffers slot) first last).offset -
          (w.buffers slot).recipeOffset + i)) e.elapsed := by
  unfold restoreSpan at h
  simp only at h
  generalize hx : extentOf (w.buffers slot) first last = x at h ⊢
  generalize hq : restoreRequest w.arena (w.buffers slot) x = q at h
  rcases request_cases e.link (w.ask slot x) (handleRestore (e.willing q) q) with ⟨hr, -⟩ | ⟨p,
    hr⟩ | ⟨hr, hu⟩
  · rw [hr] at h
    cases h
  · rw [hr] at h
    cases h
  rw [hr] at h
  simp only at h
  split_ifs at h with h1 h2 h3 h4
  rw [not_or, not_ne_iff, not_ne_iff] at h1
  obtain ⟨o, ho, hp, hsize, hpay⟩ := handleRestore_ok h1.1
  have hid : q.id = (w.buffers slot).id := by rw [← hq]; rfl
  have hword : q.size = if (w.buffers slot).stats.pageBytes ≠ 0 then
      packRange (x.offset - (w.buffers slot).recipeOffset) x.length else 0 := by rw [← hq]; rfl
  have hcmd : q.command = .restore ↔ (w.buffers slot).stats.pageBytes = 0 := by
    rw [← hq]
    exact restoreRequest_command _ _ _
  rw [hid] at ho
  refine ⟨o, hu, ho, ?_⟩
  -- the offset in the payload is the offset of the extent in the region
  have hoff : (if q.command = .restore then 0 else rangeOffset q.size) =
      x.offset - (w.buffers slot).recipeOffset := by
    by_cases hb : (w.buffers slot).stats.pageBytes = 0
    · rw [if_pos (hcmd.mpr hb), ← hx]
      unfold extentOf
      rw [if_neg (not_not_intro hb)]
      simp
    · have hlen := h1.2
      rw [if_neg fun hc => hb (hcmd.mp hc), hword, if_pos hb]
      rw [hsize, if_neg fun hc => hb (hcmd.mp hc), hword, if_pos hb] at hlen
      have hlt : x.length < 2 ^ 32 := by
        rw [← hlen]
        exact Nat.mod_lt _ (by positivity)
      exact (range_unpack hlt).1
  rw [hpay, hoff, hp] at h
  exact (Option.some.inj h).symm

theorem coldEnd_spec (b : Buffer) (page last window : ℕ) :
    ∀ (fuel stop : ℕ), stop ≤ last → stop ≤ coldEnd b page last window fuel stop ∧
      coldEnd b page last window fuel stop ≤ last ∧
      ∀ i, stop ≤ i → i < coldEnd b page last window fuel stop → b.pages i = .cold
  | 0, stop, h => ⟨le_rfl, h, fun i _ _ => by simp only [coldEnd] at *; omega⟩
  | fuel + 1, stop, h => by
    unfold coldEnd
    split_ifs with hc
    · obtain ⟨h1, h2, h3⟩ := coldEnd_spec b page last window fuel (stop + 1) (by omega)
      refine ⟨by omega, h2, fun i hi hlt => ?_⟩
      rcases Nat.eq_or_lt_of_le hi with rfl | hi
      · exact hc.2.2
      · exact h3 i hi hlt
    · exact ⟨le_rfl, h, fun i _ _ => by omega⟩

/-- What restoring, unlocking and retiring leave of the world: other slots, the mapping of the
slot and its present pages. -/
structure Paged (slot : ℕ) (w w' : World) : Prop where
  steps : Steps w w'
  other : ∀ s, s ≠ slot → w'.buffers s = w.buffers s
  mapping : SameMapping (w.buffers slot) (w'.buffers slot)
  present : ∀ i, (w.buffers slot).Present i → (w'.buffers slot).Present i
  pinned : (w.buffers slot).state = .pinned → (w'.buffers slot).state = .pinned
  index : w'.allocationIndex = w.allocationIndex
  unbroken : w'.channelBroken = false → w.channelBroken = false

theorem Paged.refl (slot : ℕ) (w : World) : Paged slot w w :=
  ⟨Relation.ReflTransGen.refl, fun _ _ => rfl, SameMapping.refl _, fun _ h => h, fun h => h, rfl,
    fun h => h⟩

theorem Paged.trans {slot : ℕ} {w1 w2 w3 : World} (h1 : Paged slot w1 w2)
    (h2 : Paged slot w2 w3) : Paged slot w1 w3 :=
  ⟨h1.steps.trans h2.steps, fun s hs => (h2.other s hs).trans (h1.other s hs),
    h1.mapping.trans h2.mapping,
    fun i hi => h2.present i (h1.present i hi), fun hs => h2.pinned (h1.pinned hs),
    h2.index.trans h1.index, fun hu => h1.unbroken (h2.unbroken hu)⟩

theorem Paged.live {slot : ℕ} {w w' : World} (h : Paged slot w w') (s : ℕ) :
    w'.Live s ↔ w.Live s := by
  unfold World.Live
  by_cases hs : s = slot
  · subst hs
    rw [h.mapping.data]
  · rw [h.other s hs]

theorem Paged.pageCount {slot : ℕ} {w w' : World} (h : Paged slot w w') :
    (w'.buffers slot).pageCount = (w.buffers slot).pageCount := by
  unfold Buffer.pageCount
  rw [h.mapping.mapped]

theorem Paged.restore {w : World} {s : ℕ} {x : Extent} {o : Output} (hl : w.Live s)
    (hx : ColdExtent (w.buffers s) x) (hu : w.channelBroken = false)
    (ho : w.peer.store (w.buffers s).id = some o) (t : ℕ) :
    Paged s w (applyRestore (w.ask s x) s x
      (fun i => o.byte (x.offset - (w.buffers s).recipeOffset + i)) t) := by
  have hself : (applyRestore (w.ask s x) s x
      (fun i => o.byte (x.offset - (w.buffers s).recipeOffset + i)) t).buffers =
        Function.update w.buffers s (restored (w.buffers s) x t) := rfl
  have hask : Change w (w.ask s x) := .note (fun _ => SameCore.refl _) rfl rfl rfl rfl rfl rfl
  refine ⟨(Relation.ReflTransGen.single hask).tail (.restore s x o t hl hx hu ho),
    fun u hne => ?_, ?_,
    fun i hi => ?_, fun hp => ?_, rfl, fun h => h⟩
  · rw [hself, Function.update_of_ne hne]
  · rw [hself, Function.update_self]
    exact ⟨rfl, rfl, rfl, rfl⟩
  · rw [hself, Function.update_self]
    exact restored_present.mpr (Or.inl hi)
  · rw [hself, Function.update_self]
    show (if _ ∧ (w.buffers s).state ≠ .pinned then BufferState.sealed
      else (w.buffers s).state) = .pinned
    rw [if_neg fun hc => hc.2 hp, hp]

/-- **The restoring loop.** Every page of the span is present afterwards. -/
theorem restoreLoop_spec (e : ℕ → SpanEnv) (slot last : ℕ) :
    ∀ (fuel : ℕ) (w w' : World) (page : ℕ), Inv w → w.Live slot →
      last ≤ (w.buffers slot).pageCount → last - page ≤ fuel →
      restoreLoop e slot last fuel w page = some w' →
      Paged slot w w' ∧ ∀ i, page ≤ i → i < last → (w'.buffers slot).Present i
  | 0, w, w', page, _, _, _, hf, h => by
    cases h
    exact ⟨Paged.refl slot w, fun i h1 h2 => by omega⟩
  | fuel + 1, w, w', page, hI, hl, hlast, hf, h => by
    unfold restoreLoop at h
    simp only at h
    split_ifs at h with h1 h2
    · obtain ⟨hp, hall⟩ :=
        restoreLoop_spec e slot last fuel w w' (page + 1) hI hl hlast (by omega) h
      refine ⟨hp, fun i hi hlt => ?_⟩
      rcases Nat.eq_or_lt_of_le hi with rfl | hi
      · exact hp.present _ h2
      · exact hall i hi hlt
    · rw [not_ne_iff] at h2
      obtain ⟨c1, c2, c3⟩ := coldEnd_spec (w.buffers slot) page last (windowPages w.arena)
        (last - page) (page + 1) (by omega)
      generalize coldEnd (w.buffers slot) page last (windowPages w.arena) (last - page) (page + 1) =
        stop at h c1 c2 c3
      have hcold : ∀ i, page ≤ i → i < stop → (w.buffers slot).pages i = .cold := by
        intro i hi hlt
        rcases Nat.eq_or_lt_of_le hi with rfl | hi
        · exact h2
        · exact c3 i hi hlt
      obtain ⟨hx, x1, x2⟩ := extentOf_cold (hI.buffer slot hl) (show page < stop by omega)
        (by omega) hcold
      rcases hr : restoreSpan (e page) w slot page stop with _ | w1
      · rw [hr] at h
        cases h
      rw [hr] at h
      obtain ⟨o, hu, ho, hw1⟩ := restoreSpan_eq hr
      have hp1 : Paged slot w w1 := by
        rw [hw1]
        exact Paged.restore hl hx hu ho _
      have hI1 := hp1.steps.inv hI
      obtain ⟨hp2, hall⟩ :=
        restoreLoop_spec e slot last fuel w1 w' stop hI1 ((hp1.live slot).mpr hl)
        (by rw [hp1.pageCount]; exact hlast) (by omega) h
      refine ⟨hp1.trans hp2, fun i hi hlt => ?_⟩
      by_cases his : i < stop
      · refine hp2.present i ?_
        rw [hw1]
        show (Function.update w.buffers slot (restored (w.buffers slot) _ _) slot).Present i
        rw [Function.update_self]
        exact restored_present.mpr (Or.inr ⟨by omega, by omega⟩)
      · exact hall i (by omega) hlt
    · cases h
      exact ⟨Paged.refl slot w, fun i h1 h2 => by omega⟩

/-! ### Materializing -/

theorem unlock_spec {e : MaterializeEnv} {w w' : World} {slot first last : ℕ} {writing : Bool}
    (hl : w.Live slot) (hlast : last ≤ (w.buffers slot).pageCount)
    (hp : ∀ i, first ≤ i → i < last → (w.buffers slot).Present i)
    (h : unlock e w slot first last writing = some w') :
    Paged slot w w' ∧
      (writing = true → ∀ i, first ≤ i → i < last → (w'.buffers slot).pages i = .dirty) := by
  unfold unlock at h
  split_ifs at h with h1
  · cases h
    obtain ⟨-, hlt⟩ := h1
    have hself : (applyUnlock w slot first last).buffers =
        Function.update w.buffers slot (written (w.buffers slot) first last) := rfl
    refine ⟨⟨Relation.ReflTransGen.single (.unlock slot first last hl hlast hlt hp),
      fun s hs => ?_, ?_, fun i hi => ?_, fun hs => ?_, rfl, fun hu => hu⟩,
      fun _ i hi hlt => ?_⟩
    · rw [hself, Function.update_of_ne hs]
    · rw [hself, Function.update_self]
      exact ⟨rfl, rfl, rfl, rfl⟩
    · rw [hself, Function.update_self]
      exact written_present.mpr (Or.inl hi)
    · rw [hself, Function.update_self]
      show (if _ then BufferState.pinned else (w.buffers slot).state) = .pinned
      rw [hs, ite_self]
    · rw [hself, Function.update_self]
      exact Span.fill_inside _ _ hi hlt
  · cases h
    refine ⟨Paged.refl slot w, fun hw i hi hlt => ?_⟩
    exact absurd ⟨hw, by omega⟩ h1

/-- The final `DROP` touches nothing but the recipe; on an unbroken channel it leaves the buffer
`Retired`. -/
theorem retire_spec {l : Link} {w : World} {slot : ℕ} (hI : Inv w) (hl : w.Live slot) :
    Paged slot w (retire l w slot) ∧
      ((retire l w slot).buffers slot).pages = (w.buffers slot).pages ∧
      ((retire l w slot).channelBroken = false → Retired ((retire l w slot).buffers slot)) := by
  have hfull := (hI.buffer slot hl).full_iff
  unfold retire
  simp only
  split_ifs with h1
  · obtain ⟨hs, hr, hk⟩ := h1
    rcases request_cases l w (handleDrop (w.buffers slot).id) with ⟨hq, hb⟩ | ⟨p, hq⟩ | ⟨hq, hu⟩
    · rw [hq]
      refine ⟨Paged.refl slot w, rfl, fun hu => ?_⟩
      rw [hb] at hu
      cases hu
    · rw [hq]
      refine ⟨⟨Relation.ReflTransGen.single (.lose p), fun _ _ => rfl, SameMapping.refl _,
        fun _ h => h, fun h => h, rfl, fun hu => ?_⟩, rfl, fun hu => ?_⟩
      · cases hu
      · cases hu
    · rw [hq]
      simp only [handleDrop, if_true]
      refine ⟨⟨Relation.ReflTransGen.single
        (.retire slot ((w.buffers slot).mapped / PAGE) hl hs (hfull.mp hr)), fun s hne => ?_,
        ?_, fun i hi => ?_, fun _ => ?_, rfl, fun _ => hu⟩, ?_, fun _ => ?_⟩
      · exact Function.update_of_ne hne _ _
      all_goals simp only [World.setBuffer, Function.update_self]
      · exact ⟨rfl, rfl, rfl, rfl⟩
      · exact hi
      · exact hs
      · exact fun _ _ => rfl
  · refine ⟨Paged.refl slot w, rfl, fun _ hs hp => ?_⟩
    by_contra hk
    exact h1 ⟨hs, hfull.mpr hp, by simpa using hk⟩

/-- **What `materialize` does.** The pages of the span are present, and dirty if the access
writes; on an unbroken channel the buffer is `Retired`. -/
theorem materialize_spec {e : MaterializeEnv} {w w' : World} {slot first last : ℕ}
    {writing : Bool} (hI : Inv w) (hl : w.Live slot)
    (hlast : last ≤ (w.buffers slot).pageCount)
    (h : materialize e w slot first last writing = some w') :
    Paged slot w w' ∧ (∀ i, first ≤ i → i < last → (w'.buffers slot).Present i) ∧
      (writing = true → ∀ i, first ≤ i → i < last → (w'.buffers slot).pages i = .dirty) ∧
      (w'.channelBroken = false → Retired (w'.buffers slot)) := by
  unfold materialize at h
  rcases h1 : restoreLoop e.span slot last (last - first) w first with _ | w1
  · rw [h1] at h
    cases h
  rw [h1] at h
  obtain ⟨p1, all1⟩ := restoreLoop_spec e.span slot last _ w w1 first hI hl hlast le_rfl h1
  rcases h2 : unlock e w1 slot first last writing with _ | w2
  · simp only [h2] at h
    cases h
  simp only [h2] at h
  cases h
  have hl1 : w1.Live slot := (p1.live slot).mpr hl
  obtain ⟨p2, dirty2⟩ := unlock_spec hl1 (by rw [p1.pageCount]; exact hlast) all1 h2
  have hl2 : w2.Live slot := (p2.live slot).mpr hl1
  have hI2 : Inv w2 := p2.steps.inv (p1.steps.inv hI)
  obtain ⟨p3, hpages, hret⟩ := retire_spec (l := e.drop) hI2 hl2
  refine ⟨(p1.trans p2).trans p3, fun i hi hlt => ?_, fun hw i hi hlt => ?_, hret⟩
  · exact p3.present i (p2.present i (all1 i hi hlt))
  · rw [hpages]
    exact dirty2 hw i hi hlt

theorem Paged.moves {slot : ℕ} {w w' : World} (h : Paged slot w w')
    (hr : w'.channelBroken = false → Retired (w'.buffers slot)) : Moves w w' := by
  refine ⟨h.steps, fun s => ?_, fun ha hu s hs => ?_, fun s hs hp => ?_⟩
  · by_cases hne : s = slot
    · subst hne
      exact h.mapping
    · rw [h.other s hne]
      exact SameMapping.refl _
  · by_cases hne : s = slot
    · subst hne
      exact hr hu
    · rw [h.other s hne]
      exact ha (h.unbroken hu) s ((h.live s).mp hs)
  · by_cases hne : s = slot
    · subst hne
      exact h.pinned hp
    · rw [h.other s hne]
      exact hp

end Afterfree.Runtime.Decompose
