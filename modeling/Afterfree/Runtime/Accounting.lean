import Afterfree.Runtime.Invariants

/-!
# Accounts

What the changes of `Changes` leave open: the counters of a buffer (evictions, faults, complete
restores), the registration record, the residency target with its peak, and the requests for pages
that go to the worker. A `Tick` is an elementary change with these; `Ticks` is a sequence of them,
labelled with the requests for pages, which are those that the record of the world grows by
(`Ticks.asked`). `step_ticks` decomposes every step, and the results on the policy and on the
statistics are inductions over it.
-/

namespace Afterfree.Runtime.Accounting

open Afterfree.Common Afterfree.Lib Afterfree.Runtime.State Afterfree.Runtime.Pager
open Afterfree.Runtime.Submit Afterfree.Runtime.Api Afterfree.Runtime.Lookup
open Afterfree.Runtime.Representation Afterfree.Runtime.Changes Afterfree.Runtime.Decompose
open Afterfree.Runtime.Operations Afterfree.Runtime.Invariants

/-! ### Ticks -/

/-- The elementary changes with their accounts, and the request for pages they answer. -/
inductive Tick : World → List (ℕ × Extent) → World → Prop
  /-- Messages, the channel, the worker's store, the address space, automatic evictions. -/
  | idle {w w' : World} : w'.buffers = w.buffers → w'.nextid = w.nextid →
      w'.residentManaged = w.residentManaged → w'.residentTarget = w.residentTarget →
      w'.peakOverTarget = w.peakOverTarget → w'.asked = w.asked → Tick w [] w'
  /-- The bookkeeping of a fault. -/
  | fault {w : World} (s n r l : ℕ) : (w.buffers s).faultCount ≤ n →
      Tick w [] (w.setBuffer s { w.buffers s with
        faultCount := n, readahead := r, lastFaultEnd := l })
  | restore {w : World} (s : ℕ) (x : Extent) (payload : ℕ → UInt8) (t : ℕ) : w.Live s →
      BufferInv (w.buffers s) → ColdExtent (w.buffers s) x →
      Tick w [(s, x)] (applyRestore (w.ask s x) s x payload t)
  | unlock {w : World} (s first last : ℕ) :
      (∀ i, first ≤ i → i < last → (w.buffers s).Present i) → Tick w [] (applyUnlock w s first last)
  /-- A pinned buffer gives up its recipe. -/
  | retire {w : World} (s n : ℕ) : (w.buffers s).state = .pinned →
      Tick w [] (w.setBuffer s { w.buffers s with
        recipeLive := false, stats := { (w.buffers s).stats with retainedBytes := n } })
  /-- The statistics of a submission. -/
  | stats {w : World} (s : ℕ) (st : Stats) : (w.buffers s).state = .resident →
      st.evictions = (w.buffers s).stats.evictions →
      Tick w [] (w.setBuffer s { w.buffers s with stats := st })
  /-- A completed registration: what the worker retains is less than the region. -/
  | enroll {w : World} (s : ℕ) (h : Header) (g : Registration) (t : ℕ) :
      (w.buffers s).state = .resident →
      g.retainedBytes + (w.buffers s).mapped / PAGE < rounded h.length →
      Tick w [] (w.setBuffer s (sealedBuffer (w.buffers s) h g t))
  | discard {w : World} (s : ℕ) : w.Live s →
      (w.buffers s).state = .sealed ∨ (w.buffers s).state = .evicted → Tick w [] (applyDiscard w s)
  /-- `af_set_resident_target`. -/
  | target {w : World} (n : ℕ) :
      Tick w [] { w with residentTarget := n, peakOverTarget := 0 }.observeTarget
  | place {w : World} (s p size : ℕ) : (w.buffers s).data = 0 → Tick w [] (place w s p size)
  | release {w : World} (s : ℕ) (l : List ℕ) (p : Peer) : w.Live s →
      Tick w [] (applyRelease w s l p)
  /-- A free slot is cleared. -/
  | clear {w : World} (s : ℕ) : (w.buffers s).data = 0 → Tick w [] (w.setBuffer s Buffer.clear)

/-- A sequence of ticks with its requests. -/
inductive Ticks : World → List (ℕ × Extent) → World → Prop
  | refl (w : World) : Ticks w [] w
  | cons {w w1 w2 : World} {l l' : List (ℕ × Extent)} : Tick w l w1 → Ticks w1 l' w2 →
      Ticks w (l ++ l') w2

theorem Tick.single {w w' : World} {l : List (ℕ × Extent)} (h : Tick w l w') : Ticks w l w' := by
  have := Ticks.cons h (.refl w')
  rwa [List.append_nil] at this

theorem Ticks.trans {w w1 w2 : World} {l l' : List (ℕ × Extent)} (h : Ticks w l w1)
    (h' : Ticks w1 l' w2) : Ticks w (l ++ l') w2 := by
  induction h with
  | refl => exact h'
  | cons ht _ ih =>
    rw [List.append_assoc]
    exact .cons ht (ih h')

theorem Tick.asked {w w' : World} {l : List (ℕ × Extent)} (h : Tick w l w') :
    w'.asked = w.asked ++ l := by
  cases h with
  | idle _ _ _ _ _ ha => rw [ha, List.append_nil]
  | restore => rfl
  | fault | unlock | retire | stats | enroll | discard | target | place | release | clear =>
    exact (List.append_nil _).symm

theorem Ticks.asked {w w' : World} {l : List (ℕ × Extent)} (h : Ticks w l w') :
    w'.asked = w.asked ++ l := by
  induction h with
  | refl => exact (List.append_nil _).symm
  | cons ht _ ih => rw [ih, Tick.asked ht, List.append_assoc]

/-! ### Residency along an operation -/

/-- The managed bytes over the target; without a target there are none. -/
def overTarget (w : World) : ℕ :=
  if w.residentTarget ≠ 0 ∧ w.residentTarget < w.residentManaged then
    w.residentManaged - w.residentTarget else 0

theorem overTarget_mono {w w' : World} (ht : w'.residentTarget = w.residentTarget)
    (hr : w.residentManaged ≤ w'.residentManaged) : overTarget w ≤ overTarget w' := by
  unfold overTarget
  rw [ht]
  split_ifs <;> omega

/-- An operation that raises the residency: the peak is sampled at its end. -/
structure Climbs (w : World) (l : List (ℕ × Extent)) (w' : World) : Prop where
  ticks : Ticks w l w'
  target : w'.residentTarget = w.residentTarget
  resident : w.residentManaged ≤ w'.residentManaged
  peak : overTarget w ≤ w.peakOverTarget →
    w'.peakOverTarget = max w.peakOverTarget (overTarget w')

/-- An operation that lowers the residency. -/
structure Falls (w w' : World) : Prop where
  ticks : Ticks w [] w'
  target : w'.residentTarget = w.residentTarget
  resident : w'.residentManaged ≤ w.residentManaged
  peak : w'.peakOverTarget = w.peakOverTarget

/-- An operation with its ticks, after which the peak has been sampled. -/
structure Sampled (w : World) (l : List (ℕ × Extent)) (w' : World) : Prop where
  ticks : Ticks w l w'
  target : w'.residentTarget = w.residentTarget
  peak : overTarget w ≤ w.peakOverTarget →
    w'.peakOverTarget = max w.peakOverTarget (overTarget w')

theorem Climbs.sampled {w w' : World} {l : List (ℕ × Extent)} (h : Climbs w l w') :
    Sampled w l w' := ⟨h.ticks, h.target, h.peak⟩

theorem Falls.over_le {w w' : World} (h : Falls w w') : overTarget w' ≤ overTarget w :=
  overTarget_mono h.target.symm h.resident

theorem Falls.sampled {w w' : World} (h : Falls w w') : Sampled w [] w' := by
  refine ⟨h.ticks, h.target, fun hp => ?_⟩
  have := h.over_le
  rw [h.peak]
  omega

theorem Falls.climb {w w1 w2 : World} {l : List (ℕ × Extent)} (h : Falls w w1)
    (h' : Climbs w1 l w2) : Sampled w l w2 := by
  refine ⟨h.ticks.trans h'.ticks, h'.target.trans h.target, fun hp => ?_⟩
  have h1 := h.over_le
  have h2 := h'.peak (by rw [h.peak]; omega)
  rw [h.peak] at h2
  exact h2

theorem Climbs.trans {w w1 w2 : World} {l l' : List (ℕ × Extent)} (h : Climbs w l w1)
    (h' : Climbs w1 l' w2) : Climbs w (l ++ l') w2 := by
  refine ⟨h.ticks.trans h'.ticks, h'.target.trans h.target, h.resident.trans h'.resident,
    fun hp => ?_⟩
  have h1 := h.peak hp
  have h2 := h'.peak (by omega)
  have h3 := overTarget_mono h'.target h'.resident
  omega

theorem Falls.trans {w w1 w2 : World} (h : Falls w w1) (h' : Falls w1 w2) : Falls w w2 :=
  ⟨h.ticks.trans h'.ticks, h'.target.trans h.target, h'.resident.trans h.resident,
    h'.peak.trans h.peak⟩

/-- Ticks that leave the residency and its target alone. -/
structure Still (w w' : World) : Prop where
  ticks : Ticks w [] w'
  target : w'.residentTarget = w.residentTarget
  resident : w'.residentManaged = w.residentManaged
  peak : w'.peakOverTarget = w.peakOverTarget

theorem Still.falls {w w' : World} (h : Still w w') : Falls w w' :=
  ⟨h.ticks, h.target, h.resident.le, h.peak⟩

theorem Still.climbs {w w' : World} (h : Still w w') : Climbs w [] w' :=
  ⟨h.ticks, h.target, h.resident.ge, h.falls.sampled.peak⟩

theorem Still.refl (w : World) : Still w w := ⟨.refl w, rfl, rfl, rfl⟩

theorem Still.trans {w w1 w2 : World} (h : Still w w1) (h' : Still w1 w2) : Still w w2 :=
  ⟨h.ticks.trans h'.ticks, h'.target.trans h.target, h'.resident.trans h.resident,
    h'.peak.trans h.peak⟩

theorem Still.idle {w w' : World} (hb : w'.buffers = w.buffers) (hn : w'.nextid = w.nextid)
    (hr : w'.residentManaged = w.residentManaged) (ht : w'.residentTarget = w.residentTarget)
    (hp : w'.peakOverTarget = w.peakOverTarget) (ha : w'.asked = w.asked) : Still w w' :=
  ⟨(Tick.idle hb hn hr ht hp ha).single, ht, hr, hp⟩

theorem Still.fail (w : World) (m : String) : Still w (w.fail m) := .idle rfl rfl rfl rfl rfl rfl

theorem Still.request {α : Type} (l : Link) (w : World) (handle : Peer → Peer × α) :
    Still w (request l w handle).1 := by
  rcases request_cases l w handle with ⟨hq, -⟩ | ⟨p, hq⟩ | ⟨hq, -⟩
  · rw [hq]
    exact .refl w
  · rw [hq]
    exact .idle rfl rfl rfl rfl rfl rfl
  · rw [hq]
    exact .idle rfl rfl rfl rfl rfl rfl

/-! ### Restoring -/

theorem Climbs.restore {w : World} {s : ℕ} {x : Extent} (hl : w.Live s)
    (hb : BufferInv (w.buffers s)) (hx : ColdExtent (w.buffers s) x) (payload : ℕ → UInt8)
    (t : ℕ) : Climbs w [(s, x)] (applyRestore (w.ask s x) s x payload t) := by
  refine ⟨(Tick.restore s x payload t hl hb hx).single, rfl, ?_, fun _ => ?_⟩
  · show w.residentManaged ≤ w.residentManaged + (x.last - x.first) * PAGE
    omega
  · rfl

/-- **The restoring loop.** -/
theorem restoreLoop_climbs (e : ℕ → SpanEnv) (slot last : ℕ) :
    ∀ (fuel : ℕ) (w w' : World) (page : ℕ), Inv w → w.Live slot →
      last ≤ (w.buffers slot).pageCount →
      restoreLoop e slot last fuel w page = some w' →
      ∃ l, Climbs w l w'
  | 0, w, w', page, _, _, _, h => by
    cases h
    exact ⟨[], (Still.refl w).climbs⟩
  | fuel + 1, w, w', page, hI, hl, hlast, h => by
    unfold restoreLoop at h
    simp only at h
    split_ifs at h with h1 h2
    · exact restoreLoop_climbs e slot last fuel w w' (page + 1) hI hl hlast h
    · rw [not_ne_iff] at h2
      obtain ⟨c1, c2, c3⟩ := coldEnd_spec (w.buffers slot) page last (windowPages w.arena)
        (last - page) (page + 1) (by omega)
      generalize coldEnd (w.buffers slot) page last (windowPages w.arena) (last - page) (page + 1) =
        stop at h c1 c2 c3
      have hcold : ∀ i, page ≤ i → i < stop → (w.buffers slot).pages i = .cold := by
        intro i hi hlt
        rcases Nat.eq_or_lt_of_le hi with rfl | hi
        · exact h2
        · exact c3 i hi hlt
      obtain ⟨hx, -, -⟩ := extentOf_cold (hI.buffer slot hl) (show page < stop by omega)
        (by omega) hcold
      rcases hr : restoreSpan (e page) w slot page stop with _ | w1
      · rw [hr] at h
        cases h
      rw [hr] at h
      obtain ⟨o, hu, ho, hw1⟩ := restoreSpan_eq hr
      have hp1 : Paged slot w w1 := by
        rw [hw1]
        exact Paged.restore hl hx hu ho _
      have hc1 : Climbs w [(slot, extentOf (w.buffers slot) page stop)] w1 := by
        rw [hw1]
        exact Climbs.restore hl (hI.buffer slot hl) hx _ _
      obtain ⟨l, hc⟩ := restoreLoop_climbs e slot last fuel w1 w' stop (hp1.steps.inv hI)
        ((hp1.live slot).mpr hl) (by rw [hp1.pageCount]; exact hlast) h
      exact ⟨_, hc1.trans hc⟩
    · cases h
      exact ⟨[], (Still.refl w).climbs⟩

theorem unlock_still {e : MaterializeEnv} {w w' : World} {slot first last : ℕ} {writing : Bool}
    (hp : ∀ i, first ≤ i → i < last → (w.buffers slot).Present i)
    (h : unlock e w slot first last writing = some w') : Still w w' := by
  unfold unlock at h
  split_ifs at h
  · cases h
    exact ⟨(Tick.unlock slot first last hp).single, rfl, rfl, rfl⟩
  · cases h
    exact .refl w

theorem retire_still (l : Link) (w : World) (slot : ℕ) : Still w (retire l w slot) := by
  unfold retire
  simp only
  split_ifs with h1
  · rcases request_cases l w (handleDrop (w.buffers slot).id) with ⟨hq, -⟩ | ⟨p, hq⟩ | ⟨hq, -⟩
    · rw [hq]
      exact .refl w
    · rw [hq]
      exact .idle rfl rfl rfl rfl rfl rfl
    · rw [hq]
      simp only [handleDrop, if_true]
      have h2 : Still w { w with peer := w.peer.drop (w.buffers slot).id } :=
        .idle rfl rfl rfl rfl rfl rfl
      exact h2.trans ⟨(@Tick.retire { w with peer := w.peer.drop (w.buffers slot).id } slot
        ((w.buffers slot).mapped / PAGE) h1.1).single, rfl, rfl, rfl⟩
  · exact .refl w

/-- **`materialize`.** -/
theorem materialize_climbs {e : MaterializeEnv} {w w' : World} {slot first last : ℕ}
    {writing : Bool} (hI : Inv w) (hl : w.Live slot) (hlast : last ≤ (w.buffers slot).pageCount)
    (h : materialize e w slot first last writing = some w') :
    ∃ l, Climbs w l w' := by
  unfold materialize at h
  rcases h1 : restoreLoop e.span slot last (last - first) w first with _ | w1
  · rw [h1] at h
    cases h
  rw [h1] at h
  obtain ⟨l, hc⟩ := restoreLoop_climbs e.span slot last _ w w1 first hI hl hlast h1
  obtain ⟨-, all1⟩ := restoreLoop_spec e.span slot last _ w w1 first hI hl hlast le_rfl h1
  rcases h2 : unlock e w1 slot first last writing with _ | w2
  · simp only [h2] at h
    cases h
  simp only [h2] at h
  cases h
  have hstill := (unlock_still all1 h2).trans (retire_still e.drop w2 slot)
  exact ⟨_, hc.trans hstill.climbs⟩

theorem Still.plan {w : World} {s : ℕ} (page : ℕ) (writing : Bool) :
    Still w (w.setBuffer s (planFault (w.buffers s) page writing).1) := by
  unfold planFault
  simp only
  by_cases h1 : (!writing) = true ∧ (w.buffers s).stats.pageBytes ≠ 0
  · rw [if_pos h1]
    exact ⟨(@Tick.fault w s ((w.buffers s).faultCount + 1) _ _ (Nat.le_succ _)).single,
      rfl, rfl, rfl⟩
  · rw [if_neg h1]
    exact ⟨(@Tick.fault w s ((w.buffers s).faultCount + 1) (w.buffers s).readahead
      (w.buffers s).lastFaultEnd (Nat.le_succ _)).single, rfl, rfl, rfl⟩

/-- **A fault.** -/
theorem fault_climbs {c : Caller} {e : MaterializeEnv} {w w' : World} {a : ℕ} {writing : Bool}
    (hI : Inv w) (h : fault c e w a writing = .ok w') :
    ∃ l, Climbs w l w' := by
  unfold fault at h
  rcases hc : w.containing a with _ | s
  · rw [hc] at h
    cases h
  rw [hc] at h
  simp only at h
  split_ifs at h with h1 h2
  obtain ⟨hl, hlo, hhi⟩ := (hI.indexed.containing_iff a s).mp hc
  obtain ⟨hpage, -⟩ := page_of_address (hI.buffer s hl).toShaped hlo hhi
  obtain ⟨hcore, hlt, hle⟩ := planFault_spec hpage writing
  have hplan := Still.plan (w := w) (s := s) ((a - (w.buffers s).data) / PAGE) writing
  generalize planFault (w.buffers s) ((a - (w.buffers s).data) / PAGE) writing = plan at *
  have hm1 : Moves w (w.setBuffer s plan.1) := Moves.slot hcore
  rcases hr : materialize e (w.setBuffer s plan.1) s ((a - (w.buffers s).data) / PAGE) plan.2
    writing with _ | w2
  · rw [hr] at h
    cases h
  rw [hr] at h
  cases h
  have hcount : plan.2 ≤ ((w.setBuffer s plan.1).buffers s).pageCount := by
    show _ ≤ (Function.update w.buffers s plan.1 s).pageCount
    rw [Function.update_self]
    unfold Buffer.pageCount
    rw [hcore.mapped]
    exact hle
  obtain ⟨l, hclimb⟩ := materialize_climbs (hm1.steps.inv hI) ((hm1.live s).mpr hl) hcount hr
  exact ⟨_, hplan.climbs.trans hclimb⟩

/-- **An access.** -/
theorem access_climbs {c : Caller} {e : MaterializeEnv} {w w' : World} {a : ℕ} {writing : Bool}
    (hI : Inv w) (h : access c e w a writing = .ok w') :
    ∃ l, Climbs w l w' := by
  unfold access at h
  by_cases h1 : w.memory.permits a writing = true
  · rw [if_pos h1] at h
    cases h
    exact ⟨[], (Still.refl w).climbs⟩
  · rw [if_neg h1] at h
    rcases hf : fault c e w a writing with s | w1
    · rw [hf] at h
      cases h
    · rw [hf] at h
      simp only at h
      split_ifs at h
      cases h
      exact fault_climbs hI hf

/-! ### Prefaults -/

theorem prepareSpan_le {b : Buffer} (h : Shaped b) (n : ℕ) :
    rounded (min n (b.data + b.mapped) - b.data) / PAGE ≤ b.pageCount := by
  have h1 := h.pageCount_mul
  unfold rounded PAGE at *
  omega

theorem prepareLoop_climbs {c : Caller} {e : ℕ → MaterializeEnv} {first size : ℕ}
    {writing : Bool} : ∀ {fuel : ℕ} {w w' : World} {pos : ℕ}, Inv w →
      prepareLoop c e first size writing fuel w pos = .ok w' → ∃ l, Climbs w l w'
  | 0, w, w', pos, _, h => by
    cases h
    exact ⟨[], (Still.refl w).climbs⟩
  | fuel + 1, w, w', pos, hI, h => by
    unfold prepareLoop at h
    by_cases hpos : pos < w.allocationIndex.length
    · rw [if_pos hpos] at h
      simp only [List.getD_eq_getElem _ _ hpos] at h
      have hl := hI.indexed.live_get hpos
      generalize w.allocationIndex[pos] = s at h hl
      by_cases hend : first + size ≤ (w.buffers s).data
      · rw [if_pos hend] at h
        cases h
        exact ⟨[], (Still.refl w).climbs⟩
      rw [if_neg hend] at h
      by_cases hown : (!(c.ownerProcess && c.ownerThread)) = true
      · rw [if_pos hown] at h
        cases h
      rw [if_neg hown] at h
      rcases hr : materialize (e pos) w s _ _ writing with _ | w1
      · rw [hr] at h
        cases h
      rw [hr] at h
      have hlast := prepareSpan_le (hI.buffer s hl).toShaped (first + size)
      obtain ⟨hp, -, -, hret⟩ := materialize_spec hI hl hlast hr
      obtain ⟨l, hclimb⟩ := materialize_climbs hI hl hlast hr
      obtain ⟨l', hrest⟩ := prepareLoop_climbs ((hp.moves hret).steps.inv hI) h
      exact ⟨l ++ l', hclimb.trans hrest⟩
    · rw [if_neg hpos] at h
      cases h
      exact ⟨[], (Still.refl w).climbs⟩

/-- **`prepare`.** -/
theorem prepare_climbs {c : Caller} {e : ℕ → MaterializeEnv} {w w' : World} {first size : ℕ}
    {writing : Bool} {r : Int} (hI : Inv w) (h : prepare c e w first size writing = .ok (w', r)) :
    ∃ l, Climbs w l w' := by
  unfold prepare at h
  by_cases h1 : size = 0
  · rw [if_pos h1] at h
    cases h
    exact ⟨[], (Still.refl w).climbs⟩
  rw [if_neg h1] at h
  by_cases h2 : 2 ^ 64 - 1 - size < first
  · rw [if_pos h2] at h
    cases h
    exact ⟨[], (Still.refl w).climbs⟩
  rw [if_neg h2] at h
  simp only at h
  split at h
  · cases h
  · next w1 hr =>
    cases h
    exact prepareLoop_climbs hI hr

/-- **`af_materialize`.** -/
theorem materializeAll_climbs {c : Caller} {e : MaterializeEnv} {w w' : World} {output : ℕ}
    {r : Int} (hI : Inv w) (h : materializeAll c e w output = .ok (w', r)) :
    ∃ l, Climbs w l w' := by
  unfold materializeAll at h
  rcases hu : usable c with _ | m
  · simp only [hu] at h
    rcases hs : w.find output with _ | s
    · simp only [hs] at h
      cases h
      exact ⟨[], (Still.fail w _).climbs⟩
    · simp only [hs] at h
      obtain ⟨hl, -⟩ := (hI.indexed.find_iff output s).mp hs
      split at h
      · cases h
      · next w1 hr =>
        cases h
        exact materialize_climbs hI hl le_rfl hr
  · simp only [hu] at h
    cases h
    exact ⟨[], (Still.fail w _).climbs⟩

/-! ### Eviction -/

theorem Falls.discard {w : World} {s : ℕ} (hl : w.Live s)
    (hs : (w.buffers s).state = .sealed ∨ (w.buffers s).state = .evicted) :
    Falls w (applyDiscard w s) :=
  ⟨(Tick.discard s hl hs).single, rfl, Nat.sub_le _ _, rfl⟩

/-- **How `af_evict` ends.** It does nothing to the accounts, or it discards the region; a result of
zero that discards nothing is given to evicted buffers only. -/
theorem evict_cases {c : Caller} {e : EvictEnv} {w w' : World} {output : ℕ} {r : Int}
    (hI : Inv w) (h : evict c e w output = .ok (w', r)) :
    (Still w w' ∧ w'.buffers = w.buffers ∧
        (r = 0 → ∃ s, w.find output = some s ∧ (w.buffers s).state = .evicted)) ∨
      (r = 0 ∧ ∃ s, w.find output = some s ∧ w.Live s ∧ (w.buffers s).data = output ∧
        ((w.buffers s).state = .sealed ∨ (w.buffers s).state = .evicted) ∧
        w' = applyDiscard w s) := by
  have hfail : ∀ m, w' = World.fail w m → r = -1 →
      Still w w' ∧ w'.buffers = w.buffers ∧
        (r = 0 → ∃ s, w.find output = some s ∧ (w.buffers s).state = .evicted) := by
    intro m hw hr
    subst hw
    exact ⟨Still.fail w m, rfl, fun h0 => absurd (h0.symm.trans hr) (by decide)⟩
  unfold evict at h
  split at h
  · cases h
    exact Or.inl (hfail _ rfl rfl)
  split at h
  · cases h
    exact Or.inl (hfail _ rfl rfl)
  next s hs =>
  obtain ⟨hl, hd⟩ := (hI.indexed.find_iff output s).mp hs
  simp only at h
  split_ifs at h with h1 h2 h3 h4 h5
  · cases h
    exact Or.inl ⟨Still.refl w, rfl, fun _ => ⟨s, hs, h1.1⟩⟩
  · cases h
    exact Or.inl (hfail _ rfl rfl)
  · cases h
    exact Or.inl (hfail _ rfl rfl)
  · cases h
    exact Or.inl (hfail _ rfl rfl)
  · cases h
    exact Or.inl ⟨.idle rfl rfl rfl rfl rfl rfl, rfl, fun h0 => absurd h0 (by decide)⟩
  · have hst : (w.buffers s).state = .sealed ∨ (w.buffers s).state = .evicted := by tauto
    cases h
    exact Or.inr ⟨rfl, s, hs, hl, hd, hst, rfl⟩

theorem evict_falls {c : Caller} {e : EvictEnv} {w w' : World} {output : ℕ} {r : Int}
    (hI : Inv w) (h : evict c e w output = .ok (w', r)) : Falls w w' := by
  rcases evict_cases hI h with ⟨hs, -⟩ | ⟨-, s, -, hl, -, hst, rfl⟩
  · exact hs.falls
  · exact Falls.discard hl hst

theorem Still.counted (w : World) (n : ℕ) : Still w { w with automaticEvictions := n } :=
  .idle rfl rfl rfl rfl rfl rfl

theorem collectLoop_falls {c : Caller} {e : ℕ → EvictEnv} {incoming protectedOutput : ℕ} :
    ∀ {fuel : ℕ} {w w' : World} {resident : ℕ} {r : Int}, Inv w →
      collectLoop c e incoming protectedOutput fuel w resident = .ok (w', r) → Falls w w'
  | 0, w, w', resident, r, _, h => by cases h
  | fuel + 1, w, w', resident, r, hI, h => by
    unfold collectLoop at h
    by_cases hover : w.residentTarget < resident + incoming
    · rw [if_pos hover] at h
      generalize candidate w protectedOutput = best at h
      rcases best with _ | s
      · cases h
        exact (Still.refl w).falls
      · simp only at h
        rcases he : evict c (e (w.buffers s).id) w (w.buffers s).data with stop | ⟨w1, r1⟩
        · rw [he] at h
          cases h
        · rw [he] at h
          simp only at h
          have hm := evict_moves hI he
          have hf := evict_falls hI he
          by_cases hr : r1 ≠ 0
          · rw [if_pos hr] at h
            cases h
            exact hf
          · rw [if_neg hr] at h
            have hm1 := hm.trans (Moves.counted w1 (w1.automaticEvictions + 1))
            exact (hf.trans (Still.counted w1 _).falls).trans
              (collectLoop_falls (hm1.steps.inv hI) h)
    · rw [if_neg hover] at h
      cases h
      exact (Still.refl w).falls

/-- **`collect`.** -/
theorem collect_falls {c : Caller} {e : ℕ → EvictEnv} {w w' : World}
    {incoming protectedOutput : ℕ} {r : Int} (hI : Inv w)
    (h : collect c e w incoming protectedOutput = .ok (w', r)) : Falls w w' := by
  unfold collect at h
  by_cases h0 : w.residentTarget = 0
  · rw [if_pos h0] at h
    cases h
    exact (Still.refl w).falls
  · rw [if_neg h0] at h
    exact collectLoop_falls hI h

/-- **`af_manage`.** -/
theorem manage_falls {c : Caller} {e : ℕ → EvictEnv} {w w' : World} {output : ℕ} {r : Int}
    (hI : Inv w) (h : manage c e w output = .ok (w', r)) : Falls w w' := by
  unfold manage at h
  split at h
  · cases h
    exact (Still.fail w _).falls
  by_cases h0 : w.residentTarget = 0
  · rw [if_pos h0] at h
    split at h
    · cases h
    · next w1 r1 he =>
      have hf := evict_falls hI he
      cases h
      by_cases hr : r = 0
      · rw [if_pos hr]
        exact hf.trans (Still.counted w1 _).falls
      · rw [if_neg hr]
        exact hf
  · rw [if_neg h0] at h
    exact collect_falls hI h

/-! ### Registration -/

theorem conclude_record (g : Registration) (t : ℕ) (isProtected : Bool) (w : World) (s : ℕ)
    (h : Header) (equal : Bool) :
    ((conclude g t isProtected w s h equal).1.buffers s).stats.evictions =
        (w.buffers s).stats.evictions ∧
      ((conclude g t isProtected w s h equal).2 = none →
        g.retainedBytes + (w.buffers s).mapped / PAGE < rounded h.length) := by
  unfold conclude
  simp only [World.setBuffer, Function.update_idem]
  by_cases h1 : (!equal) = true
  · rw [if_pos h1]
    exact ⟨by simp, fun h => absurd h (Option.some_ne_none _)⟩
  rw [if_neg h1]
  by_cases h2 : rounded h.length ≤ g.retainedBytes + (w.buffers s).mapped / PAGE
  · rw [if_pos h2]
    exact ⟨by simp, fun h => absurd h (Option.some_ne_none _)⟩
  rw [if_neg h2]
  by_cases h3 : (!isProtected) = true
  · rw [if_pos h3]
    exact ⟨by simp, fun h => absurd h (Option.some_ne_none _)⟩
  rw [if_neg h3]
  exact ⟨by simp, fun _ => Nat.lt_of_not_le h2⟩

theorem Still.stats {w : World} {s : ℕ} {st : Stats} (hs : (w.buffers s).state = .resident)
    (he : st.evictions = (w.buffers s).stats.evictions) :
    Still w (w.setBuffer s { w.buffers s with stats := st }) :=
  ⟨(Tick.stats s st hs he).single, rfl, rfl, rfl⟩

theorem settle_still {e : SubmitEnv} {w : World} {s : ℕ} {h : Header} {equal : Bool}
    (hs : (w.buffers s).state = .resident) : Still w (settle e w s h equal).1 := by
  unfold settle
  obtain ⟨hev, hret⟩ := conclude_record e.script.registration e.elapsed e.isProtected w s h equal
  rcases conclude_cases e.script.registration e.elapsed e.isProtected w s h equal with
    ⟨st, m, -, hc⟩ | ⟨-, hc⟩
  · rw [hc] at hev ⊢
    have hself : (Function.update w.buffers s { w.buffers s with stats := st } s).stats.evictions =
        st.evictions := by rw [Function.update_self]
    exact (Still.stats hs (hself.symm.trans hev)).trans
      ((Still.request _ _ _).trans (Still.fail _ _))
  · rw [hc] at hret ⊢
    have h1 : Still w { w with memory := w.memory.mprotect h.output (rounded h.length) .read } :=
      .idle rfl rfl rfl rfl rfl rfl
    exact h1.trans ⟨(@Tick.enroll { w with
      memory := w.memory.mprotect h.output (rounded h.length) .read } s h e.script.registration
      e.elapsed hs (hret rfl)).single, rfl, rfl, rfl⟩

theorem exchange_still {e : SubmitEnv} {w : World} {s : ℕ} {h : Header}
    (hs : (w.buffers s).state = .resident) : Still w (exchange e w s h).1 := by
  unfold exchange
  simp only
  have h1 : ∀ p, Still w { w with peer := p } := fun p => .idle rfl rfl rfl rfl rfl rfl
  rcases Submit.compare e w h with m | m | equal
  · exact .idle rfl rfl rfl rfl rfl rfl
  · exact (h1 _).trans (Still.fail _ m)
  · exact (h1 _).trans (settle_still hs)

theorem screen_still {c : Caller} {w w' : World} {output : ℕ} {data : Option (List UInt8)}
    {captureNs : ℕ} {region : Bool} {slot : ℕ} {image : List UInt8}
    (h : screen c w output data captureNs region = .ok (w', slot, image)) : Still w w' := by
  have hres := (screen_ok h).resident
  unfold screen at h
  split at h
  · cases h
  split at h
  · simp only at h
    split_ifs at h
    cases h
    exact Still.stats hres rfl
  · cases h

/-- **`submit`.** -/
theorem submit_still {c : Caller} {e : SubmitEnv} {w : World} {output : ℕ}
    {data : Option (List UInt8)} {captureNs : ℕ} {region : Bool} (hI : Inv w) :
    Still w (submit c e w output data captureNs region).1 := by
  unfold submit
  rcases hs : screen c w output data captureNs region with m | ⟨w', slot, image⟩
  · exact Still.fail w m
  · obtain ⟨-, -, hres, -⟩ := (screen_ok hs).moves hI
    exact (screen_still hs).trans (exchange_still hres)

/-! ### Allocation and release -/

/-- `af_alloc` comes to its call of `collect`. -/
def Allocates (c : Caller) (w : World) (size : ℕ) : Prop :=
  usable c = none ∧ ¬ (size = 0 ∨ MAX_BUFFER < size) ∧
    ((List.range MAX_SLOTS).find? fun i => (w.buffers i).data = 0).isSome

instance (c : Caller) (w : World) (size : ℕ) : Decidable (Allocates c w size) :=
  inferInstanceAs (Decidable (_ ∧ _ ∧ _))

/-- **`af_alloc`** fails at once, or calls `collect` and then climbs. -/
theorem alloc_cases {c : Caller} {e : AllocEnv} {w w' : World} {size r : ℕ} (hI : Inv w)
    (h : alloc c e w size = .ok (w', r)) :
    (¬ Allocates c w size ∧ Still w w') ∨
      (Allocates c w size ∧ ∃ w1 r1, collect c e.evict w (rounded size) 0 = .ok (w1, r1) ∧
        Climbs w1 [] w') := by
  unfold alloc at h
  rcases hu : usable c with _ | m
  swap
  · rw [hu] at h
    cases h
    refine Or.inl ⟨fun ha => ?_, Still.fail w _⟩
    cases hu.symm.trans ha.1
  rw [hu] at h
  simp only at h
  by_cases hsize : size = 0 ∨ MAX_BUFFER < size
  · rw [if_pos hsize] at h
    cases h
    exact Or.inl ⟨fun ha => ha.2.1 hsize, Still.fail w _⟩
  rw [if_neg hsize] at h
  rcases hslot : (List.range MAX_SLOTS).find? fun i => (w.buffers i).data = 0 with _ | slot
  · rw [hslot] at h
    cases h
    refine Or.inl ⟨fun ha => ?_, Still.fail w _⟩
    have := ha.2.2
    rw [hslot] at this
    cases this
  rw [hslot] at h
  have hfree := List.find?_some hslot
  refine Or.inr ⟨⟨hu, hsize, by rw [hslot]; rfl⟩, ?_⟩
  rcases hc : collect c e.evict w (rounded size) 0 with stop | ⟨w1, r1⟩
  · rw [hc] at h
    cases h
  rw [hc] at h
  simp only at h
  refine ⟨w1, r1, rfl, ?_⟩
  have hfree1 : (w1.buffers slot).data = 0 := by
    rw [((collect_moves hI hc).mapping slot).data]
    simpa using hfree
  by_cases hr1 : r1 ≠ 0
  · rw [if_pos hr1] at h
    cases h
    exact (Still.refl _).climbs
  rw [if_neg hr1] at h
  rcases hp : e.place with _ | p
  · rw [hp] at h
    cases h
    exact (Still.fail w1 _).climbs
  rw [hp] at h
  simp only at h
  by_cases hplace : (!placeable w1 p (rounded size)) = true
  · rw [if_pos hplace] at h
    cases h
    exact (Still.fail w1 _).climbs
  rw [if_neg hplace] at h
  by_cases hmeta : (!e.metadata) = true
  · rw [if_pos hmeta] at h
    cases h
    have hclear : Still w1 (w1.setBuffer slot Buffer.clear) :=
      ⟨(Tick.clear slot hfree1).single, rfl, rfl, rfl⟩
    exact (hclear.trans (Still.fail _ _)).climbs
  · rw [if_neg hmeta] at h
    cases h
    exact ⟨(Tick.place slot r size hfree1).single, rfl, Nat.le_add_right _ _, fun _ => rfl⟩

theorem alloc_sampled {c : Caller} {e : AllocEnv} {w w' : World} {size r : ℕ} (hI : Inv w)
    (h : alloc c e w size = .ok (w', r)) : Sampled w [] w' := by
  rcases alloc_cases hI h with ⟨-, hs⟩ | ⟨-, w1, r1, hc, hclimb⟩
  · exact hs.climbs.sampled
  · exact (collect_falls hI hc).climb hclimb

theorem indexRemove_eq {w w' : World} {pointer : ℕ} (h : w.indexRemove pointer = some w') :
    ∃ l, w' = { w with allocationIndex := l } := by
  unfold World.indexRemove at h
  simp only at h
  split_ifs at h
  cases h
  exact ⟨_, rfl⟩

/-- **`af_free`.** -/
theorem free_falls {c : Caller} {e : FreeEnv} {w w' : World} {output : ℕ} {r : Int} (hI : Inv w)
    (h : free c e w output = .ok (w', r)) : Falls w w' := by
  unfold free at h
  split at h
  · cases h
    exact (Still.fail w _).falls
  split at h
  · cases h
    exact (Still.fail w _).falls
  next s hs =>
  obtain ⟨hl, rfl⟩ := (hI.indexed.find_iff output s).mp hs
  simp only at h
  have hreq : Still w (if (w.buffers s).recipeLive = true then
      (request e.drop w (handleDrop (w.buffers s).id)).1 else w) ∧
      (if (w.buffers s).recipeLive = true then
        (request e.drop w (handleDrop (w.buffers s).id)).1 else w).buffers = w.buffers := by
    split_ifs
    · refine ⟨Still.request _ _ _, ?_⟩
      rcases request_cases e.drop w (handleDrop (w.buffers s).id) with ⟨hq, -⟩ | ⟨q,
        hq⟩ | ⟨hq, -⟩ <;>
        rw [hq]
    · exact ⟨Still.refl w, rfl⟩
  obtain ⟨hstill, hb⟩ := hreq
  generalize (if (w.buffers s).recipeLive = true then
    (request e.drop w (handleDrop (w.buffers s).id)).1 else w) = w1 at h hstill hb
  split_ifs at h
  · cases h
    exact (hstill.trans (Still.fail w1 _)).falls
  split at h
  · cases h
  next w2 hw2 =>
  obtain ⟨l, rfl⟩ := indexRemove_eq hw2
  cases h
  have hl1 : w1.Live s := by
    unfold World.Live
    rw [hb]
    exact hl
  rw [← hb]
  exact hstill.falls.trans ⟨(Tick.release s l w1.peer hl1).single, rfl, Nat.sub_le _ _, rfl⟩

/-! ### Steps -/

/-- The step sets the residency target. -/
def Sets : Event → Prop
  | (.setResidentTarget _ _, .code r) => r = 0
  | _ => False

instance : DecidablePred Sets := fun x => by
  unfold Sets
  split <;> infer_instance

/-- **Every step in its ticks**; the peak is sampled at its end, and starts again when the step sets
the target. -/
theorem step_ticks {w w' : World} {op : Op} {r : Ret} (hI : Inv w)
    (h : step w op = .ok (w', r)) :
    (∃ l, Ticks w l w') ∧
      (¬ Sets (op, r) → w'.residentTarget = w.residentTarget ∧
        (overTarget w ≤ w.peakOverTarget →
          w'.peakOverTarget = max w.peakOverTarget (overTarget w'))) ∧
      (Sets (op, r) → w'.peakOverTarget = overTarget w') := by
  have key : ∀ {l}, Sampled w l w' → ¬ Sets (op, r) →
      (∃ l, Ticks w l w') ∧ (¬ Sets (op, r) → w'.residentTarget = w.residentTarget ∧
        (overTarget w ≤ w.peakOverTarget →
          w'.peakOverTarget = max w.peakOverTarget (overTarget w'))) ∧
        (Sets (op, r) → w'.peakOverTarget = overTarget w') := by
    intro l hs hn
    exact ⟨⟨l, hs.ticks⟩, fun _ => ⟨hs.target, hs.peak⟩, fun hset => absurd hset hn⟩
  have hmap : ∀ {α : Type} {x : Except Stop α} {f : α → World × Ret}, x.map f = .ok (w', r) →
      ∃ y, x = .ok y ∧ f y = (w', r) := by
    intro α x f hx
    cases x with
    | error s => cases hx
    | ok y => exact ⟨y, rfl, Except.ok.inj hx⟩
  cases op with
  | alloc c e size =>
    obtain ⟨⟨w1, p⟩, h1, h2⟩ := hmap h
    cases h2
    exact key (alloc_sampled hI h1) id
  | read c e a =>
    obtain ⟨⟨w1, v⟩, h1, h2⟩ := hmap h
    cases h2
    unfold readByte at h1
    split at h1
    · cases h1
    · next w1 ha =>
      cases h1
      obtain ⟨l, hc⟩ := access_climbs hI ha
      exact key hc.sampled id
  | write c e a v =>
    obtain ⟨w1, h1, h2⟩ := hmap h
    cases h2
    unfold writeByte at h1
    split at h1
    · cases h1
    · next w1 ha =>
      cases h1
      have hstore : Still w1 { w1 with memory := w1.memory.store a v } :=
        .idle rfl rfl rfl rfl rfl rfl
      obtain ⟨l, hc⟩ := access_climbs hI ha
      exact key (hc.trans hstore.climbs).sampled id
  | prepareRead c e a n =>
    obtain ⟨⟨w1, v⟩, h1, h2⟩ := hmap h
    cases h2
    obtain ⟨l, hc⟩ := prepare_climbs hI h1
    exact key hc.sampled id
  | prepareWrite c e a n =>
    obtain ⟨⟨w1, v⟩, h1, h2⟩ := hmap h
    cases h2
    obtain ⟨l, hc⟩ := prepare_climbs hI h1
    exact key hc.sampled id
  | submit c e p d t =>
    cases h
    exact key (submit_still hI).climbs.sampled id
  | submitRegion c e p d t =>
    cases h
    exact key (submit_still hI).climbs.sampled id
  | evict c e p =>
    obtain ⟨⟨w1, v⟩, h1, h2⟩ := hmap h
    cases h2
    exact key (evict_falls hI h1).sampled id
  | manage c e p =>
    obtain ⟨⟨w1, v⟩, h1, h2⟩ := hmap h
    cases h2
    exact key (manage_falls hI h1).sampled id
  | setResidentTarget c n =>
    have hx : setResidentTarget c w n = (w', match r with | .code v => v | _ => 0) ∧
        ∃ v, r = .code v := by
      cases h
      exact ⟨rfl, _, rfl⟩
    obtain ⟨hx, v, rfl⟩ := hx
    simp only at hx
    unfold setResidentTarget at hx
    split at hx
    · cases hx
      exact key (Still.fail w _).climbs.sampled (by simp [Sets])
    · split_ifs at hx
      · cases hx
        exact key (Still.fail w _).climbs.sampled (by simp [Sets])
      · cases hx
        refine ⟨⟨_, (Tick.target n).single⟩, fun hn => absurd rfl hn, fun _ => ?_⟩
        exact Nat.zero_max _
  | materialize c e p =>
    obtain ⟨⟨w1, v⟩, h1, h2⟩ := hmap h
    cases h2
    obtain ⟨l, hc⟩ := materializeAll_climbs hI h1
    exact key hc.sampled id
  | free c e p =>
    obtain ⟨⟨w1, v⟩, h1, h2⟩ := hmap h
    cases h2
    exact key (free_falls hI h1).sampled id

end Afterfree.Runtime.Accounting
