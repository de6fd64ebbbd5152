import Afterfree.Runtime.Compared
import Afterfree.Runtime.Decompose

/-!
# What each entry point does

Every entry point other than `af_alloc`, `af_free` and a write of the application is a sequence of
elementary changes that keeps the live buffers (`Moves`). `step_effect` says for every step which of
the few effects it has; the invariants over runs are inductions over it.
-/

namespace Afterfree.Runtime.Operations

open Afterfree.Common Afterfree.Lib Afterfree.Runtime.State Afterfree.Runtime.Pager
open Afterfree.Runtime.Submit Afterfree.Runtime.Api Afterfree.Runtime.Lookup
open Afterfree.Runtime.Representation Afterfree.Runtime.Changes Afterfree.Runtime.Decompose
open Afterfree.Runtime.Compared

/-! ### Faults and accesses -/

theorem readaheadEnd_le {b : Buffer} {n : ℕ} (hn : b.mapped / PAGE = n) (page : ℕ) :
    ∀ (fuel stop : ℕ), stop ≤ n →
      stop ≤ readaheadEnd b page fuel stop ∧ readaheadEnd b page fuel stop ≤ n
  | 0, _, h => ⟨le_rfl, h⟩
  | fuel + 1, stop, h => by
    unfold readaheadEnd
    by_cases hc : stop < b.mapped / PAGE ∧ stop - page < b.readahead ∧ b.pages stop = .cold
    · rw [if_pos hc]
      obtain ⟨h1, h2⟩ := readaheadEnd_le hn page fuel (stop + 1) (by omega)
      exact ⟨by omega, h2⟩
    · rw [if_neg hc]
      exact ⟨le_rfl, h⟩

/-- The bookkeeping of a fault: nothing the invariant speaks of, and a span with the page in it. -/
theorem planFault_spec {b : Buffer} {page : ℕ} (hp : page < b.pageCount) (writing : Bool) :
    SameCore b (planFault b page writing).1 ∧ page < (planFault b page writing).2 ∧
      (planFault b page writing).2 ≤ b.pageCount := by
  unfold planFault
  simp only
  by_cases h1 : (!writing) = true ∧ b.stats.pageBytes ≠ 0
  · rw [if_pos h1]
    refine ⟨⟨rfl, rfl, rfl, rfl, rfl, rfl, rfl, rfl, rfl, rfl, fun _ => rfl⟩, ?_, ?_⟩
    · refine (readaheadEnd_le (n := b.pageCount) ?_ page 16 (page + 1) hp).1
      rfl
    · refine (readaheadEnd_le (n := b.pageCount) ?_ page 16 (page + 1) hp).2
      rfl
  · rw [if_neg h1]
    exact ⟨⟨rfl, rfl, rfl, rfl, rfl, rfl, rfl, rfl, rfl, rfl, fun _ => rfl⟩, Nat.lt_succ_self _, hp⟩

theorem Moves.slot {w : World} {s : ℕ} {b : Buffer} (hb : SameCore (w.buffers s) b) :
    Moves w (w.setBuffer s b) := by
  refine Moves.note (fun u => ?_) rfl rfl rfl rfl rfl rfl
  show SameCore _ (Function.update w.buffers s b u)
  by_cases hu : u = s
  · subst hu
    rw [Function.update_self]
    exact hb
  · rw [Function.update_of_ne hu]
    exact SameCore.refl _

theorem page_of_address {b : Buffer} (h : Shaped b) {a : ℕ} (h1 : b.data ≤ a)
    (h2 : a < b.data + b.mapped) :
    (a - b.data) / PAGE < b.pageCount ∧ a / PAGE = b.data / PAGE + (a - b.data) / PAGE := by
  have h3 := h.pageCount_mul
  have h4 := h.aligned
  unfold PAGE at *
  omega

/-- **A fault** is a sequence of changes, or the end of the process. In a live buffer only
`pager_failure` and an access that its page state allows already can end it. -/
theorem fault_moves {c : Caller} {e : MaterializeEnv} {w w' : World} {a : ℕ} {writing : Bool}
    (hI : Inv w) (h : fault c e w a writing = .ok w') :
    Moves w w' ∧ ∃ s, w.containing a = some s ∧
      (w'.buffers s).Present ((a - (w'.buffers s).data) / PAGE) ∧
      (writing = true → (w'.buffers s).pages ((a - (w'.buffers s).data) / PAGE) = .dirty) := by
  unfold fault at h
  rcases hc : w.containing a with _ | s
  · rw [hc] at h
    cases h
  rw [hc] at h
  simp only at h
  split_ifs at h with h1 h2
  obtain ⟨hl, hlo, hhi⟩ := (hI.indexed.containing_iff a s).mp hc
  obtain ⟨hpage, -⟩ := page_of_address (hI.buffer s hl).toShaped hlo hhi
  obtain ⟨hcore, hlt, hle⟩ := planFault_spec hpage writing
  generalize planFault (w.buffers s) ((a - (w.buffers s).data) / PAGE) writing = plan at *
  have hm1 : Moves w (w.setBuffer s plan.1) := Moves.slot hcore
  have hI1 := hm1.steps.inv hI
  have hself : (w.setBuffer s plan.1).buffers s = plan.1 := Function.update_self _ _ _
  rcases hr : materialize e (w.setBuffer s plan.1) s ((a - (w.buffers s).data) / PAGE) plan.2
    writing with _ | w2
  · rw [hr] at h
    cases h
  rw [hr] at h
  cases h
  have hcount : plan.2 ≤ ((w.setBuffer s plan.1).buffers s).pageCount := by
    rw [hself]
    unfold Buffer.pageCount
    rw [hcore.mapped]
    exact hle
  obtain ⟨hp, hpres, hdirty, hret⟩ := materialize_spec hI1 ((hm1.live s).mpr hl) hcount hr
  have hdata : (w'.buffers s).data = (w.buffers s).data := by
    rw [hp.mapping.data, hself, hcore.data]
  refine ⟨hm1.trans (hp.moves hret), s, rfl, ?_, fun hw => ?_⟩
  · rw [hdata]
    exact hpres _ le_rfl hlt
  · rw [hdata]
    exact hdirty hw _ le_rfl hlt

/-- **An access** is a sequence of changes and ends with a page that permits it. -/
theorem access_moves {c : Caller} {e : MaterializeEnv} {w w' : World} {a : ℕ} {writing : Bool}
    (hI : Inv w) (h : access c e w a writing = .ok w') :
    Moves w w' ∧ w'.memory.permits a writing = true := by
  unfold access at h
  by_cases h1 : w.memory.permits a writing = true
  · rw [if_pos h1] at h
    cases h
    exact ⟨Moves.refl w, h1⟩
  · rw [if_neg h1] at h
    rcases hf : fault c e w a writing with s | w1
    · rw [hf] at h
      cases h
    · rw [hf] at h
      simp only at h
      split_ifs at h with h2
      cases h
      exact ⟨(fault_moves hI hf).1, h2⟩

theorem permits_iff {w : World} (hI : Inv w) {s a : ℕ} (hl : w.Live s)
    (h1 : (w.buffers s).data ≤ a) (h2 : a < (w.buffers s).data + (w.buffers s).mapped)
    (writing : Bool) :
    w.memory.permits a writing = true ↔
      (w.buffers s).Present ((a - (w.buffers s).data) / PAGE) ∧
        (writing = true → (w.buffers s).pages ((a - (w.buffers s).data) / PAGE) = .dirty) := by
  obtain ⟨hp, he⟩ := page_of_address (hI.buffer s hl).toShaped h1 h2
  have hg := hI.guarded s hl _ hp
  unfold Memory.permits Buffer.Present
  rw [he, hg]
  rcases (w.buffers s).pages ((a - (w.buffers s).data) / PAGE) with _ | _ | _ <;>
    cases writing <;> simp [protOf]

/-- **An access to a live buffer goes through or ends in `pager_failure`.** -/
theorem access_stop {c : Caller} {e : MaterializeEnv} {w : World} {a : ℕ} {writing : Bool}
    (hI : Inv w) {s : ℕ} (hl : w.Live s) (h1 : (w.buffers s).data ≤ a)
    (h2 : a < (w.buffers s).data + (w.buffers s).mapped) {stop : Stop}
    (h : access c e w a writing = .error stop) : stop = .pagerFailure := by
  unfold access at h
  have hperm := permits_iff hI hl h1 h2 writing
  by_cases hok : w.memory.permits a writing = true
  · rw [if_pos hok] at h
    cases h
  rw [if_neg hok] at h
  have hc := (hI.indexed.containing_iff a s).mpr ⟨hl, h1, h2⟩
  rcases hf : fault c e w a writing with s1 | w1
  · rw [hf] at h
    cases h
    unfold fault at hf
    rw [hc] at hf
    simp only at hf
    split_ifs at hf with h3 h4
    · cases hf
      rfl
    · rcases hr : materialize e (w.setBuffer s _) s ((a - (w.buffers s).data) / PAGE) _ writing
        with _ | w2
      · rw [hr] at hf
        cases hf
        rfl
      · rw [hr] at hf
        cases hf
    · -- the page state would have let the access through
      refine absurd (hperm.mpr ?_) hok
      rw [not_or, not_and] at h4
      refine ⟨h4.1, fun hw => ?_⟩
      have := h4.2 hw
      rcases hps : (w.buffers s).pages ((a - (w.buffers s).data) / PAGE) with _ | _ | _
      · exact absurd hps h4.1
      · exact absurd hps this
      · rfl
  · rw [hf] at h
    simp only at h
    obtain ⟨hm, s', hs', hp, hd⟩ := fault_moves hI hf
    rw [hc] at hs'
    cases hs'
    have hI1 := hm.steps.inv hI
    obtain ⟨e1, e2⟩ := And.intro (hm.mapping s).data (hm.mapping s).mapped
    rw [if_pos ((permits_iff hI1 ((hm.live s).mpr hl) (by omega) (by omega) writing).mpr
      ⟨hp, hd⟩)] at h
    cases h

/-! ### Prefaults -/

theorem prepareLoop_moves {c : Caller} {e : ℕ → MaterializeEnv} {first size : ℕ} {writing : Bool} :
    ∀ {fuel : ℕ} {w w' : World} {pos : ℕ}, Inv w →
      prepareLoop c e first size writing fuel w pos = .ok w' → Moves w w'
  | 0, w, w', pos, _, h => by
    cases h
    exact Moves.refl w
  | fuel + 1, w, w', pos, hI, h => by
    unfold prepareLoop at h
    by_cases hpos : pos < w.allocationIndex.length
    · rw [if_pos hpos] at h
      simp only [List.getD_eq_getElem _ _ hpos] at h
      have hl := hI.indexed.live_get hpos
      generalize w.allocationIndex[pos] = s at h hl
      by_cases hend : first + size ≤ (w.buffers s).data
      · rw [if_pos hend] at h
        cases h
        exact Moves.refl w
      rw [if_neg hend] at h
      by_cases hown : (!(c.ownerProcess && c.ownerThread)) = true
      · rw [if_pos hown] at h
        cases h
      rw [if_neg hown] at h
      rcases hr : materialize (e pos) w s _ _ writing with _ | w1
      · rw [hr] at h
        cases h
      rw [hr] at h
      have hshape := (hI.buffer s hl).toShaped
      obtain ⟨hp, -, -, hret⟩ := materialize_spec hI hl (by
        have h1 := hshape.pageCount_mul
        unfold rounded PAGE at *
        omega) hr
      have hm := hp.moves hret
      exact hm.trans (prepareLoop_moves (hm.steps.inv hI) h)
    · rw [if_neg hpos] at h
      cases h
      exact Moves.refl w

/-- **`prepare`.** -/
theorem prepare_moves {c : Caller} {e : ℕ → MaterializeEnv} {w w' : World} {first size : ℕ}
    {writing : Bool} {r : Int} (hI : Inv w) (h : prepare c e w first size writing = .ok (w', r)) :
    Moves w w' := by
  unfold prepare at h
  by_cases h1 : size = 0
  · rw [if_pos h1] at h
    cases h
    exact Moves.refl w
  rw [if_neg h1] at h
  by_cases h2 : 2 ^ 64 - 1 - size < first
  · rw [if_pos h2] at h
    cases h
    exact Moves.refl w
  rw [if_neg h2] at h
  simp only at h
  split at h
  · cases h
  · next w1 hr =>
    cases h
    exact prepareLoop_moves hI hr

/-- **`af_materialize`.** -/
theorem materializeAll_moves {c : Caller} {e : MaterializeEnv} {w w' : World} {output : ℕ}
    {r : Int} (hI : Inv w) (h : materializeAll c e w output = .ok (w', r)) : Moves w w' := by
  unfold materializeAll at h
  split at h
  · cases h
    exact Moves.fail w _
  split at h
  · cases h
    exact Moves.fail w _
  · next s hs =>
    obtain ⟨hl, -⟩ := (hI.indexed.find_iff output s).mp hs
    split at h
    · cases h
    · next w1 hr =>
      cases h
      obtain ⟨hp, -, -, hret⟩ := materialize_spec hI hl le_rfl hr
      exact hp.moves hret

/-! ### Eviction -/

theorem reprotect_prot (b : Buffer) (m : Memory) (first j : ℕ) :
    ∀ n, (reprotect b m first n).bytes = m.bytes ∧ (reprotect b m first n).prot j =
      if b.data / PAGE + first ≤ j ∧ j < b.data / PAGE + first + n then
        (if b.pages (j - b.data / PAGE) = .cold then .none else .read) else m.prot j
  | 0 => ⟨rfl, by rw [if_neg (by omega)]; rfl⟩
  | n + 1 => by
    obtain ⟨h1, h2⟩ := reprotect_prot b m first j n
    refine ⟨h1, ?_⟩
    have hp := mprotect_page (reprotect b m first n) b.data (first + n) 1
      (if b.pages (first + n) = .cold then .none else .read) j
    rw [Nat.one_mul] at hp
    show (Memory.mprotect _ (b.data + (first + n) * PAGE) PAGE _).prot j = _
    rw [hp, h2]
    by_cases hj : b.data / PAGE + (first + n) ≤ j ∧ j < b.data / PAGE + (first + n) + 1
    · have hin : b.data / PAGE + first ≤ j ∧ j < b.data / PAGE + first + (n + 1) := by omega
      rw [if_pos hj, if_pos hin, show j - b.data / PAGE = first + n by omega]
    · rw [if_neg hj]
      by_cases hin : b.data / PAGE + first ≤ j ∧ j < b.data / PAGE + first + n
      · have hin' : b.data / PAGE + first ≤ j ∧ j < b.data / PAGE + first + (n + 1) := by omega
        rw [if_pos hin, if_pos hin']
      · rw [if_neg hin, if_neg (by omega)]

theorem reprotect_eq {w : World} {s : ℕ} (hI : Inv w) (hl : w.Live s)
    (hs : (w.buffers s).state = .sealed ∨ (w.buffers s).state = .evicted) :
    reprotect (w.buffers s) (w.memory.mprotect ((w.buffers s).data + (w.buffers s).recipeOffset)
      (rounded (w.buffers s).recipeLength) .none) ((w.buffers s).recipeOffset / PAGE)
      (rounded (w.buffers s).recipeLength / PAGE) = w.memory := by
  have hb := hI.buffer s hl
  have hfirst := hb.toShaped.first_mul
  have hlasteq := hb.toShaped.last_eq
  have hle := hb.toShaped.last_le
  have hlen : rounded (w.buffers s).recipeLength =
      rounded (w.buffers s).recipeLength / PAGE * PAGE := by
    have := rounded_mod (w.buffers s).recipeLength
    unfold PAGE at *
    omega
  have hstate : ∀ i, InRegion (w.buffers s) i →
      (w.buffers s).pages i = .cold ∨ (w.buffers s).pages i = .clean := by
    intro i hi
    rcases hs with hs | hs
    · exact Or.inr (hb.sealedClean hs i hi)
    · exact (hb.evictedRegion hs).1 i hi
  change _ + _ = _ at hlasteq
  generalize hm : w.memory.mprotect ((w.buffers s).data + (w.buffers s).recipeOffset)
    (rounded (w.buffers s).recipeLength) .none = m
  have hmp : ∀ j, m.prot j = if (w.buffers s).data / PAGE + (w.buffers s).regionFirst ≤ j ∧
      j < (w.buffers s).data / PAGE + (w.buffers s).regionFirst +
        rounded (w.buffers s).recipeLength / PAGE then .none else w.memory.prot j := by
    intro j
    have := mprotect_page w.memory (w.buffers s).data (w.buffers s).regionFirst
      (rounded (w.buffers s).recipeLength / PAGE) .none j
    rw [← hlen, hfirst, hm] at this
    exact this
  have hmb : m.bytes = w.memory.bytes := by rw [← hm]; rfl
  have key : ∀ x y : Memory, x.bytes = y.bytes → x.prot = y.prot → x = y := by
    rintro ⟨_, _⟩ ⟨_, _⟩ rfl rfl
    rfl
  refine key _ _ ?_ (funext fun j => ?_)
  · rw [(reprotect_prot (w.buffers s) m _ 0 _).1, hmb]
  · rw [(reprotect_prot (w.buffers s) m _ j _).2]
    change (if (w.buffers s).data / PAGE + (w.buffers s).regionFirst ≤ j ∧
      j < (w.buffers s).data / PAGE + (w.buffers s).regionFirst +
        rounded (w.buffers s).recipeLength / PAGE then _ else _) = _
    by_cases hj : (w.buffers s).data / PAGE + (w.buffers s).regionFirst ≤ j ∧
      j < (w.buffers s).data / PAGE + (w.buffers s).regionFirst +
        rounded (w.buffers s).recipeLength / PAGE
    · rw [if_pos hj]
      have hin : InRegion (w.buffers s) (j - (w.buffers s).data / PAGE) :=
        ⟨by omega, by omega⟩
      have hg := hI.guarded s hl (j - (w.buffers s).data / PAGE) (hb.toShaped.inRegion_lt hin)
      rw [show (w.buffers s).data / PAGE + (j - (w.buffers s).data / PAGE) = j by omega] at hg
      rw [hg]
      rcases hstate _ hin with hp | hp <;> rw [hp] <;> rfl
    · rw [if_neg hj, hmp, if_neg hj]

theorem Moves.discard {w : World} {s : ℕ} (hl : w.Live s)
    (hs : (w.buffers s).state = .sealed ∨ (w.buffers s).state = .evicted) :
    Moves w (applyDiscard w s) := by
  have hself : (applyDiscard w s).buffers s = discardedBuffer (w.buffers s) :=
    Function.update_self _ _ _
  have hother : ∀ u, u ≠ s → (applyDiscard w s).buffers u = w.buffers u :=
    fun u hu => Function.update_of_ne hu _ _
  refine ⟨Relation.ReflTransGen.single (.discard s hl hs), fun u => ?_, fun hr hu u hlu => ?_,
    fun u _ hp => ?_⟩
  · by_cases hus : u = s
    · subst hus
      rw [hself]
      exact ⟨rfl, rfl, rfl, rfl⟩
    · rw [hother u hus]
      exact SameMapping.refl _
  · by_cases hus : u = s
    · subst hus
      rw [hself]
      intro hst
      cases hst
    · rw [hother u hus]
      refine hr hu u ?_
      unfold World.Live at *
      rw [← hother u hus]
      exact hlu
  · have hus : u ≠ s := by
      rintro rfl
      rw [hp] at hs
      rcases hs with hs | hs <;> cases hs
    rw [hother u hus]
    exact hp

/-- **`af_evict`.** -/
theorem evict_moves {c : Caller} {e : EvictEnv} {w w' : World} {output : ℕ} {r : Int}
    (hI : Inv w) (h : evict c e w output = .ok (w', r)) : Moves w w' := by
  unfold evict at h
  split at h
  · cases h
    exact Moves.fail w _
  split at h
  · cases h
    exact Moves.fail w _
  · next s hs =>
    obtain ⟨hl, -⟩ := (hI.indexed.find_iff output s).mp hs
    simp only at h
    split_ifs at h with h1 h2 h3 h4 h5
    · cases h
      exact Moves.refl w
    · cases h
      exact Moves.fail w _
    · cases h
      exact Moves.fail w _
    · cases h
      exact Moves.fail w _
    · have hst : (w.buffers s).state = .sealed ∨ (w.buffers s).state = .evicted := by tauto
      cases h
      rw [Nat.add_sub_cancel_left, reprotect_eq hI hl hst]
      exact Moves.fail w _
    · have hst : (w.buffers s).state = .sealed ∨ (w.buffers s).state = .evicted := by tauto
      cases h
      exact Moves.discard hl hst

theorem Moves.counted (w : World) (n : ℕ) : Moves w { w with automaticEvictions := n } :=
  Moves.note (fun _ => SameCore.refl _) rfl rfl rfl rfl rfl rfl

theorem collectLoop_moves {c : Caller} {e : ℕ → EvictEnv} {incoming protectedOutput : ℕ} :
    ∀ {fuel : ℕ} {w w' : World} {resident : ℕ} {r : Int}, Inv w →
      collectLoop c e incoming protectedOutput fuel w resident = .ok (w', r) → Moves w w'
  | 0, w, w', resident, r, _, h => by cases h
  | fuel + 1, w, w', resident, r, hI, h => by
    unfold collectLoop at h
    by_cases hover : w.residentTarget < resident + incoming
    · rw [if_pos hover] at h
      generalize candidate w protectedOutput = best at h
      rcases best with _ | s
      · cases h
        exact Moves.refl w
      · simp only at h
        rcases he : evict c (e (w.buffers s).id) w (w.buffers s).data with stop | ⟨w1, r1⟩
        · rw [he] at h
          cases h
        · rw [he] at h
          simp only at h
          have hm := evict_moves hI he
          by_cases hr : r1 ≠ 0
          · rw [if_pos hr] at h
            cases h
            exact hm
          · rw [if_neg hr] at h
            have hm1 := hm.trans (Moves.counted w1 (w1.automaticEvictions + 1))
            exact hm1.trans (collectLoop_moves (hm1.steps.inv hI) h)
    · rw [if_neg hover] at h
      cases h
      exact Moves.refl w

/-- **`collect`.** -/
theorem collect_moves {c : Caller} {e : ℕ → EvictEnv} {w w' : World}
    {incoming protectedOutput : ℕ} {r : Int} (hI : Inv w)
    (h : collect c e w incoming protectedOutput = .ok (w', r)) : Moves w w' := by
  unfold collect at h
  by_cases h0 : w.residentTarget = 0
  · rw [if_pos h0] at h
    cases h
    exact Moves.refl w
  · rw [if_neg h0] at h
    exact collectLoop_moves hI h

/-- **`af_manage`.** -/
theorem manage_moves {c : Caller} {e : ℕ → EvictEnv} {w w' : World} {output : ℕ} {r : Int}
    (hI : Inv w) (h : manage c e w output = .ok (w', r)) : Moves w w' := by
  unfold manage at h
  split at h
  · cases h
    exact Moves.fail w _
  by_cases h0 : w.residentTarget = 0
  · rw [if_pos h0] at h
    split at h
    · cases h
    · next w1 r1 he =>
      have hm := evict_moves hI he
      cases h
      by_cases hr : r = 0
      · rw [if_pos hr]
        exact hm.trans (Moves.counted w1 _)
      · rw [if_neg hr]
        exact hm
  · rw [if_neg h0] at h
    exact collect_moves hI h

/-- **`af_set_resident_target`.** -/
theorem setResidentTarget_moves (c : Caller) (w : World) (bytes : ℕ) :
    Moves w (setResidentTarget c w bytes).1 := by
  unfold setResidentTarget
  split
  · exact Moves.fail w _
  · split_ifs
    · exact Moves.fail w _
    · exact Moves.note (fun _ => SameCore.refl _) rfl rfl rfl rfl rfl rfl

/-! ### Registration -/

theorem commit_drop (p : Peer) (id : ℕ) (o : Output) : (p.commit id o).drop id = p.drop id := by
  unfold Peer.commit Peer.drop
  simp only [Peer.mk.injEq]
  funext i
  by_cases h : i = id
  · simp [h]
  · simp [h]

theorem withdraw_moves {e : SubmitEnv} {w : World} {s : ℕ} {p : Peer} (hl : w.Live s)
    (hs : (w.buffers s).state = .resident) (hu : w.channelBroken = false)
    (hp : p.drop (w.buffers s).id = w.peer.drop (w.buffers s).id) (m : String) :
    Moves w (withdraw e { w with peer := p } (w.buffers s).id m) := by
  unfold withdraw
  refine Moves.trans ?_ (Moves.fail _ m)
  rcases request_cases e.drop { w with peer := p } (handleDrop (w.buffers s).id) with
    ⟨hq, hb⟩ | ⟨q, hq⟩ | ⟨hq, -⟩
  · exact absurd hb (by rw [hu]; simp)
  · rw [hq]
    exact Moves.lose w q
  · rw [hq]
    show Moves w { w with peer := p.drop (w.buffers s).id }
    rw [hp]
    exact ⟨Relation.ReflTransGen.single (.withdraw s hl hs), fun _ => SameMapping.refl _, id,
      fun _ _ h => h⟩

theorem Moves.enroll {w : World} {s : ℕ} {h : Header} {o : Output} (hl : w.Live s)
    (hs : (w.buffers s).state = .resident)
    (hm : ∃ region, matchesAllocation region (w.buffers s).data (w.buffers s).stats.length h = true)
    (hlen : o.length = h.length) (heq : ∀ i < h.length, o.byte i = w.memory.bytes (h.output + i))
    (g : Registration) (t : ℕ) :
    Moves w ({ w with
      peer := w.peer.commit (w.buffers s).id o
      memory := w.memory.mprotect h.output (rounded h.length) .read }.setBuffer s
        (sealedBuffer (w.buffers s) h g t)) := by
  have hother : ∀ u, u ≠ s →
      Function.update w.buffers s (sealedBuffer (w.buffers s) h g t) u = w.buffers u :=
    fun u hu => Function.update_of_ne hu _ _
  refine ⟨Relation.ReflTransGen.single (.enroll s h g t o hl hs hm hlen heq), fun u => ?_,
    fun hr hu u hlu => ?_, fun u _ hp => ?_⟩
  · show SameMapping _ (Function.update w.buffers s _ u)
    by_cases hus : u = s
    · subst hus
      rw [Function.update_self]
      exact ⟨rfl, rfl, rfl, rfl⟩
    · rw [hother u hus]
      exact SameMapping.refl _
  · show Retired (Function.update w.buffers s _ u)
    by_cases hus : u = s
    · subst hus
      rw [Function.update_self]
      intro hst
      cases hst
    · rw [hother u hus]
      refine hr hu u ⟨hlu.1, ?_⟩
      have := hlu.2
      change (Function.update w.buffers s _ u).data ≠ 0 at this
      rwa [hother u hus] at this
  · have hus : u ≠ s := by
      rintro rfl
      rw [hs] at hp
      cases hp
    show (Function.update w.buffers s _ u).state = _
    rw [hother u hus]
    exact hp

theorem Moves.statistics {w : World} {s : ℕ} (hs : (w.buffers s).state = .resident) {st : Stats}
    (hlen : st.length = (w.buffers s).stats.length) :
    Moves w (w.setBuffer s { w.buffers s with stats := st }) :=
  Moves.slot ⟨rfl, rfl, rfl, rfl, rfl, rfl, rfl, rfl, rfl, hlen, fun h => absurd hs h⟩

/-- **What `conclude` does**: it writes statistics and leaves a message, or it seals the region
after an equal comparison. -/
theorem conclude_cases (g : Registration) (t : ℕ) (isProtected : Bool) (w : World) (s : ℕ)
    (h : Header) (equal : Bool) :
    (∃ st m, st.length = (w.buffers s).stats.length ∧
      conclude g t isProtected w s h equal =
        (w.setBuffer s { w.buffers s with stats := st }, some m)) ∨
    (equal = true ∧ conclude g t isProtected w s h equal =
      ({ w with memory := w.memory.mprotect h.output (rounded h.length) .read }.setBuffer s
        (sealedBuffer (w.buffers s) h g t), none)) := by
  unfold conclude
  simp only
  by_cases h1 : (!equal) = true
  · rw [if_pos h1]
    exact Or.inl ⟨{ (w.buffers s).stats with validationNs := t }, _, rfl, rfl⟩
  rw [if_neg h1]
  simp only [World.setBuffer, Function.update_idem]
  -- the statistics that the two later refusals leave
  let st : Stats := { (w.buffers s).stats with
    validationNs := t, retainedBytes := g.retainedBytes + (w.buffers s).mapped / PAGE
    pageBytes := g.pageBytes, backend := g.backend }
  by_cases h2 : rounded h.length ≤ g.retainedBytes + (w.buffers s).mapped / PAGE
  · rw [if_pos h2]
    exact Or.inl ⟨st, _, rfl, rfl⟩
  rw [if_neg h2]
  by_cases h3 : (!isProtected) = true
  · rw [if_pos h3]
    exact Or.inl ⟨st, _, rfl, rfl⟩
  rw [if_neg h3]
  exact Or.inr ⟨by simpa using h1, rfl⟩

/-- The end of `submit`: the recipe is taken back, or the buffer is sealed over equal bytes. -/
theorem settle_moves {e : SubmitEnv} {w : World} {s : ℕ} {h : Header} {equal : Bool} {o : Output}
    (hl : w.Live s) (hs : (w.buffers s).state = .resident) (hu : w.channelBroken = false)
    (hm : ∃ region, matchesAllocation region (w.buffers s).data (w.buffers s).stats.length h = true)
    (hlen : o.length = h.length)
    (heq : equal = true → ∀ i < h.length, o.byte i = w.memory.bytes (h.output + i)) :
    Moves w (settle e { w with peer := w.peer.commit (w.buffers s).id o } s h equal).1 := by
  unfold settle
  rcases conclude_cases e.script.registration e.elapsed e.isProtected
    { w with peer := w.peer.commit (w.buffers s).id o } s h equal with
    ⟨st, m, hst, hc⟩ | ⟨he, hc⟩
  · rw [hc]
    -- the statistics are written first; the recipe is dropped in that world
    have hmv := Moves.statistics (w := w) hs hst
    have hself : (w.setBuffer s { w.buffers s with stats := st }).buffers s =
        { w.buffers s with stats := st } := Function.update_self _ _ _
    refine hmv.trans ?_
    exact withdraw_moves ((hmv.live s).mpr hl) (by rw [hself]; exact hs) hu
      (by rw [hself]; exact commit_drop w.peer (w.buffers s).id o) m
  · rw [hc]
    exact Moves.enroll (o := o) hl hs hm hlen (heq he) e.script.registration e.elapsed

theorem exchange_moves {e : SubmitEnv} {w : World} {s : ℕ} {h : Header} (hl : w.Live s)
    (hs : (w.buffers s).state = .resident)
    (hm : ∃ region, matchesAllocation region (w.buffers s).data (w.buffers s).stats.length h =
      true) :
    Moves w (exchange e w s h).1 := by
  unfold exchange
  simp only
  rcases hc : Submit.compare e w h with m | m | equal
  · exact (Moves.lose w _).trans (Moves.fail _ m)
  · exact Moves.fail w m
  · obtain ⟨hu, out, g, m, hv, hiff⟩ := compare_compared hc
    have hplayed : peerAfter e w w.peer (w.buffers s).id h.length (.compared equal) =
        w.peer.commit (w.buffers s).id ⟨h.length, out⟩ := by
      unfold peerAfter Script.played
      rw [hv]
    rw [hplayed]
    exact settle_moves hl hs hu hm rfl fun he => hiff.mp he

/-- **What `screen` lets through**: a resident buffer whose allocation the header matches. -/
structure Screened (w w' : World) (output : ℕ) (data : Option (List UInt8)) (slot : ℕ)
    (image : List UInt8) : Prop where
  found : w.find output = some slot
  image_eq : data = some image
  resident : (w.buffers slot).state = .resident
  size : HEADER_SIZE ≤ image.length ∧ image.length ≤ MAX_BLOB
  matching : ∃ region, matchesAllocation region output (w.buffers slot).stats.length
    (Header.ofBytes image) = true
  opened : ∃ st, st.length = (w.buffers slot).stats.length ∧
    w' = w.setBuffer slot { w.buffers slot with stats := st }

theorem screen_ok {c : Caller} {w w' : World} {output : ℕ} {data : Option (List UInt8)}
    {captureNs : ℕ} {region : Bool} {slot : ℕ} {image : List UInt8}
    (h : screen c w output data captureNs region = .ok (w', slot, image)) :
    Screened w w' output data slot image := by
  unfold screen at h
  split at h
  · cases h
  split at h
  · next s data hf =>
    simp only at h
    by_cases h1 : (w.buffers s).state ≠ .resident ∨ data.length < HEADER_SIZE ∨
      MAX_BLOB < data.length
    · rw [if_pos h1] at h
      cases h
    rw [if_neg h1] at h
    by_cases h2 : (!matchesAllocation region output (w.buffers s).stats.length
        (Header.ofBytes data)) = true
    · rw [if_pos h2] at h
      cases h
    rw [if_neg h2] at h
    by_cases h3 : (Header.ofBytes data).length ≤ data.length
    · rw [if_pos h3] at h
      cases h
    rw [if_neg h3] at h
    obtain ⟨rfl, rfl, rfl⟩ : _ ∧ s = slot ∧ data = image := by
      simpa using h
    rw [not_or, not_or] at h1
    refine ⟨hf, rfl, not_not.mp h1.1, by omega, ⟨region, by simpa using h2⟩, ?_⟩
    exact ⟨_, by rfl, rfl⟩
  · cases h

theorem Screened.moves {w w' : World} {output slot : ℕ} {data : Option (List UInt8)}
    {image : List UInt8} (hI : Inv w) (h : Screened w w' output data slot image) :
    Moves w w' ∧ w'.Live slot ∧ (w'.buffers slot).state = .resident ∧
      ∃ region, matchesAllocation region (w'.buffers slot).data (w'.buffers slot).stats.length
        (Header.ofBytes image) = true := by
  obtain ⟨hl, hdata⟩ := (hI.indexed.find_iff output slot).mp h.found
  obtain ⟨st, hlen, rfl⟩ := h.opened
  have hself : (w.setBuffer slot { w.buffers slot with stats := st }).buffers slot =
      { w.buffers slot with stats := st } := Function.update_self _ _ _
  have hmv := Moves.statistics h.resident hlen
  refine ⟨hmv, (hmv.live slot).mpr hl, by rw [hself]; exact h.resident, ?_⟩
  obtain ⟨region, hm⟩ := h.matching
  refine ⟨region, ?_⟩
  rw [hself]
  show matchesAllocation region (w.buffers slot).data st.length _ = true
  rw [hdata, hlen]
  exact hm

section Screened

variable {w w' : World} {output slot : ℕ} {data : Option (List UInt8)} {image : List UInt8}

theorem Screened.same (h : Screened w w' output data slot image) (u : ℕ) :
    SameCore (w.buffers u) (w'.buffers u) := by
  obtain ⟨st, hst, rfl⟩ := h.opened
  show SameCore _ (Function.update w.buffers slot { w.buffers slot with stats := st } u)
  by_cases hu : u = slot
  · subst hu
    rw [Function.update_self]
    exact ⟨rfl, rfl, rfl, rfl, rfl, rfl, rfl, rfl, rfl, hst, fun hn => absurd h.resident hn⟩
  · rw [Function.update_of_ne hu]
    exact SameCore.refl _

theorem Screened.rest (h : Screened w w' output data slot image) :
    w'.memory = w.memory ∧ w'.peer = w.peer ∧ w'.channelBroken = w.channelBroken := by
  obtain ⟨st, -, rfl⟩ := h.opened
  exact ⟨rfl, rfl, rfl⟩

theorem Screened.restat (h : Screened w w' output data slot image) {st : Stats}
    (hst : st.length = (w'.buffers slot).stats.length) :
    Screened w (w'.setBuffer slot { w'.buffers slot with stats := st }) output data slot image := by
  obtain ⟨st0, hst0, rfl⟩ := h.opened
  have hself : (w.setBuffer slot { w.buffers slot with stats := st0 }).buffers slot =
      { w.buffers slot with stats := st0 } := Function.update_self _ _ _
  refine ⟨h.found, h.image_eq, h.resident, h.size, h.matching, st, ?_, ?_⟩
  · rw [hst, hself]
    exact hst0
  · rw [hself]
    unfold World.setBuffer
    simp only [Function.update_idem]

end Screened

/-- **`submit`.** -/
theorem submit_moves {c : Caller} {e : SubmitEnv} {w : World} {output : ℕ}
    {data : Option (List UInt8)} {captureNs : ℕ} {region : Bool} (hI : Inv w) :
    Moves w (submit c e w output data captureNs region).1 := by
  unfold submit
  rcases hs : screen c w output data captureNs region with m | ⟨w', slot, image⟩
  · exact Moves.fail w m
  · obtain ⟨hmv, hl, hres, hm⟩ := (screen_ok hs).moves hI
    exact hmv.trans (exchange_moves hl hres hm)

/-! ### Steps -/

/-- A step that changes no byte of a plain memory. -/
def Quiet : Op → Ret → Prop
  | .write _ _ _ _, _ => False
  | _, .pointer p => p = 0
  | _, _ => True

/-- The call that loses a recipe the buffer still has: `af_free` of a buffer with `recipe_live`
whose `DROP` is answered and whose `munmap` then fails. -/
def Forsakes (w : World) : Op → Prop
  | .free c e output => usable c = none ∧ w.channelBroken = false ∧ e.drop = ⟨true, true⟩ ∧
      e.unmapped = false ∧ ∃ s, w.find output = some s ∧ (w.buffers s).recipeLive = true
  | _ => False

/-- **What a step can do.** Beside `Moves`: a byte is stored where the protection permits it, a
mapping is placed, a buffer is released, or its unmapping fails when the worker has dropped its
recipe already. -/
inductive Effect : World → Op → Ret → World → Prop
  | moves {w w' : World} {op : Op} {r : Ret} : Moves w w' → Quiet op r → Effect w op r w'
  | stored {w w1 : World} {c : Caller} {e : MaterializeEnv} {a : ℕ} {v : UInt8} : Moves w w1 →
      w1.memory.permits a true = true →
      Effect w (.write c e a v) .stored { w1 with memory := w1.memory.store a v }
  | placed {w w1 : World} {c : Caller} {e : AllocEnv} {size slot p : ℕ} : Moves w w1 →
      slot < MAX_SLOTS → (w1.buffers slot).data = 0 → 0 < size → size ≤ MAX_BUFFER →
      placeable w1 p (rounded size) = true →
      Effect w (.alloc c e size) (.pointer p) (place w1 slot p size)
  | released {w w1 : World} {c : Caller} {e : FreeEnv} {s : ℕ} {l : List ℕ} {p : Peer} :
      Moves w w1 → w1.Live s →
      w1.indexRemove (w1.buffers s).data = some { w1 with allocationIndex := l } →
      p = w1.peer ∨ p = w1.peer.drop (w1.buffers s).id →
      Effect w (.free c e (w1.buffers s).data) (.code 0) (applyRelease w1 s l p)
  | forsaken {w w' : World} {c : Caller} {e : FreeEnv} {output s : ℕ} :
      Forsakes w (.free c e output) → w.find output = some s →
      Moves { w with peer := w.peer.drop (w.buffers s).id } w' →
      Effect w (.free c e output) (.code (-1)) w'

theorem indexRemove_peer (w : World) (q : Peer) (m : Memory) (n pointer : ℕ) :
    World.indexRemove { w with peer := q, memory := m, residentManaged := n } pointer =
      (w.indexRemove pointer).map fun w' =>
        { w' with peer := q, memory := m, residentManaged := n } := by
  unfold World.indexRemove
  simp only
  rw [apply_ite (Option.map _)]
  rfl

/-- **`af_free`.** -/
theorem free_effect {c : Caller} {e : FreeEnv} {w w' : World} {output : ℕ} {r : Int} (hI : Inv w)
    (h : free c e w output = .ok (w', r)) : Effect w (.free c e output) (.code r) w' := by
  unfold free at h
  rcases husable : usable c with _ | m
  swap
  · rw [husable] at h
    cases h
    exact .moves (Moves.fail w _) trivial
  rw [husable] at h
  rcases hs : w.find output with _ | s
  · rw [hs] at h
    cases h
    exact .moves (Moves.fail w _) trivial
  rw [hs] at h
  obtain ⟨hl, hdata⟩ := (hI.indexed.find_iff output s).mp hs
  simp only at h
  -- the world after the request: as before, without a channel, or without the recipe
  have hreq : ∃ w0 p, Moves w w0 ∧ w0.buffers = w.buffers ∧
      (if (w.buffers s).recipeLive = true then (request e.drop w (handleDrop (w.buffers s).id)).1
        else w) = { w0 with peer := p } ∧
      (p = w0.peer ∨ (w0 = w ∧ w.channelBroken = false ∧ e.drop = ⟨true, true⟩ ∧
        (w.buffers s).recipeLive = true ∧ p = w.peer.drop (w.buffers s).id)) := by
    by_cases hk : (w.buffers s).recipeLive = true
    · rw [if_pos hk]
      rcases request_cases e.drop w (handleDrop (w.buffers s).id) with ⟨hq, -⟩ | ⟨q, hq⟩ | ⟨hq, -⟩
      · rw [hq]
        exact ⟨w, w.peer, Moves.refl w, rfl, rfl, Or.inl rfl⟩
      · rw [hq]
        exact ⟨_, q, Moves.lose w q, rfl, rfl, Or.inl rfl⟩
      · obtain ⟨hu, hd⟩ := @request_answered _ e.drop w (handleDrop (w.buffers s).id) _ (by rw [hq])
        rw [hq]
        exact ⟨w, _, Moves.refl w, rfl, rfl, Or.inr ⟨rfl, hu, hd, hk, rfl⟩⟩
    · rw [if_neg hk]
      exact ⟨w, w.peer, Moves.refl w, rfl, rfl, Or.inl rfl⟩
  obtain ⟨w0, p, hm, hb, hw0, hp⟩ := hreq
  rw [hw0] at h
  by_cases hun : (!e.unmapped) = true
  · rw [if_pos hun] at h
    cases h
    rcases hp with rfl | ⟨rfl, hu, hd, hk, rfl⟩
    · exact .moves (hm.trans (Moves.fail w0 _)) trivial
    · exact .forsaken ⟨husable, hu, hd, by simpa using hun, s, hs, hk⟩ hs (Moves.fail _ _)
  · rw [if_neg hun] at h
    have hI0 := hm.steps.inv hI
    have hl0 : w0.Live s := (hm.live s).mpr hl
    obtain ⟨w1, hw1, ⟨l, rfl⟩, -⟩ := hI0.indexed.remove hl0
    have hd0 : (w0.buffers s).data = output := by rw [hb, hdata]
    have hrem := indexRemove_peer w0 p (w0.memory.mprotect output (w.buffers s).mapped .none)
      (w0.residentManaged - (w.buffers s).residentPages * PAGE) output
    rw [hd0] at hw1
    rw [hw1] at hrem
    simp only [hrem, Option.map_some] at h
    cases h
    have heff : Effect w (.free c e (w0.buffers s).data) (.code 0) (applyRelease w0 s l p) := by
      refine .released hm hl0 (by rw [hd0]; exact hw1) ?_
      rcases hp with rfl | ⟨rfl, -, -, -, rfl⟩
      · exact Or.inl rfl
      · exact Or.inr rfl
    rw [hd0] at heff
    unfold applyRelease at heff
    rw [hd0, hb] at heff
    rw [hb]
    exact heff

/-- **`af_alloc`.** -/
theorem alloc_effect {c : Caller} {e : AllocEnv} {w w' : World} {size r : ℕ} (hI : Inv w)
    (h : alloc c e w size = .ok (w', r)) : Effect w (.alloc c e size) (.pointer r) w' := by
  unfold alloc at h
  split at h
  · cases h
    exact .moves (Moves.fail w _) rfl
  by_cases hsize : size = 0 ∨ MAX_BUFFER < size
  · rw [if_pos hsize] at h
    cases h
    exact .moves (Moves.fail w _) rfl
  rw [if_neg hsize] at h
  rw [not_or, Nat.not_lt] at hsize
  split at h
  · cases h
    exact .moves (Moves.fail w _) rfl
  next slot hslot =>
  have hfree := List.find?_some hslot
  have hlt := List.mem_range.mp (List.mem_of_find?_eq_some hslot)
  rcases hc : collect c e.evict w (rounded size) 0 with stop | ⟨w1, r1⟩
  · rw [hc] at h
    cases h
  rw [hc] at h
  simp only at h
  have hm := collect_moves hI hc
  have hfree1 : (w1.buffers slot).data = 0 := by
    rw [(hm.mapping slot).data]
    simpa using hfree
  by_cases hr1 : r1 ≠ 0
  · rw [if_pos hr1] at h
    cases h
    exact .moves hm rfl
  rw [if_neg hr1] at h
  split at h
  · cases h
    exact .moves (hm.trans (Moves.fail w1 _)) rfl
  next p hp =>
  by_cases hplace : (!placeable w1 p (rounded size)) = true
  · rw [if_pos hplace] at h
    cases h
    exact .moves (hm.trans (Moves.fail w1 _)) rfl
  rw [if_neg hplace] at h
  by_cases hmeta : (!e.metadata) = true
  · rw [if_pos hmeta] at h
    cases h
    -- clearing a free slot changes nothing the invariant speaks of
    have hcore := ((hm.steps.inv hI).vacant slot hfree1).symm
    exact .moves ((hm.trans (Moves.slot hcore)).trans (Moves.fail _ _)) rfl
  rw [if_neg hmeta] at h
  cases h
  exact .placed hm hlt hfree1 (by omega) hsize.2 (by simpa using hplace)

/-- **Every step has one of the effects.** -/
theorem step_effect {w w' : World} {op : Op} {r : Ret} (hI : Inv w)
    (h : step w op = .ok (w', r)) : Effect w op r w' := by
  have hmap : ∀ {α : Type} {x : Except Stop α} {f : α → World × Ret}, x.map f = .ok (w', r) →
      ∃ y, x = .ok y ∧ f y = (w', r) := by
    intro α x f hx
    cases x with
    | error s => cases hx
    | ok y => exact ⟨y, rfl, Except.ok.inj hx⟩
  cases op with
  | alloc c e size =>
    obtain ⟨⟨w1, p⟩, h1, h2⟩ := hmap h
    cases h2
    exact alloc_effect hI h1
  | read c e a =>
    obtain ⟨⟨w1, v⟩, h1, h2⟩ := hmap h
    cases h2
    unfold readByte at h1
    split at h1
    · cases h1
    · next w1 ha =>
      cases h1
      exact .moves (access_moves hI ha).1 trivial
  | write c e a v =>
    obtain ⟨w1, h1, h2⟩ := hmap h
    cases h2
    unfold writeByte at h1
    split at h1
    · cases h1
    · next w1 ha =>
      cases h1
      exact .stored (access_moves hI ha).1 (access_moves hI ha).2
  | prepareRead c e a n =>
    obtain ⟨⟨w1, v⟩, h1, h2⟩ := hmap h
    cases h2
    exact .moves (prepare_moves hI h1) trivial
  | prepareWrite c e a n =>
    obtain ⟨⟨w1, v⟩, h1, h2⟩ := hmap h
    cases h2
    exact .moves (prepare_moves hI h1) trivial
  | submit c e p d t =>
    cases h
    exact .moves (submit_moves hI) trivial
  | submitRegion c e p d t =>
    cases h
    exact .moves (submit_moves hI) trivial
  | evict c e p =>
    obtain ⟨⟨w1, v⟩, h1, h2⟩ := hmap h
    cases h2
    exact .moves (evict_moves hI h1) trivial
  | manage c e p =>
    obtain ⟨⟨w1, v⟩, h1, h2⟩ := hmap h
    cases h2
    exact .moves (manage_moves hI h1) trivial
  | setResidentTarget c n =>
    cases h
    exact .moves (setResidentTarget_moves c w n) trivial
  | materialize c e p =>
    obtain ⟨⟨w1, v⟩, h1, h2⟩ := hmap h
    cases h2
    exact .moves (materializeAll_moves hI h1) trivial
  | free c e p =>
    obtain ⟨⟨w1, v⟩, h1, h2⟩ := hmap h
    cases h2
    exact free_effect hI h1

end Afterfree.Runtime.Operations
