import Afterfree.Runtime.Invariants

/-!
# A cold page has a recipe

The worker's store holds a recipe for every buffer with `recipe_live`, and a cold page belongs to
such a buffer. One call breaks this: `af_free` sends its `DROP` before `munmap`, so a buffer whose
unmapping fails stays live, with its cold pages, after its recipe is gone. Every run without such a
call keeps the recipes (`cold_page_stocked`); `free_forsakes_recipe` has a run with one.
-/

namespace Afterfree.Runtime.Recipes

open Afterfree.Common Afterfree.Lib Afterfree.Runtime.State Afterfree.Runtime.Pager
open Afterfree.Runtime.Submit Afterfree.Runtime.Api Afterfree.Runtime.Lookup
open Afterfree.Runtime.Representation Afterfree.Runtime.Changes Afterfree.Runtime.Decompose
open Afterfree.Runtime.Operations Afterfree.Runtime.Invariants

/-- **The worker has what the application counts on.** A resident buffer counts on nothing. -/
structure Stocked (w : World) : Prop where
  kept : w.channelBroken = false → ∀ s, w.Live s → (w.buffers s).recipeLive = true →
    w.peer.store (w.buffers s).id ≠ none
  resident : ∀ s, w.Live s → (w.buffers s).state = .resident → (w.buffers s).recipeLive = false

/-! ### Changes -/

theorem Stocked.touch {w w' : World} {s : ℕ} {b : Buffer} (h : Stocked w)
    (hb : w'.buffers = Function.update w.buffers s b)
    (hu : w'.channelBroken = false → w.channelBroken = false)
    (hother : ∀ u, u ≠ s → w.Live u → w.peer.store (w.buffers u).id ≠ none →
      w'.peer.store (w.buffers u).id ≠ none)
    (hkept : w'.channelBroken = false → w'.Live s → b.recipeLive = true →
      w'.peer.store b.id ≠ none)
    (hres : w'.Live s → b.state = .resident → b.recipeLive = false) : Stocked w' := by
  have hself : w'.buffers s = b := by rw [hb, Function.update_self]
  have hne : ∀ u, u ≠ s → w'.buffers u = w.buffers u := fun u hus => by
    rw [hb, Function.update_of_ne hus]
  have hlive : ∀ u, u ≠ s → w'.Live u → w.Live u := fun u hus hl => by
    unfold World.Live at *
    rw [← hne u hus]
    exact hl
  refine ⟨fun hun u hl hk => ?_, fun u hl hs => ?_⟩
  · by_cases hus : u = s
    · subst hus
      rw [hself] at hk ⊢
      exact hkept hun hl hk
    · rw [hne u hus] at hk ⊢
      exact hother u hus (hlive u hus hl) (h.kept (hu hun) u (hlive u hus hl) hk)
  · by_cases hus : u = s
    · subst hus
      rw [hself] at hs ⊢
      exact hres hl hs
    · rw [hne u hus] at hs ⊢
      exact h.resident u (hlive u hus hl) hs

theorem drop_store (p : Peer) {id i : ℕ} (h : i ≠ id) : (p.drop id).store i = p.store i := if_neg h

theorem commit_store (p : Peer) (id : ℕ) (o : Output) (i : ℕ) :
    (p.commit id o).store i = if i = id then some o else p.store i := rfl

theorem drop_keeps {w : World} (hI : Inv w) {s u : ℕ} (hl : w.Live s) (hlu : w.Live u)
    (hus : u ≠ s) :
    (w.peer.drop (w.buffers s).id).store (w.buffers u).id = w.peer.store (w.buffers u).id :=
  drop_store _ fun he => hus (hI.ids u s hlu hl he)

/-- **Every change keeps the stock.** -/
theorem Change.stocked {w w' : World} (c : Change w w') (hI : Inv w) (h : Stocked w) :
    Stocked w' := by
  cases c with
  | note hb hm hi hn hr hc hp =>
    have hlive : ∀ s, w'.Live s → w.Live s := fun s hs => by
      unfold World.Live at *
      rw [← (hb s).data]
      exact hs
    refine ⟨fun hu s hl hk => ?_, fun s hl hs => ?_⟩
    · rw [(hb s).id, hp]
      exact h.kept (hc ▸ hu) s (hlive s hl) ((hb s).recipeLive ▸ hk)
    · rw [(hb s).recipeLive]
      exact h.resident s (hlive s hl) ((hb s).state ▸ hs)
  | lose p => exact ⟨fun hu => Bool.noConfusion hu, h.resident⟩
  | restore s x o t hl hx hu ho =>
    refine h.touch rfl id (fun _ _ _ hk => hk) (fun _ _ hk => ?_) fun _ hs => ?_
    · exact h.kept hu s hl hk
    · refine h.resident s hl ?_
      change (if _ then BufferState.sealed else (w.buffers s).state) = .resident at hs
      split_ifs at hs
      exact hs
  | unlock s first last hl _ _ _ =>
    refine h.touch rfl id (fun _ _ _ hk => hk) (fun hu _ hk => h.kept hu s hl hk) fun _ hs => ?_
    refine h.resident s hl ?_
    change (if _ then BufferState.pinned else (w.buffers s).state) = .resident at hs
    split_ifs at hs
    exact hs
  | retire s n hl _ _ =>
    refine h.touch rfl id (fun u hus hlu hk => ?_) (fun _ _ hk => ?_) fun _ _ => rfl
    · show (w.peer.drop (w.buffers s).id).store _ ≠ none
      rw [drop_keeps hI hl hlu hus]
      exact hk
    · cases hk
  | withdraw s hl hs =>
    refine h.touch (s := s) (b := w.buffers s) (Function.update_eq_self _ _).symm id
      (fun u hus hlu hk => ?_) (fun _ _ hk => ?_) fun _ _ => h.resident s hl hs
    · show (w.peer.drop (w.buffers s).id).store _ ≠ none
      rw [drop_keeps hI hl hlu hus]
      exact hk
    · rw [h.resident s hl hs] at hk
      cases hk
  | enroll s hd g t o hl _ _ _ _ =>
    refine h.touch rfl id (fun u _ _ hk => ?_) (fun _ _ _ => ?_) fun _ hs => ?_
    · show (w.peer.commit (w.buffers s).id o).store _ ≠ none
      rw [commit_store]
      split_ifs
      · simp
      · exact hk
    · show (w.peer.commit (w.buffers s).id o).store (w.buffers s).id ≠ none
      rw [commit_store, if_pos rfl]
      simp
    · cases hs
  | discard s hl hs =>
    exact h.touch rfl id (fun _ _ _ hk => hk) (fun hu _ hk => h.kept hu s hl hk)
      fun _ hst => by cases hst
  | release s l p hl hr hp =>
    refine h.touch rfl id (fun u hus hlu hk => ?_) (fun _ _ hk => ?_) fun _ _ => rfl
    · rcases hp with rfl | rfl
      · exact hk
      · show (w.peer.drop (w.buffers s).id).store _ ≠ none
        rw [drop_keeps hI hl hlu hus]
        exact hk
    · cases hk

theorem Steps.stocked {w w' : World} (c : Steps w w') (hI : Inv w) (h : Stocked w) :
    Stocked w' := by
  induction c with
  | refl => exact h
  | tail hs hc ih => exact Change.stocked hc (Steps.inv hs hI) ih

/-! ### Resident buffers have none -/

/-- **The worker has nothing for a resident buffer**, nor for an id that was not given out yet. -/
structure Unclaimed (w : World) : Prop where
  resident : w.channelBroken = false → ∀ s, w.Live s → (w.buffers s).state = .resident →
    w.peer.store (w.buffers s).id = none
  future : w.channelBroken = false → ∀ id, w.nextid ≤ id → w.peer.store id = none

theorem Unclaimed.touch {w w' : World} {s : ℕ} {b : Buffer} (h : Unclaimed w)
    (hb : w'.buffers = Function.update w.buffers s b)
    (hu : w'.channelBroken = false → w.channelBroken = false)
    (hn : w'.nextid = w.nextid)
    (hother : ∀ u, u ≠ s → w.Live u → w.peer.store (w.buffers u).id = none →
      w'.peer.store (w.buffers u).id = none)
    (hfuture : ∀ id, w.nextid ≤ id → w.peer.store id = none → w'.peer.store id = none)
    (hself : w'.channelBroken = false → w'.Live s → b.state = .resident →
      w'.peer.store b.id = none) : Unclaimed w' := by
  refine ⟨fun hun u hl hs => ?_, fun hun id hid => ?_⟩
  · by_cases hus : u = s
    · subst hus
      rw [hb, Function.update_self] at hs ⊢
      exact hself hun hl hs
    · have hbu : w'.buffers u = w.buffers u := by rw [hb, Function.update_of_ne hus]
      have hlu : w.Live u := by
        unfold World.Live at *
        rw [← hbu]
        exact hl
      rw [hbu] at hs ⊢
      exact hother u hus hlu (h.resident (hu hun) u hlu hs)
  · rw [hn] at hid
    exact hfuture id hid (h.future (hu hun) id hid)

theorem drop_none {p : Peer} {id i : ℕ} (h : p.store i = none) : (p.drop id).store i = none := by
  unfold Peer.drop
  simp only
  split_ifs
  · rfl
  · exact h

theorem drop_self (p : Peer) (id : ℕ) : (p.drop id).store id = none := if_pos rfl

/-- **Every change keeps resident buffers unclaimed.** -/
theorem Change.unclaimed {w w' : World} (c : Change w w') (hI : Inv w) (h : Unclaimed w) :
    Unclaimed w' := by
  cases c with
  | note hb hm hi hn hr hc hp =>
    refine ⟨fun hu s hl hs => ?_, fun hu id hid => ?_⟩
    · have hlive : w.Live s := by
        unfold World.Live at *
        rw [← (hb s).data]
        exact hl
      rw [(hb s).id, hp]
      exact h.resident (hc ▸ hu) s hlive ((hb s).state ▸ hs)
    · rw [hp]
      exact h.future (hc ▸ hu) id (hn ▸ hid)
  | lose p => exact ⟨fun hu => Bool.noConfusion hu, fun hu => Bool.noConfusion hu⟩
  | restore s x o t hl hx hu ho =>
    refine h.touch rfl id rfl (fun _ _ _ hk => hk) (fun _ _ hk => hk) fun hun _ hs => ?_
    refine h.resident hun s hl ?_
    change (if _ then BufferState.sealed else (w.buffers s).state) = .resident at hs
    split_ifs at hs
    exact hs
  | unlock s first last hl _ _ _ =>
    refine h.touch rfl id rfl (fun _ _ _ hk => hk) (fun _ _ hk => hk) fun hun _ hs => ?_
    refine h.resident hun s hl ?_
    change (if _ then BufferState.pinned else (w.buffers s).state) = .resident at hs
    split_ifs at hs
    exact hs
  | retire s n hl _ _ =>
    exact h.touch rfl id rfl (fun _ _ _ hk => drop_none hk) (fun _ _ hk => drop_none hk)
      fun _ _ _ => drop_self _ _
  | withdraw s hl hs =>
    exact h.touch (s := s) (b := w.buffers s) (Function.update_eq_self _ _).symm id rfl
      (fun _ _ _ hk => drop_none hk) (fun _ _ hk => drop_none hk) fun _ _ _ => drop_self _ _
  | enroll s hd g t o hl _ _ _ _ =>
    refine h.touch rfl id rfl (fun u hus hlu hk => ?_) (fun i hi hk => ?_) fun _ _ hs => ?_
    · show (w.peer.commit (w.buffers s).id o).store _ = none
      rw [commit_store, if_neg fun he => hus (hI.ids u s hlu hl he)]
      exact hk
    · have hlt := hI.ids_lt s hl
      show (w.peer.commit (w.buffers s).id o).store i = none
      rw [commit_store, if_neg (by omega)]
      exact hk
    · cases hs
  | discard s hl hs =>
    refine h.touch rfl id rfl (fun _ _ _ hk => hk) (fun _ _ hk => hk) fun _ _ hst => ?_
    cases hst
  | release s l p hl hr hp =>
    refine h.touch rfl id rfl (fun u _ _ hk => ?_) (fun i _ hk => ?_)
      fun _ hd => absurd rfl (applyRelease_live hd).1
    · rcases hp with rfl | rfl
      · exact hk
      · exact drop_none hk
    · rcases hp with rfl | rfl
      · exact hk
      · exact drop_none hk

theorem Steps.unclaimed {w w' : World} (c : Steps w w') (hI : Inv w) (h : Unclaimed w) :
    Unclaimed w' := by
  induction c with
  | refl => exact h
  | tail hs hc ih => exact Change.unclaimed hc (Steps.inv hs hI) ih

/-- **Every step keeps resident buffers unclaimed.** -/
theorem Effect.unclaimed {w w' : World} {op : Op} {r : Ret} (e : Effect w op r w') (hI : Inv w)
    (h : Unclaimed w) : Unclaimed w' := by
  cases e with
  | moves hm _ => exact Steps.unclaimed hm.steps hI h
  | stored hm _ =>
    have h1 := Steps.unclaimed hm.steps hI h
    exact ⟨h1.resident, h1.future⟩
  | @placed w1 c e size slot p hm h1 h2 h3 h4 h5 =>
    have hun := Steps.unclaimed hm.steps hI h
    refine ⟨fun hu s hl hs => ?_, fun hu id hid => ?_⟩
    · rcases place_live hl with rfl | hl'
      · rw [place_self]
        exact hun.future hu _ le_rfl
      · rw [place_other (ne_of_free hl' h2)] at hs ⊢
        exact hun.resident hu s hl' hs
    · exact hun.future hu id (Nat.le_of_succ_le hid)
  | released hm hl hr hp =>
    exact Change.unclaimed (.release _ _ _ hl hr hp) (hm.steps.inv hI)
      (Steps.unclaimed hm.steps hI h)
  | forsaken _ _ hm =>
    refine Steps.unclaimed hm.steps (hI.peer _ _) ⟨fun hu s hl hs => ?_, fun hu id hid => ?_⟩
    · exact drop_none (h.resident hu s hl hs)
    · exact drop_none (h.future hu id hid)

/-! ### Steps and runs -/

/-- Every step of the run meets the condition `P` in the state it is taken from. -/
def Along (P : World → Op → Prop) : World → List Event → Prop
  | _, [] => True
  | w, (op, r) :: events =>
    P w op ∧ ∀ w', step w op = .ok (w', r) → Along P w' events

/-- **A step that forsakes no recipe keeps the stock.** -/
theorem Effect.stocked {w w' : World} {op : Op} {r : Ret} (e : Effect w op r w') (hI : Inv w)
    (hf : ¬ Forsakes w op) (h : Stocked w) : Stocked w' := by
  cases e with
  | moves hm _ => exact Steps.stocked hm.steps hI h
  | stored hm _ =>
    have h1 := Steps.stocked hm.steps hI h
    exact ⟨h1.kept, h1.resident⟩
  | @placed w1 c e size slot p hm h1 h2 h3 h4 h5 =>
    refine @Stocked.touch _ (place w1 slot p size) _ _ (Steps.stocked hm.steps hI h) rfl id
      (fun _ _ _ hk => hk) (fun _ _ hk => ?_) fun _ _ => rfl
    cases hk
  | released hm hl hr hp =>
    exact Change.stocked (.release _ _ _ hl hr hp) (hm.steps.inv hI)
      (Steps.stocked hm.steps hI h)
  | forsaken hbad _ _ => exact absurd hbad hf

theorem Runs.stocked {w w' : World} {events : List Event} (h : Runs w events w') (hI : Inv w)
    (hok : Along (fun w op => ¬ Forsakes w op) w events) (hst : Stocked w) : Stocked w' := by
  induction h with
  | nil => exact hst
  | cons hs _ ih =>
    have he := step_effect hI hs
    exact ih (Effect.inv he hI) (hok.2 _ hs) (Effect.stocked he hI hok.1 hst)

/-- **A cold page has a recipe.** In every state reached by a run without a call that forsakes a
recipe, on an unbroken channel, a cold page lies in the recipe region of its buffer, the buffer has
`recipe_live`, and the worker has a recipe for its id. -/
theorem cold_page_stocked (arena : Option Arena) (memory : Memory) (events : List Event) (w : World)
    (h : Runs (World.initial arena memory) events w)
    (hok : Along (fun w op => ¬ Forsakes w op) (World.initial arena memory) events)
    (hu : w.channelBroken = false) (s : ℕ) (hl : w.Live s) (i : ℕ)
    (hi : i < (w.buffers s).mapped / PAGE) (hc : (w.buffers s).pages i = .cold) :
    (w.buffers s).recipeOffset / PAGE ≤ i ∧
      i < ((w.buffers s).recipeOffset + rounded (w.buffers s).recipeLength) / PAGE ∧
      (w.buffers s).recipeLive = true ∧ w.peer.store (w.buffers s).id ≠ none := by
  have hI0 := initial_inv arena memory
  have hI := Runs.inv h hI0
  have hst : Stocked w := Runs.stocked h hI0 hok
    ⟨fun _ s hs => absurd rfl hs.2, fun s hs => absurd rfl hs.2⟩
  obtain ⟨h1, h2⟩ := (hI.buffer s hl).cold_inRegion hi hc
  have hk := hI.backed s hl (Or.inr ⟨i, hi, hc⟩)
  exact ⟨h1, h2, hk, hst.kept hu s hl hk⟩

theorem Along.of_forall {P : World → Op → Prop} : ∀ {events : List Event} (w : World),
    (∀ op ∈ events.map Prod.fst, ∀ w, P w op) → Along P w events
  | [], _, _ => trivial
  | (op, _) :: events, w, h =>
    ⟨h op (by simp) w, fun w' _ => Along.of_forall w' fun op hop =>
      h op (by rw [List.map_cons]; exact List.mem_cons_of_mem _ hop)⟩

/-- The evicted page of the sample run has its recipe. -/
theorem cold_page_stocked_sample : ∃ events w,
    Runs (World.initial none sampleMemory) events w ∧ w.Live 0 ∧ (w.buffers 0).pages 0 = .cold ∧
      (w.buffers 0).recipeLive = true ∧ w.peer.store (w.buffers 0).id ≠ none := by
  obtain ⟨x, hr, hops, hl, hc, hi, hu⟩ := (@play_any (World.initial none sampleMemory) sampleOps
      (fun x => x.1.Live 0 ∧ (x.1.buffers 0).pages 0 = .cold ∧
      0 < (x.1.buffers 0).mapped / PAGE ∧ x.1.channelBroken = false)) (by decide +kernel)
  have hok : Along (fun w op => ¬ Forsakes w op) (World.initial none sampleMemory) x.2 := by
    refine Along.of_forall _ fun op hop w => ?_
    rw [hops] at hop
    unfold sampleOps at hop
    simp only [List.mem_cons, List.not_mem_nil, or_false] at hop
    rcases hop with rfl | rfl | rfl | rfl <;> exact id
  have := cold_page_stocked none sampleMemory x.2 x.1 hr hok hu 0 hl 0 hi hc
  exact ⟨x.2, x.1, hr, hl, hc, this.2.2⟩

/-- **A failed `munmap` leaves a cold page without its recipe.** The sample run, followed by an
`af_free` whose `DROP` is answered and whose `munmap` fails. -/
theorem free_forsakes_recipe :
    ¬ ∀ (arena : Option Arena) (memory : Memory) (events : List Event) (w : World),
      Runs (World.initial arena memory) events w → w.channelBroken = false →
      ∀ s, w.Live s → ∀ i < (w.buffers s).mapped / PAGE, (w.buffers s).pages i = .cold →
        (w.buffers s).recipeOffset / PAGE ≤ i ∧
          i < ((w.buffers s).recipeOffset + rounded (w.buffers s).recipeLength) / PAGE ∧
          (w.buffers s).recipeLive = true ∧ w.peer.store (w.buffers s).id ≠ none := by
  intro h
  obtain ⟨x, hr, -, hl, hc, hi, hu, hn⟩ := (@play_any (World.initial none sampleMemory)
      (sampleOps ++ [.free Caller.owner ⟨⟨true, true⟩, false⟩ 0x100000]) (fun x => x.1.Live 0 ∧
        (x.1.buffers 0).pages 0 = .cold ∧
      0 < (x.1.buffers 0).mapped / PAGE ∧ x.1.channelBroken = false ∧
      (x.1.peer.store (x.1.buffers 0).id).isNone = true)) (by decide +kernel)
  exact (h none sampleMemory x.2 x.1 hr hu 0 hl 0 hi hc).2.2.2 (Option.isNone_iff_eq_none.mp hn)

end Afterfree.Runtime.Recipes
