import Afterfree.Runtime.Operations

/-!
# Invariants over runs

The invariant of the world holds in every state a run reaches, and with it the representation
invariant of every buffer (`represented`). `AllRetired` and the pinned states are carried along.
-/

namespace Afterfree.Runtime.Invariants

open Afterfree.Common Afterfree.Lib Afterfree.Runtime.State Afterfree.Runtime.Pager
open Afterfree.Runtime.Api Afterfree.Runtime.Lookup Afterfree.Runtime.Representation
open Afterfree.Runtime.Changes Afterfree.Runtime.Decompose Afterfree.Runtime.Operations

/-! ### The remaining effects keep the invariant -/

theorem Inv.store {w : World} (h : Inv w) (a : ℕ) (v : UInt8) :
    Inv { w with memory := w.memory.store a v } :=
  ⟨h.indexed.congr rfl fun _ => ⟨rfl, rfl⟩, h.buffer, h.guarded, h.ids, h.ids_lt, h.managed,
    h.backed, h.vacant⟩

section Place

variable {w : World} {slot p size : ℕ}

theorem place_self : (place w slot p size).buffers slot = fresh p size w.nextid :=
  Function.update_self _ _ _

theorem place_other {u : ℕ} (hu : u ≠ slot) : (place w slot p size).buffers u = w.buffers u :=
  Function.update_of_ne hu _ _

theorem placeable_apart (h : Inv w) (hp : placeable w p (rounded size) = true) {s : ℕ}
    (hs : w.Live s) : (w.buffers s).data + (w.buffers s).mapped ≤ p ∨
      p + rounded size ≤ (w.buffers s).data := by
  unfold placeable at hp
  rw [Bool.and_eq_true, List.all_eq_true] at hp
  exact of_decide_eq_true (hp.2 s ((h.indexed.mem_iff s).mpr hs))

theorem placeable_address (hp : placeable w p (rounded size) = true) : p ≠ 0 ∧ p % PAGE = 0 := by
  unfold placeable at hp
  rw [Bool.and_eq_true, decide_eq_true_eq] at hp
  exact ⟨hp.1.1, hp.1.2.1⟩

theorem ne_of_free {w : World} {s slot : ℕ}
    (hl : w.Live s) (hfree : (w.buffers slot).data = 0) : s ≠ slot := by
  rintro rfl
  exact hl.2 hfree

theorem place_live {u : ℕ} (hu : (place w slot p size).Live u) : u = slot ∨ w.Live u := by
  by_cases hus : u = slot
  · exact Or.inl hus
  · refine Or.inr ⟨hu.1, ?_⟩
    have := hu.2
    rwa [place_other hus] at this

/-- **A placed buffer keeps the invariant.** -/
theorem Inv.place (h : Inv w) (hfree : (w.buffers slot).data = 0) (hslot : slot < MAX_SLOTS)
    (h1 : 0 < size) (h2 : size ≤ MAX_BUFFER) (hp : placeable w p (rounded size) = true) :
    Inv (place w slot p size) := by
  obtain ⟨hp0, hpa⟩ := placeable_address hp
  have hfresh := (@fresh_inv p size w.nextid) hpa h1 h2
  have hidx := @Indexed.insert _ h.indexed slot (fresh p size w.nextid) hslot hfree hp0
    (rounded_pos h1) fun s hs => placeable_apart h hp hs
  have hother : ∀ u, w.Live u → u ≠ slot := fun u hu => ne_of_free hu hfree
  have hprot : ∀ j, (Api.place w slot p size).memory.prot j =
      if p / PAGE ≤ j ∧ j < p / PAGE + rounded size / PAGE then .readWrite
      else w.memory.prot j := by
    intro j
    have := mprotect_page (w.memory.dontneed p (rounded size)) p 0 (rounded size / PAGE)
      .readWrite j
    rw [Nat.zero_mul, Nat.add_zero, Nat.add_zero, show rounded size / PAGE * PAGE = rounded size
      from hfresh.toShaped.pageCount_mul] at this
    exact this
  refine ⟨hidx.congr rfl fun u => ⟨rfl, rfl⟩, fun u hu => ?_, fun u hu => ?_,
    fun u v hu hv he => ?_, fun u hu => ?_, ?_, fun u hu => ?_, fun u hu => ?_⟩
  · rcases place_live hu with rfl | hl
    · rw [place_self]
      exact hfresh
    · rw [place_other (hother u hl)]
      exact h.buffer u hl
  · rcases place_live hu with rfl | hl
    · rw [place_self]
      intro i hi
      rw [hprot, if_pos ⟨Nat.le_add_right _ _, Nat.add_lt_add_left hi _⟩]
      rfl
    · rw [place_other (hother u hl)]
      intro i hi
      have hap := pages_apart hfresh.toShaped (h.buffer u hl).toShaped
        (placeable_apart h hp hl).symm hi
      change _ < p / PAGE ∨ p / PAGE + rounded size / PAGE ≤ _ at hap
      rw [hprot, if_neg (by omega)]
      exact h.guarded u hl i hi
  · rcases place_live hu with rfl | hlu <;> rcases place_live hv with rfl | hlv
    · rfl
    · rw [place_self, place_other (hother v hlv)] at he
      have := h.ids_lt v hlv
      exact absurd he (Nat.ne_of_gt this)
    · rw [place_self, place_other (hother u hlu)] at he
      have := h.ids_lt u hlu
      exact absurd he (Nat.ne_of_lt this)
    · rw [place_other (hother u hlu), place_other (hother v hlv)] at he
      exact h.ids u v hlu hlv he
  · show _ < w.nextid + 1
    rcases place_live hu with rfl | hl
    · rw [place_self]
      exact Nat.lt_succ_self _
    · rw [place_other (hother u hl)]
      have := h.ids_lt u hl
      omega
  · have ht := total_update w.buffers hslot (fresh p size w.nextid)
    have hw0 : weight (w.buffers slot) = 0 := if_neg (not_not_intro hfree)
    rw [hw0, weight_live (show (fresh p size w.nextid).data ≠ 0 from hp0)] at ht
    show w.residentManaged + rounded size =
      PAGE * total (Function.update w.buffers slot (fresh p size w.nextid))
    rw [Nat.add_zero] at ht
    rw [ht, h.managed, Nat.mul_add]
    have : PAGE * (fresh p size w.nextid).residentPages = rounded size := by
      rw [Nat.mul_comm]
      exact hfresh.toShaped.pageCount_mul
    omega
  · rcases place_live hu with rfl | hl
    · rw [place_self]
      rintro (hc | ⟨i, -, hc⟩) <;> cases hc
    · rw [place_other (hother u hl)]
      exact h.backed u hl
  · have hus : u ≠ slot := by
      rintro rfl
      rw [place_self] at hu
      exact hp0 hu
    rw [place_other hus] at hu ⊢
    exact h.vacant u hu

end Place

/-- **Every step keeps the invariant.** -/
theorem Effect.inv {w w' : World} {op : Op} {r : Ret} (e : Effect w op r w') (h : Inv w) :
    Inv w' := by
  cases e with
  | moves hm _ => exact hm.steps.inv h
  | stored hm _ => exact Inv.store (hm.steps.inv h) _ _
  | placed hm h1 h2 h3 h4 h5 => exact Inv.place (hm.steps.inv h) h2 h1 h3 h4 h5
  | released hm hl hr _ => exact (hm.steps.inv h).release hl hr _
  | forsaken _ _ hm => exact hm.steps.inv (h.peer _ _)

theorem initial_inv (arena : Option Arena) (memory : Memory) :
    Inv (World.initial arena memory) := by
  have hdead : ∀ s, ¬ (World.initial arena memory).Live s := fun s hs => hs.2 rfl
  refine ⟨⟨fun s => ?_, ?_, fun s hs => absurd hs (hdead s)⟩, fun s hs => absurd hs (hdead s),
    fun s hs => absurd hs (hdead s), fun s _ hs => absurd hs (hdead s),
    fun s hs => absurd hs (hdead s), ?_, fun s hs => absurd hs (hdead s), fun _ _ =>
      SameCore.refl _⟩
  · exact ⟨fun hm => absurd hm List.not_mem_nil, fun hs => absurd hs (hdead s)⟩
  · exact List.Pairwise.nil
  · show 0 = PAGE * total fun _ => ({} : Buffer)
    have : total (fun _ => ({} : Buffer)) = 0 := Finset.sum_eq_zero fun s _ => rfl
    rw [this, Nat.mul_zero]

/-- **Every run keeps the invariant.** -/
theorem Runs.inv {w w' : World} {events : List Event} (h : Runs w events w') (hI : Inv w) :
    Inv w' := by
  induction h with
  | nil => exact hI
  | cons hs _ ih => exact ih (Effect.inv (step_effect hI hs) hI)

/-! ### A broken channel stays broken -/

theorem Steps.unbroken {w w' : World} (c : Steps w w') (h : w'.channelBroken = false) :
    w.channelBroken = false := by
  induction c with
  | refl => exact h
  | tail _ hc ih =>
    refine ih ?_
    cases hc with
    | note _ _ _ _ _ hc _ => exact hc ▸ h
    | lose p => cases h
    | _ => exact h

theorem Effect.unbroken {w w' : World} {op : Op} {r : Ret} (e : Effect w op r w')
    (h : w'.channelBroken = false) : w.channelBroken = false := by
  cases e with
  | moves hm _ => exact Steps.unbroken hm.steps h
  | stored hm _ => exact Steps.unbroken hm.steps h
  | placed hm _ _ _ _ _ => exact Steps.unbroken hm.steps h
  | released hm _ _ _ => exact Steps.unbroken hm.steps h
  | forsaken _ _ hm =>
    have hu := Steps.unbroken hm.steps h
    exact hu

/-! ### Pinned buffers -/

theorem applyRelease_live {w : World} {s u : ℕ} {l : List ℕ} {p : Peer}
    (h : (applyRelease w s l p).Live u) :
    u ≠ s ∧ w.Live u ∧ (applyRelease w s l p).buffers u = w.buffers u := by
  have hne : u ≠ s := by
    rintro rfl
    exact h.2 (by simp [applyRelease, World.setBuffer, Buffer.clear])
  have hu : (applyRelease w s l p).buffers u = w.buffers u := Function.update_of_ne hne _ _
  exact ⟨hne, ⟨h.1, by rw [← hu]; exact h.2⟩, hu⟩

theorem Effect.retired {w w' : World} {op : Op} {r : Ret} (e : Effect w op r w')
    (h : AllRetired w) : AllRetired w' := by
  cases e with
  | moves hm _ => exact hm.retired h
  | stored hm _ => exact hm.retired h
  | placed hm h1 h2 h3 h4 h5 =>
    intro hu s hs
    rcases place_live hs with rfl | hl
    · rw [place_self]
      intro hst
      cases hst
    · rw [place_other (ne_of_free hl h2)]
      exact hm.retired h hu s hl
  | released hm hl hr _ =>
    intro hu s hs
    obtain ⟨-, hls, hb⟩ := applyRelease_live hs
    rw [hb]
    exact hm.retired h hu s hls
  | forsaken _ _ hm => exact hm.retired h

theorem Runs.retired {w w' : World} {events : List Event} (h : Runs w events w') (hI : Inv w)
    (hr : AllRetired w) : AllRetired w' := by
  induction h with
  | nil => exact hr
  | cons hs _ ih =>
    have he := step_effect hI hs
    exact ih (Effect.inv he hI) (Effect.retired he hr)

/-- **A pinned buffer stays pinned until it is freed.** -/
theorem Effect.pinned {w w' : World} {op : Op} {r : Ret} (e : Effect w op r w') {s : ℕ}
    (hl : w.Live s) (hs : (w.buffers s).state = .pinned) :
    (w'.Live s ∧ (w'.buffers s).id = (w.buffers s).id ∧ (w'.buffers s).state = .pinned) ∨
      ∃ c e, op = .free c e (w.buffers s).data ∧ r = .code 0 ∧ ¬ w'.Live s := by
  cases e with
  | moves hm _ => exact Or.inl ⟨(hm.live s).mpr hl, (hm.mapping s).id, hm.pinned s hl hs⟩
  | stored hm _ => exact Or.inl ⟨(hm.live s).mpr hl, (hm.mapping s).id, hm.pinned s hl hs⟩
  | placed hm h1 h2 h3 h4 h5 =>
    have hl1 := (hm.live s).mpr hl
    have hne := ne_of_free hl1 h2
    refine Or.inl ⟨⟨hl1.1, ?_⟩, ?_, ?_⟩
    · rw [place_other hne]
      exact hl1.2
    · rw [place_other hne]
      exact (hm.mapping s).id
    · rw [place_other hne]
      exact hm.pinned s hl hs
  | @released w1 c e u l p hm hlu hr _ =>
    by_cases hus : s = u
    · subst hus
      refine Or.inr ⟨c, e, by rw [(hm.mapping s).data], rfl, fun hd => ?_⟩
      exact (applyRelease_live hd).1 rfl
    · have hb : (applyRelease w1 u l p).buffers s = w1.buffers s := Function.update_of_ne hus _ _
      have hl1 := (hm.live s).mpr hl
      refine Or.inl ⟨⟨hl1.1, ?_⟩, ?_, ?_⟩
      · rw [hb]
        exact hl1.2
      · rw [hb]
        exact (hm.mapping s).id
      · rw [hb]
        exact hm.pinned s hl hs
  | forsaken _ _ hm => exact Or.inl ⟨(hm.live s).mpr hl, (hm.mapping s).id, hm.pinned s hl hs⟩

/-! ### The representation invariant -/

/-- The representation of a buffer in the words of the source: the entries of `pages` below
`mapped / PAGE`, the region `[recipe_offset, recipe_offset + rounded(recipe_length))`, the state
word, the counter and the recipe flag. -/
structure Represented (channelBroken : Bool) (b : Buffer) : Prop where
  residentPages : b.residentPages = Nat.count (fun i => b.pages i ≠ .cold) (b.mapped / PAGE)
  region : b.recipeOffset % PAGE = 0 ∧ b.recipeOffset + rounded b.recipeLength ≤ b.mapped
  outside : ∀ i < b.mapped / PAGE,
    (i < b.recipeOffset / PAGE ∨ (b.recipeOffset + rounded b.recipeLength) / PAGE ≤ i) →
      b.pages i = .dirty
  resident : b.state = .resident → ∀ i < b.mapped / PAGE, b.pages i = .dirty
  sealed : b.state = .sealed → (∀ i < b.mapped / PAGE, b.pages i ≠ .cold) ∧
    ∀ i, b.recipeOffset / PAGE ≤ i → i < (b.recipeOffset + rounded b.recipeLength) / PAGE →
      b.pages i = .clean
  evicted : b.state = .evicted →
    (∀ i, b.recipeOffset / PAGE ≤ i → i < (b.recipeOffset + rounded b.recipeLength) / PAGE →
      b.pages i = .cold ∨ b.pages i = .clean) ∧
    ∃ i, b.recipeOffset / PAGE ≤ i ∧ i < (b.recipeOffset + rounded b.recipeLength) / PAGE ∧
      b.pages i = .cold
  whole : b.stats.pageBytes = 0 →
    (∀ i, b.recipeOffset / PAGE ≤ i → i < (b.recipeOffset + rounded b.recipeLength) / PAGE →
      b.pages i = .cold) ∨
    ∀ i, b.recipeOffset / PAGE ≤ i → i < (b.recipeOffset + rounded b.recipeLength) / PAGE →
      b.pages i ≠ .cold
  retired : b.state = .pinned → (∀ i < b.mapped / PAGE, b.pages i ≠ .cold) →
    channelBroken = false → b.recipeLive = false

theorem BufferInv.represented {b : Buffer} (h : BufferInv b) {broken : Bool}
    (hr : broken = false → Retired b) : Represented broken b where
  residentPages := h.counted
  region := by
    refine ⟨h.offset_aligned, ?_⟩
    have h1 := Nat.mul_le_mul_right PAGE h.toShaped.last_le
    rw [h.toShaped.last_mul, h.toShaped.pageCount_mul] at h1
    exact h1
  outside i hi ho := h.outside i hi fun hin => by
    obtain ⟨h1, h2⟩ := hin
    unfold Buffer.regionFirst Buffer.regionLast at *
    omega
  resident := h.resident
  sealed hs := ⟨fun _ hi => h.sealed_present hs hi, fun i h1 h2 => h.sealedClean hs i ⟨h1, h2⟩⟩
  evicted hs := by
    obtain ⟨h1, i, h2, h3⟩ := h.evictedRegion hs
    exact ⟨fun j j1 j2 => h1 j ⟨j1, j2⟩, i, h2.1, h2.2, h3⟩
  whole hp := by
    rcases h.whole hp with hw | hw
    · exact Or.inl fun i h1 h2 => hw i ⟨h1, h2⟩
    · exact Or.inr fun i h1 h2 => hw i ⟨h1, h2⟩
  retired hs hp hu := hr hu hs hp

/-- **The representation invariant over runs.** In every state a run reaches, every live buffer is
`Represented`, `resident_managed` counts the resident pages of the live buffers, and no step takes
a buffer out of its pinned state but the call that frees it. -/
theorem reachable_represented (arena : Option Arena) (memory : Memory) (events : List Event)
    (w : World) (h : Runs (World.initial arena memory) events w) :
    (∀ s, w.Live s → Represented w.channelBroken (w.buffers s)) ∧
      w.residentManaged = PAGE * ∑ s ∈ (Finset.range MAX_SLOTS).filter
        (fun s => (w.buffers s).data ≠ 0), (w.buffers s).residentPages ∧
      ∀ (op : Op) (w' : World) (r : Ret), step w op = .ok (w', r) →
        ∀ s, w.Live s → (w.buffers s).state = .pinned →
          (w'.Live s ∧ (w'.buffers s).id = (w.buffers s).id ∧
            (w'.buffers s).state = .pinned) ∨
          ∃ c e, op = .free c e (w.buffers s).data ∧ r = .code 0 ∧ ¬ w'.Live s := by
  have hI0 := initial_inv arena memory
  have hI := Runs.inv h hI0
  have hr : AllRetired w := Runs.retired h hI0 fun _ s hs => absurd rfl hs.2
  refine ⟨fun s hs => BufferInv.represented (hI.buffer s hs) fun hu => hr hu s hs, ?_, ?_⟩
  · rw [hI.managed]
    unfold total weight
    rw [Finset.sum_filter]
  · intro op w' r hstep s hl hs
    exact Effect.pinned (step_effect hI hstep) hl hs

/-- The evicted buffer of the sample run. -/
theorem reachable_represented_sample : ∃ events w,
    Runs (World.initial none sampleMemory) events w ∧ w.Live 0 ∧
      (w.buffers 0).state = .evicted ∧ Represented w.channelBroken (w.buffers 0) := by
  obtain ⟨x, hr, -, hl, hs⟩ := (@play_any (World.initial none sampleMemory) sampleOps
      (fun x => x.1.Live 0 ∧ (x.1.buffers 0).state = .evicted)) (by decide +kernel)
  exact ⟨x.2, x.1, hr, hl, hs, (reachable_represented none sampleMemory x.2 x.1 hr).1 0 hl⟩

/-! ### The allocation index over runs -/

theorem Indexed.sorted {w : World} (h : Indexed w) :
    (w.allocationIndex.map fun s => (w.buffers s).data).Pairwise (· < ·) := by
  rw [List.pairwise_map]
  refine h.ordered.imp_of_mem fun {s t} hs _ hb => ?_
  have hm := h.mapped_pos s ((h.mem_iff s).mp hs)
  unfold Before at hb
  omega

theorem Indexed.perm {w : World} (h : Indexed w) :
    w.allocationIndex.Perm ((List.range MAX_SLOTS).filter fun s => (w.buffers s).data ≠ 0) := by
  have hnodup : w.allocationIndex.Nodup := by
    have hs := (Indexed.sorted h).imp fun {a b} hab => Nat.ne_of_lt hab
    exact List.Nodup.of_map _ hs
  refine (List.perm_ext_iff_of_nodup hnodup (List.nodup_range.filter _)).mpr fun s => ?_
  rw [h.mem_iff, List.mem_filter, List.mem_range, decide_eq_true_eq]
  rfl

theorem Indexed.length_le {w : World} (h : Indexed w) : w.allocationIndex.length ≤ MAX_SLOTS := by
  rw [(Indexed.perm h).length_eq]
  exact (List.length_filter_le _ _).trans_eq List.length_range

theorem Indexed.containing_none {w : World} (h : Indexed w) (a : ℕ) :
    w.containing a = none ↔
      ∀ s, w.Live s → a < (w.buffers s).data ∨ (w.buffers s).data + (w.buffers s).mapped ≤ a := by
  rw [Option.eq_none_iff_forall_ne_some]
  refine forall_congr' fun s => ?_
  rw [Ne, h.containing_iff, not_and]
  refine imp_congr Iff.rfl ?_
  omega

theorem Indexed.free_ne_aborted {w : World} (h : Indexed w) (c : Caller) (e : FreeEnv) (p : ℕ) :
    Api.free c e w p ≠ .error .aborted := by
  unfold Api.free
  rcases usable c with _ | m
  swap
  · exact nofun
  rcases hs : w.find p with _ | s
  · exact nofun
  obtain ⟨hl, rfl⟩ := (h.find_iff p s).mp hs
  simp only
  by_cases hu : (!e.unmapped) = true
  · rw [if_pos hu]
    exact nofun
  rw [if_neg hu]
  obtain ⟨w1, hw1, -, -⟩ := h.remove hl
  -- the exchange before it changes the worker's store and the channel
  have hreq : ∃ q k, (if (w.buffers s).recipeLive = true then
      (request e.drop w (handleDrop (w.buffers s).id)).1 else w) =
        { w with peer := q, channelBroken := k } := by
    split_ifs
    · rcases request_cases e.drop w (handleDrop (w.buffers s).id) with ⟨hq, -⟩ | ⟨q, hq⟩ | ⟨hq, -⟩
      · rw [hq]
        exact ⟨_, _, rfl⟩
      · rw [hq]
        exact ⟨_, _, rfl⟩
      · rw [hq]
        exact ⟨_, _, rfl⟩
    · exact ⟨_, _, rfl⟩
  obtain ⟨q, k, hq⟩ := hreq
  rw [hq]
  have hrem : ∀ m n, World.indexRemove
      { w with peer := q, channelBroken := k, memory := m, residentManaged := n }
        (w.buffers s).data =
      some { w1 with peer := q, channelBroken := k, memory := m, residentManaged := n } := by
    intro m n
    unfold World.indexRemove at hw1 ⊢
    simp only at hw1 ⊢
    split_ifs at hw1 with hc
    cases hw1
    exact if_neg hc
  rw [hrem]
  exact nofun

/-- **The allocation index over runs.** In every state a run reaches the index lists the occupied
slots, strictly by address and at most 4096 of them; `containing` is the buffer whose mapping holds
the address and null if there is none, `find` is the buffer that starts there, and `index_remove`
never aborts. -/
theorem reachable_index (arena : Option Arena) (memory : Memory) (events : List Event) (w : World)
    (h : Runs (World.initial arena memory) events w) :
    (w.allocationIndex.map fun s => (w.buffers s).data).Pairwise (· < ·) ∧
      w.allocationIndex.Perm ((List.range MAX_SLOTS).filter fun s => (w.buffers s).data ≠ 0) ∧
      w.allocationIndex.length ≤ 4096 ∧
      (∀ a s, w.containing a = some s ↔ w.Live s ∧ (w.buffers s).data ≤ a ∧
        a < (w.buffers s).data + (w.buffers s).mapped) ∧
      (∀ a, w.containing a = none ↔ ∀ s, w.Live s →
        a < (w.buffers s).data ∨ (w.buffers s).data + (w.buffers s).mapped ≤ a) ∧
      (∀ p s, w.find p = some s ↔ w.Live s ∧ (w.buffers s).data = p) ∧
      (∀ s, w.Live s → (w.indexRemove (w.buffers s).data).isSome) ∧
      ∀ c e p, Api.free c e w p ≠ .error .aborted := by
  have hI := (Runs.inv h (initial_inv arena memory)).indexed
  refine ⟨Indexed.sorted hI, Indexed.perm hI, Indexed.length_le hI, hI.containing_iff,
    Indexed.containing_none hI, hI.find_iff, fun s hs => ?_, Indexed.free_ne_aborted hI⟩
  obtain ⟨w1, hw1, -, -⟩ := hI.remove hs
  rw [hw1]
  rfl

/-- Two buffers, the one of slot 1 in front of that of slot 0: the index lists them by address, and
the page behind them belongs to none. -/
theorem reachable_index_sample : ∃ events w,
    Runs (World.initial none sampleMemory) events w ∧ w.allocationIndex = [1, 0] ∧
      (w.allocationIndex.map fun s => (w.buffers s).data).Pairwise (· < ·) ∧
      w.containing 0x100fff = some 1 ∧ w.containing 0x101000 = some 0 ∧
        w.containing 0x103000 = none ∧
      w.find 0x100123 ≠ some 1 ∧ w.find 0x100000 = some 1 := by
  obtain ⟨x, hr, -, hi, hl0, hl1, hd0, hd1, hm0, hm1⟩ :=
    (@play_any (World.initial none sampleMemory)
    (pairOps.take 2) (fun x => x.1.allocationIndex = [1, 0] ∧ x.1.Live 0 ∧ x.1.Live 1 ∧
      (x.1.buffers 0).data = 0x101000 ∧ (x.1.buffers 1).data = 0x100000 ∧
      (x.1.buffers 0).mapped = 8192 ∧ (x.1.buffers 1).mapped = 4096) _) (by decide +kernel)
  obtain ⟨hsorted, hperm, -, hc, hn, hf, -, -⟩ := reachable_index none sampleMemory x.2 x.1 hr
  have hlive : ∀ s, x.1.Live s → s = 1 ∨ s = 0 := by
    intro s hs
    have hmem : s ∈ x.1.allocationIndex :=
      hperm.mem_iff.mpr (List.mem_filter.mpr ⟨List.mem_range.mpr hs.1, by simpa using hs.2⟩)
    rw [hi] at hmem
    simpa using hmem
  refine ⟨x.2, x.1, hr, hi, hsorted, (hc _ _).mpr ⟨hl1, by omega, by omega⟩,
    (hc _ _).mpr ⟨hl0, by omega, by omega⟩, (hn _).mpr fun s hs => ?_, fun hbad => ?_,
    (hf _ _).mpr ⟨hl1, hd1⟩⟩
  · rcases hlive s hs with rfl | rfl <;> omega
  · have := ((hf _ _).mp hbad).2
    omega

end Afterfree.Runtime.Invariants
