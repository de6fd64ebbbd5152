import Afterfree.Runtime.Accounting

/-!
# Residency statistics

`af_get_residency_stats`, and what its figures mean in every state a run reaches:

* the peak is the largest excess over the target since the target was set (`Runs.peak`);
* the reclaimable bytes are those of the buffers that `collect` would consider, because no
  registration is kept whose record is as large as its region (`Booked.retained`);
* a buffer is completely restored at most once for each of its evictions (`Booked.full_le`), and
  between two evictions no byte of it is restored twice (`Ticks.apart`).
-/

namespace Afterfree.Runtime.Statistics

open Afterfree.Common Afterfree.Lib Afterfree.Runtime.State Afterfree.Runtime.Pager
open Afterfree.Runtime.Submit Afterfree.Runtime.Api Afterfree.Runtime.Lookup
open Afterfree.Runtime.Representation Afterfree.Runtime.Changes Afterfree.Runtime.Decompose
open Afterfree.Runtime.Operations Afterfree.Runtime.Invariants Afterfree.Runtime.Accounting

/-- `struct af_residency_stats`. -/
structure ResidencyStats where
  target : ℕ
  residentBytes : ℕ
  reclaimableBytes : ℕ
  overTargetBytes : ℕ
  automaticEvictions : ℕ
  restoreOperations : ℕ
  restoredBytes : ℕ
  peakOverTargetBytes : ℕ
deriving DecidableEq, Repr

/-- `af_get_residency_stats`, with a destination. -/
def getResidencyStats (w : World) : ResidencyStats where
  target := w.residentTarget
  residentBytes := w.residentManaged
  reclaimableBytes := ((List.range MAX_SLOTS).map fun s =>
    let b := w.buffers s
    if b.data ≠ 0 ∧ b.state = .sealed ∧ b.stats.evictions = 0 ∧ b.faultCount = 0 then
      rounded b.recipeLength else 0).sum
  overTargetBytes := if w.residentTarget ≠ 0 ∧ w.residentTarget < w.residentManaged then
    w.residentManaged - w.residentTarget else 0
  automaticEvictions := w.automaticEvictions
  restoreOperations := w.restoreOperations
  restoredBytes := w.restoredBytes
  peakOverTargetBytes := w.peakOverTarget

/-! ### The books of a buffer -/

/-- What the counters and the record of a buffer say together. -/
structure Booked (b : Buffer) : Prop where
  full_le : b.fullRestores ≤ b.stats.evictions
  cold_lt : (∃ i < b.pageCount, b.pages i = .cold) → b.fullRestores < b.stats.evictions
  retained : b.state = .sealed ∨ b.state = .evicted →
    b.stats.retainedBytes < rounded b.recipeLength

/-- Every live buffer is `Booked`. -/
def AllBooked (w : World) : Prop := ∀ s, w.Live s → Booked (w.buffers s)

theorem Booked.of_restored {b : Buffer} {x : Extent} (h : Booked b) (hb : BufferInv b)
    (hx : ColdExtent b x) (t : ℕ) : Booked (restored b x t) := by
  have hcold : ∃ i < b.pageCount, b.pages i = .cold :=
    ⟨x.first, lt_of_lt_of_le hx.first_lt (hx.last_le.trans hb.toShaped.last_le),
      hx.cold x.first le_rfl hx.first_lt⟩
  have hlt := h.cold_lt hcold
  have hpages := (restored_inv hb hx t).full_iff
  have hfull : (restored b x t).fullRestores =
      if b.residentPages + (x.last - x.first) = b.mapped / PAGE then b.fullRestores + 1
      else b.fullRestores := rfl
  have hstate : (restored b x t).state =
      if b.residentPages + (x.last - x.first) = b.mapped / PAGE ∧ b.state ≠ .pinned then .sealed
      else b.state := rfl
  refine ⟨?_, fun ⟨i, hi, hc⟩ => ?_, fun hs => ?_⟩
  · show (restored b x t).fullRestores ≤ b.stats.evictions
    rw [hfull]
    split_ifs <;> omega
  · show (restored b x t).fullRestores < b.stats.evictions
    rw [hfull]
    split_ifs with hf
    · exact absurd hc (hpages.mp hf i hi)
    · exact hlt
  · rw [hstate] at hs
    refine h.retained ?_
    split_ifs at hs with hf
    · -- a buffer with a cold page is evicted or pinned
      obtain ⟨i, hi, hc⟩ := hcold
      rcases hb.state_of_cold hi hc with he | he
      · exact Or.inr he
      · exact absurd he hf.2
    · exact hs

theorem Booked.of_written {b : Buffer} (h : Booked b) (first last : ℕ) :
    Booked (written b first last) := by
  refine ⟨h.full_le, fun ⟨i, hi, hc⟩ => h.cold_lt ⟨i, hi, ?_⟩, fun hs => h.retained ?_⟩
  · by_contra hn
    exact written_present.mpr (Or.inl hn) hc
  · change (if _ then BufferState.pinned else b.state) = _ ∨
      (if _ then BufferState.pinned else b.state) = _ at hs
    split_ifs at hs
    · rcases hs with hs | hs <;> cases hs
    · exact hs

theorem Booked.of_discarded {b : Buffer} (h : Booked b)
    (hs : b.state = .sealed ∨ b.state = .evicted) : Booked (discardedBuffer b) :=
  ⟨Nat.le_succ_of_le h.full_le, fun _ => Nat.lt_succ_of_le h.full_le, fun _ => h.retained hs⟩

theorem Booked.of_sealed {b : Buffer} {hd : Header} {g : Registration} (h : Booked b) (t : ℕ)
    (hr : g.retainedBytes + b.mapped / PAGE < rounded hd.length) :
    Booked (sealedBuffer b hd g t) := by
  refine ⟨h.full_le, fun ⟨i, hi, hc⟩ => h.cold_lt ⟨i, hi, ?_⟩, fun _ => hr⟩
  rcases sealedBuffer_pages (b := b) (h := hd) g t i with ⟨-, hp⟩ | ⟨-, hp⟩
  · rw [hp] at hc
    cases hc
  · rw [← hp]
    exact hc

theorem Booked.of_fresh (p size id : ℕ) : Booked (fresh p size id) := by
  refine ⟨le_rfl, fun ⟨i, _, hc⟩ => ?_, fun hs => ?_⟩
  · cases hc
  · rcases hs with hs | hs <;> cases hs

theorem AllBooked.update {w w' : World} {s : ℕ} {b : Buffer} (h : AllBooked w)
    (hw : w'.buffers = Function.update w.buffers s b)
    (hb : b.data ≠ 0 → (w.buffers s).data ≠ 0 → Booked (w.buffers s) → Booked b)
    (hnew : b.data ≠ 0 → (w.buffers s).data = 0 → Booked b) : AllBooked w' := by
  intro u hu
  unfold World.Live at hu
  rw [hw] at hu ⊢
  by_cases hus : u = s
  · subst hus
    rw [Function.update_self] at hu ⊢
    by_cases hd : (w.buffers u).data = 0
    · exact hnew hu.2 hd
    · exact hb hu.2 hd (h u ⟨hu.1, hd⟩)
  · rw [Function.update_of_ne hus] at hu ⊢
    exact h u hu

/-- **Every tick keeps the books.** -/
theorem Tick.booked {w w' : World} {l : List (ℕ × Extent)} (t : Tick w l w') (h : AllBooked w) :
    AllBooked w' := by
  cases t with
  | idle hb _ _ _ _ _ =>
    intro u hu
    unfold World.Live at hu
    rw [hb] at hu ⊢
    exact h u hu
  | fault s n r l _ =>
    exact h.update rfl (fun _ _ hb => ⟨hb.full_le, hb.cold_lt, hb.retained⟩)
      fun h1 h2 => absurd h2 h1
  | restore s x payload t hl hb hx =>
    exact h.update rfl (fun _ _ hk => hk.of_restored hb hx t) fun _ h2 => absurd h2 hl.2
  | unlock s first last _ =>
    exact h.update rfl (fun _ _ hk => hk.of_written first last) fun h1 h2 => absurd h2 h1
  | retire s n hs =>
    refine h.update rfl (fun _ _ hk => ⟨hk.full_le, hk.cold_lt, fun hst => ?_⟩)
      fun h1 h2 => absurd h2 h1
    change (w.buffers s).state = _ ∨ (w.buffers s).state = _ at hst
    rw [hs] at hst
    rcases hst with hst | hst <;> cases hst
  | stats s st hs he =>
    refine h.update rfl (fun _ _ hk => ⟨by rw [he]; exact hk.full_le, ?_, fun hst => ?_⟩)
      fun h1 h2 => absurd h2 h1
    · intro hc
      rw [he]
      exact hk.cold_lt hc
    · change (w.buffers s).state = _ ∨ (w.buffers s).state = _ at hst
      rw [hs] at hst
      rcases hst with hst | hst <;> cases hst
  | enroll s hd g t _ hr =>
    exact h.update rfl (fun _ _ hk => hk.of_sealed t hr) fun h1 h2 => absurd h2 h1
  | discard s hl hs =>
    exact h.update rfl (fun _ _ hk => hk.of_discarded hs) fun h1 h2 => absurd h2 h1
  | target n => exact h
  | place s p size hd =>
    exact h.update rfl (fun _ h2 _ => absurd hd h2) fun _ _ => Booked.of_fresh p size w.nextid
  | release s l p hl =>
    exact h.update rfl (fun h1 _ _ => absurd rfl h1) fun h1 _ => absurd rfl h1
  | clear s hd =>
    exact h.update rfl (fun h1 _ _ => absurd rfl h1) fun h1 _ => absurd rfl h1

theorem Ticks.booked {w w' : World} {l : List (ℕ × Extent)} (t : Ticks w l w')
    (h : AllBooked w) : AllBooked w' := by
  induction t with
  | refl => exact h
  | cons ht _ ih => exact ih (Tick.booked ht h)

/-- **The books over runs.** -/
theorem Runs.booked {w w' : World} {events : List Event} (h : Runs w events w') (hI : Inv w)
    (hb : AllBooked w) : AllBooked w' := by
  induction h with
  | nil => exact hb
  | cons hs _ ih =>
    obtain ⟨⟨l, ht⟩, -⟩ := step_ticks hI hs
    exact ih (Effect.inv (step_effect hI hs) hI) (Ticks.booked ht hb)

/-! ### The peak -/

/-- The run passes through the state `x`. -/
def Passes (w : World) (events : List Event) (x w' : World) : Prop :=
  ∃ before after, events = before ++ after ∧ Runs w before x ∧ Runs x after w'

theorem Passes.cons_iff {w w1 w' x : World} {op : Op} {r : Ret} {events : List Event}
    (hs : step w op = .ok (w1, r)) (hr : Runs w1 events w') :
    Passes w ((op, r) :: events) x w' ↔ x = w ∨ Passes w1 events x w' := by
  constructor
  · rintro ⟨before, after, he, h1, h2⟩
    cases h1 with
    | nil => exact Or.inl rfl
    | cons hs1 h1 =>
      obtain ⟨hev, rfl⟩ := List.cons.inj he
      cases hev
      rw [hs] at hs1
      cases hs1
      exact Or.inr ⟨_, _, rfl, h1, h2⟩
  · rintro (rfl | ⟨before, after, rfl, h1, h2⟩)
    · exact ⟨[], _, rfl, .nil _, .cons hs hr⟩
    · exact ⟨(op, r) :: before, after, rfl, .cons hs h1, h2⟩

theorem Passes.nil_iff {w x w' : World} : Passes w [] x w' ↔ x = w ∧ w' = w := by
  constructor
  · rintro ⟨before, after, he, h1, h2⟩
    obtain ⟨rfl, rfl⟩ := List.append_eq_nil_iff.mp he.symm
    cases h1
    cases h2
    exact ⟨rfl, rfl⟩
  · rintro ⟨rfl, rfl⟩
    exact ⟨[], [], rfl, .nil _, .nil _⟩

/-- **The peak along a run that does not set the target**: it bounds every excess from the start on,
and is one of them or the peak of the start. -/
theorem Runs.peak {w w' : World} {events : List Event} (h : Runs w events w') (hI : Inv w)
    (hp : overTarget w ≤ w.peakOverTarget) (hn : ∀ ev ∈ events, ¬ Sets ev) :
    w.peakOverTarget ≤ w'.peakOverTarget ∧
      (∀ x, Passes w events x w' → overTarget x ≤ w'.peakOverTarget) ∧
      (w'.peakOverTarget = w.peakOverTarget ∨
        ∃ x, Passes w events x w' ∧ overTarget x = w'.peakOverTarget) := by
  induction h with
  | nil =>
    refine ⟨le_rfl, fun x hx => ?_, Or.inl rfl⟩
    obtain ⟨rfl, -⟩ := Passes.nil_iff.mp hx
    exact hp
  | @cons w w1 w2 op r events hs hr ih =>
    obtain ⟨-, hsample, -⟩ := step_ticks hI hs
    have h1 := (hsample (hn _ List.mem_cons_self)).2 hp
    obtain ⟨i1, i2, i3⟩ := ih (Effect.inv (step_effect hI hs) hI) (by omega)
      fun ev hev => hn ev (List.mem_cons_of_mem _ hev)
    refine ⟨by omega, fun x hx => ?_, ?_⟩
    · rcases (Passes.cons_iff hs hr).mp hx with rfl | hx
      · omega
      · exact i2 x hx
    · rcases i3 with i3 | ⟨x, hx, hov⟩
      · rcases max_choice w.peakOverTarget (overTarget w1) with hm | hm
        · exact Or.inl (by omega)
        · refine Or.inr ⟨w1, (Passes.cons_iff hs hr).mpr (Or.inr ⟨[], _, rfl, .nil _, hr⟩), ?_⟩
          omega
      · exact Or.inr ⟨x, (Passes.cons_iff hs hr).mpr (Or.inr hx), hov⟩

theorem Runs.last_set {w w' : World} {events : List Event} (h : Runs w events w') (hI : Inv w) :
    ∃ before after x, events = before ++ after ∧ Runs w before x ∧ Runs x after w' ∧
      (∀ ev ∈ after, ¬ Sets ev) ∧
      ((before = [] ∧ x = w) ∨
        (∃ past ev, before = past ++ [ev] ∧ Sets ev) ∧ x.peakOverTarget = overTarget x) := by
  induction h with
  | nil w => exact ⟨[], [], w, rfl, .nil w, .nil w, fun _ hev => absurd hev List.not_mem_nil,
    Or.inl ⟨rfl, rfl⟩⟩
  | @cons w w1 w2 op r events hs hr ih =>
    obtain ⟨before, after, x, rfl, h1, h2, hn, hlast⟩ := ih (Effect.inv (step_effect hI hs) hI)
    rcases hlast with ⟨rfl, rfl⟩ | ⟨⟨past, ev, rfl, hset⟩, hpeak⟩
    · by_cases hset : Sets (op, r)
      · exact ⟨[(op, r)], after, x, rfl, .cons hs (.nil _), h2, hn,
          Or.inr ⟨⟨[], _, rfl, hset⟩, (step_ticks hI hs).2.2 hset⟩⟩
      · refine ⟨[], (op, r) :: after, w, rfl, .nil w, .cons hs h2, fun ev hev => ?_,
          Or.inl ⟨rfl, rfl⟩⟩
        rcases List.mem_cons.mp hev with rfl | hev
        · exact hset
        · exact hn ev hev
    · exact ⟨(op, r) :: (past ++ [ev]), after, x, rfl, .cons hs h1, h2, hn,
        Or.inr ⟨⟨(op, r) :: past, ev, rfl, hset⟩, hpeak⟩⟩

/-! ### No byte twice -/

/-- What becomes of the buffer in a slot: it is still the same one, its evictions have not become
fewer and, if not more either, its present pages are present; or a later one has taken the slot. -/
def Fate (s : ℕ) (w w' : World) : Prop :=
  w.nextid ≤ w'.nextid ∧ (w'.Live s →
    (w.Live s ∧ (w'.buffers s).id = (w.buffers s).id ∧
      (w.buffers s).stats.evictions ≤ (w'.buffers s).stats.evictions ∧
      ((w'.buffers s).stats.evictions = (w.buffers s).stats.evictions →
        ∀ i, (w.buffers s).Present i → (w'.buffers s).Present i)) ∨
    w.nextid ≤ (w'.buffers s).id)

theorem Fate.refl (s : ℕ) (w : World) : Fate s w w :=
  ⟨le_rfl, fun hl => Or.inl ⟨hl, rfl, le_rfl, fun _ _ hi => hi⟩⟩

theorem Fate.trans {s : ℕ} {w w1 w2 : World} (h : Fate s w w1) (h' : Fate s w1 w2) :
    Fate s w w2 := by
  refine ⟨h.1.trans h'.1, fun hl => ?_⟩
  rcases h'.2 hl with ⟨hl1, hid, hev, hpres⟩ | hnew
  · rcases h.2 hl1 with ⟨hl0, hid0, hev0, hpres0⟩ | hnew
    · exact Or.inl ⟨hl0, hid.trans hid0, hev0.trans hev,
        fun he i hi => hpres (by omega) i (hpres0 (by omega) i hi)⟩
    · exact Or.inr (by omega)
  · exact Or.inr (h.1.trans hnew)

theorem Fate.update {w w' : World} {t : ℕ} {b : Buffer} (s : ℕ)
    (hw : w'.buffers = Function.update w.buffers t b) (hn : w'.nextid = w.nextid)
    (hd : b.data = (w.buffers t).data) (hid : b.id = (w.buffers t).id)
    (hev : (w.buffers t).stats.evictions ≤ b.stats.evictions)
    (hp : b.stats.evictions = (w.buffers t).stats.evictions →
      ∀ i, (w.buffers t).Present i → b.Present i) : Fate s w w' := by
  refine ⟨hn.ge, fun hl => Or.inl ?_⟩
  unfold World.Live at *
  rw [hw] at hl ⊢
  by_cases hst : s = t
  · subst hst
    rw [Function.update_self] at hl ⊢
    exact ⟨⟨hl.1, hd ▸ hl.2⟩, hid, hev, hp⟩
  · rw [Function.update_of_ne hst] at hl ⊢
    exact ⟨hl, rfl, le_rfl, fun _ _ hi => hi⟩

/-- A slot that is emptied has no buffer any more; the others stay. -/
theorem Fate.emptied {w w' : World} {t : ℕ} (s : ℕ)
    (hw : w'.buffers = Function.update w.buffers t Buffer.clear) (hn : w'.nextid = w.nextid) :
    Fate s w w' := by
  refine ⟨hn.ge, fun hl => Or.inl ?_⟩
  unfold World.Live at *
  rw [hw] at hl ⊢
  by_cases hst : s = t
  · subst hst
    rw [Function.update_self] at hl
    exact absurd rfl hl.2
  · rw [Function.update_of_ne hst] at hl ⊢
    exact ⟨hl, rfl, le_rfl, fun _ _ hi => hi⟩

theorem Tick.fate {w w' : World} {l : List (ℕ × Extent)} (t : Tick w l w') (s : ℕ) :
    Fate s w w' := by
  cases t with
  | idle hb hn _ _ _ _ =>
    refine ⟨hn.ge, fun hl => Or.inl ?_⟩
    unfold World.Live at *
    rw [hb] at hl ⊢
    exact ⟨hl, rfl, le_rfl, fun _ _ hi => hi⟩
  | fault u n r l _ => exact Fate.update s rfl rfl rfl rfl le_rfl fun _ _ hi => hi
  | restore u x payload t hl hb hx =>
    exact Fate.update s rfl rfl rfl rfl le_rfl fun _ i hi => restored_present.mpr (Or.inl hi)
  | unlock u first last _ =>
    exact Fate.update s rfl rfl rfl rfl le_rfl fun _ i hi => written_present.mpr (Or.inl hi)
  | retire u n _ => exact Fate.update s rfl rfl rfl rfl le_rfl fun _ _ hi => hi
  | stats u st _ he => exact Fate.update s rfl rfl rfl rfl he.ge fun _ _ hi => hi
  | enroll u hd g t _ _ =>
    refine Fate.update s rfl rfl rfl rfl le_rfl fun _ i hi => ?_
    unfold Buffer.Present at *
    rcases sealedBuffer_pages (b := w.buffers u) (h := hd) g t i with ⟨-, hp⟩ | ⟨-, hp⟩
    · rw [hp]
      simp
    · rw [hp]
      exact hi
  | discard u _ _ =>
    refine Fate.update s rfl rfl rfl rfl (Nat.le_succ _) fun he => ?_
    exact absurd he (Nat.succ_ne_self _)
  | target n => exact Fate.refl s w
  | place u p size hd =>
    refine ⟨Nat.le_succ _, fun hl => ?_⟩
    by_cases hsu : s = u
    · subst hsu
      right
      show _ ≤ (Function.update w.buffers s (Api.fresh p size w.nextid) s).id
      rw [Function.update_self]
      exact le_rfl
    · left
      have ho : (place w u p size).buffers s = w.buffers s := Function.update_of_ne hsu _ _
      unfold World.Live at *
      rw [ho] at hl ⊢
      exact ⟨hl, rfl, le_rfl, fun _ _ hi => hi⟩
  | release u l p _ => exact Fate.emptied s rfl rfl
  | clear u _ => exact Fate.emptied s rfl rfl

theorem Ticks.fate {w w' : World} {l : List (ℕ × Extent)} (t : Ticks w l w') (s : ℕ) :
    Fate s w w' := by
  induction t with
  | refl w => exact Fate.refl s w
  | cons ht _ ih => exact (Tick.fate ht s).trans ih

/-- The slot holds one buffer from `w` to `w'`, and it is not evicted in between. -/
structure Unevicted (s : ℕ) (w w' : World) : Prop where
  live : w.Live s
  live' : w'.Live s
  known : (w.buffers s).id < w.nextid
  id : (w'.buffers s).id = (w.buffers s).id
  evictions : (w'.buffers s).stats.evictions = (w.buffers s).stats.evictions

theorem Unevicted.split {s : ℕ} {w w1 w2 : World} (h : Unevicted s w w2) (h1 : Fate s w w1)
    (h2 : Fate s w1 w2) : Unevicted s w w1 ∧ Unevicted s w1 w2 := by
  have hk := h.known
  have hi := h.id
  have he := h.evictions
  have hn := h1.1
  rcases h2.2 h.live' with ⟨l1, i2, e2, -⟩ | hnew
  · rcases h1.2 l1 with ⟨-, i1, e1, -⟩ | hnew
    · exact ⟨⟨h.live, l1, hk, i1, by omega⟩, ⟨l1, h.live', by omega, i2, by omega⟩⟩
    · omega
  · omega

/-- The request is for the buffer of slot `s` and for its byte at offset `o`. -/
def Covers (s o : ℕ) (q : ℕ × Extent) : Prop :=
  q.1 = s ∧ q.2.offset ≤ o ∧ o < q.2.offset + q.2.length

instance (s o : ℕ) : DecidablePred (Covers s o) := fun _ => inferInstanceAs (Decidable (_ ∧ _ ∧ _))

/-- The request is for the buffer of slot `s` and for its page `i`. -/
def Asks (s i : ℕ) (q : ℕ × Extent) : Prop := q.1 = s ∧ q.2.first ≤ i ∧ i < q.2.last

instance (s i : ℕ) : DecidablePred (Asks s i) := fun _ => inferInstanceAs (Decidable (_ ∧ _ ∧ _))

/-- The bytes the requests for slot `s` ask for. -/
def askedBytes (s : ℕ) (l : List (ℕ × Extent)) : ℕ :=
  (l.map fun q => if q.1 = s then q.2.length else 0).sum

theorem askedBytes_append (s : ℕ) (l l' : List (ℕ × Extent)) :
    askedBytes s (l ++ l') = askedBytes s l + askedBytes s l' := by
  unfold askedBytes
  rw [List.map_append, List.sum_append]

/-- What a sequence of ticks does to a buffer that is not evicted in it: it counts the bytes it asks
for, and asks for cold pages only, for none of them twice. -/
structure Restocked (s : ℕ) (w : World) (l : List (ℕ × Extent)) (w' : World) : Prop where
  counted : (w'.buffers s).reconstructed = (w.buffers s).reconstructed + askedBytes s l
  covers : ∀ o q, q ∈ l → Covers s o q → Asks s (o / PAGE) q
  cold : ∀ i q, q ∈ l → Asks s i q → ¬ (w.buffers s).Present i
  present : ∀ i q, q ∈ l → Asks s i q → (w'.buffers s).Present i
  once : ∀ i, (l.filter fun q => Asks s i q).length ≤ 1

theorem Restocked.once_byte {s : ℕ} {w w' : World} {l : List (ℕ × Extent)}
    (h : Restocked s w l w') (o : ℕ) : (l.filter fun q => Covers s o q).length ≤ 1 := by
  refine le_trans ?_ (h.once (o / PAGE))
  have hfilter : l.filter (fun q => Covers s o q) =
      (l.filter fun q => Asks s (o / PAGE) q).filter fun q => Covers s o q := by
    rw [List.filter_filter]
    refine List.filter_congr fun q hq => ?_
    by_cases hc : Covers s o q
    · simp [hc, h.covers o q hq hc]
    · simp [hc]
  rw [hfilter]
  exact List.length_filter_le _ _

theorem Restocked.nil {s : ℕ} {w w' : World}
    (h : (w'.buffers s).reconstructed = (w.buffers s).reconstructed) : Restocked s w [] w' :=
  ⟨h, fun _ _ hq => absurd hq List.not_mem_nil, fun _ _ hq => absurd hq List.not_mem_nil,
    fun _ _ hq => absurd hq List.not_mem_nil, fun _ => Nat.zero_le _⟩

theorem covers_page {b : Buffer} {x : Extent} (hx : ColdExtent b x) {s o : ℕ}
    (h : Covers s o (s, x)) : Asks s (o / PAGE) (s, x) := by
  obtain ⟨-, h1, h2⟩ := h
  have h3 := hx.offset_eq
  have h4 := hx.length_eq
  refine ⟨rfl, ?_⟩
  simp only at h1 h2 ⊢
  unfold PAGE at *
  omega

theorem Restocked.restore {s : ℕ} {w : World} {x : Extent} (hx : ColdExtent (w.buffers s) x)
    (payload : ℕ → UInt8) (t : ℕ) :
    Restocked s w [(s, x)] (applyRestore (w.ask s x) s x payload t) := by
  have hself : (applyRestore (w.ask s x) s x payload t).buffers s = restored (w.buffers s) x t :=
    Function.update_self _ _ _
  refine ⟨?_, fun o q hq hc => ?_, fun i q hq hc hp => ?_, fun i q hq hc => ?_, fun i => ?_⟩
  · rw [hself]
    simp [askedBytes, restored]
  · obtain rfl := List.mem_singleton.mp hq
    exact covers_page hx hc
  · obtain rfl := List.mem_singleton.mp hq
    exact hp (hx.cold _ hc.2.1 hc.2.2)
  · obtain rfl := List.mem_singleton.mp hq
    rw [hself]
    exact restored_present.mpr (Or.inr hc.2)
  · exact (List.length_filter_le _ _).trans_eq rfl

theorem Tick.restocked {s : ℕ} {w w' : World} {l : List (ℕ × Extent)} (t : Tick w l w')
    (h : Unevicted s w w') : Restocked s w l w' := by
  -- a change of another field, or of another slot
  have hother : ∀ {t : ℕ} {b : Buffer}, w'.buffers = Function.update w.buffers t b →
      b.reconstructed = (w.buffers t).reconstructed ∨ s ≠ t →
      (w'.buffers s).reconstructed = (w.buffers s).reconstructed := by
    intro t b hw hb
    rw [hw]
    by_cases hst : s = t
    · subst hst
      rw [Function.update_self]
      exact hb.resolve_right (fun hn => hn rfl)
    · rw [Function.update_of_ne hst]
  cases t with
  | idle hb _ _ _ _ _ => exact .nil (by rw [hb])
  | fault u n r l _ => exact .nil (hother rfl (Or.inl rfl))
  | restore u x payload t hl hb hx =>
    by_cases hsu : s = u
    · subst hsu
      exact .restore hx payload t
    · have hne : ∀ q ∈ [(u, x)], q.1 ≠ s := by
        intro q hq he
        obtain rfl := List.mem_singleton.mp hq
        exact hsu he.symm
      refine ⟨?_, fun o q hq hc => absurd hc.1 (hne q hq), fun i q hq hc => absurd hc.1 (hne q hq),
        fun i q hq hc => absurd hc.1 (hne q hq),
        fun i => (List.length_filter_le _ _).trans_eq rfl⟩
      rw [hother rfl (Or.inr hsu)]
      simp [askedBytes, Ne.symm hsu]
  | unlock u first last _ => exact .nil (hother rfl (Or.inl rfl))
  | retire u n _ => exact .nil (hother rfl (Or.inl rfl))
  | stats u st _ he => exact .nil (hother rfl (Or.inl rfl))
  | enroll u hd g t _ _ => exact .nil (hother rfl (Or.inl rfl))
  | discard u _ _ => exact .nil (hother rfl (Or.inl rfl))
  | target n => exact .nil rfl
  | place u p size hd =>
    refine .nil (hother (t := u) rfl (Or.inr ?_))
    rintro rfl
    exact h.live.2 hd
  | release u l p _ =>
    refine .nil (hother (t := u) rfl (Or.inr ?_))
    rintro rfl
    refine h.live'.2 ?_
    show (Function.update w.buffers s Buffer.clear s).data = 0
    rw [Function.update_self]
    rfl
  | clear u hd =>
    refine .nil (hother (t := u) rfl (Or.inr ?_))
    rintro rfl
    exact h.live.2 hd

/-- Two parts of a run. What the second asks for is cold when the first has ended, so the first has
not asked for it. -/
theorem Restocked.append {s : ℕ} {w w1 w2 : World} {l l' : List (ℕ × Extent)}
    (h : Restocked s w l w1) (h' : Restocked s w1 l' w2)
    (hk : ∀ i, (w.buffers s).Present i → (w1.buffers s).Present i)
    (hk' : ∀ i, (w1.buffers s).Present i → (w2.buffers s).Present i) :
    Restocked s w (l ++ l') w2 := by
  refine ⟨?_, fun o q hq hc => ?_, fun i q hq hc => ?_, fun i q hq hc => ?_, fun o => ?_⟩
  · rw [askedBytes_append, h'.counted, h.counted, Nat.add_assoc]
  · rcases List.mem_append.mp hq with hq | hq
    · exact h.covers o q hq hc
    · exact h'.covers o q hq hc
  · rcases List.mem_append.mp hq with hq | hq
    · exact h.cold i q hq hc
    · exact fun hp => h'.cold i q hq hc (hk _ hp)
  · rcases List.mem_append.mp hq with hq | hq
    · exact hk' _ (h.present i q hq hc)
    · exact h'.present i q hq hc
  · rw [List.filter_append, List.length_append]
    rcases Nat.eq_zero_or_pos (l.filter fun q => Asks s o q).length with h0 | hpos
    · rw [h0, Nat.zero_add]
      exact h'.once o
    · obtain ⟨q, hq⟩ := List.exists_mem_of_length_pos hpos
      have hq := List.mem_filter.mp hq
      have hpres := h.present o q hq.1 (of_decide_eq_true hq.2)
      have hnone : (l'.filter fun q => Asks s o q) = [] := by
        refine List.filter_eq_nil_iff.mpr fun q' hq' hc => ?_
        exact h'.cold o q' hq' (of_decide_eq_true hc) hpres
      rw [hnone]
      exact h.once o

theorem Unevicted.present {s : ℕ} {w w' : World} (h : Unevicted s w w') (hf : Fate s w w') :
    ∀ i, (w.buffers s).Present i → (w'.buffers s).Present i := by
  rcases hf.2 h.live' with ⟨-, -, -, hp⟩ | hnew
  · exact hp h.evictions
  · have h1 := h.id
    have h2 := h.known
    omega

theorem Ticks.restocked {s : ℕ} {w w' : World} {l : List (ℕ × Extent)} (t : Ticks w l w')
    (h : Unevicted s w w') : Restocked s w l w' := by
  induction t with
  | refl w => exact .nil rfl
  | cons ht hts ih =>
    have hf := Tick.fate ht s
    have hf' := Ticks.fate hts s
    obtain ⟨h1, h2⟩ := h.split hf hf'
    exact (Tick.restocked ht h1).append (ih h2) (h1.present hf) (h2.present hf')

theorem Runs.ticks {w w' : World} {events : List Event} (h : Runs w events w') (hI : Inv w) :
    ∃ l, Ticks w l w' := by
  induction h with
  | nil w => exact ⟨[], .refl w⟩
  | cons hs _ ih =>
    obtain ⟨l, htick⟩ := (step_ticks hI hs).1
    obtain ⟨l', hrest⟩ := ih (Effect.inv (step_effect hI hs) hI)
    exact ⟨l ++ l', htick.trans hrest⟩

/-! ### The statistics of reachable states -/

theorem reclaimable_eq {w : World} (hb : AllBooked w) :
    (getResidencyStats w).reclaimableBytes =
      ∑ s ∈ (Finset.range MAX_SLOTS).filter
        (fun s => eligible (w.buffers s) 0 = true ∧ benefit (w.buffers s) ≠ 0),
        rounded (w.buffers s).recipeLength := by
  have hsum : ∀ (n : ℕ) (f : ℕ → ℕ), ((List.range n).map f).sum = ∑ s ∈ Finset.range n, f s := by
    intro n f
    rw [← Multiset.sum_coe, ← Multiset.map_coe]
    rfl
  unfold getResidencyStats
  rw [Finset.sum_filter]
  dsimp only
  rw [hsum]
  refine Finset.sum_congr rfl fun s hs => ?_
  have hiff : ((w.buffers s).data ≠ 0 ∧ (w.buffers s).state = .sealed ∧
      (w.buffers s).stats.evictions = 0 ∧ (w.buffers s).faultCount = 0) ↔
      (eligible (w.buffers s) 0 = true ∧ benefit (w.buffers s) ≠ 0) := by
    unfold eligible
    simp only [Bool.and_eq_true, decide_eq_true_eq, and_self_iff]
    constructor
    · rintro ⟨h1, h2, h3, h4⟩
      have hr := (hb s ⟨Finset.mem_range.mp hs, h1⟩).retained (Or.inl h2)
      refine ⟨⟨⟨⟨h1, h2⟩, h3⟩, h4⟩, ?_⟩
      unfold benefit
      omega
    · rintro ⟨⟨⟨⟨h1, h2⟩, h3⟩, h4⟩, -⟩
      exact ⟨h1, h2, h3, h4⟩
  exact if_congr hiff rfl rfl

/-- **The statistics in every reachable state.** -/
theorem reachable_statistics (arena : Option Arena) (memory : Memory) (events : List Event)
    (w : World) (h : Runs (World.initial arena memory) events w) :
    (∃ before after x, events = before ++ after ∧ Runs (World.initial arena memory) before x ∧
      Runs x after w ∧ (∀ ev ∈ after, ¬ Sets ev) ∧
      (before = [] ∨ ∃ past ev, before = past ++ [ev] ∧ Sets ev) ∧
      IsGreatest {n | ∃ y, Passes x after y w ∧ overTarget y = n}
        (getResidencyStats w).peakOverTargetBytes) ∧
      (getResidencyStats w).reclaimableBytes =
        ∑ s ∈ (Finset.range MAX_SLOTS).filter
          (fun s => eligible (w.buffers s) 0 = true ∧ benefit (w.buffers s) ≠ 0),
          rounded (w.buffers s).recipeLength ∧
      (∀ s, w.Live s → (w.buffers s).fullRestores ≤ (w.buffers s).stats.evictions) ∧
      ∀ later w' s, Runs w later w' → w.Live s → w'.Live s →
        (w'.buffers s).id = (w.buffers s).id →
        (w'.buffers s).stats.evictions = (w.buffers s).stats.evictions →
        ∃ l, w'.asked = w.asked ++ l ∧
          (w'.buffers s).reconstructed = (w.buffers s).reconstructed + askedBytes s l ∧
          ∀ o, (l.filter fun q => Covers s o q).length ≤ 1 := by
  have hI0 := initial_inv arena memory
  have hI := Runs.inv h hI0
  have hb : AllBooked w := Runs.booked h hI0 fun s hs => absurd rfl hs.2
  refine ⟨?_, reclaimable_eq hb, fun s hs => (hb s hs).full_le,
    fun later w' s hr hl hl' hid hev => ?_⟩
  · obtain ⟨before, after, x, rfl, h1, h2, hn, hlast⟩ := Runs.last_set h hI0
    have hx : x.peakOverTarget = overTarget x := by
      rcases hlast with ⟨-, rfl⟩ | ⟨-, hx⟩
      · rfl
      · exact hx
    obtain ⟨p1, p2, p3⟩ := Runs.peak h2 (Runs.inv h1 hI0) hx.ge hn
    refine ⟨before, after, x, rfl, h1, h2, hn, hlast.imp And.left And.left, ?_, ?_⟩
    · rcases p3 with p3 | ⟨y, hy, hov⟩
      · exact ⟨x, ⟨[], after, rfl, .nil x, h2⟩, hx.symm.trans p3.symm⟩
      · exact ⟨y, hy, hov⟩
    · rintro n ⟨y, hy, rfl⟩
      exact p2 y hy
  · obtain ⟨l, ht⟩ := Runs.ticks hr hI
    have hr := Ticks.restocked ht ⟨hl, hl', hI.ids_lt s hl, hid, hev⟩
    exact ⟨l, ht.asked, hr.counted, hr.once_byte⟩

/-- Two sealed buffers above the target, and two reads of the longer one behind its eviction. -/
theorem reachable_statistics_sample :
    (∃ events w, Runs (World.initial none sampleMemory) events w ∧
      (getResidencyStats w).peakOverTargetBytes = 4096 ∧
      (getResidencyStats w).reclaimableBytes = 12288 ∧
      ∑ s ∈ (Finset.range MAX_SLOTS).filter
        (fun s => eligible (w.buffers s) 0 = true ∧ benefit (w.buffers s) ≠ 0),
        rounded (w.buffers s).recipeLength = 12288) ∧
    ∃ events w later w', Runs (World.initial none sampleMemory) events w ∧ Runs w later w' ∧
      (w'.buffers 0).stats.evictions = 1 ∧ (w'.buffers 0).fullRestores ≤ 1 ∧
      ∃ l, l.length = 2 ∧ w'.asked = w.asked ++ l ∧ (w'.buffers 0).reconstructed = 4097 ∧
        askedBytes 0 l = 4097 ∧ ∀ o, (l.filter fun q => Covers 0 o q).length ≤ 1 := by
  constructor
  · obtain ⟨x, hr, -, hp, hb⟩ := (@play_any (World.initial none sampleMemory)
      (pairOps.take 5 ++ [.setResidentTarget Caller.owner 8192])
      (fun x => (getResidencyStats x.1).peakOverTargetBytes = 4096 ∧
        (getResidencyStats x.1).reclaimableBytes = 12288) _) (by decide +kernel)
    exact ⟨x.2, x.1, hr, hp, hb,
      (reachable_statistics none sampleMemory x.2 x.1 hr).2.1.symm.trans hb⟩
  · obtain ⟨x, hr, -, hl, hz, ha, hy⟩ := (@play_any (World.initial none sampleMemory) pairOps
      (fun x => x.1.Live 0 ∧ (x.1.buffers 0).reconstructed = 0 ∧ x.1.asked = [] ∧
        ((play x.1 [.read Caller.owner sampleMaterialize 0x101000,
          .read Caller.owner sampleMaterialize 0x102000]).any fun y => decide (y.1.Live 0 ∧
          (y.1.buffers 0).id = (x.1.buffers 0).id ∧ (y.1.buffers 0).stats.evictions = 1 ∧
          (x.1.buffers 0).stats.evictions = 1 ∧ (y.1.buffers 0).reconstructed = 4097 ∧
          y.1.asked.length = 2)) = true) _) (by decide +kernel)
    obtain ⟨y, hlater, -, hl', hid, hev', hev, hrec, hasked⟩ := play_any hy
    obtain ⟨-, -, -, htwice⟩ := reachable_statistics none sampleMemory x.2 x.1 hr
    obtain ⟨-, -, hfull, -⟩ :=
      reachable_statistics none sampleMemory (x.2 ++ y.2) y.1 (hr.append hlater)
    obtain ⟨l, hl2, hcount, honce⟩ := htwice y.2 y.1 0 hlater hl hl' hid (hev'.trans hev.symm)
    have hbytes : askedBytes 0 l = 4097 := by omega
    refine ⟨x.2, x.1, y.2, y.1, hr, hlater, hev', hev' ▸ hfull 0 hl', l, ?_, hl2, hrec,
      hbytes, honce⟩
    rw [hl2, ha, List.nil_append] at hasked
    exact hasked

end Afterfree.Runtime.Statistics
