import Afterfree.Runtime.Invariants

/-!
# The pager is transparent

The specification is a plain memory: a byte per address, zero where a mapping is placed, changed by
writes only (`plainAfter`). `Holds` relates a world to it: the present bytes of every buffer are
those of the plain memory, and so are the bytes the worker keeps for pages that are not dirty. Every
step keeps the relation, so whatever was evicted and restored in between, a read returns the byte
of the plain memory or the process ends in `pager_failure`.
-/

namespace Afterfree.Runtime.Transparency

open Afterfree.Common Afterfree.Lib Afterfree.Runtime.State Afterfree.Runtime.Pager
open Afterfree.Runtime.Submit Afterfree.Runtime.Api Afterfree.Runtime.Lookup
open Afterfree.Runtime.Representation Afterfree.Runtime.Changes Afterfree.Runtime.Decompose
open Afterfree.Runtime.Operations Afterfree.Runtime.Invariants

/-! ### The plain memory -/

/-- A memory without a pager: one byte per address. -/
abbrev Plain : Type := ℕ → UInt8

/-- What a step does to a plain memory: a write stores its byte, and a mapping reads zero. -/
def plainStep (plain : Plain) : Event → Plain
  | (.write _ _ a v, .stored) => Function.update plain a v
  | (.alloc _ _ size, .pointer p) =>
    if p = 0 then plain else Span.fill plain p (p + rounded size) 0
  | _ => plain

/-- The plain memory after a run. -/
def plainAfter (plain : Plain) (events : List Event) : Plain := events.foldl plainStep plain

theorem plainStep_quiet {op : Op} {r : Ret} (h : Quiet op r) (plain : Plain) :
    plainStep plain (op, r) = plain := by
  cases op <;> cases r <;> first | exact absurd h id | rfl | skip
  exact if_pos h

/-! ### The relation -/

/-- **The world holds the plain memory**: in its present pages, and for the others in the outputs
the worker keeps. -/
structure Holds (w : World) (plain : Plain) : Prop where
  present : ∀ s, w.Live s → ∀ off < (w.buffers s).stats.length,
    (w.buffers s).Present (off / PAGE) →
      w.memory.bytes ((w.buffers s).data + off) = plain ((w.buffers s).data + off)
  kept : w.channelBroken = false → ∀ s, w.Live s → ∀ o,
    w.peer.store (w.buffers s).id = some o → ∀ off, (w.buffers s).recipeOffset ≤ off →
      off < (w.buffers s).recipeOffset + (w.buffers s).recipeLength →
      (w.buffers s).pages (off / PAGE) ≠ .dirty →
        o.byte (off - (w.buffers s).recipeOffset) = plain ((w.buffers s).data + off)

variable {plain : Plain}

theorem byte_apart {w : World} (hI : Inv w) {s u off : ℕ} (hl : w.Live s) (hlu : w.Live u)
    (hus : u ≠ s) (hoff : off < (w.buffers u).stats.length) :
    (w.buffers u).data + off < (w.buffers s).data ∨
      (w.buffers s).data + (w.buffers s).mapped ≤ (w.buffers u).data + off := by
  have h1 := hI.indexed.apart hl hlu (Ne.symm hus)
  have h2 := (hI.buffer u hlu).mapped_eq
  have h3 := le_rounded (w.buffers u).stats.length
  omega

theorem Holds.touch {w w' : World} {s : ℕ} {b : Buffer} (h : Holds w plain) (hI : Inv w)
    (hl : w.Live s) (hb : w'.buffers = Function.update w.buffers s b)
    (hu : w'.channelBroken = false → w.channelBroken = false)
    (hbytes : ∀ a, a < (w.buffers s).data ∨ (w.buffers s).data + (w.buffers s).mapped ≤ a →
      w'.memory.bytes a = w.memory.bytes a)
    (hstore : ∀ u, u ≠ s → w.Live u → ∀ o, w'.peer.store (w.buffers u).id = some o →
      w.peer.store (w.buffers u).id = some o)
    (hpresent : w'.Live s → ∀ off < b.stats.length, b.Present (off / PAGE) →
      w'.memory.bytes (b.data + off) = plain (b.data + off))
    (hkept : w'.channelBroken = false → w'.Live s → ∀ o, w'.peer.store b.id = some o → ∀ off,
      b.recipeOffset ≤ off → off < b.recipeOffset + b.recipeLength → b.pages (off / PAGE) ≠ .dirty →
        o.byte (off - b.recipeOffset) = plain (b.data + off)) : Holds w' plain := by
  have hself : w'.buffers s = b := by rw [hb, Function.update_self]
  have hne : ∀ u, u ≠ s → w'.buffers u = w.buffers u := fun u hus => by
    rw [hb, Function.update_of_ne hus]
  have hlive : ∀ u, u ≠ s → w'.Live u → w.Live u := fun u hus hlu => by
    unfold World.Live at *
    rw [← hne u hus]
    exact hlu
  refine ⟨fun u hlu off hoff hp => ?_, fun hun u hlu o ho off h1 h2 h3 => ?_⟩
  · by_cases hus : u = s
    · subst hus
      rw [hself] at hoff hp ⊢
      exact hpresent hlu off hoff hp
    · rw [hne u hus] at hoff hp ⊢
      have hlu' := hlive u hus hlu
      rw [hbytes _ (byte_apart hI hl hlu' hus hoff)]
      exact h.present u hlu' off hoff hp
  · by_cases hus : u = s
    · subst hus
      rw [hself] at ho h1 h2 h3 ⊢
      exact hkept hun hlu o ho off h1 h2 h3
    · rw [hne u hus] at ho h1 h2 h3 ⊢
      have hlu' := hlive u hus hlu
      exact h.kept (hu hun) u hlu' o (hstore u hus hlu' o ho) off h1 h2 h3

/-- A dropped recipe is not found; the others are. -/
theorem drop_some {p : Peer} {id i : ℕ} {o : Output} (h : (p.drop id).store i = some o) :
    i ≠ id ∧ p.store i = some o := by
  by_cases hi : i = id
  · subst hi
    simp [Peer.drop] at h
  · exact ⟨hi, by simpa [Peer.drop, hi] using h⟩

/-! ### Each change keeps the relation -/

theorem Holds.restore {w : World} {s : ℕ} {x : Extent} {o : Output} (h : Holds w plain)
    (hI : Inv w) (hl : w.Live s) (hx : ColdExtent (w.buffers s) x) (hu : w.channelBroken = false)
    (ho : w.peer.store (w.buffers s).id = some o) (t : ℕ) :
    Holds (applyRestore w s x
      (fun i => o.byte (x.offset - (w.buffers s).recipeOffset + i)) t) plain := by
  have hb := hI.buffer s hl
  have hfirst := hb.toShaped.first_mul
  have hmul1 := Nat.mul_le_mul_right PAGE hx.first_ge
  have hmul2 := Nat.mul_le_mul_right PAGE hx.last_le
  have hmul3 := Nat.mul_le_mul_right PAGE hb.toShaped.last_le
  have hcount := hb.toShaped.pageCount_mul
  have h1 := hx.offset_eq
  have h2 := hx.length_eq
  have h3 := hx.offset_lt
  have hbytes : ∀ a, (applyRestore w s x
      (fun i => o.byte (x.offset - (w.buffers s).recipeOffset + i)) t).memory.bytes a =
      if (w.buffers s).data + x.offset ≤ a ∧ a < (w.buffers s).data + x.offset + x.length then
        o.byte (x.offset - (w.buffers s).recipeOffset + (a - ((w.buffers s).data + x.offset)))
      else w.memory.bytes a := fun a => rfl
  refine h.touch hI hl rfl id (fun a ha => ?_) (fun _ _ _ _ hs => hs) (fun _ off hoff hp => ?_)
    fun _ _ o' ho' off r1 r2 r3 => ?_
  · rw [hbytes, if_neg (by omega)]
  · show _ = plain ((w.buffers s).data + off)
    change (applyRestore w s x _ t).memory.bytes ((w.buffers s).data + off) = _
    rw [hbytes]
    by_cases hin : x.first ≤ off / PAGE ∧ off / PAGE < x.last
    · -- a cold page of the region: the byte comes from the worker
      have hcold := hx.cold _ hin.1 hin.2
      have hreg : InRegion (w.buffers s) (off / PAGE) :=
        ⟨le_trans hx.first_ge hin.1, lt_of_lt_of_le hin.2 hx.last_le⟩
      obtain ⟨c1, c2⟩ := hb.toShaped.covered hoff hreg
      have hlow : x.first * PAGE ≤ off := by
        have := Nat.mul_le_mul_right PAGE hin.1
        have := Nat.div_mul_le_self off PAGE
        omega
      have hhigh : off < x.last * PAGE := (Nat.div_lt_iff_lt_mul PAGE_pos).mp hin.2
      rw [if_pos (by omega)]
      have := h.kept hu s hl o ho off c1 c2 (by rw [hcold]; simp)
      rw [← this]
      congr 1
      omega
    · have hp' : (w.buffers s).Present (off / PAGE) :=
        (restored_present.mp hp).resolve_right hin
      have hout : off < x.first * PAGE ∨ x.last * PAGE ≤ off := by
        rw [not_and_or, Nat.not_le, Nat.not_lt] at hin
        rcases hin with hin | hin
        · exact Or.inl ((Nat.div_lt_iff_lt_mul PAGE_pos).mp hin)
        · exact Or.inr ((Nat.le_div_iff_mul_le PAGE_pos).mp hin)
      rw [if_neg (by omega)]
      exact h.present s hl off hoff hp'
  · refine h.kept hu s hl o' ho' off r1 r2 fun hd => r3 ?_
    -- a dirty page is not among the cold ones
    show Span.fill (w.buffers s).pages x.first x.last .clean (off / PAGE) = .dirty
    rcases Span.fill_cases (w.buffers s).pages x.first x.last .clean (off / PAGE) with
      ⟨g1, g2, -⟩ | ⟨-, g2⟩
    · rw [hx.cold _ g1 g2] at hd
      cases hd
    · rw [g2]
      exact hd

theorem Holds.enroll {w : World} {s : ℕ} {hd : Header} {o : Output} (h : Holds w plain)
    (hI : Inv w) (hl : w.Live s) (hs : (w.buffers s).state = .resident) {region : Bool}
    (hm : matchesAllocation region (w.buffers s).data (w.buffers s).stats.length hd = true)
    (heq : ∀ i < hd.length, o.byte i = w.memory.bytes (hd.output + i)) (g : Registration) (t : ℕ) :
    Holds ({ w with
      peer := w.peer.commit (w.buffers s).id o
      memory := w.memory.mprotect hd.output (rounded hd.length) .read }.setBuffer s
        (sealedBuffer (w.buffers s) hd g t)) plain := by
  have hb := hI.buffer s hl
  obtain ⟨m1, -, m3, -, -⟩ := matches_facts hm
  have hall : ∀ off < (w.buffers s).stats.length, (w.buffers s).Present (off / PAGE) :=
    fun off hoff => by
      unfold Buffer.Present
      rw [hb.resident hs _ (hb.toShaped.page_lt hoff)]
      simp
  refine h.touch hI hl rfl id (fun _ _ => rfl) (fun u hus hlu o' ho' => ?_)
    (fun _ off hoff _ => h.present s hl off hoff (hall off hoff)) fun _ _ o' ho' off r1 r2 _ => ?_
  · have hid : (w.buffers u).id ≠ (w.buffers s).id := fun he => hus (hI.ids u s hlu hl he)
    change (if _ then _ else _) = _ at ho'
    rwa [if_neg hid] at ho'
  · have ho : o' = o := by
      change (if (w.buffers s).id = (w.buffers s).id then _ else _) = _ at ho'
      rw [if_pos rfl] at ho'
      exact (Option.some.inj ho').symm
    subst ho
    change hd.output - (w.buffers s).data ≤ off at r1
    change off < hd.output - (w.buffers s).data + hd.length at r2
    show o'.byte (off - (hd.output - (w.buffers s).data)) = plain ((w.buffers s).data + off)
    have hoff : off < (w.buffers s).stats.length := by omega
    rw [heq _ (by omega), ← h.present s hl off hoff (hall off hoff)]
    congr 1
    omega

theorem Holds.discard {w : World} {s : ℕ} (h : Holds w plain) (hI : Inv w) (hl : w.Live s)
    (hs : (w.buffers s).state = .sealed ∨ (w.buffers s).state = .evicted) :
    Holds (applyDiscard w s) plain := by
  have hb := hI.buffer s hl
  have hfirst := hb.toShaped.first_mul
  have hlast := hb.toShaped.last_mul
  have hmul := Nat.mul_le_mul_right PAGE hb.toShaped.last_le
  have hcount := hb.toShaped.pageCount_mul
  have hbytes : ∀ a, (applyDiscard w s).memory.bytes a =
      if (w.buffers s).data + (w.buffers s).recipeOffset ≤ a ∧
        a < (w.buffers s).data + (w.buffers s).recipeOffset + rounded (w.buffers s).recipeLength
      then 0 else w.memory.bytes a := fun a => rfl
  have hpages := discarded_pages hb.toShaped
  refine h.touch hI hl rfl id (fun a ha => ?_) (fun _ _ _ _ ho => ho) (fun _ off hoff hp => ?_)
    fun hu _ o ho off r1 r2 r3 => ?_
  · rw [hbytes, if_neg (by omega)]
  · show (applyDiscard w s).memory.bytes ((w.buffers s).data + off) = plain _
    rcases hpages (off / PAGE) with ⟨-, hc⟩ | ⟨hn, hk⟩
    · exact absurd hc hp
    · -- a page outside the region keeps its bytes
      have hout : off < (w.buffers s).regionFirst * PAGE ∨
          (w.buffers s).regionLast * PAGE ≤ off := by
        unfold InRegion at hn
        rw [not_and_or, Nat.not_le, Nat.not_lt] at hn
        rcases hn with hn | hn
        · exact Or.inl ((Nat.div_lt_iff_lt_mul PAGE_pos).mp hn)
        · exact Or.inr ((Nat.le_div_iff_mul_le PAGE_pos).mp hn)
      rw [hbytes, if_neg (by omega)]
      refine h.present s hl off hoff ?_
      unfold Buffer.Present at *
      rwa [hk] at hp
  · refine h.kept hu s hl o ho off r1 r2 fun hd => ?_
    have hreg := hb.toShaped.region_of_covered r1 r2
    rcases hs with hs | hs
    · rw [hb.sealedClean hs _ hreg] at hd
      cases hd
    · rcases (hb.evictedRegion hs).1 _ hreg with hc | hc <;> rw [hc] at hd <;> cases hd

/-- **Every change keeps the relation.** -/
theorem Change.holds {w w' : World} (c : Change w w') (hI : Inv w) (h : Holds w plain) :
    Holds w' plain := by
  cases c with
  | note hb hm hi hn hr hc hp =>
    have hlive : ∀ s, w'.Live s → w.Live s := fun s hs => by
      unfold World.Live at *
      rw [← (hb s).data]
      exact hs
    refine ⟨fun s hl off hoff hpr => ?_, fun hu s hl o ho off r1 r2 r3 => ?_⟩
    · unfold Buffer.Present at hpr
      rw [(hb s).pages] at hpr
      rw [(hb s).length] at hoff
      rw [hm, (hb s).data]
      exact h.present s (hlive s hl) off hoff hpr
    · rw [(hb s).id, hp] at ho
      rw [(hb s).recipeOffset] at r1 r2 ⊢
      rw [(hb s).recipeLength] at r2
      rw [(hb s).pages] at r3
      rw [(hb s).data]
      exact h.kept (hc ▸ hu) s (hlive s hl) o ho off r1 r2 r3
  | lose p => exact ⟨h.present, fun hu => Bool.noConfusion hu⟩
  | restore s x o t hl hx hu ho => exact h.restore hI hl hx hu ho t
  | unlock s first last hl _ _ hp =>
    refine h.touch hI hl rfl id (fun _ _ => rfl) (fun _ _ _ _ ho => ho) (fun _ off hoff hpr => ?_)
      fun hu _ o ho off r1 r2 r3 => ?_
    · refine h.present s hl off hoff ?_
      exact (written_present.mp hpr).elim id fun hin => hp _ hin.1 hin.2
    · refine h.kept hu s hl o ho off r1 r2 fun hd => r3 ?_
      show Span.fill (w.buffers s).pages first last .dirty (off / PAGE) = .dirty
      unfold Span.fill
      split_ifs
      · rfl
      · exact hd
  | retire s n hl _ _ =>
    exact h.touch hI hl rfl id (fun _ _ => rfl) (fun u _ _ o ho => (drop_some ho).2)
      (fun _ off hoff hpr => h.present s hl off hoff hpr)
      fun _ _ o ho => absurd rfl (drop_some ho).1
  | withdraw s hl _ =>
    exact h.touch hI hl (b := w.buffers s) (Function.update_eq_self _ _).symm id (fun _ _ => rfl)
      (fun u _ _ o ho => (drop_some ho).2) (fun _ off hoff hpr => h.present s hl off hoff hpr)
      fun _ _ o ho => absurd rfl (drop_some ho).1
  | enroll s hd g t o hl hs hm _ heq =>
    obtain ⟨region, hm⟩ := hm
    exact h.enroll hI hl hs hm heq g t
  | discard s hl hs => exact h.discard hI hl hs
  | release s l p hl hr hp =>
    refine h.touch hI hl rfl id (fun _ _ => rfl) (fun u _ _ o ho => ?_)
      (fun hd => absurd rfl (applyRelease_live hd).1) fun _ hd =>
        absurd rfl (applyRelease_live hd).1
    rcases hp with rfl | rfl
    · exact ho
    · exact (drop_some ho).2

theorem Steps.holds {w w' : World} (c : Steps w w') (hI : Inv w) (h : Holds w plain) :
    Holds w' plain := by
  induction c with
  | refl => exact h
  | tail hs hc ih => exact Change.holds hc (Steps.inv hs hI) ih

/-! ### Steps and runs -/

theorem Holds.store {w : World} (h : Holds w plain) (hI : Inv w) {a : ℕ}
    (hp : w.memory.permits a true = true) (v : UInt8) :
    Holds { w with memory := w.memory.store a v } (Function.update plain a v) := by
  refine ⟨fun s hl off hoff hpr => ?_, fun hu s hl o ho off r1 r2 r3 => ?_⟩
  · show Function.update w.memory.bytes a v _ = Function.update plain a v _
    by_cases ha : (w.buffers s).data + off = a
    · rw [ha, Function.update_self, Function.update_self]
    · rw [Function.update_of_ne ha, Function.update_of_ne ha]
      exact h.present s hl off hoff hpr
  · have hb := hI.buffer s hl
    have hlt : off < (w.buffers s).mapped := by
      have h1 := hb.recipe_le
      have h2 := hb.mapped_eq
      have h3 := le_rounded (w.buffers s).stats.length
      change off < (w.buffers s).recipeOffset + (w.buffers s).recipeLength at r2
      omega
    have hne : (w.buffers s).data + off ≠ a := by
      rintro rfl
      have := (permits_iff hI hl (Nat.le_add_right _ _) (by omega) true).mp hp
      rw [Nat.add_sub_cancel_left] at this
      exact r3 (this.2 rfl)
    rw [Function.update_of_ne hne]
    exact h.kept hu s hl o ho off r1 r2 r3

theorem Holds.place {w : World} {slot p size : ℕ} (h : Holds w plain) (hI : Inv w)
    (hfree : (w.buffers slot).data = 0) (hp : placeable w p (rounded size) = true) :
    Holds (place w slot p size) (Span.fill plain p (p + rounded size) 0) := by
  have hbytes : ∀ a, (Api.place w slot p size).memory.bytes a =
      Span.fill w.memory.bytes p (p + rounded size) 0 a := fun _ => rfl
  have hout : ∀ s, w.Live s → ∀ off < (w.buffers s).stats.length,
      (w.buffers s).data + off < p ∨ p + rounded size ≤ (w.buffers s).data + off := by
    intro s hl off hoff
    have h1 := placeable_apart hI hp hl
    have h2 := (hI.buffer s hl).mapped_eq
    have h3 := le_rounded (w.buffers s).stats.length
    omega
  refine ⟨fun s hl off hoff hpr => ?_, fun hu s hl o ho off r1 r2 r3 => ?_⟩
  · rw [hbytes]
    rcases place_live hl with rfl | hl'
    · rw [place_self] at hoff ⊢
      have h3 := le_rounded size
      change off < size at hoff
      show Span.fill _ p _ 0 (p + off) = Span.fill _ p _ 0 (p + off)
      rw [Span.fill_inside _ _ (by omega) (by omega), Span.fill_inside _ _ (by omega) (by omega)]
    · rw [place_other (ne_of_free hl' hfree)] at hoff hpr ⊢
      have := hout s hl' off hoff
      rw [Span.fill_outside _ _ this, Span.fill_outside _ _ this]
      exact h.present s hl' off hoff hpr
  · rcases place_live hl with rfl | hl'
    · rw [place_self] at r3
      exact absurd rfl r3
    · rw [place_other (ne_of_free hl' hfree)] at ho r1 r2 r3 ⊢
      have hle := (hI.buffer s hl').recipe_le
      rw [Span.fill_outside _ _ (hout s hl' off (by omega))]
      exact h.kept hu s hl' o ho off r1 r2 r3

/-- **Every step keeps the relation**, with the plain memory taking the same step. -/
theorem Effect.holds {w w' : World} {op : Op} {r : Ret} (e : Effect w op r w') (hI : Inv w)
    (h : Holds w plain) : Holds w' (plainStep plain (op, r)) := by
  cases e with
  | moves hm hq =>
    rw [plainStep_quiet hq]
    exact Steps.holds hm.steps hI h
  | stored hm hp => exact (Steps.holds hm.steps hI h).store (hm.steps.inv hI) hp _
  | placed hm _ h2 _ _ h5 =>
    rw [plainStep, if_neg (placeable_address h5).1]
    exact (Steps.holds hm.steps hI h).place (hm.steps.inv hI) h2 h5
  | released hm hl hr hp =>
    exact Change.holds (.release _ _ _ hl hr hp) (hm.steps.inv hI) (Steps.holds hm.steps hI h)
  | forsaken _ _ hm =>
    refine Steps.holds hm.steps (hI.peer _ _) ⟨h.present, fun hu s hl o ho => ?_⟩
    exact h.kept hu s hl o (drop_some ho).2

theorem Runs.holds {w w' : World} {events : List Event} (h : Runs w events w') (hI : Inv w) :
    ∀ {plain : Plain}, Holds w plain → Holds w' (plainAfter plain events) := by
  induction h with
  | nil => exact fun hh => hh
  | cons hs _ ih =>
    intro plain hh
    have he := step_effect hI hs
    exact ih (Effect.inv he hI) (Effect.holds he hI hh)

/-- **The pager is transparent.** After any run, a read of a byte of a live buffer below its
requested size returns the byte of the plain memory after the same run; only `pager_failure` can
keep it from returning. -/
theorem read_transparent (arena : Option Arena) (memory : Memory) (events : List Event) (w : World)
    (h : Runs (World.initial arena memory) events w) (s : ℕ) (hl : w.Live s) (off : ℕ)
    (hoff : off < (w.buffers s).stats.length) (c : Caller) (e : MaterializeEnv) :
    match readByte c e w ((w.buffers s).data + off) with
    | .ok (_, v) => v = plainAfter memory.bytes events ((w.buffers s).data + off)
    | .error stop => stop = .pagerFailure := by
  have hI0 := initial_inv arena memory
  have hI := Runs.inv h hI0
  have hh : Holds w (plainAfter memory.bytes events) := Runs.holds h hI0
    ⟨fun s hs => absurd rfl hs.2, fun _ s hs => absurd rfl hs.2⟩
  have hmap : off < (w.buffers s).mapped := by
    have h2 := (hI.buffer s hl).mapped_eq
    have h3 := le_rounded (w.buffers s).stats.length
    omega
  unfold readByte
  rcases ha : access c e w ((w.buffers s).data + off) false with stop | w'
  · exact access_stop hI hl (Nat.le_add_right _ _) (by omega) ha
  · obtain ⟨hm, hp⟩ := access_moves hI ha
    have hI' := hm.steps.inv hI
    have hl' := (hm.live s).mpr hl
    obtain ⟨e1, e2, -, e4⟩ := hm.mapping s
    have hpr := ((permits_iff hI' hl' (by rw [e1]; exact Nat.le_add_right _ _)
      (by rw [e1, e2]; omega) false).mp hp).1
    rw [e1, Nat.add_sub_cancel_left] at hpr
    have := (Steps.holds hm.steps hI hh).present s hl' off (by rw [e4]; exact hoff) hpr
    rw [e1] at this
    exact this

/-- The sample run, with a read of the page it has evicted. -/
theorem read_transparent_sample : ∃ events w,
    Runs (World.initial none sampleMemory) events w ∧ w.Live 0 ∧ (w.buffers 0).pages 0 = .cold ∧
      match readByte Caller.owner sampleMaterialize w ((w.buffers 0).data + 0) with
      | .ok (_, v) => v = plainAfter sampleMemory.bytes events ((w.buffers 0).data + 0)
      | .error stop => stop = .pagerFailure := by
  obtain ⟨x, hr, -, hl, hc, hlen⟩ := (@play_any (World.initial none sampleMemory) sampleOps
      (fun x => x.1.Live 0 ∧ (x.1.buffers 0).pages 0 = .cold ∧
      0 < (x.1.buffers 0).stats.length)) (by decide +kernel)
  exact ⟨x.2, x.1, hr, hl, hc, read_transparent none sampleMemory x.2 x.1 hr 0 hl 0 hlen _ _⟩

end Afterfree.Runtime.Transparency
