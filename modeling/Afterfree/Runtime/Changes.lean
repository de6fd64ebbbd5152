import Afterfree.Runtime.Lookup
import Afterfree.Runtime.Representation

/-!
# What a step can do

Every entry point changes the world by a sequence of a few elementary changes (`Change`): it
restores or unlocks pages, enrolls, withdraws or retires a recipe, discards a region, releases a
buffer, loses the channel, or only touches bookkeeping. `Inv` is the invariant of the whole world,
and each change keeps it; the entry points are decomposed into changes in `Decompose`.
-/

namespace Afterfree.Runtime.Changes

open Afterfree.Common Afterfree.Lib Afterfree.Runtime.State Afterfree.Runtime.Pager
open Afterfree.Runtime.Submit Afterfree.Runtime.Api Afterfree.Runtime.Lookup
open Afterfree.Runtime.Representation

/-! ### The invariant of the world -/

/-- The protection that belongs to a page state. -/
def protOf : PageState → Prot
  | .cold => .none
  | .clean => .read
  | .dirty => .readWrite

/-- The protections of a buffer's pages are those of their states. -/
def Guarded (m : Memory) (b : Buffer) : Prop :=
  ∀ i < b.pageCount, m.prot (b.data / PAGE + i) = protOf (b.pages i)

/-- The resident pages a slot accounts for. -/
def weight (b : Buffer) : ℕ := if b.data ≠ 0 then b.residentPages else 0

/-- The resident pages of all slots. -/
def total (buffers : ℕ → Buffer) : ℕ := ∑ s ∈ Finset.range MAX_SLOTS, weight (buffers s)

/-- A sealed buffer and a buffer with a cold page have their recipe. -/
def Backed (b : Buffer) : Prop :=
  (b.state = .sealed ∨ ∃ i < b.pageCount, b.pages i = .cold) → b.recipeLive = true

/-- Two contents of a slot that agree in everything the invariant speaks of. -/
structure SameCore (b b' : Buffer) : Prop where
  data : b'.data = b.data
  mapped : b'.mapped = b.mapped
  recipeOffset : b'.recipeOffset = b.recipeOffset
  recipeLength : b'.recipeLength = b.recipeLength
  id : b'.id = b.id
  state : b'.state = b.state
  pages : b'.pages = b.pages
  residentPages : b'.residentPages = b.residentPages
  recipeLive : b'.recipeLive = b.recipeLive
  length : b'.stats.length = b.stats.length
  pageBytes : b.state ≠ .resident → b'.stats.pageBytes = b.stats.pageBytes

theorem SameCore.refl (b : Buffer) : SameCore b b :=
  ⟨rfl, rfl, rfl, rfl, rfl, rfl, rfl, rfl, rfl, rfl, fun _ => rfl⟩

theorem SameCore.symm {b b' : Buffer} (h : SameCore b b') : SameCore b' b :=
  ⟨h.data.symm, h.mapped.symm, h.recipeOffset.symm, h.recipeLength.symm, h.id.symm, h.state.symm,
    h.pages.symm, h.residentPages.symm, h.recipeLive.symm, h.length.symm,
    fun hs => (h.pageBytes (h.state ▸ hs)).symm⟩

theorem SameCore.trans {b1 b2 b3 : Buffer} (h : SameCore b1 b2) (h' : SameCore b2 b3) :
    SameCore b1 b3 :=
  ⟨h'.data.trans h.data, h'.mapped.trans h.mapped, h'.recipeOffset.trans h.recipeOffset,
    h'.recipeLength.trans h.recipeLength, h'.id.trans h.id, h'.state.trans h.state,
    h'.pages.trans h.pages, h'.residentPages.trans h.residentPages,
    h'.recipeLive.trans h.recipeLive, h'.length.trans h.length,
    fun hs => (h'.pageBytes (by rw [h.state]; exact hs)).trans (h.pageBytes hs)⟩

/-- **The invariant of the world.** -/
structure Inv (w : World) : Prop where
  indexed : Indexed w
  buffer : ∀ s, w.Live s → BufferInv (w.buffers s)
  guarded : ∀ s, w.Live s → Guarded w.memory (w.buffers s)
  ids : ∀ s t, w.Live s → w.Live t → (w.buffers s).id = (w.buffers t).id → s = t
  ids_lt : ∀ s, w.Live s → (w.buffers s).id < w.nextid
  managed : w.residentManaged = PAGE * total w.buffers
  backed : ∀ s, w.Live s → Backed (w.buffers s)
  vacant : ∀ s, (w.buffers s).data = 0 → SameCore Buffer.clear (w.buffers s)

/-! ### Elementary changes -/

/-- The buffer of a slot after its recipe has been registered for the region of `h`. -/
def sealedBuffer (b : Buffer) (h : Header) (g : Registration) (elapsed : ℕ) : Buffer :=
  let offset := h.output - b.data
  { b with
    recipeOffset := offset
    recipeLength := h.length
    state := .sealed
    recipeLive := true
    pages := Span.fill b.pages (offset / PAGE) ((offset + rounded h.length) / PAGE) .clean
    stats := { b.stats with
      validationNs := elapsed
      retainedBytes := g.retainedBytes + b.mapped / PAGE
      pageBytes := g.pageBytes
      backend := g.backend } }

/-- The world after the buffer of slot `s` has been unmapped and its slot cleared. -/
def applyRelease (w : World) (s : ℕ) (l : List ℕ) (p : Peer) : World :=
  { w with
    allocationIndex := l
    peer := p
    memory := w.memory.mprotect (w.buffers s).data (w.buffers s).mapped .none
    residentManaged := w.residentManaged - (w.buffers s).residentPages * PAGE }.setBuffer s
      Buffer.clear

/-- The elementary changes of the world. -/
inductive Change : World → World → Prop
  /-- Counters, statistics and messages. -/
  | note {w w' : World} : (∀ s, SameCore (w.buffers s) (w'.buffers s)) →
      w'.memory = w.memory → w'.allocationIndex = w.allocationIndex → w'.nextid = w.nextid →
      w'.residentManaged = w.residentManaged → w'.channelBroken = w.channelBroken →
      w'.peer = w.peer → Change w w'
  /-- An exchange fails; the worker's store is unknown from here on. -/
  | lose {w : World} (p : Peer) : Change w { w with channelBroken := true, peer := p }
  /-- Cold pages come back with the bytes the worker validated. -/
  | restore {w : World} (s : ℕ) (x : Extent) (o : Output) (t : ℕ) : w.Live s →
      ColdExtent (w.buffers s) x → w.channelBroken = false →
      w.peer.store (w.buffers s).id = some o →
      Change w (applyRestore w s x
        (fun i => o.byte (x.offset - (w.buffers s).recipeOffset + i)) t)
  /-- Present pages become writable. -/
  | unlock {w : World} (s first last : ℕ) : w.Live s → last ≤ (w.buffers s).pageCount →
      first < last → (∀ i, first ≤ i → i < last → (w.buffers s).Present i) →
      Change w (applyUnlock w s first last)
  /-- A pinned buffer without a cold page gives up its recipe. -/
  | retire {w : World} (s n : ℕ) : w.Live s → (w.buffers s).state = .pinned →
      (∀ i < (w.buffers s).pageCount, (w.buffers s).Present i) →
      Change w ({ w with peer := w.peer.drop (w.buffers s).id }.setBuffer s
        { w.buffers s with
          recipeLive := false, stats := { (w.buffers s).stats with retainedBytes := n } })
  /-- A registration is taken back. -/
  | withdraw {w : World} (s : ℕ) : w.Live s → (w.buffers s).state = .resident →
      Change w { w with peer := w.peer.drop (w.buffers s).id }
  /-- A registration is complete: the worker keeps an output equal to the region. -/
  | enroll {w : World} (s : ℕ) (h : Header) (g : Registration) (t : ℕ) (o : Output) : w.Live s →
      (w.buffers s).state = .resident →
      (∃ region, matchesAllocation region (w.buffers s).data (w.buffers s).stats.length h = true) →
      o.length = h.length →
      (∀ i < h.length, o.byte i = w.memory.bytes (h.output + i)) →
      Change w ({ w with
          peer := w.peer.commit (w.buffers s).id o
          memory := w.memory.mprotect h.output (rounded h.length) .read }.setBuffer s
        (sealedBuffer (w.buffers s) h g t))
  /-- The region of a sealed or evicted buffer is discarded. -/
  | discard {w : World} (s : ℕ) : w.Live s →
      (w.buffers s).state = .sealed ∨ (w.buffers s).state = .evicted →
      Change w (applyDiscard w s)
  /-- A buffer is unmapped and its slot cleared. -/
  | release {w : World} (s : ℕ) (l : List ℕ) (p : Peer) : w.Live s →
      w.indexRemove (w.buffers s).data = some { w with allocationIndex := l } →
      p = w.peer ∨ p = w.peer.drop (w.buffers s).id →
      Change w (applyRelease w s l p)

/-! ### Sums and protections -/

theorem total_update (f : ℕ → Buffer) {s : ℕ} (hs : s < MAX_SLOTS) (b : Buffer) :
    total (Function.update f s b) + weight (f s) = total f + weight b := by
  unfold total
  have hmem : s ∈ Finset.range MAX_SLOTS := Finset.mem_range.mpr hs
  rw [← Finset.add_sum_erase _ _ hmem, ← Finset.add_sum_erase _ (fun s => weight (f s)) hmem]
  have hrest : ∑ x ∈ (Finset.range MAX_SLOTS).erase s, weight (Function.update f s b x) =
      ∑ x ∈ (Finset.range MAX_SLOTS).erase s, weight (f x) :=
    Finset.sum_congr rfl fun x hx => by
      rw [Function.update_of_ne (Finset.ne_of_mem_erase hx)]
  rw [hrest]
  simp only [Function.update_self]
  omega

theorem weight_le_total (f : ℕ → Buffer) {s : ℕ} (hs : s < MAX_SLOTS) : weight (f s) ≤ total f :=
  Finset.single_le_sum (f := fun s => weight (f s)) (fun _ _ => Nat.zero_le _)
    (Finset.mem_range.mpr hs)

theorem weight_live {b : Buffer} (h : b.data ≠ 0) : weight b = b.residentPages := if_pos h

theorem mprotect_page (m : Memory) (d k n : ℕ) (p : Prot) (j : ℕ) :
    (m.mprotect (d + k * PAGE) (n * PAGE) p).prot j =
      if d / PAGE + k ≤ j ∧ j < d / PAGE + k + n then p else m.prot j := by
  have e1 : (d + k * PAGE) / PAGE = d / PAGE + k := by
    rw [Nat.add_mul_div_right _ _ PAGE_pos]
  have e2 : (d + k * PAGE + n * PAGE) / PAGE = d / PAGE + k + n := by
    rw [Nat.add_mul_div_right _ _ PAGE_pos, Nat.add_mul_div_right _ _ PAGE_pos]
  unfold Memory.mprotect Span.fill
  simp only [e1, e2]

theorem pages_apart {b c : Buffer} (hb : Shaped b) (hc : Shaped c)
    (h : b.data + b.mapped ≤ c.data ∨ c.data + c.mapped ≤ b.data) {i : ℕ} (hi : i < c.pageCount) :
    c.data / PAGE + i < b.data / PAGE ∨ b.data / PAGE + b.pageCount ≤ c.data / PAGE + i := by
  have h1 := hb.pageCount_mul
  have h2 := hc.pageCount_mul
  have h3 := hb.aligned
  have h4 := hc.aligned
  unfold PAGE at *
  omega

/-! ### Changes of one slot -/

/-- `w'` differs from `w` in the contents of slot `s`, whose mapping and id stay, in the memory of
that mapping, and in what the invariant does not speak of. -/
structure Touches (w w' : World) (s : ℕ) (b : Buffer) : Prop where
  buffers : w'.buffers = Function.update w.buffers s b
  index : w'.allocationIndex = w.allocationIndex
  nextid : w'.nextid = w.nextid
  data : b.data = (w.buffers s).data
  mapped : b.mapped = (w.buffers s).mapped
  id : b.id = (w.buffers s).id
  prot : ∀ k, k < (w.buffers s).data / PAGE ∨
    (w.buffers s).data / PAGE + (w.buffers s).pageCount ≤ k → w'.memory.prot k = w.memory.prot k
  managed : w'.residentManaged + PAGE * (w.buffers s).residentPages =
    w.residentManaged + PAGE * b.residentPages

section Touch

variable {w w' : World} {s : ℕ} {b : Buffer} (t : Touches w w' s b)
include t

theorem Touches.self : w'.buffers s = b := by rw [t.buffers]; simp

theorem Touches.other {u : ℕ} (hu : u ≠ s) : w'.buffers u = w.buffers u := by
  rw [t.buffers, Function.update_of_ne hu]

theorem Touches.same (u : ℕ) : (w'.buffers u).data = (w.buffers u).data ∧
    (w'.buffers u).mapped = (w.buffers u).mapped ∧ (w'.buffers u).id = (w.buffers u).id := by
  by_cases hu : u = s
  · subst hu
    rw [t.self]
    exact ⟨t.data, t.mapped, t.id⟩
  · rw [t.other hu]
    exact ⟨rfl, rfl, rfl⟩

theorem Touches.live {u : ℕ} : w'.Live u ↔ w.Live u := by
  unfold World.Live
  rw [(t.same u).1]

/-- **A change of one slot keeps the invariant** if the new contents satisfy it. -/
theorem Touches.inv (h : Inv w) (hl : w.Live s) (hb : BufferInv b) (hg : Guarded w'.memory b)
    (hk : Backed b) : Inv w' := by
  have hshape := (h.buffer s hl).toShaped
  refine ⟨h.indexed.congr t.index fun u => ⟨(t.same u).1, (t.same u).2.1⟩, fun u hu => ?_,
    fun u hu => ?_, fun u v hu hv he => ?_, fun u hu => ?_, ?_, fun u hu => ?_, fun u hu => ?_⟩
  · by_cases hus : u = s
    · subst hus
      rw [t.self]
      exact hb
    · rw [t.other hus]
      exact h.buffer u (t.live.mp hu)
  · by_cases hus : u = s
    · subst hus
      rw [t.self]
      exact hg
    · have hlu := t.live.mp hu
      rw [t.other hus]
      intro i hi
      rw [t.prot _ (pages_apart hshape (h.buffer u hlu).toShaped
        (h.indexed.apart hl hlu (Ne.symm hus)) hi)]
      exact h.guarded u hlu i hi
  · rw [(t.same u).2.2, (t.same v).2.2] at he
    exact h.ids u v (t.live.mp hu) (t.live.mp hv) he
  · rw [(t.same u).2.2, t.nextid]
    exact h.ids_lt u (t.live.mp hu)
  · have h1 := total_update w.buffers hl.1 b
    rw [weight_live hl.2, weight_live (by rw [t.data]; exact hl.2)] at h1
    have h2 := t.managed
    rw [h.managed] at h2
    rw [t.buffers]
    have h3 : PAGE * (total (Function.update w.buffers s b) + (w.buffers s).residentPages) =
        PAGE * (total w.buffers + b.residentPages) := by rw [h1]
    rw [Nat.mul_add, Nat.mul_add] at h3
    omega
  · by_cases hus : u = s
    · subst hus
      rw [t.self]
      exact hk
    · rw [t.other hus]
      exact h.backed u (t.live.mp hu)
  · rw [(t.same u).1] at hu
    have hus : u ≠ s := fun he => hl.2 (he ▸ hu)
    rw [t.other hus]
    exact h.vacant u hu

end Touch

/-! ### Each change keeps the invariant -/

theorem SameCore.inv {b b' : Buffer} (c : SameCore b b') (h : BufferInv b) : BufferInv b' := by
  have hregion : ∀ i, InRegion b' i ↔ InRegion b i := fun i => by
    unfold InRegion Buffer.regionFirst Buffer.regionLast
    rw [c.recipeOffset, c.recipeLength]
  have hcount : b'.pageCount = b.pageCount := by
    unfold Buffer.pageCount
    rw [c.mapped]
  have hpresent : b'.Present = b.Present := by
    unfold Buffer.Present
    rw [c.pages]
  refine ⟨⟨?_, ?_, ?_, ?_, ?_, ?_, ?_, ?_⟩, ?_, ?_, ?_, ?_, ?_, ?_⟩
  · rw [c.data]
    exact h.aligned
  · rw [c.mapped, c.length]
    exact h.mapped_eq
  · rw [c.length]
    exact h.length_pos
  · rw [c.length]
    exact h.length_le
  · rw [c.recipeOffset]
    exact h.offset_aligned
  · rw [c.recipeLength]
    exact h.recipe_pos
  · rw [c.recipeOffset, c.recipeLength, c.length]
    exact h.recipe_le
  · rw [c.recipeOffset, c.recipeLength, c.length]
    exact h.tail
  · rw [c.residentPages, h.counted, hcount]
    exact Span.count_congr fun i _ => by rw [hpresent]
  · intro i hi hn
    rw [c.pages]
    exact h.outside i (hcount ▸ hi) fun hr => hn ((hregion i).mpr hr)
  · intro hs i hi
    rw [c.pages]
    exact h.resident (c.state ▸ hs) i (hcount ▸ hi)
  · intro hs i hi
    rw [c.pages]
    exact h.sealedClean (c.state ▸ hs) i ((hregion i).mp hi)
  · intro hs
    obtain ⟨h1, i, h2, h3⟩ := h.evictedRegion (c.state ▸ hs)
    rw [c.pages]
    exact ⟨fun j hj => h1 j ((hregion j).mp hj), i, (hregion i).mpr h2, h3⟩
  · intro hp
    rw [c.pages]
    by_cases hs : b.state = .resident
    · exact Or.inr fun i hi => by
        rw [h.resident hs i (h.toShaped.inRegion_lt ((hregion i).mp hi))]
        simp
    · rcases h.whole ((c.pageBytes hs).symm.trans hp) with hw | hw
      · exact Or.inl fun i hi => hw i ((hregion i).mp hi)
      · exact Or.inr fun i hi => hw i ((hregion i).mp hi)

theorem Inv.note {w w' : World} (h : Inv w) (hb : ∀ s, SameCore (w.buffers s) (w'.buffers s))
    (hm : w'.memory = w.memory) (hi : w'.allocationIndex = w.allocationIndex)
    (hn : w'.nextid = w.nextid) (hr : w'.residentManaged = w.residentManaged) : Inv w' := by
  have hlive : ∀ s, w'.Live s ↔ w.Live s := fun s => by
    unfold World.Live
    rw [(hb s).data]
  have hcount : ∀ s, (w'.buffers s).pageCount = (w.buffers s).pageCount := fun s => by
    unfold Buffer.pageCount
    rw [(hb s).mapped]
  refine ⟨h.indexed.congr hi fun s => ⟨(hb s).data, (hb s).mapped⟩,
    fun s hs => (hb s).inv (h.buffer s ((hlive s).mp hs)), fun s hs => ?_, fun s t hs ht he => ?_,
    fun s hs => ?_, ?_, fun s hs => ?_, fun s hs => ?_⟩
  · intro i hlt
    rw [hm, (hb s).data, (hb s).pages]
    exact h.guarded s ((hlive s).mp hs) i (hcount s ▸ hlt)
  · rw [(hb s).id, (hb t).id] at he
    exact h.ids s t ((hlive s).mp hs) ((hlive t).mp ht) he
  · rw [(hb s).id, hn]
    exact h.ids_lt s ((hlive s).mp hs)
  · have htotal : total w'.buffers = total w.buffers := Finset.sum_congr rfl fun s _ => by
      unfold weight
      rw [(hb s).data, (hb s).residentPages]
    rw [hr, h.managed, htotal]
  · unfold Backed
    rw [(hb s).state, (hb s).pages, (hb s).recipeLive, hcount]
    exact h.backed s ((hlive s).mp hs)
  · rw [(hb s).data] at hs
    exact (h.vacant s hs).trans (hb s)

theorem Inv.peer {w : World} (h : Inv w) (p : Peer) (c : Bool) :
    Inv { w with peer := p, channelBroken := c } :=
  h.note (fun _ => SameCore.refl _) rfl rfl rfl rfl

/-! #### Restoring -/

theorem restore_touches {w : World} {s : ℕ} {x : Extent} (h : Inv w) (hl : w.Live s)
    (hx : ColdExtent (w.buffers s) x) (payload : ℕ → UInt8) (t : ℕ) :
    Touches w (applyRestore w s x payload t) s (restored (w.buffers s) x t) ∧
      Guarded (applyRestore w s x payload t).memory (restored (w.buffers s) x t) := by
  have hle := (h.buffer s hl).toShaped.last_le
  have h1 := hx.last_le
  have h2 := hx.first_lt
  have hprot : ∀ k, (applyRestore w s x payload t).memory.prot k =
      if (w.buffers s).data / PAGE + x.first ≤ k ∧
        k < (w.buffers s).data / PAGE + x.first + (x.last - x.first) then .read
      else w.memory.prot k := by
    intro k
    show (Memory.mprotect _ ((w.buffers s).data + x.offset) ((x.last - x.first) * PAGE) _).prot k =
      _
    rw [hx.offset_eq, mprotect_page]
    split_ifs with hk
    · rfl
    · show (Memory.mprotect _ _ _ _).prot k = _
      rw [mprotect_page, if_neg hk]
  refine ⟨⟨rfl, rfl, rfl, rfl, rfl, rfl, fun k hk => ?_, ?_⟩, fun i hi => ?_⟩
  · rw [hprot, if_neg (by omega)]
  · show w.residentManaged + (x.last - x.first) * PAGE + PAGE * (w.buffers s).residentPages =
      w.residentManaged + PAGE * ((w.buffers s).residentPages + (x.last - x.first))
    rw [Nat.mul_add, Nat.mul_comm (x.last - x.first) PAGE]
    omega
  · show (applyRestore w s x payload t).memory.prot ((w.buffers s).data / PAGE + i) = _
    rw [hprot]
    rcases Span.fill_cases (w.buffers s).pages x.first x.last .clean i with ⟨g1, g2, g3⟩ | ⟨g1, g2⟩
    · rw [if_pos (by omega)]
      show _ = protOf (Span.fill (w.buffers s).pages x.first x.last .clean i)
      rw [g3]
      rfl
    · rw [if_neg (by omega)]
      show _ = protOf (Span.fill (w.buffers s).pages x.first x.last .clean i)
      rw [g2]
      exact h.guarded s hl i hi

theorem Inv.restore {w : World} {s : ℕ} {x : Extent} (h : Inv w) (hl : w.Live s)
    (hx : ColdExtent (w.buffers s) x) (payload : ℕ → UInt8) (t : ℕ) :
    Inv (applyRestore w s x payload t) := by
  obtain ⟨ht, hg⟩ := restore_touches h hl hx payload t
  have hle := (h.buffer s hl).toShaped.last_le
  have h1 := hx.last_le
  have h2 := hx.first_lt
  refine ht.inv h hl (restored_inv (h.buffer s hl) hx t) hg fun _ => ?_
  exact h.backed s hl (Or.inr ⟨x.first, by omega, hx.cold x.first le_rfl h2⟩)

/-! #### Unlocking -/

theorem unlock_touches {w : World} {s first last : ℕ} (h : Inv w) (hl : w.Live s)
    (hlast : last ≤ (w.buffers s).pageCount) (hlt : first < last) :
    Touches w (applyUnlock w s first last) s (written (w.buffers s) first last) ∧
      Guarded (applyUnlock w s first last).memory (written (w.buffers s) first last) := by
  have hprot : ∀ k, (applyUnlock w s first last).memory.prot k =
      if (w.buffers s).data / PAGE + first ≤ k ∧
        k < (w.buffers s).data / PAGE + first + (last - first) then .readWrite
      else w.memory.prot k := fun k => mprotect_page _ _ _ _ _ _
  refine ⟨⟨rfl, rfl, rfl, rfl, rfl, rfl, fun k hk => ?_, rfl⟩, fun i hi => ?_⟩
  · rw [hprot, if_neg (by omega)]
  · show (applyUnlock w s first last).memory.prot ((w.buffers s).data / PAGE + i) =
      protOf (Span.fill (w.buffers s).pages first last .dirty i)
    rw [hprot]
    rcases Span.fill_cases (w.buffers s).pages first last .dirty i with ⟨g1, g2, g3⟩ | ⟨g1, g2⟩
    · rw [if_pos (by omega), g3]
      rfl
    · rw [if_neg (by omega), g2]
      exact h.guarded s hl i hi

theorem Inv.unlock {w : World} {s first last : ℕ} (h : Inv w) (hl : w.Live s)
    (hlast : last ≤ (w.buffers s).pageCount) (hlt : first < last)
    (hp : ∀ i, first ≤ i → i < last → (w.buffers s).Present i) :
    Inv (applyUnlock w s first last) := by
  obtain ⟨ht, hg⟩ := unlock_touches h hl hlast hlt
  refine ht.inv h hl (written_inv (h.buffer s hl) hp) hg fun hc => ?_
  refine h.backed s hl ?_
  rcases hc with hc | ⟨i, hi, hc⟩
  · left
    change (if _ then BufferState.pinned else (w.buffers s).state) = _ at hc
    split_ifs at hc
    exact hc
  · refine Or.inr ⟨i, hi, ?_⟩
    by_contra hn
    exact written_present.mpr (Or.inl hn) hc

/-! #### Sealing -/

theorem matches_facts {region : Bool} {a n : ℕ} {h : Header}
    (hm : matchesAllocation region a n h = true) :
    a ≤ h.output ∧ 0 < h.length ∧ h.output - a + h.length ≤ n ∧ (h.output - a) % PAGE = 0 ∧
      (h.length % PAGE = 0 ∨ h.output - a + h.length = n) := by
  unfold matchesAllocation at hm
  simp only [Bool.and_eq_true, Bool.not_eq_true', decide_eq_false_iff_not, decide_eq_true_eq,
    Bool.and_eq_false_iff, Bool.not_eq_false'] at hm
  obtain ⟨⟨⟨⟨⟨⟨-, h1⟩, h2⟩, h3⟩, h4⟩, h5⟩, h6⟩ := hm
  refine ⟨by omega, by omega, by omega, h5, ?_⟩
  rcases h6 with h6 | h6
  · exact Or.inl (by simpa using h6)
  · right
    simp only [ne_eq, not_not] at h6
    omega

theorem sealedBuffer_pages {b : Buffer} {h : Header} (g : Registration) (t i : ℕ) :
    (InRegion (sealedBuffer b h g t) i ∧ (sealedBuffer b h g t).pages i = .clean) ∨
      (¬ InRegion (sealedBuffer b h g t) i ∧ (sealedBuffer b h g t).pages i = b.pages i) := by
  rcases Span.fill_cases b.pages (sealedBuffer b h g t).regionFirst
    (sealedBuffer b h g t).regionLast .clean i with ⟨h1, h2, h3⟩ | ⟨h1, h2⟩
  · exact Or.inl ⟨⟨h1, h2⟩, h3⟩
  · refine Or.inr ⟨?_, h2⟩
    rintro ⟨g1, g2⟩
    omega

/-- **A registered recipe keeps the invariant.** -/
theorem sealed_inv {b : Buffer} {h : Header} (hb : BufferInv b) (hs : b.state = .resident)
    {region : Bool} (hm : matchesAllocation region b.data b.stats.length h = true)
    (g : Registration) (t : ℕ) : BufferInv (sealedBuffer b h g t) := by
  obtain ⟨-, m2, m3, m4, m5⟩ := matches_facts hm
  have hpages := sealedBuffer_pages (b := b) (h := h) g t
  have hall := hb.resident hs
  have hshape : Shaped (sealedBuffer b h g t) :=
    ⟨hb.aligned, hb.mapped_eq, hb.length_pos, hb.length_le, m4, m2, m3, m5⟩
  have hclean : ∀ i, InRegion (sealedBuffer b h g t) i →
      (sealedBuffer b h g t).pages i = .clean := by
    intro i hi
    rcases hpages i with ⟨-, hp⟩ | ⟨hn, -⟩
    · exact hp
    · exact absurd hi hn
  refine ⟨hshape, ?_, ?_, ?_, fun _ => hclean, ?_, ?_⟩
  · show b.residentPages = Nat.count (sealedBuffer b h g t).Present b.pageCount
    rw [hb.counted]
    refine Span.count_congr fun i hi => iff_of_true ?_ ?_
    · unfold Buffer.Present
      rw [hall i hi]
      simp
    · unfold Buffer.Present
      rcases hpages i with ⟨-, hp⟩ | ⟨-, hp⟩
      · rw [hp]
        simp
      · rw [hp, hall i hi]
        simp
  · intro i hi hn
    rcases hpages i with ⟨hr, -⟩ | ⟨-, hp⟩
    · exact absurd hr hn
    · rw [hp]
      exact hall i hi
  · intro hst
    cases hst
  · intro hst
    cases hst
  · intro _
    exact Or.inr fun i hi => by rw [hclean i hi]; simp

theorem Inv.enroll {w : World} {s : ℕ} {h : Header} (hw : Inv w) (hl : w.Live s)
    (hs : (w.buffers s).state = .resident) {region : Bool}
    (hm : matchesAllocation region (w.buffers s).data (w.buffers s).stats.length h = true)
    (g : Registration) (t : ℕ) (p : Peer) :
    Inv ({ w with
      peer := p
      memory := w.memory.mprotect h.output (rounded h.length) .read }.setBuffer s
        (sealedBuffer (w.buffers s) h g t)) := by
  have hb := hw.buffer s hl
  have hseal := sealed_inv hb hs hm g t
  obtain ⟨m1, -, -, m4, -⟩ := matches_facts hm
  have hfirst := hseal.toShaped.first_mul
  have hlast := hseal.toShaped.last_mul
  have hle := hseal.toShaped.last_le
  have hlt := hseal.toShaped.first_lt_last
  change _ = h.output - (w.buffers s).data at hfirst
  change _ = h.output - (w.buffers s).data + rounded h.length at hlast
  change _ ≤ (w.buffers s).pageCount at hle
  have e1 : h.output =
      (w.buffers s).data + (sealedBuffer (w.buffers s) h g t).regionFirst * PAGE := by omega
  have e2 : rounded h.length = ((sealedBuffer (w.buffers s) h g t).regionLast -
      (sealedBuffer (w.buffers s) h g t).regionFirst) * PAGE := by
    rw [Nat.sub_mul]
    omega
  have hprot : ∀ k, (w.memory.mprotect h.output (rounded h.length) .read).prot k =
      if (w.buffers s).data / PAGE + (sealedBuffer (w.buffers s) h g t).regionFirst ≤ k ∧
        k < (w.buffers s).data / PAGE + (sealedBuffer (w.buffers s) h g t).regionFirst +
          ((sealedBuffer (w.buffers s) h g t).regionLast -
            (sealedBuffer (w.buffers s) h g t).regionFirst) then .read
      else w.memory.prot k := by
    intro k
    rw [e2]
    conv_lhs => rw [e1]
    exact mprotect_page _ _ _ _ _ _
  refine Touches.inv (w := w) (s := s) (b := sealedBuffer (w.buffers s) h g t)
    ⟨rfl, rfl, rfl, rfl, rfl, rfl, fun k hk => ?_, rfl⟩ hw hl hseal (fun i hi => ?_) fun _ => rfl
  · show (w.memory.mprotect h.output (rounded h.length) .read).prot k = _
    rw [hprot, if_neg (by omega)]
  · show (w.memory.mprotect h.output (rounded h.length) .read).prot
      ((w.buffers s).data / PAGE + i) = _
    rw [hprot]
    rcases sealedBuffer_pages (b := w.buffers s) (h := h) g t i with ⟨⟨r1, r2⟩, hp⟩ | ⟨hn, hp⟩
    · rw [if_pos (by omega), hp]
      rfl
    · unfold InRegion at hn
      rw [if_neg (by omega), hp]
      exact hw.guarded s hl i hi

/-! #### Discarding -/

theorem Inv.discard {w : World} {s : ℕ} (h : Inv w) (hl : w.Live s)
    (hs : (w.buffers s).state = .sealed ∨ (w.buffers s).state = .evicted) :
    Inv (applyDiscard w s) := by
  have hb := h.buffer s hl
  have hfirst := hb.toShaped.first_mul
  have hlast := hb.toShaped.last_mul
  have hle := hb.toShaped.last_le
  have hlt := hb.toShaped.first_lt_last
  have e2 : rounded (w.buffers s).recipeLength =
      ((w.buffers s).regionLast - (w.buffers s).regionFirst) * PAGE := by
    rw [Nat.sub_mul]
    omega
  have hprot : ∀ k, (applyDiscard w s).memory.prot k =
      if (w.buffers s).data / PAGE + (w.buffers s).regionFirst ≤ k ∧
        k < (w.buffers s).data / PAGE + (w.buffers s).regionFirst +
          ((w.buffers s).regionLast - (w.buffers s).regionFirst) then .none
      else w.memory.prot k := by
    intro k
    show (w.memory.mprotect ((w.buffers s).data + (w.buffers s).recipeOffset)
      (rounded (w.buffers s).recipeLength) .none).prot k = _
    rw [e2, ← hfirst]
    exact mprotect_page _ _ _ _ _ _
  have hkeep : (w.buffers s).recipeLive = true := by
    refine h.backed s hl ?_
    rcases hs with hs | hs
    · exact Or.inl hs
    · obtain ⟨-, i, h2, h3⟩ := hb.evictedRegion hs
      exact Or.inr ⟨i, hb.toShaped.inRegion_lt h2, h3⟩
  refine Touches.inv (w := w) (s := s) (b := discardedBuffer (w.buffers s))
    ⟨rfl, rfl, rfl, rfl, rfl, rfl, fun k hk => ?_, ?_⟩ h hl (discarded_inv hb) (fun i hi => ?_)
    fun _ => hkeep
  · rw [hprot, if_neg (by omega)]
  · show w.residentManaged - removedPages (w.buffers s) * PAGE +
      PAGE * (w.buffers s).residentPages = w.residentManaged +
        PAGE * ((w.buffers s).residentPages - removedPages (w.buffers s))
    have hr := removedPages_le hb
    have hw := weight_le_total w.buffers hl.1
    rw [weight_live hl.2] at hw
    have hm : PAGE * (w.buffers s).residentPages ≤ w.residentManaged := by
      rw [h.managed]
      exact Nat.mul_le_mul_left _ hw
    have hr' : PAGE * removedPages (w.buffers s) ≤ PAGE * (w.buffers s).residentPages :=
      Nat.mul_le_mul_left _ hr
    rw [Nat.mul_sub, Nat.mul_comm (removedPages _) PAGE]
    omega
  · show (applyDiscard w s).memory.prot ((w.buffers s).data / PAGE + i) = _
    rw [hprot]
    rcases discarded_pages hb.toShaped i with ⟨⟨r1, r2⟩, hp⟩ | ⟨hn, hp⟩
    · rw [if_pos (by omega), hp]
      rfl
    · unfold InRegion at hn
      rw [if_neg (by omega), hp]
      exact h.guarded s hl i hi

/-! #### Releasing -/

theorem Inv.release {w : World} {s : ℕ} {l : List ℕ} (h : Inv w) (hl : w.Live s)
    (hr : w.indexRemove (w.buffers s).data = some { w with allocationIndex := l }) (p : Peer) :
    Inv (applyRelease w s l p) := by
  obtain ⟨w1, hw1, -, hidx⟩ := h.indexed.remove hl
  rw [hr] at hw1
  cases hw1
  have hb := h.buffer s hl
  have hother : ∀ u, u ≠ s → Function.update w.buffers s Buffer.clear u = w.buffers u :=
    fun u hu => Function.update_of_ne hu _ _
  have hdead : ∀ u, (applyRelease w s l p).Live u → u ≠ s ∧ w.Live u := by
    intro u hu
    have hne : u ≠ s := by
      rintro rfl
      exact hu.2 (by simp [applyRelease, World.setBuffer, Buffer.clear])
    refine ⟨hne, hu.1, ?_⟩
    have := hu.2
    change (Function.update w.buffers s Buffer.clear u).data ≠ 0 at this
    rwa [hother u hne] at this
  refine ⟨hidx.congr rfl fun u => ⟨rfl, rfl⟩, fun u hu => ?_, fun u hu => ?_,
    fun u v hu hv he => ?_, fun u hu => ?_, ?_, fun u hu => ?_, fun u hu => ?_⟩
  · obtain ⟨hne, hlu⟩ := hdead u hu
    show BufferInv (Function.update w.buffers s Buffer.clear u)
    rw [hother u hne]
    exact h.buffer u hlu
  · obtain ⟨hne, hlu⟩ := hdead u hu
    show Guarded _ (Function.update w.buffers s Buffer.clear u)
    rw [hother u hne]
    intro i hi
    have hap := pages_apart hb.toShaped (h.buffer u hlu).toShaped
      (h.indexed.apart hl hlu (Ne.symm hne)) hi
    have e : (w.memory.mprotect (w.buffers s).data (w.buffers s).mapped .none).prot
        ((w.buffers u).data / PAGE + i) = w.memory.prot ((w.buffers u).data / PAGE + i) := by
      have hp := mprotect_page w.memory (w.buffers s).data 0 (w.buffers s).pageCount .none
        ((w.buffers u).data / PAGE + i)
      rw [Nat.zero_mul, Nat.add_zero, hb.toShaped.pageCount_mul] at hp
      rw [hp, if_neg (by omega)]
    show (w.memory.mprotect (w.buffers s).data (w.buffers s).mapped .none).prot _ = _
    rw [e]
    exact h.guarded u hlu i hi
  · obtain ⟨hu1, hu2⟩ := hdead u hu
    obtain ⟨hv1, hv2⟩ := hdead v hv
    change (Function.update w.buffers s Buffer.clear u).id =
      (Function.update w.buffers s Buffer.clear v).id at he
    rw [hother u hu1, hother v hv1] at he
    exact h.ids u v hu2 hv2 he
  · obtain ⟨hu1, hu2⟩ := hdead u hu
    show (Function.update w.buffers s Buffer.clear u).id < _
    rw [hother u hu1]
    exact h.ids_lt u hu2
  · have ht := total_update w.buffers hl.1 Buffer.clear
    rw [weight_live hl.2] at ht
    have hz : weight Buffer.clear = 0 := rfl
    show w.residentManaged - (w.buffers s).residentPages * PAGE =
      PAGE * total (Function.update w.buffers s Buffer.clear)
    have e : total w.buffers - (w.buffers s).residentPages =
        total (Function.update w.buffers s Buffer.clear) := by omega
    rw [h.managed, Nat.mul_comm (w.buffers s).residentPages PAGE, ← Nat.mul_sub, e]
  · obtain ⟨hu1, hu2⟩ := hdead u hu
    show Backed (Function.update w.buffers s Buffer.clear u)
    rw [hother u hu1]
    exact h.backed u hu2
  · show SameCore _ (Function.update w.buffers s Buffer.clear u)
    change (Function.update w.buffers s Buffer.clear u).data = 0 at hu
    by_cases hus : u = s
    · subst hus
      rw [Function.update_self]
      exact SameCore.refl _
    · rw [hother u hus] at hu ⊢
      exact h.vacant u hu

/-- **Every change keeps the invariant.** -/
theorem Change.inv {w w' : World} (c : Change w w') (h : Inv w) : Inv w' := by
  cases c with
  | note hb hm hi hn hr _ _ => exact h.note hb hm hi hn hr
  | lose p => exact h.peer p true
  | restore s x o t hl hx _ _ => exact h.restore hl hx _ t
  | unlock s first last hl hlast hlt hp => exact h.unlock hl hlast hlt hp
  | retire s n hl hs hp =>
    have hb := h.buffer s hl
    refine Touches.inv (w := w) (s := s) ⟨rfl, rfl, rfl, rfl, rfl, rfl, fun _ _ => rfl, rfl⟩ h hl
      ⟨⟨hb.aligned, hb.mapped_eq, hb.length_pos, hb.length_le,
        hb.offset_aligned, hb.recipe_pos, hb.recipe_le, hb.tail⟩, hb.counted, hb.outside,
        hb.resident, hb.sealedClean, hb.evictedRegion, hb.whole⟩ (h.guarded s hl) ?_
    rintro (hc | ⟨i, hi, hc⟩)
    · change (w.buffers s).state = _ at hc
      rw [hs] at hc
      cases hc
    · exact absurd hc (hp i hi)
  | withdraw s _ _ => exact h.peer _ _
  | enroll s hd g t o hl hs hm _ _ =>
    obtain ⟨region, hm⟩ := hm
    exact h.enroll hl hs hm g t _
  | discard s hl hs => exact h.discard hl hs
  | release s l p hl hr _ => exact h.release hl hr p

/-- A sequence of changes. -/
abbrev Steps : World → World → Prop := Relation.ReflTransGen Change

theorem Steps.inv {w w' : World} (c : Steps w w') (h : Inv w) : Inv w' := by
  induction c with
  | refl => exact h
  | tail _ hc ih => exact hc.inv ih

end Afterfree.Runtime.Changes
