import Afterfree.Runtime.State
import Mathlib.Data.List.GetD

/-!
# The allocation index

`Indexed`: the index lists exactly the live slots, by address, and their mappings do not overlap.
Under it `containing` and `find` are exact, and `index_insert` and `index_remove` keep it.
-/

namespace Afterfree.Runtime.Lookup

open Afterfree.Common Afterfree.Lib Afterfree.Runtime.State

/-- One mapping ends before another begins. -/
def Before (b c : Buffer) : Prop := b.data + b.mapped ≤ c.data

/-- The entries of the index are in the order of their mappings. -/
def Ordered (w : World) : Prop :=
  w.allocationIndex.Pairwise fun s t => Before (w.buffers s) (w.buffers t)

/-- The index lists the live slots in the order of their mappings, which are nonempty and
disjoint. -/
structure Indexed (w : World) : Prop where
  mem_iff : ∀ s, s ∈ w.allocationIndex ↔ w.Live s
  ordered : Ordered w
  mapped_pos : ∀ s, w.Live s → 0 < (w.buffers s).mapped

variable {w : World}

theorem indexData_eq {i : ℕ} (hi : i < w.allocationIndex.length) :
    w.indexData i = (w.buffers w.allocationIndex[i]).data := by
  unfold World.indexData
  rw [List.getD_eq_getElem _ _ hi]

theorem Indexed.live_get (h : Indexed w) {i : ℕ} (hi : i < w.allocationIndex.length) :
    w.Live w.allocationIndex[i] := (h.mem_iff _).mp (List.getElem_mem hi)

theorem Ordered.before_get (h : Ordered w) {i j : ℕ} (hij : i < j)
    (hj : j < w.allocationIndex.length) :
    (w.buffers w.allocationIndex[i]).data + (w.buffers w.allocationIndex[i]).mapped ≤
      (w.buffers w.allocationIndex[j]).data :=
  List.pairwise_iff_getElem.mp h i j (by omega) hj hij

theorem Ordered.afterAddress_spec (h : Ordered w) (address : ℕ) :
    w.afterAddress address ≤ w.allocationIndex.length ∧
      (∀ i (hi : i < w.allocationIndex.length), i < w.afterAddress address →
        (w.buffers w.allocationIndex[i]).data ≤ address) ∧
      (∀ i (hi : i < w.allocationIndex.length), w.afterAddress address ≤ i →
        address < (w.buffers w.allocationIndex[i]).data) := by
  have hseg : Search.Segmented (fun i => decide (w.indexData i ≤ address)) 0
      w.allocationIndex.length := by
    intro i j _ hij hj hle
    simp only [decide_eq_true_eq] at hle ⊢
    rcases Nat.lt_or_eq_of_le hij with hij | rfl
    · have hb := h.before_get hij hj
      rw [indexData_eq hj] at hle
      rw [indexData_eq (by omega)]
      omega
    · exact hle
  obtain ⟨-, h2, h3, h4⟩ := Search.bisect_spec _ w.allocationIndex.length 0
    w.allocationIndex.length (Nat.zero_le _) le_rfl hseg
  refine ⟨h2, fun i hi hlt => ?_, fun i hi hle => ?_⟩
  · have := h3 i (Nat.zero_le _) hlt
    rw [decide_eq_true_eq, indexData_eq hi] at this
    exact this
  · have := h4 i hle hi
    rw [decide_eq_false_iff_not, indexData_eq hi] at this
    omega

/-- **`containing` is exact.** -/
theorem Indexed.containing_iff (h : Indexed w) (address s : ℕ) :
    w.containing address = some s ↔
      w.Live s ∧ (w.buffers s).data ≤ address ∧
        address < (w.buffers s).data + (w.buffers s).mapped := by
  obtain ⟨hpos, hbelow, habove⟩ := h.ordered.afterAddress_spec address
  unfold World.containing
  generalize w.afterAddress address = pos at hpos hbelow habove
  simp only
  constructor
  · intro hc
    split_ifs at hc with h0 hm
    cases hc
    have hlt : pos - 1 < w.allocationIndex.length := by omega
    have hd := hbelow (pos - 1) hlt (by omega)
    rw [List.getD_eq_getElem _ _ hlt] at hm ⊢
    exact ⟨h.live_get hlt, hd, by omega⟩
  · rintro ⟨hl, hlo, hhi⟩
    obtain ⟨k, hk, rfl⟩ := List.getElem_of_mem ((h.mem_iff s).mpr hl)
    have hkp : k < pos := by
      by_contra hn
      have := habove k hk (by omega)
      omega
    -- a later buffer at or below the address would start behind the end of this one
    have hlast : k = pos - 1 := by
      by_contra hn
      have hb := h.ordered.before_get (i := k) (j := pos - 1) (by omega) (by omega)
      have := hbelow (pos - 1) (by omega) (by omega)
      omega
    subst hlast
    rw [if_neg (by omega), List.getD_eq_getElem _ _ hk, if_pos (by omega)]

/-- **`find` is exact.** -/
theorem Indexed.find_iff (h : Indexed w) (p s : ℕ) :
    w.find p = some s ↔ w.Live s ∧ (w.buffers s).data = p := by
  unfold World.find
  constructor
  · intro hf
    split at hf
    · next slot hc =>
      split_ifs at hf with hd
      cases hf
      exact ⟨((h.containing_iff p s).mp hc).1, hd⟩
    · cases hf
  · rintro ⟨hl, rfl⟩
    have hm := h.mapped_pos s hl
    rw [(h.containing_iff _ s).mpr ⟨hl, le_rfl, by omega⟩]
    simp

theorem Indexed.eq_of_shared (h : Indexed w) {s t a : ℕ} (hs : w.Live s) (ht : w.Live t)
    (h1 : (w.buffers s).data ≤ a) (h2 : a < (w.buffers s).data + (w.buffers s).mapped)
    (h3 : (w.buffers t).data ≤ a) (h4 : a < (w.buffers t).data + (w.buffers t).mapped) :
    s = t := by
  have e1 := (h.containing_iff a s).mpr ⟨hs, h1, h2⟩
  have e2 := (h.containing_iff a t).mpr ⟨ht, h3, h4⟩
  rw [e1] at e2
  exact Option.some.inj e2

theorem Indexed.apart (h : Indexed w) {s t : ℕ} (hs : w.Live s) (ht : w.Live t) (hne : s ≠ t) :
    (w.buffers s).data + (w.buffers s).mapped ≤ (w.buffers t).data ∨
      (w.buffers t).data + (w.buffers t).mapped ≤ (w.buffers s).data := by
  by_contra hn
  have h1 := h.mapped_pos s hs
  have h2 := h.mapped_pos t ht
  exact hne (h.eq_of_shared (a := max (w.buffers s).data (w.buffers t).data) hs ht
    (by omega) (by omega) (by omega) (by omega))

theorem Ordered.congr {w' : World} (h : Ordered w) (hi : w'.allocationIndex = w.allocationIndex)
    (hb : ∀ s ∈ w.allocationIndex, (w'.buffers s).data = (w.buffers s).data ∧
      (w'.buffers s).mapped = (w.buffers s).mapped) : Ordered w' := by
  unfold Ordered at *
  rw [hi]
  refine h.imp_of_mem fun {a b} ha hb' hab => ?_
  unfold Before at *
  rw [(hb a ha).1, (hb a ha).2, (hb b hb').1]
  exact hab

theorem Indexed.congr {w' : World} (h : Indexed w)
    (hi : w'.allocationIndex = w.allocationIndex)
    (hb : ∀ s, (w'.buffers s).data = (w.buffers s).data ∧
      (w'.buffers s).mapped = (w.buffers s).mapped) : Indexed w' := by
  have hlive : ∀ s, w'.Live s ↔ w.Live s := fun s => by unfold World.Live; rw [(hb s).1]
  refine ⟨fun s => ?_, ?_, fun s hs => ?_⟩
  · rw [hi, hlive]
    exact h.mem_iff s
  · exact h.ordered.congr hi fun s _ => hb s
  · rw [(hb s).2]
    exact h.mapped_pos s ((hlive s).mp hs)

/-! ### Insertion and removal -/

/-- **`index_insert`.** A new buffer in a free slot, apart from the live ones, is indexed. -/
theorem Indexed.insert (h : Indexed w) {slot : ℕ} {b : Buffer} (hslot : slot < MAX_SLOTS)
    (hfree : (w.buffers slot).data = 0) (hb : b.data ≠ 0) (hm : 0 < b.mapped)
    (hapart : ∀ s, w.Live s → Before (w.buffers s) b ∨ Before b (w.buffers s)) :
    Indexed ((w.setBuffer slot b).indexInsert slot) := by
  have hnot : slot ∉ w.allocationIndex := fun hin => ((h.mem_iff slot).mp hin).2 hfree
  have hother : ∀ s, s ≠ slot → (w.setBuffer slot b).buffers s = w.buffers s := fun s hs => by
    simp [World.setBuffer, hs]
  have hself : (w.setBuffer slot b).buffers slot = b := by simp [World.setBuffer]
  have hmem : ∀ s ∈ w.allocationIndex, (w.setBuffer slot b).buffers s = w.buffers s :=
    fun s hs => hother s fun he => hnot (he ▸ hs)
  have hord : Ordered (w.setBuffer slot b) :=
    h.ordered.congr rfl fun s hs => by rw [hmem s hs]; exact ⟨rfl, rfl⟩
  obtain ⟨hpos, hbelow, habove⟩ := hord.afterAddress_spec b.data
  have hidx : (w.setBuffer slot b).allocationIndex = w.allocationIndex := rfl
  unfold World.indexInsert
  rw [hself]
  generalize (w.setBuffer slot b).afterAddress b.data = pos at hpos hbelow habove
  simp only [hidx] at hpos hbelow habove ⊢
  refine ⟨fun s => ?_, ?_, fun s hs => ?_⟩
  · have hsplit : s ∈ w.allocationIndex.take pos ++ slot :: w.allocationIndex.drop pos ↔
        s = slot ∨ s ∈ w.allocationIndex := by
      conv_rhs => rw [← List.take_append_drop pos w.allocationIndex]
      simp only [List.mem_append, List.mem_cons]
      tauto
    rw [hsplit, h.mem_iff]
    unfold World.Live
    by_cases hs : s = slot
    · subst hs
      simp [hself, hb, hslot]
    · rw [hother s hs]
      simp [hs]
  · refine List.pairwise_append.mpr ⟨hord.sublist (List.take_sublist _ _), ?_, ?_⟩
    · refine List.pairwise_cons.mpr ⟨fun t ht => ?_, hord.sublist (List.drop_sublist _ _)⟩
      obtain ⟨k, hk, rfl⟩ := List.getElem_of_mem ht
      rw [List.getElem_drop]
      rw [List.length_drop] at hk
      have ha := habove (pos + k) (by omega) (by omega)
      have hin := List.getElem_mem (l := w.allocationIndex) (show pos + k < _ by omega)
      show Before ((w.setBuffer slot b).buffers slot) ((w.setBuffer slot b).buffers _)
      rw [hself, hmem _ hin]
      rw [hmem _ hin] at ha
      rcases hapart _ ((h.mem_iff _).mp hin) with hc | hc
      · unfold Before at hc
        omega
      · exact hc
    · intro s hs t ht
      obtain ⟨k, hk, rfl⟩ := List.getElem_of_mem hs
      rw [List.length_take] at hk
      rw [List.getElem_take]
      have hlo := hbelow k (by omega) (by omega)
      have hin := List.getElem_mem (l := w.allocationIndex) (show k < _ by omega)
      rcases List.mem_cons.mp ht with rfl | ht
      · show Before ((w.setBuffer t b).buffers _) ((w.setBuffer t b).buffers t)
        rw [hself, hmem _ hin]
        rw [hmem _ hin] at hlo
        rcases hapart _ ((h.mem_iff _).mp hin) with hc | hc
        · exact hc
        · unfold Before at hc
          omega
      · obtain ⟨j, hj, rfl⟩ := List.getElem_of_mem ht
        rw [List.length_drop] at hj
        rw [List.getElem_drop]
        exact hord.before_get (i := k) (j := pos + j) (by omega) (by rw [hidx]; omega)
  · unfold World.Live at hs
    simp only at hs ⊢
    by_cases he : s = slot
    · subst he
      rw [hself]
      exact hm
    · rw [hother s he] at hs ⊢
      exact h.mapped_pos s hs

/-- **`index_remove`.** The index of a live buffer can be removed, and the others stay indexed. -/
theorem Indexed.remove (h : Indexed w) {slot : ℕ} (hl : w.Live slot) :
    ∃ w', w.indexRemove (w.buffers slot).data = some w' ∧
      (∃ l, w' = { w with allocationIndex := l }) ∧
      Indexed (w'.setBuffer slot Buffer.clear) := by
  obtain ⟨hpos, hbelow, habove⟩ := h.ordered.afterAddress_spec (w.buffers slot).data
  obtain ⟨k, hk, hks⟩ := List.getElem_of_mem ((h.mem_iff slot).mpr hl)
  have hmp := h.mapped_pos slot hl
  have hkp : k + 1 = w.afterAddress (w.buffers slot).data := by
    have h1 : k < w.afterAddress (w.buffers slot).data := by
      by_contra hn
      have := habove k hk (by omega)
      rw [hks] at this
      omega
    by_contra hn
    have hb := h.ordered.before_get (i := k) (j := k + 1) (by omega) (by omega)
    have := hbelow (k + 1) (by omega) (by omega)
    rw [hks] at hb
    omega
  unfold World.indexRemove
  rw [← hkp]
  simp only [Nat.add_sub_cancel]
  rw [if_neg (by rw [indexData_eq hk, hks]; simp)]
  refine ⟨_, rfl, ⟨_, rfl⟩, ?_⟩
  have hsub : (w.allocationIndex.take k ++ w.allocationIndex.drop (k + 1)).Sublist
      w.allocationIndex := by
    conv_rhs => rw [← List.take_append_drop k w.allocationIndex]
    exact List.Sublist.append_left (List.drop_sublist_drop_left _ (by omega)) _
  -- the slot itself is gone, because entries are pairwise different
  have hgone : ∀ s, s ∈ w.allocationIndex.take k ++ w.allocationIndex.drop (k + 1) ↔
      s ≠ slot ∧ s ∈ w.allocationIndex := by
    intro s
    constructor
    · intro hs
      refine ⟨?_, hsub.subset hs⟩
      rintro rfl
      rcases List.mem_append.mp hs with hs | hs
      · obtain ⟨j, hj, hje⟩ := List.getElem_of_mem hs
        rw [List.length_take] at hj
        rw [List.getElem_take] at hje
        have hb := h.ordered.before_get (i := j) (j := k) (by omega) hk
        rw [hje, hks] at hb
        omega
      · obtain ⟨j, hj, hje⟩ := List.getElem_of_mem hs
        rw [List.length_drop] at hj
        rw [List.getElem_drop] at hje
        have hb := h.ordered.before_get (i := k) (j := k + 1 + j) (by omega) (by omega)
        rw [hje, hks] at hb
        omega
    · rintro ⟨hne, hs⟩
      rw [← List.take_append_drop k w.allocationIndex, List.drop_eq_getElem_cons hk, hks] at hs
      simp only [List.mem_append, List.mem_cons] at hs ⊢
      tauto
  have hother : ∀ s, s ≠ slot → ∀ l, (World.setBuffer { w with allocationIndex := l } slot
      Buffer.clear).buffers s = w.buffers s := fun s hs l => by simp [World.setBuffer, hs]
  refine ⟨fun s => ?_, ?_, fun s hs => ?_⟩
  · show s ∈ w.allocationIndex.take k ++ w.allocationIndex.drop (k + 1) ↔ _
    rw [hgone, h.mem_iff]
    unfold World.Live
    by_cases hs : s = slot
    · subst hs
      simp [World.setBuffer, Buffer.clear]
    · rw [hother s hs]
      simp [hs]
  · refine Ordered.congr (w := { w with allocationIndex := _ }) (h.ordered.sublist hsub) rfl
      fun s hs => ?_
    rw [hother s ((hgone s).mp hs).1]
    exact ⟨rfl, rfl⟩
  · by_cases he : s = slot
    · subst he
      simp [World.Live, World.setBuffer, Buffer.clear] at hs
    · unfold World.Live at hs
      rw [hother s he] at hs ⊢
      exact h.mapped_pos s hs

end Afterfree.Runtime.Lookup
