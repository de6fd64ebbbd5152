import Afterfree.Recording.Templates
import Mathlib.Data.List.Sort

/-!
# The template cache

`TemplateCache` of `template.hpp`: the templates of recent recipes, by entry, with a bound on their
number and on the memory they hold. To make room the entry with the smallest clock goes, until the
new template fits; every turn of this loop erases an entry, so that it ends.

`templateCache_invariant`: over all runs, the counter is the memory that is held, and what goes are
the least recently used entries, as many as needed.
-/

namespace Afterfree.Preload.TemplateCache

open Afterfree.Common Afterfree.Codec Afterfree.Wrapping Afterfree.Recording.Templates

/-! ### The cache -/

/-- `LIMIT`. -/
def LIMIT : ℕ := 8 * 2 ^ 20

/-- The capacities of the vectors of a template, which the library chooses. A move keeps them. -/
structure Capacities where
  pages : ℕ
  code : ℕ
  inputs : ℕ
  jumpBindings : ℕ

/-- A template in the cache, with its `used`. -/
structure Held where
  template : RecipeTemplate
  capacities : Capacities
  used : ℕ

/-- `bytes`: the sizes are those of the x86-64 ABI. -/
def Held.bytes (h : Held) : ℕ :=
  664 + h.capacities.pages * 8 + h.capacities.code * 24 + h.capacities.inputs * 16 +
    h.capacities.jumpBindings * 16

/-- `TemplateCache`: the entries in the order of their keys. -/
structure Cache where
  entries : List (ℕ × Held)
  clock : ℕ
  retained : ℕ
  peakBytes : ℕ

/-- The cache at the start. -/
def empty : Cache := ⟨[], 0, 0, 0⟩

namespace Cache

/-- `entries.find`. -/
def find (c : Cache) (entry : ℕ) : Option (ℕ × Held) := c.entries.find? fun x => x.1 = entry

/-- Set `used` of an entry. -/
def renew (entry used : ℕ) (x : ℕ × Held) : ℕ × Held :=
  if x.1 = entry then (x.1, { x.2 with used }) else x

/-- `get`. -/
def get (c : Cache) (entry : ℕ) : Cache :=
  match c.find entry with
  | none => c
  | some _ =>
    { c with
      clock := c.clock + 1
      entries := c.entries.map (renew entry (c.clock + 1)) }

/-- `erase`. -/
def erase (c : Cache) (entry : ℕ) : Cache :=
  match c.find entry with
  | none => c
  | some x =>
    { c with
      retained := sub64 c.retained x.2.bytes
      entries := c.entries.filter fun x => x.1 ≠ entry }

/-- The scan for the smallest `used`. -/
def oldest (first : ℕ × Held) (entries : List (ℕ × Held)) : ℕ × Held :=
  entries.foldl (fun oldest x => if x.2.used < oldest.2.used then x else oldest) first

end Cache

/-! ### Making room -/

theorem find_eq_some {c : Cache} {entry : ℕ} {x : ℕ × Held} (h : c.find entry = some x) :
    x ∈ c.entries ∧ x.1 = entry :=
  ⟨List.mem_of_find?_eq_some h, by simpa using List.find?_some h⟩

theorem find_eq_none {c : Cache} {entry : ℕ} (h : c.find entry = none) :
    ∀ x ∈ c.entries, x.1 ≠ entry := fun x hx => by simpa using List.find?_eq_none.mp h x hx

theorem erase_entries (c : Cache) (entry : ℕ) :
    (c.erase entry).entries = c.entries.filter fun x => x.1 ≠ entry := by
  unfold Cache.erase
  cases hf : c.find entry with
  | none =>
    refine (List.filter_eq_self.mpr fun x hx => ?_).symm
    simpa using find_eq_none hf x hx
  | some x => rfl

/-- **The scan** finds an entry whose `used` is smallest. -/
theorem oldest_spec (entries : List (ℕ × Held)) : ∀ first : ℕ × Held,
    Cache.oldest first entries ∈ first :: entries ∧
      ∀ x ∈ first :: entries, (Cache.oldest first entries).2.used ≤ x.2.used := by
  induction entries with
  | nil => exact fun first => ⟨List.mem_singleton_self _, by simp [Cache.oldest]⟩
  | cons y rest ih =>
    intro first
    have hfold : Cache.oldest first (y :: rest) =
        Cache.oldest (if y.2.used < first.2.used then y else first) rest := rfl
    rw [hfold]
    by_cases hlt : y.2.used < first.2.used
    · rw [if_pos hlt]
      obtain ⟨hmem, hle⟩ := ih y
      refine ⟨List.mem_cons_of_mem _ hmem, fun x hx => ?_⟩
      rcases List.mem_cons.mp hx with rfl | hx
      · have hy := hle y List.mem_cons_self
        omega
      · exact hle x hx
    · rw [if_neg hlt]
      obtain ⟨hmem, hle⟩ := ih first
      refine ⟨?_, fun x hx => ?_⟩
      · rcases List.mem_cons.mp hmem with hmem | hmem
        · rw [hmem]
          exact List.mem_cons_self
        · exact List.mem_cons_of_mem _ (List.mem_cons_of_mem _ hmem)
      · have hfirst := hle first List.mem_cons_self
        rcases List.mem_cons.mp hx with rfl | hx
        · exact hfirst
        · rcases List.mem_cons.mp hx with rfl | hx
          · omega
          · exact hle x (List.mem_cons_of_mem _ hx)

theorem oldest_mem (first : ℕ × Held) (rest : List (ℕ × Held)) :
    Cache.oldest first (first :: rest) ∈ first :: rest := by
  rcases List.mem_cons.mp (oldest_spec (first :: rest) first).1 with heq | hmem
  · rw [heq]
    exact List.mem_cons_self
  · exact hmem

theorem erase_shorter {c : Cache} {x : ℕ × Held} (hx : x ∈ c.entries) :
    (c.erase x.1).entries.length < c.entries.length := by
  rw [erase_entries]
  exact List.length_filter_lt_length_iff_exists.mpr ⟨x, hx, by simp⟩

/-- The loop of `put` that makes room: every turn erases an entry. -/
def Cache.makeRoom (size : ℕ) (c : Cache) : Cache :=
  match _hentries : c.entries with
  | [] => c
  | first :: rest =>
    if LIMIT < add64 c.retained size ∨ 64 ≤ c.entries.length then
      makeRoom size (c.erase (oldest first (first :: rest)).1)
    else c
termination_by c.entries.length
decreasing_by exact erase_shorter (_hentries ▸ oldest_mem first rest)

/-- `put`, after the template was made. -/
def Cache.put (c : Cache) (entry : ℕ) (value : Held) : Cache :=
  let size := value.bytes
  if LIMIT < size then c
  else
    let c := c.erase entry
    let c := c.makeRoom size
    let retained := add64 c.retained size
    { entries := c.entries.orderedInsert (·.1 ≤ ·.1) (entry, { value with used := c.clock + 1 })
      clock := c.clock + 1
      retained
      peakBytes := max c.peakBytes retained }

/-- What `put` puts: `RecipeTemplate value(recipe, checked_native)`. -/
def held (recipe : Recipe) (checkedNative : Bool) (maps : Option (List Mapping))
    (capacities : Capacities) : Held :=
  ⟨RecipeTemplate.make recipe checkedNative maps, capacities, 0⟩

/-- The calls. -/
inductive Op
  | get (entry : ℕ)
  | put (recipe : Recipe) (checkedNative : Bool) (maps : Option (List Mapping))
      (capacities : Capacities)
  | erase (entry : ℕ)

/-- One call. -/
def step (c : Cache) : Op → Cache
  | .get entry => c.get entry
  | .put recipe checkedNative maps capacities =>
    c.put recipe.h.entry (held recipe checkedNative maps capacities)
  | .erase entry => c.erase entry

/-! ### Recency -/

/-- The entry that a call gets or puts, if it does. -/
def touched (c : Cache) : Op → Option ℕ
  | .get entry => (c.find entry).map Prod.fst
  | .put recipe checkedNative maps capacities =>
    if LIMIT < (held recipe checkedNative maps capacities).bytes then none else some recipe.h.entry
  | .erase _ => none

/-- The caches that can be reached, with the entries that were got or put and the values that
`retained` had, the newest first. -/
inductive Reached : Cache → List ℕ → List ℕ → Prop
  | start : Reached empty [] [0]
  | step {c : Cache} {touches retained : List ℕ} (op : Op) (h : Reached c touches retained) :
      Reached (step c op) ((touched c op).toList ++ touches) ((step c op).retained :: retained)

/-- The memory that entries hold. -/
def total (entries : List (ℕ × Held)) : ℕ := (entries.map fun x => x.2.bytes).sum

/-- The entries leave room for a template of a size. -/
def Fits (size : ℕ) (entries : List (ℕ × Held)) : Prop :=
  total entries + size ≤ LIMIT ∧ entries.length < 64

/-- The first was got or put before the second. -/
def Older (touches : List ℕ) (x y : ℕ × Held) : Prop := touches.idxOf y.1 < touches.idxOf x.1

/-! ### Lists of entries -/

theorem total_perm {xs ys : List (ℕ × Held)} (h : xs.Perm ys) : total xs = total ys :=
  List.Perm.sum_eq (h.map fun x : ℕ × Held => x.2.bytes)

theorem fits_perm {size : ℕ} {xs ys : List (ℕ × Held)} (h : xs.Perm ys) :
    Fits size xs ↔ Fits size ys := by
  rw [Fits, Fits, total_perm h, h.length_eq]

/-- The keys of the entries are different. -/
def Distinct (entries : List (ℕ × Held)) : Prop := (entries.map Prod.fst).Nodup

theorem Distinct.eq {entries : List (ℕ × Held)} (h : Distinct entries) {x y : ℕ × Held}
    (hx : x ∈ entries) (hy : y ∈ entries) (hkey : x.1 = y.1) : x = y :=
  List.inj_on_of_nodup_map h hx hy hkey

theorem Distinct.filter {entries : List (ℕ × Held)} (h : Distinct entries) (p : ℕ × Held → Bool) :
    Distinct (entries.filter p) := h.sublist ((List.filter_sublist).map Prod.fst)

theorem Distinct.perm_cons {entries : List (ℕ × Held)} (h : Distinct entries) {x : ℕ × Held}
    (hx : x ∈ entries) : entries.Perm (x :: entries.filter fun y => y.1 ≠ x.1) := by
  induction entries with
  | nil => cases hx
  | cons z rest ih =>
    obtain ⟨hz, hrest⟩ := List.nodup_cons.mp h
    rcases List.mem_cons.mp hx with rfl | hx
    · have hself : rest.filter (fun y => y.1 ≠ x.1) = rest := by
        refine List.filter_eq_self.mpr fun y hy => ?_
        have hne : y.1 ≠ x.1 := fun he => hz (he ▸ List.mem_map_of_mem hy)
        simpa using hne
      rw [List.filter_cons_of_neg (by simp), hself]
    · have hne : z.1 ≠ x.1 := fun he => hz (he ▸ List.mem_map_of_mem hx)
      rw [List.filter_cons_of_pos (by simpa using hne)]
      exact ((ih hrest hx).cons z).trans (List.Perm.swap x z _)

theorem find_of_mem {c : Cache} (h : Distinct c.entries) {x : ℕ × Held} (hx : x ∈ c.entries) :
    c.find x.1 = some x := by
  cases hf : c.find x.1 with
  | none => exact absurd rfl (find_eq_none hf x hx)
  | some y =>
    obtain ⟨hy, hkey⟩ := find_eq_some hf
    rw [h.eq hy hx hkey]

/-! ### The invariant -/

/-- The counter is the memory that is held, and `used` says when an entry was touched. -/
structure Inv (c : Cache) (touches : List ℕ) : Prop where
  distinct : Distinct c.entries
  retained : c.retained = total c.entries
  bounded : c.retained ≤ LIMIT
  count : c.entries.length ≤ 64
  clock : c.clock = touches.length
  used : ∀ x ∈ c.entries, x.1 ∈ touches ∧ x.2.used + touches.idxOf x.1 = touches.length

section Inv

variable {c : Cache} {touches : List ℕ}

theorem Inv.older_iff (h : Inv c touches) {x y : ℕ × Held} (hx : x ∈ c.entries)
    (hy : y ∈ c.entries) :
    Older touches x y ↔ x.2.used < y.2.used := by
  have hx' := (h.used x hx).2
  have hy' := (h.used y hy).2
  unfold Older
  omega

theorem Inv.used_inj (h : Inv c touches) {x y : ℕ × Held} (hx : x ∈ c.entries) (hy : y ∈ c.entries)
    (hused : x.2.used = y.2.used) : x = y := by
  have hx' := (h.used x hx).2
  have hy' := (h.used y hy).2
  have hindex : touches.idxOf x.1 = touches.idxOf y.1 := by omega
  exact h.distinct.eq hx hy ((List.idxOf_inj (h.used x hx).1).mp hindex)

theorem erase_clock (c : Cache) (entry : ℕ) :
    (c.erase entry).clock = c.clock ∧ (c.erase entry).peakBytes = c.peakBytes := by
  unfold Cache.erase
  cases c.find entry <;> exact ⟨rfl, rfl⟩

theorem Inv.erase_retained (h : Inv c touches) (entry : ℕ) :
    (c.erase entry).retained = total (c.erase entry).entries ∧
      (c.erase entry).retained ≤ c.retained := by
  rw [erase_entries]
  unfold Cache.erase
  cases hf : c.find entry with
  | none =>
    have hself : c.entries.filter (fun x => x.1 ≠ entry) = c.entries :=
      List.filter_eq_self.mpr fun x hx => by simpa using find_eq_none hf x hx
    rw [hself]
    exact ⟨h.retained, le_rfl⟩
  | some x =>
    obtain ⟨hx, rfl⟩ := find_eq_some hf
    have htotal := total_perm (h.distinct.perm_cons hx)
    have hcons : total (x :: c.entries.filter fun y => y.1 ≠ x.1) =
        x.2.bytes + total (c.entries.filter fun y => y.1 ≠ x.1) := rfl
    have hretained := h.retained
    have hbounded := h.bounded
    -- the counter has at least what this entry holds
    have hsub : sub64 c.retained x.2.bytes = c.retained - x.2.bytes :=
      sub64_eq (by omega) (by unfold LIMIT UINT64_MAX at *; omega)
    simp only [hsub]
    omega

/-- **`erase`.** -/
theorem Inv.erase (h : Inv c touches) (entry : ℕ) : Inv (c.erase entry) touches := by
  have hentries := erase_entries c entry
  obtain ⟨htotal, hle⟩ := h.erase_retained entry
  refine ⟨?_, htotal, hle.trans h.bounded, ?_, (erase_clock c entry).1.trans h.clock,
    fun x hx => ?_⟩
  · rw [hentries]
    exact h.distinct.filter _
  · rw [hentries]
    exact (List.length_filter_le _ _).trans h.count
  · rw [hentries] at hx
    exact h.used x (List.mem_of_mem_filter hx)

theorem Inv.sorted (h : Inv c touches) : ∃ kept : List (ℕ × Held), c.entries.Perm kept ∧
    kept.Pairwise fun x y => x.2.used < y.2.used := by
  refine ⟨c.entries.insertionSort (·.2.used ≤ ·.2.used), (List.perm_insertionSort _ _).symm, ?_⟩
  have hsorted : (c.entries.insertionSort (·.2.used ≤ ·.2.used)).Pairwise
      fun x y => x.2.used ≤ y.2.used := List.pairwise_insertionSort _ _
  have hnodup : (c.entries.insertionSort (·.2.used ≤ ·.2.used)).Nodup :=
    (List.perm_insertionSort _ _).nodup_iff.mpr (List.Nodup.of_map _ h.distinct)
  refine (hsorted.and hnodup).imp_of_mem fun {x y} hx hy hxy => ?_
  rw [List.mem_insertionSort] at hx hy
  refine lt_of_le_of_ne hxy.1 fun hused => hxy.2 (h.used_inj hx hy hused)

/-- What eviction leaves. -/
structure Room (size : ℕ) (c c' : Cache) (touches : List ℕ) : Prop where
  inv : Inv c' touches
  same : c'.clock = c.clock ∧ c'.peakBytes = c.peakBytes
  subset : ∀ x ∈ c'.entries, x ∈ c.entries
  evicted : ∃ evicted kept : List (ℕ × Held), c.entries.Perm (evicted ++ kept) ∧
    c'.entries.Perm kept ∧ (evicted ++ kept).Pairwise (fun x y => x.2.used < y.2.used) ∧
    Fits size kept ∧ ∀ i < evicted.length, ¬ Fits size ((evicted ++ kept).drop i)

theorem Inv.crowded_iff (h : Inv c touches) {size : ℕ} (hsize : size ≤ LIMIT) :
    LIMIT < add64 c.retained size ∨ 64 ≤ c.entries.length ↔ ¬ Fits size c.entries := by
  have hbounded := h.bounded
  have hadd : add64 c.retained size = c.retained + size :=
    add64_eq (by unfold LIMIT UINT64_MAX at *; omega)
  rw [hadd, h.retained, Fits]
  omega

theorem Inv.room (h : Inv c touches) {size : ℕ} (hfits : Fits size c.entries) :
    Room size c c touches := by
  obtain ⟨kept, hperm, hsorted⟩ := h.sorted
  exact ⟨h, ⟨rfl, rfl⟩, fun x hx => hx, [], kept, hperm, hperm, hsorted, (fits_perm hperm).mp hfits,
    fun i hi => absurd hi (by simp)⟩

theorem Inv.evict (h : Inv c touches) {size : ℕ} (hcrowded : ¬ Fits size c.entries) {x : ℕ × Held}
    (hx : x ∈ c.entries) (hle : ∀ y ∈ c.entries, x.2.used ≤ y.2.used) {c' : Cache}
    (hroom : Room size (c.erase x.1) c' touches) : Room size c c' touches := by
  obtain ⟨evicted, kept, hperm, hkept, hsorted, hfits, hneeded⟩ := hroom.evicted
  rw [erase_entries] at hperm
  have hall : c.entries.Perm (x :: (evicted ++ kept)) :=
    (h.distinct.perm_cons hx).trans (hperm.cons x)
  refine ⟨hroom.inv, ?_, fun y hy => ?_, x :: evicted, kept, hall, hkept, ?_, hfits, fun i hi => ?_⟩
  · obtain ⟨hclock, hpeak⟩ := hroom.same
    obtain ⟨hclock', hpeak'⟩ := erase_clock c x.1
    exact ⟨hclock.trans hclock', hpeak.trans hpeak'⟩
  · have hy' := hroom.subset y hy
    rw [erase_entries] at hy'
    exact List.mem_of_mem_filter hy'
  · refine List.pairwise_cons.mpr ⟨fun y hy => ?_, hsorted⟩
    obtain ⟨hy, hne⟩ := List.mem_filter.mp (hperm.mem_iff.mpr hy)
    refine lt_of_le_of_ne (hle y hy) fun hused => ?_
    rw [h.used_inj hx hy hused] at hne
    simp at hne
  · cases i with
    | zero => exact mt (fits_perm hall).mpr hcrowded
    | succ i => exact hneeded i (by simpa using hi)

/-- **The loop of `put`** evicts the oldest entries until the rest fits. -/
theorem Inv.makeRoom {size : ℕ} (hsize : size ≤ LIMIT) {c : Cache} (h : Inv c touches) :
    Room size c (c.makeRoom size) touches := by
  fun_induction Cache.makeRoom size c with
  | case1 c hentries =>
    refine h.room ?_
    rw [hentries]
    exact ⟨by simpa [total] using hsize, by decide⟩
  | case2 c first rest hentries hcrowded ih =>
    obtain ⟨-, hle⟩ := oldest_spec (first :: rest) first
    refine h.evict ((h.crowded_iff hsize).mp hcrowded) (hentries ▸ oldest_mem first rest)
      (fun y hy => hle y (List.mem_cons_of_mem _ (hentries ▸ hy))) (ih (h.erase _))
  | case3 c first rest hentries hcrowded =>
    exact h.room (not_not.mp (mt (h.crowded_iff hsize).mpr hcrowded))

end Inv

/-! ### The calls -/

section Calls

variable {c : Cache} {touches : List ℕ}

theorem idxOf_touch {entry x : ℕ} (h : x ≠ entry) :
    (entry :: touches).idxOf x = touches.idxOf x + 1 := List.idxOf_cons_ne _ (Ne.symm h)

theorem renew_key (entry used : ℕ) (x : ℕ × Held) : (Cache.renew entry used x).1 = x.1 := by
  unfold Cache.renew
  split_ifs <;> rfl

theorem renew_bytes (entry used : ℕ) (x : ℕ × Held) :
    (Cache.renew entry used x).2.bytes = x.2.bytes := by
  unfold Cache.renew
  split_ifs <;> rfl

/-- **`get`.** -/
theorem Inv.get (h : Inv c touches) (entry : ℕ) :
    Inv (c.get entry) (((c.find entry).map Prod.fst).toList ++ touches) := by
  unfold Cache.get
  cases hf : c.find entry with
  | none => exact h
  | some x =>
    obtain ⟨-, rfl⟩ := find_eq_some hf
    have htotal : total (c.entries.map (Cache.renew x.1 (c.clock + 1))) = total c.entries := by
      unfold total
      rw [List.map_map]
      exact congrArg List.sum (List.map_congr_left fun y _ => renew_bytes _ _ y)
    have hkeys : (c.entries.map (Cache.renew x.1 (c.clock + 1))).map Prod.fst =
        c.entries.map Prod.fst := by
      rw [List.map_map]
      exact List.map_congr_left fun y _ => renew_key _ _ y
    refine ⟨?_, h.retained.trans htotal.symm, h.bounded, ?_, ?_, fun y hy => ?_⟩
    · show ((c.entries.map (Cache.renew x.1 (c.clock + 1))).map Prod.fst).Nodup
      rw [hkeys]
      exact h.distinct
    · rw [List.length_map]
      exact h.count
    · simp [h.clock]
    · obtain ⟨z, hz, rfl⟩ := List.mem_map.mp hy
      obtain ⟨hmem, hused⟩ := h.used z hz
      rw [renew_key]
      simp only [Option.map_some, Option.toList_some, List.singleton_append, List.length_cons]
      by_cases hkey : z.1 = x.1
      · simp [Cache.renew, hkey, h.clock]
      · rw [idxOf_touch hkey, Cache.renew, if_neg hkey]
        exact ⟨List.mem_cons_of_mem _ hmem, by omega⟩

/-- The entry that `put` puts. -/
def fresh (c : Cache) (entry : ℕ) (value : Held) : ℕ × Held :=
  (entry, { value with used := c.clock + 1 })

/-- **`put`** of a template that is not too large: the entries are the new one and what eviction
left of the others. -/
theorem Inv.put_room (h : Inv c touches) (entry : ℕ) {value : Held} (hsize : value.bytes ≤ LIMIT) :
    ∃ room, Room value.bytes (c.erase entry) room touches ∧
      (c.put entry value).entries.Perm (fresh c entry value :: room.entries) ∧
      (c.put entry value).retained = room.retained + value.bytes ∧
      (c.put entry value).clock = c.clock + 1 ∧
      (c.put entry value).peakBytes = max c.peakBytes (room.retained + value.bytes) := by
  have hroom : Room value.bytes (c.erase entry)
      ((c.erase entry).makeRoom value.bytes) touches := (h.erase entry).makeRoom hsize
  have hclock : ((c.erase entry).makeRoom value.bytes).clock = c.clock :=
    hroom.same.1.trans (erase_clock c entry).1
  have hpeak : ((c.erase entry).makeRoom value.bytes).peakBytes =
      c.peakBytes := hroom.same.2.trans (erase_clock c entry).2
  have hbounded := hroom.inv.bounded
  have hadd := @add64_eq ((c.erase entry).makeRoom value.bytes).retained
    value.bytes (by unfold LIMIT UINT64_MAX at *; omega)
  refine ⟨_, hroom, ?_⟩
  simp only [Cache.put, if_neg (Nat.not_lt.mpr hsize), hclock, hpeak, hadd, fresh]
  exact ⟨List.perm_orderedInsert _ _ _, trivial, trivial, trivial⟩

theorem Inv.put (h : Inv c touches) (entry : ℕ) {value : Held} (hsize : value.bytes ≤ LIMIT) :
    Inv (c.put entry value) (entry :: touches) := by
  obtain ⟨room, hroom, hentries, hretained, hclock, -⟩ := h.put_room entry hsize
  obtain ⟨evicted, kept, -, hkept, -, hfits, -⟩ := hroom.evicted
  obtain ⟨hfits, hcount⟩ := (fits_perm hkept).mpr hfits
  have hothers : ∀ x ∈ room.entries, x ∈ c.entries ∧ x.1 ≠ entry := by
    intro x hx
    have hx' := hroom.subset x hx
    rw [erase_entries] at hx'
    obtain ⟨hmem, hne⟩ := List.mem_filter.mp hx'
    exact ⟨hmem, by simpa using hne⟩
  have hinv := hroom.inv.retained
  refine ⟨?_, ?_, by omega, ?_, by rw [hclock, h.clock, List.length_cons], fun x hx => ?_⟩
  · refine (hentries.map Prod.fst).nodup_iff.mpr
      (List.nodup_cons.mpr ⟨fun hmem => ?_, hroom.inv.distinct⟩)
    obtain ⟨x, hx, hkey⟩ := List.mem_map.mp hmem
    exact (hothers x hx).2 hkey
  · have htotal : total (fresh c entry value :: room.entries) = value.bytes + total room.entries :=
      rfl
    rw [total_perm hentries, htotal, hretained, hinv]
    omega
  · rw [hentries.length_eq, List.length_cons]
    omega
  · rcases List.mem_cons.mp (hentries.mem_iff.mp hx) with rfl | hx
    · simp [fresh, h.clock]
    · obtain ⟨hmem, hne⟩ := hothers x hx
      obtain ⟨htouched, hused⟩ := h.used x hmem
      rw [idxOf_touch hne, List.length_cons]
      exact ⟨List.mem_cons_of_mem _ htouched, by omega⟩

theorem put_large (c : Cache) (entry : ℕ) {value : Held} (hsize : LIMIT < value.bytes) :
    c.put entry value = c := if_pos hsize

/-- **One call.** -/
theorem Inv.step (h : Inv c touches) (op : Op) :
    Inv (step c op) ((touched c op).toList ++ touches) := by
  cases op with
  | get entry => exact h.get entry
  | erase entry => exact h.erase entry
  | put recipe checkedNative maps capacities =>
    simp only [TemplateCache.step, touched]
    by_cases hsize : LIMIT < (held recipe checkedNative maps capacities).bytes
    · rw [put_large c _ hsize, if_pos hsize]
      exact h
    · rw [if_neg hsize]
      exact h.put _ (Nat.not_lt.mp hsize)

theorem inv_of_reached {retained : List ℕ} (h : Reached c touches retained) : Inv c touches := by
  induction h with
  | start => exact ⟨List.nodup_nil, rfl, Nat.zero_le _, Nat.zero_le _, rfl, fun x hx => by cases hx⟩
  | step op _ ih => exact ih.step op

end Calls

/-! ### The peak -/

theorem step_peak {c : Cache} {touches : List ℕ} (h : Inv c touches) (op : Op)
    (hle : c.retained ≤ c.peakBytes) :
    (step c op).peakBytes = max (step c op).retained c.peakBytes ∧
      (step c op).retained ≤ (step c op).peakBytes := by
  cases op with
  | get entry =>
    have hsame : (c.get entry).retained = c.retained ∧ (c.get entry).peakBytes = c.peakBytes := by
      unfold Cache.get
      cases c.find entry <;> exact ⟨rfl, rfl⟩
    simp only [TemplateCache.step, hsame]
    omega
  | erase entry =>
    have hretained := (h.erase_retained entry).2
    simp only [TemplateCache.step, (erase_clock c entry).2]
    omega
  | put recipe checkedNative maps capacities =>
    simp only [TemplateCache.step]
    generalize held recipe checkedNative maps capacities = value
    by_cases hsize : LIMIT < value.bytes
    · rw [put_large c _ hsize]
      omega
    · obtain ⟨room, -, -, hretained, -, hpeak⟩ := h.put_room recipe.h.entry (Nat.not_lt.mp hsize)
      omega

theorem peak_of_reached {c : Cache} {touches retained : List ℕ} (h : Reached c touches retained) :
    c.peakBytes = retained.foldr max 0 ∧ c.retained ≤ c.peakBytes := by
  induction h with
  | start => exact ⟨rfl, le_rfl⟩
  | step op h ih =>
    obtain ⟨hpeak, hle⟩ := step_peak (inv_of_reached h) op ih.2
    exact ⟨by rw [hpeak, List.foldr_cons, ih.1], hle⟩

/-! ### All runs -/

/-- **The template cache.** In every cache that can be reached, the counter is the memory that is
held, within the bounds, and the peak is its maximum. A template that is not too large is present
after `put`, and of the other entries, in the order of their last touches, as many of the oldest are
gone as it needs. -/
theorem templateCache_invariant (c : Cache) (touches retained : List ℕ)
    (h : Reached c touches retained) :
    c.retained = total c.entries ∧ c.retained ≤ LIMIT ∧ c.entries.length ≤ 64 ∧
      c.peakBytes = retained.foldr max 0 ∧
      ∀ (entry : ℕ) (value : Held), value.bytes ≤ LIMIT →
        (c.put entry value).find entry = some (fresh c entry value) ∧
        ∃ evicted kept : List (ℕ × Held),
          (c.entries.filter fun x => x.1 ≠ entry).Perm (evicted ++ kept) ∧
          (evicted ++ kept).Pairwise (Older touches) ∧
          (c.put entry value).entries.Perm (fresh c entry value :: kept) ∧
          Fits value.bytes kept ∧
          ∀ i < evicted.length, ¬ Fits value.bytes ((evicted ++ kept).drop i) := by
  have hinv := inv_of_reached h
  refine ⟨hinv.retained, hinv.bounded, hinv.count, (peak_of_reached h).1,
    fun entry value hsize => ?_⟩
  obtain ⟨room, hroom, hentries, -⟩ := hinv.put_room entry hsize
  obtain ⟨evicted, kept, hperm, hkept, hsorted, hfits, hneeded⟩ := hroom.evicted
  have hpresent : fresh c entry value ∈ (c.put entry value).entries :=
    hentries.mem_iff.mpr List.mem_cons_self
  refine ⟨find_of_mem (hinv.put entry hsize).distinct hpresent, evicted, kept, ?_, ?_,
    hentries.trans (hkept.cons _), hfits, hneeded⟩
  · rwa [erase_entries] at hperm
  · -- the order of `used` is the order of the last touches
    refine hsorted.imp_of_mem fun {x y} hx hy hxy => ?_
    have hmem : ∀ z ∈ evicted ++ kept, z ∈ c.entries := by
      intro z hz
      have hz' := hperm.mem_iff.mpr hz
      rw [erase_entries] at hz'
      exact List.mem_of_mem_filter hz'
    exact (hinv.older_iff (hmem x hx) (hmem y hy)).mpr hxy

/-- Two templates of more than four mebibytes: the first is evicted for the second. -/
theorem templateCache_invariant_sample : ∃ c touches retained, Reached c touches retained ∧
    touches = [0x5000] ∧ c.entries.map Prod.fst = [0x5000] ∧
      ∃ value : Held, value.bytes ≤ LIMIT ∧ (c.put 0x6000 value).find 0x6000 =
        some (fresh c 0x6000 value) ∧
        (c.put 0x6000 value).entries.map Prod.fst = [0x6000] := by
  obtain ⟨value, hvalue⟩ : ∃ value, value = held sampleRecipe false none ⟨2 ^ 19, 2, 1, 0⟩ :=
    ⟨_, rfl⟩
  have hsize : value.bytes ≤ LIMIT := by
    rw [hvalue]
    decide
  have hlarge : LIMIT < value.bytes + 0 + value.bytes := by
    rw [hvalue]
    decide
  let op : Op := .put sampleRecipe false none ⟨2 ^ 19, 2, 1, 0⟩
  have hput : Reached (empty.put 0x5000 value) ((touched empty op).toList ++ [])
      [(empty.put 0x5000 value).retained, 0] := by
    rw [hvalue]
    exact Reached.start.step op
  -- the first template is alone in the cache
  obtain ⟨-, -, -, -, hfirst⟩ := templateCache_invariant _ _ _ Reached.start
  obtain ⟨-, evicted₀, kept₀, hperm₀, -, hentries₀, -⟩ := hfirst 0x5000 value hsize
  obtain ⟨rfl, rfl⟩ := List.append_eq_nil_iff.mp (List.Perm.nil_eq hperm₀).symm
  have hone : (empty.put 0x5000 value).entries = [fresh empty 0x5000 value] :=
    List.perm_singleton.mp hentries₀
  obtain ⟨-, -, -, -, hsecond⟩ := templateCache_invariant _ _ _ hput
  obtain ⟨hfound, evicted, kept, hperm, -, hentries, hfits, -⟩ := hsecond 0x6000 value hsize
  have hothers : [fresh empty 0x5000 value].Perm (evicted ++ kept) := by
    rwa [hone, List.filter_cons_of_pos (by simp [fresh]), List.filter_nil] at hperm
  -- both together are larger than the cache
  have hnone : kept = [] := by
    rcases List.append_eq_singleton_iff.mp (List.singleton_perm.mp hothers).symm with ⟨-,
      hkept⟩ | ⟨-, hkept⟩
    · rw [hkept] at hfits
      exact absurd hfits.1 (Nat.not_le.mpr hlarge)
    · exact hkept
  rw [hnone] at hentries
  refine ⟨_, _, _, hput, by decide +kernel, ?_, value, hsize, hfound, ?_⟩
  · exact congrArg (List.map Prod.fst) hone
  · rw [List.perm_singleton.mp hentries]
    rfl

end Afterfree.Preload.TemplateCache
