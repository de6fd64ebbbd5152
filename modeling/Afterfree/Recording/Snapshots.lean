import Afterfree.Recording.Templates

/-!
# Snapshot reads

`read_snapshot` of `common.hpp` and the fallback loop of `SnapshotReader::copy` in `snapshot.hpp`
both put a span together from pieces. `snapshots_exact`: they succeed exactly when every byte is
there.
-/

namespace Afterfree.Recording.Snapshots

open Afterfree.Common Afterfree.Codec Afterfree.Encoding Afterfree.Native.Decode
open Afterfree.Recording.Templates

/-! ### Reading a recipe -/

/-- Every byte of the span lies in a segment. -/
def Covered (inputs : List Segment) (address size : ℕ) : Prop :=
  ∀ i < size, ∃ s ∈ inputs, holds (address + i) s = true

/-- **The loop of `read_snapshot` ends**: one more copy needs at least one more byte, so that fuel
for every byte brings a verdict, and more fuel the same one. -/
theorem readSnapshotLoop_ends (inputs : List Segment) : ∀ (size address : ℕ),
    ∃ verdict, ∀ fuel, size ≤ fuel → readSnapshotLoop inputs fuel address size = some verdict := by
  intro size
  induction size using Nat.strong_induction_on with
  | _ size ih =>
    intro address
    cases size with
    | zero => exact ⟨some [], fun fuel _ => by cases fuel <;> rfl⟩
    | succ size =>
      cases hf : inputs.find? (holds address) with
      | none =>
        refine ⟨none, fun fuel hfuel => ?_⟩
        obtain ⟨fuel, rfl⟩ : ∃ k, fuel = k + 1 := ⟨fuel - 1, by omega⟩
        rw [readSnapshotLoop, hf]
      | some s =>
        have hh := holds_iff.mp (List.find?_some hf)
        obtain ⟨count, hcount⟩ : ∃ c, c = min (size + 1) (s.bytes.length - (address - s.address)) :=
          ⟨_, rfl⟩
        obtain ⟨rest, hrest⟩ := ih (size + 1 - count) (by omega) (address + count)
        refine ⟨rest.map ((s.bytes.drop (address - s.address)).take count ++ ·),
          fun fuel hfuel => ?_⟩
        obtain ⟨fuel, rfl⟩ : ∃ k, fuel = k + 1 := ⟨fuel - 1, by omega⟩
        rw [readSnapshotLoop, hf]
        dsimp only
        rw [← hcount, hrest fuel (by omega), Option.map_some]

theorem readSnapshot_verdict (r : Recipe) {address size : ℕ} (hfit : address + size ≤ UINT64_MAX)
    {fuel : ℕ} (hfuel : size ≤ fuel) :
    readSnapshotLoop r.inputs fuel address size = some (readSnapshot r address size) := by
  obtain ⟨verdict, h⟩ := readSnapshotLoop_ends r.inputs size address
  rw [readSnapshot, if_neg (by omega), h fuel hfuel, h size le_rfl, Option.join_some]

theorem readSnapshotLoop_covered (inputs : List Segment) : ∀ {fuel address size : ℕ}
    {verdict : Option (List UInt8)}, readSnapshotLoop inputs fuel address size = some verdict →
      (verdict.isSome = true ↔ Covered inputs address size)
  | fuel, _, 0, _, h => by
    cases fuel <;> cases h <;> exact ⟨fun _ i hi => by omega, fun _ => rfl⟩
  | 0, _, _ + 1, _, h => by cases h
  | fuel + 1, address, size + 1, verdict, h => by
    rw [readSnapshotLoop] at h
    cases hf : inputs.find? (holds address) with
    | none =>
      -- the first byte is in no segment
      rw [hf] at h
      cases h
      refine ⟨fun hsome => Bool.noConfusion hsome, fun hcovered => ?_⟩
      obtain ⟨s, hs, hh⟩ := hcovered 0 (by omega)
      exact absurd hh (List.find?_eq_none.mp hf s hs)
    | some s =>
      rw [hf] at h
      have hmem := List.mem_of_find?_eq_some hf
      have hh := holds_iff.mp (List.find?_some hf)
      obtain ⟨rest, hrest, rfl⟩ := Option.map_eq_some_iff.mp h
      generalize hcount : min (size + 1) (s.bytes.length - (address - s.address)) = count at hrest
      rw [Option.isSome_map, readSnapshotLoop_covered inputs hrest]
      constructor
      · intro hrest i hi
        by_cases hic : i < count
        · exact ⟨s, hmem, holds_iff.mpr (by omega)⟩
        · have hat := hrest (i - count) (by omega)
          rwa [show address + count + (i - count) = address + i by omega] at hat
      · intro hall i hi
        have hat := hall (count + i) (by omega)
        rwa [← Nat.add_assoc] at hat

/-- **`read_snapshot`** of a well-formed recipe. -/
theorem readSnapshot_isSome {r : Recipe} (hw : WellFormed r) (address size : ℕ) :
    (readSnapshot r address size).isSome = true ↔
      address + size ≤ UINT64_MAX ∧ Covered r.inputs address size := by
  constructor
  · intro h
    obtain ⟨bytes, hbytes⟩ := Option.isSome_iff_exists.mp h
    have hfit := (readSnapshot_spec hw hbytes).1
    exact ⟨hfit, (readSnapshotLoop_covered _ (readSnapshot_verdict r hfit le_rfl)).mp h⟩
  · rintro ⟨hfit, hcovered⟩
    exact (readSnapshotLoop_covered _ (readSnapshot_verdict r hfit le_rfl)).mpr hcovered

theorem readSnapshot_bytes {r : Recipe} (hw : WellFormed r) {address size : ℕ} {bytes : List UInt8}
    (h : readSnapshot r address size = some bytes) :
    bytes.length = size ∧ ∀ i < size, ∀ s ∈ r.inputs, holds (address + i) s = true →
      bytes[i]? = s.bytes[address + i - s.address]? := by
  obtain ⟨-, hlength, hbytes⟩ := readSnapshot_spec hw h
  refine ⟨hlength, fun i hi s hs hh => ?_⟩
  rw [hbytes i hi, snapshot, find_holds hw.inputs_sorted hs hh, Option.bind_some]

/-! ### Reading the process -/

/-- The readable ranges are in order and apart, and end inside the address space. -/
structure Ascending (ranges : List (ℕ × ℕ)) : Prop where
  ordered : ∀ r ∈ ranges, r.1 ≤ r.2
  apart : ranges.Pairwise fun a b => a.2 ≤ b.1
  fits : ∀ r ∈ ranges, r.2 ≤ UINT64_MAX

/-- The address lies in a range. -/
def Readable (ranges : List (ℕ × ℕ)) (a : ℕ) : Prop := ∃ r ∈ ranges, r.1 ≤ a ∧ a < r.2

theorem Ascending.tail {range : ℕ × ℕ} {rest : List (ℕ × ℕ)} (h : Ascending (range :: rest)) :
    Ascending rest :=
  ⟨fun r hr => h.ordered r (List.mem_cons_of_mem _ hr), (List.pairwise_cons.mp h.apart).2,
    fun r hr => h.fits r (List.mem_cons_of_mem _ hr)⟩

/-- **The loop over the ranges.** A range behind the cursor is skipped, one ahead of it leaves a
gap, and one around it moves it. -/
theorem reaches_iff {ranges : List (ℕ × ℕ)} (h : Ascending ranges) {cursor stop : ℕ}
    (hlt : cursor < stop) :
    SnapshotReader.reaches ranges cursor stop = true ↔
      ∀ a, cursor ≤ a → a < stop → Readable ranges a := by
  induction ranges generalizing cursor with
  | nil =>
    refine ⟨fun hfalse => absurd hfalse (by simp [SnapshotReader.reaches]), fun hall => ?_⟩
    obtain ⟨r, hr, -⟩ := hall cursor le_rfl hlt
    cases hr
  | cons range rest ih =>
    obtain ⟨hafter, -⟩ := List.pairwise_cons.mp h.apart
    have hrange := h.ordered range List.mem_cons_self
    rw [SnapshotReader.reaches]
    by_cases hahead : cursor < range.1
    · rw [if_pos hahead]
      refine ⟨fun hfalse => absurd hfalse (by simp), fun hall => ?_⟩
      -- the byte at the cursor is in no range
      obtain ⟨r, hr, hlow, hhigh⟩ := hall cursor le_rfl hlt
      rcases List.mem_cons.mp hr with rfl | hr
      · omega
      · have hrest := hafter r hr
        omega
    · rw [if_neg hahead]
      by_cases hbehind : range.2 ≤ cursor
      · rw [if_pos hbehind, ih h.tail hlt]
        constructor
        · intro hall a hlow hhigh
          obtain ⟨r, hr, hin⟩ := hall a hlow hhigh
          exact ⟨r, List.mem_cons_of_mem _ hr, hin⟩
        · intro hall a hlow hhigh
          obtain ⟨r, hr, hin⟩ := hall a hlow hhigh
          rcases List.mem_cons.mp hr with rfl | hr
          · omega
          · exact ⟨r, hr, hin⟩
      · rw [if_neg hbehind]
        by_cases hend : min stop range.2 = stop
        · rw [if_pos hend]
          exact ⟨fun _ a hlow hhigh => ⟨range, List.mem_cons_self, by omega, by omega⟩,
            fun _ => rfl⟩
        · rw [if_neg hend, show min stop range.2 = range.2 by omega, ih h.tail (by omega)]
          constructor
          · intro hall a hlow hhigh
            by_cases ha : a < range.2
            · exact ⟨range, List.mem_cons_self, by omega, ha⟩
            · obtain ⟨r, hr, hin⟩ := hall a (by omega) hhigh
              exact ⟨r, List.mem_cons_of_mem _ hr, hin⟩
          · intro hall a hlow hhigh
            obtain ⟨r, hr, hin⟩ := hall a (by omega) hhigh
            rcases List.mem_cons.mp hr with rfl | hr
            · omega
            · exact ⟨r, hr, hin⟩

/-- **`copy`** without `process_vm_readv`. -/
theorem copy_iff {process : Process} {ranges : List (ℕ × ℕ)} (h : Ascending ranges)
    (address size : ℕ) :
    SnapshotReader.copy process ⟨true, ranges⟩ address size =
        some (process.span address size, ⟨true, ranges⟩) ↔
      0 < size ∧ ∀ a, address ≤ a → a < address + size → Readable ranges a := by
  unfold SnapshotReader.copy
  by_cases hbad : size = 0 ∨ UINT64_MAX - size < address
  · rw [if_pos hbad]
    refine ⟨fun hfalse => absurd hfalse (by simp), fun ⟨hpos, hall⟩ => ?_⟩
    -- the last byte would lie above all ranges
    obtain ⟨r, hr, -, hhigh⟩ := hall (address + (size - 1)) (by omega) (by omega)
    have hfits := h.fits r hr
    omega
  · rw [if_neg hbad, if_pos rfl]
    unfold SnapshotReader.copyReadable
    have hreaches := reaches_iff h (show address < address + size by omega)
    by_cases hr : SnapshotReader.reaches ranges address (address + size) = true
    · rw [if_pos hr]
      exact ⟨fun _ => ⟨by omega, hreaches.mp hr⟩, fun _ => rfl⟩
    · rw [if_neg hr]
      exact ⟨fun hfalse => absurd hfalse (by simp), fun hall => absurd (hreaches.mpr hall.2) hr⟩

/-! ### Both -/

/-- **Snapshot reads are exact.** Fuel for every byte ends the loop of `read_snapshot`, with what it
returns. -/
theorem snapshots_exact (data : List UInt8) (recipe : Recipe) (hdecode : decode data = .ok recipe)
    (process : Process) (ranges : List (ℕ × ℕ)) (hranges : Ascending ranges) (address size : ℕ) :
    (address + size ≤ UINT64_MAX → ∀ fuel, size ≤ fuel →
        readSnapshotLoop recipe.inputs fuel address size =
          some (readSnapshot recipe address size)) ∧
      ((readSnapshot recipe address size).isSome = true ↔
        address + size ≤ UINT64_MAX ∧ Covered recipe.inputs address size) ∧
      (∀ bytes, readSnapshot recipe address size = some bytes →
        bytes.length = size ∧ ∀ i < size, ∀ s ∈ recipe.inputs, holds (address + i) s = true →
          bytes[i]? = s.bytes[address + i - s.address]?) ∧
      (SnapshotReader.copy process ⟨true, ranges⟩ address size =
          some (process.span address size, ⟨true, ranges⟩) ↔
        0 < size ∧ ∀ a, address ≤ a → a < address + size → Readable ranges a) := by
  have hw : WellFormed recipe := (decode_iff.mp hdecode).1
  exact ⟨fun hfit _ hfuel => readSnapshot_verdict recipe hfit hfuel,
    readSnapshot_isSome hw address size,
    fun bytes hbytes => readSnapshot_bytes hw hbytes, copy_iff hranges address size⟩

/-- The sample recipe with its two bytes in a segment each, and a third segment behind a gap. -/
def splitRecipe : Recipe :=
  { Wrapping.sampleRecipe with
    h := { Wrapping.sampleRecipe.h with inputBytes := 4, inputCount := 3 }
    inputs := [⟨0x5001, [0xc3]⟩, ⟨0x5002, [7, 8]⟩, ⟨0x5005, [9]⟩] }

/-- A span over two segments, one with a gap in it, and one over two ranges. -/
theorem snapshots_exact_sample :
    readSnapshotLoop splitRecipe.inputs 3 0x5001 3 = some (some [0xc3, 7, 8]) ∧
      readSnapshotLoop splitRecipe.inputs 5 0x5001 5 = some none ∧
      SnapshotReader.copy laterProcess ⟨true, [(0x1000, 0x2000), (0x2000, 0x3000)]⟩ 0x1ffc 8 =
        some (laterProcess.span 0x1ffc 8, ⟨true, [(0x1000, 0x2000), (0x2000, 0x3000)]⟩) := by
  have hw : WellFormed splitRecipe := by decide +kernel
  have hdecode := decode_iff.mpr
    ⟨hw, _, _, _, rfl, List.Perm.refl _, List.Perm.refl _, List.Perm.refl _⟩
  have hranges : Ascending [(0x1000, 0x2000), (0x2000, 0x3000)] :=
    ⟨by decide, by decide, by decide⟩
  obtain ⟨hverdict, -, -, -⟩ := snapshots_exact _ _ hdecode laterProcess _ hranges 0x5001 3
  obtain ⟨hverdict', hgap, -, -⟩ := snapshots_exact _ _ hdecode laterProcess _ hranges 0x5001 5
  obtain ⟨-, -, -, hcopy⟩ := snapshots_exact _ _ hdecode laterProcess _ hranges 0x1ffc 8
  refine ⟨?_, ?_, hcopy.mpr ⟨by decide, fun a hlow hhigh => ?_⟩⟩
  · exact hverdict (by decide) 3 le_rfl
  · refine (hverdict' (by decide) 5 le_rfl).trans (congrArg some ?_)
    rw [← Option.not_isSome_iff_eq_none, hgap]
    rintro ⟨-, hcovered⟩
    -- the byte between the second segment and the third
    exact absurd (hcovered 3 (by decide)) (by decide)
  · by_cases ha : a < 0x2000
    · exact ⟨(0x1000, 0x2000), by simp, by dsimp only; omega, ha⟩
    · exact ⟨(0x2000, 0x3000), by simp, by dsimp only; omega, by dsimp only; omega⟩

end Afterfree.Recording.Snapshots
