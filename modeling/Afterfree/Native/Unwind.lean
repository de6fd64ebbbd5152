import Afterfree.Lib.Worklist
import Afterfree.Native.Decode

/-!
# The extents of the memory routines

`unwind.cpp`: the routines `memcpy`, `memmove` and `memset` are instrumented whole, so the control
flow from their entries is followed until it is closed. The memory of the process, the unwinder, the
checked copy of code and the instruction decoder are parameters.

`routineExtents_closed`: the search ends, and extents that are found cover everything reachable.
-/

namespace Afterfree.Native.Unwind

open Afterfree.Common Afterfree.Codec Afterfree.Lib.Worklist
open Afterfree.Native.Decode (int32)

/-! ### What the process gives -/

/-- The categories that are told apart. -/
inductive Category
  | ret
  | call
  | syscall
  | sysret
  | interrupt
  | condBr
  | uncondBr
  | other
deriving DecidableEq

/-- What is read of the first operand. -/
structure Operand where
  isImmediate : Bool
  isRelative : Bool
  value : ℤ
deriving DecidableEq

/-- What is read of a decoded instruction. -/
structure Instruction where
  length : ℕ
  category : Category
  operandCountVisible : ℕ
  operand : Operand
deriving DecidableEq

/-- The bytes of the unwind tables; `_Unwind_Find_FDE`, where there is one, with the entry and the
start of the function; the copy of 15 bytes of code; the decoder. -/
structure Process where
  memory : ℕ → UInt8
  find : Option (ℕ → Option (ℕ × ℕ))
  copy : ℕ → Option (List UInt8)
  decode : List UInt8 → Option Instruction

/-! ### Extents of functions -/

/-- `n` bytes from an address on. -/
def Process.bytes (p : Process) (address n : ℕ) : List UInt8 :=
  (List.range n).map fun i => p.memory (address + i)

/-- `word`. -/
def Process.word (p : Process) (address : ℕ) : ℕ := leNat (p.bytes address 4)

/-- `leb`: the cursor behind a number of at most ten bytes. -/
def Process.leb (p : Process) (stop : ℕ) : ℕ → ℕ → Option ℕ
  | 0, _ => none
  | i + 1, cursor =>
    if cursor < stop then
      if p.memory cursor &&& 0x80 = 0 then some (cursor + 1) else p.leb stop i (cursor + 1)
    else none

/-- The pointer encoding of a common information entry with augmentation `zR`. -/
def Process.encoding (p : Process) (cie size : ℕ) : Option UInt8 :=
  let cursor := cie + 8
  let stop := cie + 4 + size
  let version := p.memory cursor
  if (version ≠ 1 ∧ version ≠ 3) ∨ stop - (cursor + 1) < 3 ∨ p.memory (cursor + 1) ≠ 0x7a ∨
      p.memory (cursor + 2) ≠ 0x52 ∨ p.memory (cursor + 3) ≠ 0 then none
  else do
    let cursor ← p.leb stop 10 (cursor + 4)
    let cursor ← p.leb stop 10 cursor
    let cursor ← (if version = 1 then (if cursor = stop then none else some (cursor + 1))
      else p.leb stop 10 cursor)
    if stop - cursor < 2 ∨ p.memory cursor ≠ 1 then none else some (p.memory (cursor + 1))

/-- The start and the length that a frame description entry has. -/
def Process.described (p : Process) (fde size : ℕ) (encoding : UInt8) : Option (ℕ × ℕ) :=
  if encoding = 0x1b then
    let displacement := int32 (p.bytes (fde + 8) 4)
    let extent := int32 (p.bytes (fde + 12) 4)
    if extent ≤ 0 then none
    else some ((((fde + 8 : ℕ) + displacement) % (UINT64_MAX + 1)).toNat, extent.toNat)
  else if encoding = 0 ∧ 20 ≤ size then
    some (leNat (p.bytes (fde + 8) 8), leNat (p.bytes (fde + 16) 8))
  else none

/-- `function_extent`. -/
def functionExtent (p : Process) (address : ℕ) : Option (ℕ × ℕ) := do
  let find ← p.find
  let (fde, function) ← find address
  let size := p.word fde
  let distance := p.word (fde + 4)
  if size < 12 ∨ 4096 < size ∨ distance = 0 ∨ fde + 4 < distance then none
  else
    let cie := fde + 4 - distance
    let cieSize := p.word cie
    if cieSize < 12 ∨ 4096 < cieSize ∨ p.word (cie + 4) ≠ 0 then none
    else do
      let encoding ← p.encoding cie cieSize
      let (low, length) ← p.described fde size encoding
      if length = 0 ∨ 2 ^ 20 < length ∨ UINT64_MAX - length < low ∨ low ≠ function ∨ address < low ∨
          low + length ≤ address then none
      else some (low, low + length)

/-- The address lies in the range. -/
def Within (pc : ℕ) (range : ℕ × ℕ) : Prop := range.1 ≤ pc ∧ pc < range.2

theorem functionExtent_within {p : Process} {pc : ℕ} {range : ℕ × ℕ}
    (h : functionExtent p pc = some range) : Within pc range := by
  simp only [functionExtent, Option.bind_eq_bind, Option.bind_eq_some_iff] at h
  obtain ⟨find, -, ⟨fde, function⟩, -, h⟩ := h
  simp only at h
  by_cases hsize : p.word fde < 12 ∨ 4096 < p.word fde ∨ p.word (fde + 4) = 0 ∨
      fde + 4 < p.word (fde + 4)
  · rw [if_pos hsize] at h
    exact absurd h (by simp)
  · rw [if_neg hsize] at h
    split at h
    · exact absurd h (by simp)
    · simp only [Option.bind_eq_some_iff] at h
      obtain ⟨encoding, -, ⟨low, length⟩, -, h⟩ := h
      split at h
      · exact absurd h (by simp)
      · rename_i hchecked
        rw [Option.some.injEq] at h
        rw [← h, Within]
        omega

/-! ### The control flow -/

/-- The instruction at an address. -/
def Process.instructionAt (p : Process) (pc : ℕ) : Option Instruction := (p.copy pc).bind p.decode

/-- `branch`. -/
def Instruction.branch (i : Instruction) : Bool :=
  i.category = .condBr || i.category = .uncondBr

/-- The only operand of a direct branch is a relative immediate. -/
def Instruction.direct (i : Instruction) : Bool :=
  i.operandCountVisible = 1 && i.operand.isImmediate && i.operand.isRelative

/-- The target of a direct branch wraps. -/
def Instruction.target (i : Instruction) (next : ℕ) : ℕ :=
  ((next + i.operand.value) % (UINT64_MAX + 1)).toNat

/-- The instructions that leave the routine for other code. -/
def Instruction.leaves (i : Instruction) : Bool :=
  i.category = .call || i.category = .syscall || i.category = .sysret || i.category = .interrupt

/-- One address follows another: by fall-through, or as the target of a direct branch. -/
inductive Edge (p : Process) (pc : ℕ) : ℕ → Prop
  | falls {i : Instruction} (h : p.instructionAt pc = some i) (hret : i.category ≠ .ret)
      (huncond : i.category ≠ .uncondBr) : Edge p pc (pc + i.length)
  | branches {i : Instruction} (h : p.instructionAt pc = some i) (hbranch : i.branch)
      (hdirect : i.direct) : Edge p pc (i.target (pc + i.length))

/-- The instruction is decodable and stays inside the routine. -/
structure Closed (p : Process) (pc : ℕ) (i : Instruction) : Prop where
  decodable : p.instructionAt pc = some i
  length : i.length ≠ 0 ∧ pc + i.length ≤ UINT64_MAX
  stays : i.leaves = false
  direct : i.branch → i.direct

/-! ### The search -/

/-- The body of the inner loop of `routine_extents`, for an address that was not visited. -/
def visit (p : Process) (visited : Finset ℕ) (ranges : Finset (ℕ × ℕ)) (pc : ℕ) :
    Option (Visit ℕ (Finset (ℕ × ℕ))) :=
  if 32768 ≤ visited.card ∨ 1024 ≤ ranges.card then none
  else do
    let range ← functionExtent p pc
    let ranges := insert range ranges
    let bytes ← p.copy pc
    let instruction ← p.decode bytes
    if instruction.length = 0 ∨ UINT64_MAX < pc + instruction.length then none
    else
      let next := pc + instruction.length
      if instruction.category = .ret then some ⟨ranges, [], none⟩
      else if instruction.leaves then none
      else if instruction.branch then
        if !instruction.direct then none
        else some ⟨ranges, [instruction.target next],
          if instruction.category = .uncondBr then none else some next⟩
      else some ⟨ranges, [], some next⟩

/-- `routine_extents`: no result when the fuel runs out, no ranges when the search gives up. -/
def routineExtents (p : Process) (fuel entry : ℕ) : Option (Finset (ℕ × ℕ)) :=
  (search (visit p) fuel (begin entry ∅)).map fun r => (r.map State.found).getD ∅

theorem visit_cases {p : Process} {V : Finset ℕ} {ranges : Finset (ℕ × ℕ)} {pc : ℕ}
    {v : Visit ℕ (Finset (ℕ × ℕ))} (h : visit p V ranges pc = some v) :
    V.card < 32768 ∧ ∃ range i, functionExtent p pc = some range ∧ Closed p pc i ∧
      v.found = insert range ranges ∧
      ((i.category = .ret ∧ v.pushed = [] ∧ v.next = none) ∨
        (i.category = .uncondBr ∧ v.pushed = [i.target (pc + i.length)] ∧ v.next = none) ∨
        (i.category = .condBr ∧ v.pushed = [i.target (pc + i.length)] ∧
          v.next = some (pc + i.length)) ∨
        (i.category ≠ .ret ∧ i.branch = false ∧ v.pushed = [] ∧
          v.next = some (pc + i.length))) := by
  unfold visit at h
  by_cases hlimit : 32768 ≤ V.card ∨ 1024 ≤ ranges.card
  · rw [if_pos hlimit] at h
    exact absurd h (by simp)
  rw [if_neg hlimit] at h
  simp only [Option.bind_eq_bind, Option.bind_eq_some_iff] at h
  obtain ⟨range, hrange, bytes, hbytes, i, hi, h⟩ := h
  have hat : p.instructionAt pc = some i := by
    rw [Process.instructionAt, hbytes, Option.bind_some, hi]
  refine ⟨by omega, range, i, hrange, ?_⟩
  by_cases hlength : i.length = 0 ∨ UINT64_MAX < pc + i.length
  · rw [if_pos hlength] at h
    exact absurd h (by simp)
  rw [if_neg hlength] at h
  have hlength' : i.length ≠ 0 ∧ pc + i.length ≤ UINT64_MAX := by
    push Not at hlength
    exact hlength
  by_cases hret : i.category = .ret
  · rw [if_pos hret, Option.some.injEq] at h
    subst h
    have hstays : i.leaves = false := by simp [Instruction.leaves, hret]
    have hdirect : i.branch → i.direct := by simp [Instruction.branch, hret]
    exact ⟨⟨hat, hlength', hstays, hdirect⟩, rfl, .inl ⟨hret, rfl, rfl⟩⟩
  rw [if_neg hret] at h
  by_cases hleaves : i.leaves = true
  · rw [if_pos hleaves] at h
    exact absurd h (by simp)
  rw [if_neg hleaves] at h
  have hstays : i.leaves = false := by simpa using hleaves
  by_cases hbranch : i.branch = true
  · rw [if_pos hbranch] at h
    by_cases hdirect : i.direct = true
    · have hnot : ¬ (!i.direct) = true := by simp [hdirect]
      rw [if_neg hnot, Option.some.injEq] at h
      subst h
      refine ⟨⟨hat, hlength', hstays, fun _ => hdirect⟩, rfl, .inr ?_⟩
      by_cases huncond : i.category = .uncondBr
      · exact .inl ⟨huncond, rfl, if_pos huncond⟩
      · have hcond : i.category = .condBr := by simpa [Instruction.branch, huncond] using hbranch
        exact .inr (.inl ⟨hcond, rfl, if_neg huncond⟩)
    · rw [if_pos (by simp [hdirect])] at h
      exact absurd h (by simp)
  · rw [if_neg hbranch, Option.some.injEq] at h
    subst h
    have hdirect : i.branch → i.direct := fun hb => absurd hb hbranch
    exact ⟨⟨hat, hlength', hstays, hdirect⟩, rfl,
      .inr (.inr (.inr ⟨hret, by simpa using hbranch, rfl, rfl⟩))⟩

theorem visit_edge {p : Process} {V : Finset ℕ} {ranges : Finset (ℕ × ℕ)} {pc : ℕ}
    {v : Visit ℕ (Finset (ℕ × ℕ))} (h : visit p V ranges pc = some v) {b : ℕ} (hb : Edge p pc b) :
    b ∈ v.pushed ∨ v.next = some b := by
  obtain ⟨-, range, i, -, hclosed, -, hcases⟩ := visit_cases h
  cases hb with
  | @falls j hj hret huncond =>
    obtain rfl : i = j := by simpa [hclosed.decodable] using hj
    rcases hcases with ⟨hcat, -, -⟩ | ⟨hcat, -, -⟩ | ⟨-, -, hnext⟩ | ⟨-, -, -, hnext⟩
    · exact absurd hcat hret
    · exact absurd hcat huncond
    · exact .inr hnext
    · exact .inr hnext
  | @branches j hj hbranch hdirect =>
    obtain rfl : i = j := by simpa [hclosed.decodable] using hj
    rcases hcases with ⟨hcat, -, -⟩ | ⟨-, hpushed, -⟩ | ⟨-, hpushed, -⟩ | ⟨-, hnot, -, -⟩
    · simp [Instruction.branch, hcat] at hbranch
    · exact .inl (by simp [hpushed])
    · exact .inl (by simp [hpushed])
    · simp [hnot] at hbranch

/-- Everything visited lies in a range and stays inside the routine. -/
def Kept (p : Process) (visited : Finset ℕ) (ranges : Finset (ℕ × ℕ)) : Prop :=
  ∀ pc ∈ visited, (∃ range ∈ ranges, Within pc range) ∧ ∃ i, Closed p pc i

theorem Kept.visit {p : Process} {V : Finset ℕ} {ranges : Finset (ℕ × ℕ)} {pc : ℕ}
    {v : Visit ℕ (Finset (ℕ × ℕ))} (hk : Kept p V ranges) (h : visit p V ranges pc = some v) :
    Kept p (insert pc V) v.found := by
  obtain ⟨-, range, i, hrange, hclosed, hfound, -⟩ := visit_cases h
  intro x hx
  rw [hfound]
  rcases Finset.mem_insert.mp hx with rfl | hx
  · exact ⟨⟨range, Finset.mem_insert_self _ _, functionExtent_within hrange⟩, i, hclosed⟩
  · obtain ⟨⟨r, hr, hwithin⟩, hi⟩ := hk x hx
    exact ⟨⟨r, Finset.mem_insert_of_mem hr, hwithin⟩, hi⟩

theorem routineExtents_ends (p : Process) (entry : ℕ) :
    ∃ ranges, ∀ fuel, 98308 ≤ fuel → routineExtents p fuel entry = some ranges := by
  have hbound : ∀ V f a, 32768 ≤ V.card → visit p V f a = none := by
    intro V f a hV
    rw [visit, if_pos (.inl hV)]
  have hwidth : ∀ V f a v, visit p V f a = some v → v.pushed.length ≤ 1 := by
    intro V f a v hv
    obtain ⟨-, range, i, -, -, -, hcases⟩ := visit_cases hv
    rcases hcases with ⟨-, h, -⟩ | ⟨-, h, -⟩ | ⟨-, h, -⟩ | ⟨-, -, h, -⟩
    all_goals simp [h]
  have hweight : weight 32768 1 (begin entry (∅ : Finset (ℕ × ℕ))) < 98308 := by
    simp [weight, begin]
  obtain ⟨r, hr⟩ := search_terminates hbound hwidth hweight
  refine ⟨(r.map State.found).getD ∅, fun fuel hfuel => ?_⟩
  rw [routineExtents, search_mono hr hfuel, Option.map_some]

theorem closed_of_found {p : Process} {fuel entry : ℕ} {ranges : Finset (ℕ × ℕ)}
    (h : routineExtents p fuel entry = some ranges) (hne : ranges.Nonempty) {pc : ℕ}
    (hpc : Relation.ReflTransGen (Edge p) entry pc) :
    (∃ range ∈ ranges, Within pc range) ∧ ∃ i, Closed p pc i := by
  rw [routineExtents, Option.map_eq_some_iff] at h
  obtain ⟨r, hr, rfl⟩ := h
  cases r with
  | none => simp at hne
  | some t =>
    have h0 : Kept p ∅ ∅ := fun a ha => absurd ha (Finset.notMem_empty a)
    have hedge : ∀ V f a v, visit p V f a = some v → ∀ b, Edge p a b → b ∈ v.pushed ∨
      v.next = some b :=
      fun V f a v hv b hb => visit_edge hv hb
    obtain ⟨hkept, hvisited⟩ := search_closed hedge (fun V f a v hk hv => Kept.visit hk hv) h0 hr
    exact hkept pc (hvisited pc hpc)

/-- **Closure.** The search ends; when it finds ranges, everything reachable from the entry lies in
one of them, is decodable, and neither leaves the routine nor branches indirectly. -/
theorem routineExtents_closed (p : Process) (entry : ℕ) :
    ∃ ranges, (∀ fuel, 98308 ≤ fuel → routineExtents p fuel entry = some ranges) ∧
      (ranges.Nonempty → ∀ pc, Relation.ReflTransGen (Edge p) entry pc →
        (∃ range ∈ ranges, Within pc range) ∧ ∃ i, Closed p pc i) := by
  obtain ⟨ranges, hends⟩ := routineExtents_ends p entry
  exact ⟨ranges, hends, fun hne pc hpc => closed_of_found (hends _ le_rfl) hne hpc⟩

/-! ### The memory routines -/

/-- `memory_routine_extents`: the ranges of all three routines, each once. -/
def memoryRoutineExtents (p : Process) (symbol : String → ℕ) (fuel : ℕ) :
    Option (Finset (ℕ × ℕ)) := do
  let copied ← routineExtents p fuel (symbol "memcpy")
  let moved ← routineExtents p fuel (symbol "memmove")
  let filled ← routineExtents p fuel (symbol "memset")
  return copied ∪ moved ∪ filled

theorem memoryRoutineExtents_whole {p : Process} {symbol : String → ℕ} {fuel : ℕ}
    {ranges own : Finset (ℕ × ℕ)} (h : memoryRoutineExtents p symbol fuel = some ranges)
    {name : String} (hname : name = "memcpy" ∨ name = "memmove" ∨ name = "memset")
    (hown : routineExtents p fuel (symbol name) = some own) (hne : own.Nonempty) {pc : ℕ}
    (hpc : Relation.ReflTransGen (Edge p) (symbol name) pc) :
    ∃ range ∈ ranges, Within pc range := by
  obtain ⟨⟨range, hrange, hwithin⟩, -⟩ := closed_of_found hown hne hpc
  refine ⟨range, ?_, hwithin⟩
  simp only [memoryRoutineExtents, Option.bind_eq_bind, Option.bind_eq_some_iff, Option.pure_def,
    Option.some.injEq] at h
  obtain ⟨copied, hcopied, moved, hmoved, filled, hfilled, rfl⟩ := h
  simp only [Finset.mem_union]
  rcases hname with rfl | rfl | rfl
  · rw [hown, Option.some.injEq] at hcopied
    exact .inl (.inl (hcopied ▸ hrange))
  · rw [hown, Option.some.injEq] at hmoved
    exact .inl (.inr (hmoved ▸ hrange))
  · rw [hown, Option.some.injEq] at hfilled
    exact .inr (hfilled ▸ hrange)

end Afterfree.Native.Unwind
