import Afterfree.Native.Decode
import Afterfree.Recording.Counting
import Afterfree.Wrapping

/-!
# Recipe templates

`template.hpp`: a recipe of one call is moved to another call of the same function. Addresses of the
output follow the output, addresses of the stack follow the stack pointer, all others stay, and the
inputs are copied again. The three pieces end on page boundaries and an input lies on one page, so
an input is moved as a whole, and the pages of the new recipe cover what the old ones did
(`instantiate_closed`).
-/

namespace Afterfree.Recording.Templates

open Afterfree.Common Afterfree.Codec Afterfree.Wrapping Afterfree.Native.Decode
open Afterfree.Recording.Capture Afterfree.Recording.Capture.Recorder
open Afterfree.Recording.Finish Afterfree.Recording.Runs Afterfree.Recording.Counting
open Std (TreeSet)

/-! ### Reading the process -/

/-- A line of `/proc/self/maps`. Mappings are made of whole pages. -/
structure Mapping where
  low : ℕ
  high : ℕ
  readable : Bool
  low_mod : low % PAGE = 0
  high_mod : high % PAGE = 0

/-- What `process_vm_readv` returns. `unavailable` are `ENOSYS` and `EPERM`. -/
inductive Transfer
  | copied (n : ℕ)
  | failed (unavailable : Bool)

/-- The process: its memory, and what the kernel answers. -/
structure Process where
  memory : ℕ → UInt8
  readv : ℕ → ℕ → Transfer
  maps : Option (List Mapping)

/-- The bytes of a span. -/
def Process.span (process : Process) (address size : ℕ) : List UInt8 :=
  (List.range size).map fun i => process.memory (address + i)

/-- `SnapshotReader`. -/
structure SnapshotReader where
  fallback : Bool
  readable : List (ℕ × ℕ)

namespace SnapshotReader

/-- A reader that has read nothing. -/
def fresh : SnapshotReader := ⟨false, []⟩

/-- The loop over the readable ranges: they cover everything from `cursor` to `stop`. -/
def reaches : List (ℕ × ℕ) → ℕ → ℕ → Bool
  | [], _, _ => false
  | range :: rest, cursor, stop =>
    if cursor < range.1 then false
    else if range.2 ≤ cursor then reaches rest cursor stop
    else if min stop range.2 = stop then true
    else reaches rest (min stop range.2) stop

/-- The end of `copy`: a local copy when the span is readable. -/
def copyReadable (process : Process) (reader : SnapshotReader) (address size : ℕ) :
    Option (List UInt8 × SnapshotReader) :=
  if reaches reader.readable address (address + size) then some (process.span address size, reader)
  else none

/-- `copy`. A failure ends `instantiate`, so the reader it leaves is not kept. -/
def copy (process : Process) (reader : SnapshotReader) (address size : ℕ) :
    Option (List UInt8 × SnapshotReader) :=
  if size = 0 ∨ UINT64_MAX - size < address then none
  else if reader.fallback then reader.copyReadable process address size
  else
    match process.readv address size with
    | .copied n => if n = size then some (process.span address size, reader) else none
    | .failed false => none
    | .failed true =>
      match process.maps with
      | none => none
      | some lines =>
        { fallback := true
          readable := reader.readable ++
            (lines.filter (·.readable)).map fun l => (l.low, l.high) : SnapshotReader }.copyReadable
              process address size

end SnapshotReader

/-! ### Templates -/

/-- `RecipeTemplate`. The stack is a mapping, or empty when none was found. -/
structure RecipeTemplate where
  original : Header
  nativeDispatch : Bool
  jumpBindings : List (ℕ × ℕ)
  pages : List ℕ
  code : List Instruction
  inputs : List (ℕ × ℕ)
  stackLow : ℕ
  stackHigh : ℕ
  low_mod : stackLow % PAGE = 0
  high_mod : stackHigh % PAGE = 0

namespace RecipeTemplate

/-- The jump slots of the code with their targets, where the inputs have them. -/
def bindings (recipe : Recipe) : List (ℕ × ℕ) :=
  recipe.code.filterMap fun c => do
    let slot ← ripJumpSlot c
    let target ← readSnapshot recipe slot 8
    some (slot, leNat target)

/-- The mapping of the stack pointer. -/
def stack (recipe : Recipe) (maps : Option (List Mapping)) : Option Mapping :=
  (maps.getD []).find? fun l =>
    decide (l.low ≤ recipe.h.regs.getD 15 0 ∧ recipe.h.regs.getD 15 0 < l.high)

/-- `RecipeTemplate::RecipeTemplate`. -/
def make (recipe : Recipe) (checkedNative : Bool) (maps : Option (List Mapping)) :
    RecipeTemplate where
  original := recipe.h
  nativeDispatch := checkedNative
  jumpBindings := bindings recipe
  pages := recipe.pages
  code := recipe.code
  inputs := recipe.inputs.map fun s => (s.address, s.bytes.length)
  stackLow := ((stack recipe maps).map Mapping.low).getD 0
  stackHigh := ((stack recipe maps).map Mapping.high).getD 0
  low_mod := by
    cases stack recipe maps with
    | none => rfl
    | some l => exact l.low_mod
  high_mod := by
    cases stack recipe maps with
    | none => rfl
    | some l => exact l.high_mod

/-- `relocate`. -/
def relocate (t : RecipeTemplate) (output rsp p : ℕ) : ℕ :=
  if t.original.output ≤ p ∧ p < t.original.output + rounded t.original.length then
    add64 output (p - t.original.output)
  else if t.stackLow ≤ p ∧ p < t.stackHigh then add64 (sub64 p (t.original.regs.getD 15 0)) rsp
  else p

/-- The code has not changed. -/
def checkCode (process : Process) : List Instruction → SnapshotReader → Option SnapshotReader
  | [], reader => some reader
  | c :: cs, reader => do
    let (current, reader) ← reader.copy process c.address c.size
    if current ≠ c.bytes.take c.size then none else checkCode process cs reader

/-- The jump slots have not changed. -/
def checkJumps (process : Process) : List (ℕ × ℕ) → SnapshotReader → Option SnapshotReader
  | [], reader => some reader
  | (slot, expected) :: rest, reader => do
    let (actual, reader) ← reader.copy process slot 8
    if leNat actual ≠ expected then none else checkJumps process rest reader

/-- The pages the relocated pages touch. A page ends below the top of the address space. -/
def relocatePages (move : ℕ → ℕ) : List ℕ → TreeSet ℕ → Option (TreeSet ℕ)
  | [], relocated => some relocated
  | p :: ps, relocated =>
    let first := move p
    let last := move (p + PAGE - 1)
    if last < first ∨ last - first ≠ PAGE - 1 then none
    else relocatePages move ps ((relocated.insert (base first)).insert (base last))

/-- The inputs at their new addresses. -/
def relocateInputs (process : Process) (move : ℕ → ℕ) :
    List (ℕ × ℕ) → SnapshotReader → Option (List Segment)
  | [], _ => some []
  | (p, size) :: rest, reader => do
    let (bytes, reader) ← reader.copy process (move p) size
    let tail ← relocateInputs process move rest reader
    some (⟨move p, bytes⟩ :: tail)

/-- `instantiate`, with the registers of the call: the new recipe and the recorder, or `none` for
`false`. -/
def instantiate (t : RecipeTemplate) (process : Process) (record : Recorder) (regs : List ℕ)
    (xmm : List (List UInt8)) (mxcsr : ℕ) : Option (Recipe × Recorder) :=
  if record.h.length ≠ t.original.length ∨ t.stackLow = 0 then none
  else do
    let move := t.relocate record.h.output (regs.getD 15 0)
    let reader ← checkCode process t.code SnapshotReader.fresh
    let reader ← checkJumps process t.jumpBindings reader
    let (stop, reader) ← reader.copy process (regs.getD 15 0) 8
    let relocated ← relocatePages move t.pages ∅
    let inputs ← relocateInputs process move t.inputs reader
    let h := { t.original with
      output := record.h.output
      entry := regs.getD 16 0
      fsBase := record.h.fsBase
      gsBase := record.h.gsBase
      mxcsr, regs, xmm
      stop := leNat stop }
    some ({ h, pages := relocated.toList, code := t.code, inputs },
      { record with
        h, steps := t.original.steps, liveBytes := t.original.inputBytes, began := true })

end RecipeTemplate

/-! ### The loops -/

/-- **`copy`** returns what the memory holds. -/
theorem copy_spec {process : Process} {reader reader' : SnapshotReader} {address size : ℕ}
    {bytes : List UInt8} (h : reader.copy process address size = some (bytes, reader')) :
    bytes = process.span address size := by
  have hlocal : ∀ s : SnapshotReader, s.copyReadable process address size = some (bytes, reader') →
      bytes = process.span address size := by
    intro s hs
    unfold SnapshotReader.copyReadable at hs
    split_ifs at hs
    cases hs
    rfl
  unfold SnapshotReader.copy at h
  split_ifs at h with hbad hfall
  · exact hlocal _ h
  · cases hv : process.readv address size with
    | copied n =>
      rw [hv] at h
      dsimp only at h
      split_ifs at h
      cases h
      rfl
    | failed unavailable =>
      rw [hv] at h
      cases unavailable with
      | false => cases h
      | true =>
        cases hm : process.maps with
        | none =>
          rw [hm] at h
          cases h
        | some lines =>
          rw [hm] at h
          exact hlocal _ h

namespace RecipeTemplate

/-- **The inputs** keep their order and their sizes, and hold the memory at the new addresses. -/
theorem relocateInputs_eq {process : Process} {move : ℕ → ℕ} : ∀ {inputs : List (ℕ × ℕ)}
    {reader : SnapshotReader} {segments : List Segment},
    relocateInputs process move inputs reader = some segments →
    segments = inputs.map fun x => ⟨move x.1, process.span (move x.1) x.2⟩
  | [], _, _, h => by
    cases h
    rfl
  | (p, size) :: rest, reader, segments, h => by
    obtain ⟨⟨bytes, reader'⟩, hc, h⟩ := Option.bind_eq_some_iff.mp h
    obtain ⟨tail, ht, h⟩ := Option.bind_eq_some_iff.mp h
    cases h
    rw [List.map_cons, relocateInputs_eq ht, copy_spec hc]

/-- **The pages** are moved without a break, and what they touch is kept. -/
theorem relocatePages_spec {move : ℕ → ℕ} : ∀ {ps : List ℕ} {relocated relocated' : TreeSet ℕ},
    relocatePages move ps relocated = some relocated' →
    (∀ q ∈ relocated, q ∈ relocated') ∧
      ∀ p ∈ ps, move (p + PAGE - 1) = move p + (PAGE - 1) ∧ base (move p) ∈ relocated' ∧
        base (move (p + PAGE - 1)) ∈ relocated'
  | [], relocated, relocated', h => by
    cases h
    exact ⟨fun q hq => hq, fun p hp => absurd hp List.not_mem_nil⟩
  | p :: ps, relocated, relocated', h => by
    rw [relocatePages] at h
    split_ifs at h with hbad
    obtain ⟨hold, hnew⟩ := relocatePages_spec h
    have hins : ∀ q, q = base (move p) ∨ q = base (move (p + PAGE - 1)) ∨ q ∈ relocated →
        q ∈ relocated' := by
      intro q hq
      refine hold q ?_
      rw [TreeSet.mem_insert, TreeSet.mem_insert, Nat.compare_eq_eq, Nat.compare_eq_eq]
      rcases hq with he | he | hq
      · exact Or.inr (Or.inl he.symm)
      · exact Or.inl he.symm
      · exact Or.inr (Or.inr hq)
    refine ⟨fun q hq => hins q (Or.inr (Or.inr hq)), fun q hq => ?_⟩
    rcases List.mem_cons.mp hq with he | hq
    · have hlast : move (p + PAGE - 1) = move p + (PAGE - 1) := by omega
      rw [he]
      exact ⟨hlast, hins _ (Or.inl rfl), hins _ (Or.inr (Or.inl rfl))⟩
    · exact hnew q hq

/-! ### Relocation -/

section Relocate

variable {t : RecipeTemplate} {output rsp p i : ℕ}

theorem relocate_output (hp : t.original.output ≤ p)
    (hlt : p < t.original.output + rounded t.original.length)
    (hfit : output + rounded t.original.length ≤ UINT64_MAX) :
    t.relocate output rsp p = output + (p - t.original.output) := by
  unfold relocate
  rw [if_pos ⟨hp, hlt⟩, add64_eq (by omega)]

/-- **The bytes of a page** are moved alike when the first and the last are. -/
theorem relocate_add (hmod : p % PAGE = 0) (hout : t.original.output % PAGE = 0)
    (hlast : t.relocate output rsp (p + PAGE - 1) = t.relocate output rsp p + (PAGE - 1))
    (hi : i < PAGE) : t.relocate output rsp (p + i) = t.relocate output rsp p + i := by
  have hround := rounded_mod t.original.length
  have hlow := t.low_mod
  have hhigh := t.high_mod
  -- the byte is in the piece of the page
  have hpiece : ∀ j < PAGE, (t.original.output ≤ p + j ∧
      p + j < t.original.output + rounded t.original.length ↔
      t.original.output ≤ p ∧ p < t.original.output + rounded t.original.length) ∧
      (t.stackLow ≤ p + j ∧ p + j < t.stackHigh ↔ t.stackLow ≤ p ∧ p < t.stackHigh) := by
    intro j hj
    unfold PAGE at *
    omega
  have hwrap : ∀ x : ℕ, (x + (PAGE - 1)) % 2 ^ 64 = x % 2 ^ 64 + (PAGE - 1) →
      (x + i) % 2 ^ 64 = x % 2 ^ 64 + i := by
    intro x hx
    unfold PAGE at *
    omega
  have hlt : PAGE - 1 < PAGE := by decide
  rw [show p + PAGE - 1 = p + (PAGE - 1) from rfl] at hlast
  unfold relocate at hlast ⊢
  simp only [hpiece i hi, hpiece (PAGE - 1) hlt] at hlast ⊢
  split_ifs at hlast ⊢ with ho hs
  · unfold add64 at hlast ⊢
    rw [show output + (p + i - t.original.output) = output + (p - t.original.output) + i by omega]
    refine hwrap _ ?_
    rw [← hlast, show output + (p - t.original.output) + (PAGE - 1) =
      output + (p + (PAGE - 1) - t.original.output) by omega]
  · unfold add64 sub64 at hlast ⊢
    rw [Nat.mod_add_mod] at hlast ⊢
    rw [Nat.mod_add_mod] at hlast ⊢
    generalize 2 ^ 64 - t.original.regs.getD 15 0 % 2 ^ 64 = c at hlast ⊢
    rw [show p + i + c + rsp = p + c + rsp + i by omega]
    refine hwrap _ ?_
    rw [← hlast, show p + c + rsp + (PAGE - 1) = p + (PAGE - 1) + c + rsp by omega]
  · rfl

end Relocate

theorem instantiate_ok {t : RecipeTemplate} {process : Process} {record record' : Recorder}
    {regs : List ℕ} {xmm : List (List UInt8)} {mxcsr : ℕ} {recipe : Recipe}
    (h : t.instantiate process record regs xmm mxcsr = some (recipe, record')) :
    record.h.length = t.original.length ∧ recipe.h.output = record.h.output ∧
      recipe.h.length = t.original.length ∧ recipe.h.inputBytes = t.original.inputBytes ∧
      (∃ relocated, relocatePages (t.relocate record.h.output (regs.getD 15 0)) t.pages ∅ =
        some relocated ∧ recipe.pages = relocated.toList) ∧
      ∃ reader, relocateInputs process (t.relocate record.h.output (regs.getD 15 0))
        t.inputs reader =
        some recipe.inputs := by
  unfold instantiate at h
  split_ifs at h with hbad
  obtain ⟨r₁, -, h⟩ := Option.bind_eq_some_iff.mp h
  obtain ⟨r₂, -, h⟩ := Option.bind_eq_some_iff.mp h
  obtain ⟨⟨stop, r₃⟩, -, h⟩ := Option.bind_eq_some_iff.mp h
  obtain ⟨relocated, hp, h⟩ := Option.bind_eq_some_iff.mp h
  obtain ⟨inputs, hi, h⟩ := Option.bind_eq_some_iff.mp h
  cases h
  exact ⟨not_not.mp fun hne => hbad (Or.inl hne), rfl, rfl, rfl, ⟨relocated, hp, rfl⟩, r₃, hi⟩

end RecipeTemplate

/-! ### Instances of a template -/

/-- The byte is on a page of the recipe or in its output. -/
def Mapped (recipe : Recipe) (a : ℕ) : Prop :=
  base a ∈ recipe.pages ∨
    (recipe.h.output ≤ a ∧ a < recipe.h.output + rounded recipe.h.length)

theorem base_between {first i : ℕ} (hi : i < PAGE) :
    base (first + i) = base first ∨ base (first + i) = base (first + (PAGE - 1)) := by
  unfold base PAGE at *
  omega

/-- **Instances are closed.** A recipe of `finish` is moved to another call, with any output of the
same length, any registers and any state of the process. When `instantiate` returns `true`, the
pages of the new recipe are increasing; every input is moved as a whole and holds what the memory
has at its new address; what an input or a page is moved to is on the new pages or in the new
output; and the sizes of the inputs add up to `input_bytes`. -/
theorem instantiate_closed (m₀ : ℕ → UInt8) (t : Target) (fsBase gsBase result : ℕ) (regions : Bool)
    (es : List Event) (recipe : Recipe)
    (hfinish : (capture m₀ (Recorder.make t fsBase gsBase) es).2.finish result regions = .ok recipe)
    (checkedNative : Bool) (maps : Option (List Mapping)) (process : Process) (t' : Target)
    (fsBase' gsBase' : ℕ) (regs : List ℕ) (xmm : List (List UInt8)) (mxcsr : ℕ) (recipe' : Recipe)
    (record : Recorder)
    (hnew : (RecipeTemplate.make recipe checkedNative maps).instantiate process
      (Recorder.make t' fsBase' gsBase') regs xmm mxcsr = some (recipe', record)) :
    let move := (RecipeTemplate.make recipe checkedNative maps).relocate t'.output (regs.getD 15 0)
    recipe'.pages.Pairwise (· < ·) ∧
    recipe'.inputs = recipe.inputs.map (fun s =>
      ⟨move s.address, process.span (move s.address) s.bytes.length⟩) ∧
    (∀ s ∈ recipe.inputs, ∀ i < s.bytes.length,
      move (s.address + i) = move s.address + i ∧ Mapped recipe' (move (s.address + i))) ∧
    (∀ p ∈ recipe.pages, ∀ i < PAGE, Mapped recipe' (move (p + i))) ∧
    (recipe'.inputs.map fun s => s.bytes.length).sum = recipe'.h.inputBytes := by
  intro move
  have hrej : (capture m₀ (Recorder.make t fsBase gsBase) es).2.rejection = none := by
    unfold finish at hfinish
    cases hr : (capture m₀ (Recorder.make t fsBase gsBase) es).2.rejection with
    | none => rfl
    | some why =>
      rw [hr] at hfinish
      cases hfinish
  have hknown := ((Known.make m₀ t fsBase gsBase).capture hrej).2
  have htally := Tallied.capture (Known.make m₀ t fsBase gsBase) (Tallied.make t fsBase gsBase) hrej
  have hsum := finish_inputBytes hknown htally hfinish
  obtain ⟨r, hr, rfl⟩ := finish_ok hknown hfinish
  have hsane := hr.faithful.sane
  have halign : r.recipe.h.output % PAGE = 0 := hr.faithful.aligned
  obtain ⟨hlen, hout', hlen', hbytes', ⟨relocated, hpages, hlist⟩, reader, hinputs⟩ :=
    RecipeTemplate.instantiate_ok hnew
  have hinputs' : recipe'.inputs = r.recipe.inputs.map (fun s =>
      ⟨move s.address, process.span (move s.address) s.bytes.length⟩) := by
    have := RecipeTemplate.relocateInputs_eq hinputs
    rw [this]
    exact List.map_map
  obtain ⟨-, hmoved⟩ := RecipeTemplate.relocatePages_spec hpages
  have hmem : ∀ q ∈ relocated, q ∈ recipe'.pages := by
    intro q hq
    rw [hlist]
    exact Std.TreeSet.mem_toList.mpr hq
  -- a page of the old recipe
  have hpage : ∀ p ∈ r.recipe.pages, ∀ i < PAGE,
      move (p + i) = move p + i ∧ Mapped recipe' (move (p + i)) := by
    intro p hp i hi
    have hmod : p % PAGE = 0 :=
      hsane.keys p (Std.TreeMap.mem_keys.mp (List.mem_filter.mp hp).1)
    obtain ⟨hlast, hfirst, hend⟩ := hmoved p hp
    have hadd : move (p + i) = move p + i := RecipeTemplate.relocate_add hmod halign hlast hi
    refine ⟨hadd, Or.inl (hmem _ ?_)⟩
    rw [hadd]
    rcases (@base_between (move p)) hi with he | he
    · rw [he]
      exact hfirst
    · rw [he]
      rw [hlast] at hend
      exact hend
  -- a page of the old output
  have houtput : ∀ a, r.recipe.h.output ≤ a → a < r.recipe.h.output + rounded r.recipe.h.length →
      move a = t'.output + (a - r.recipe.h.output) := by
    intro a h1 h2
    have hfit := t'.fits
    rw [show t'.length = r.recipe.h.length from hlen] at hfit
    exact RecipeTemplate.relocate_output h1 h2 hfit
  refine ⟨?_, hinputs', fun s hs i hi => ?_, fun p hp i hi => (hpage p hp i hi).2, ?_⟩
  · rw [hlist]
    exact Std.TreeSet.ordered_toList.imp fun h => Nat.compare_eq_lt.mp h
  · obtain ⟨hnoted, hpos, hend⟩ := mem_inputs hsane hs
    have hoff := base_add_mod s.address
    by_cases hin : base s.address < r.recipe.h.output ∨
        r.recipe.h.output + rounded r.recipe.h.length ≤ base s.address
    · have hp : base s.address ∈ r.recipe.pages :=
        List.mem_filter.mpr ⟨Std.TreeMap.mem_keys.mpr hnoted, decide_eq_true hin⟩
      have h0 := hpage _ hp (s.address % PAGE) (by omega)
      have h1 := hpage _ hp (s.address % PAGE + i) (by omega)
      rw [← Nat.add_assoc, hoff] at h1
      rw [hoff] at h0
      exact ⟨by omega, h1.2⟩
    · have hround := rounded_mod r.recipe.h.length
      have hbmod := base_mod s.address
      have hlt : s.address + i < r.recipe.h.output + rounded r.recipe.h.length := by
        unfold PAGE at *
        omega
      have h0 := houtput s.address (by omega) (by omega)
      have h1 := houtput (s.address + i) (by omega) hlt
      refine ⟨by omega, Or.inr ?_⟩
      rw [h1, hout', hlen']
      show t'.output ≤ _ ∧ _ < t'.output + rounded r.recipe.h.length
      omega
  · rw [hinputs', hbytes', List.map_map]
    refine Eq.trans (congrArg List.sum (List.map_congr_left fun s _ => ?_)) hsum
    show ((List.range s.bytes.length).map _).length = s.bytes.length
    rw [List.length_map, List.length_range]

/-- A call that reads its return address and fills an output of two bytes. -/
def templateEvents : List Event :=
  [.rule ⟨0x5000, 3, three_bytes, three_short, three_fit, none⟩,
    .begin (List.replicate 15 0 ++ [0x7ff8, 0x5000, 0]) [] 0, .block 0x5000 0x5003,
    .read 0x7ff8 8, .write 0x10000 [7, 8]]

/-- The process at a later call. -/
def laterProcess : Process where
  memory := fun a => UInt8.ofNat (a % 251)
  readv := fun _ size => .copied size
  maps := some [⟨0x7000, 0x9000, true, by decide, by decide⟩]

/-- The recipe of the first call. -/
def firstRecipe : Except String Recipe :=
  (capture laterProcess.memory
    (Recorder.make ⟨0x10000, 2, buffer_aligned, Nat.two_pos, by decide⟩ 0 0)
    templateEvents).2.finish 5 true

/-- The later call has another output, and its stack pointer differs by less than a page. -/
theorem instantiate_closed_sample : ∃ recipe recipe' record,
    (RecipeTemplate.make recipe false laterProcess.maps).instantiate laterProcess
      (Recorder.make ⟨0x20000, 2, by decide, by decide, by decide⟩ 0 0)
      (List.replicate 15 0 ++ [0x811b, 0x5000, 0]) [] 0 = some (recipe', record) ∧
    recipe'.pages.Pairwise (· < ·) ∧ (recipe'.inputs.map fun s => s.bytes.length).sum = 8 := by
  have hok : (firstRecipe.toOption.bind fun recipe =>
      ((RecipeTemplate.make recipe false laterProcess.maps).instantiate laterProcess
        (Recorder.make ⟨0x20000, 2, by decide, by decide, by decide⟩ 0 0)
        (List.replicate 15 0 ++ [0x811b, 0x5000, 0]) [] 0).map fun x => x.1.h.inputBytes) =
          some 8 := by
    decide +kernel
  obtain ⟨recipe, hrecipe, hok⟩ := Option.bind_eq_some_iff.mp hok
  obtain ⟨⟨recipe', record⟩, hnew, h8⟩ := Option.map_eq_some_iff.mp hok
  have hfinish : firstRecipe = .ok recipe := by
    cases hf : firstRecipe with
    | error e =>
      rw [hf] at hrecipe
      cases hrecipe
    | ok x =>
      rw [hf] at hrecipe
      cases hrecipe
      rfl
  obtain ⟨h1, -, -, -, h5⟩ := instantiate_closed _ _ 0 0 5 true templateEvents recipe hfinish false
    laterProcess.maps laterProcess _ 0 0 _ [] 0 recipe' record hnew
  exact ⟨recipe, recipe', record, hnew, h1, h5.trans h8⟩

end Afterfree.Recording.Templates
