import Afterfree.Encoding
import Afterfree.Recording.Emulator
import Afterfree.Worker.Checked

/-!
# A strictly validated recipe is self-contained

`Replay::run` of `emulator.hpp` as a whole. The emulator is a deterministic machine that is given
from outside: it translates a block of code at a time and then runs it, one access after the other.
The strict run calls the hook `instruction` at every block and the hook `memory` at every access;
the run for `RESTORE` has no hooks.

Two runs that differ only in what the mapped pages hold before inputs and code are written stay in
step as long as the first is strict and not stopped: their memories agree on every byte the masks
know (`Twin`), reads see known bytes only, and the code of a block is known.

* `self_contained`: if the strict replay of a recipe succeeds, it succeeds with the same result for
  any other contents of the mapped pages, and so does the replay without hooks.
-/

namespace Afterfree.Worker.Emulation

open Afterfree.Common Afterfree.Codec Afterfree.Encoding Afterfree.Recording.Masks
open Afterfree.Recording.Capture Afterfree.Recording.Emulator
open Afterfree.Recording.Capture.Recorder (pageOffsets)
open Afterfree.Recording.Emulator.Replay (mappedPages)

/-! ### The emulator -/

/-- What a translated block does next. -/
inductive Op (Regs Block : Type)
  | read (addr size : ℕ) (next : List UInt8 → Block)
  | write (addr : ℕ) (bytes : List UInt8) (next : Block)
  | done (regs : Regs)
  | halt (regs : Regs)
  | fault (message : String)

/-- **The emulator.** `boot` has the registers after `uc_reg_write` and with `RIP` at the entry;
`fetch` is the translation of the block at `RIP`, with its address and its size; it depends on the
bytes of the block only. A block reads and writes memory by its operations and not otherwise. -/
structure Emulator where
  Regs : Type
  Block : Type
  rip : Regs → ℕ
  rax : Regs → ℕ
  boot : Header → Regs
  fetch : Regs → (ℕ → UInt8) → Option (ℕ × ℕ × Block)
  exec : Block → Op Regs Block
  fetch_local : ∀ {regs : Regs} {m m' : ℕ → UInt8} {addr size : ℕ} {block : Block},
    fetch regs m = some (addr, size, block) → (∀ i < size, m (addr + i) = m' (addr + i)) →
    fetch regs m' = some (addr, size, block)

/-- `Replay` with the blocks it has verified, its step count, and the blocks executed. -/
structure Machine where
  replay : Replay
  blocks : ℕ → Option (ℕ × ℕ)
  steps : ℕ
  executed : List (ℕ × ℕ)

/-- Where the emulator is: between blocks or in one. -/
inductive Phase (E : Emulator)
  | boundary (regs : E.Regs)
  | inside (block : E.Block)

/-- What a step of the emulator ends with. -/
inductive Next (E : Emulator)
  | go (m : Machine) (phase : Phase E)
  | stopped (m : Machine) (regs : E.Regs)
  | failed (message : String)

/-! ### The hooks -/

/-- `executable_pages`. -/
def executablePages (r : Recipe) : Finset ℕ :=
  (r.code.flatMap fun c => [base c.address, base (c.address + c.size - 1)]).toFinset

/-- Some byte of the span lies on a page outside of `pages`. -/
def outside (pages : Finset ℕ) (addr size : ℕ) : Bool :=
  (List.range size).any fun i => base (addr + i) ∉ pages

/-- Some byte of the span lies on one of the `pages`. -/
def touches (pages : Finset ℕ) (addr size : ℕ) : Bool :=
  (List.range size).any fun i => base (addr + i) ∈ pages

/-- The loop of the hook `instruction` over a block that ends at `stop`: the number of its
instructions. An instruction of no bytes, which `decode` refuses, would keep it from ending. -/
def verify (r : Recipe) (mem : ℕ → UInt8) (stop : ℕ) : ℕ → ℕ → ℕ → Except String ℕ
  | 0, pc, count => if pc < stop then .error "replay reached unobserved code" else .ok count
  | fuel + 1, pc, count =>
    if pc < stop then
      match r.code.find? fun c => c.address = pc with
      | none => .error "replay reached unobserved code"
      | some c =>
        if stop - pc < c.size then .error "replay reached unobserved code"
        else if outside (mappedPages r) pc c.size ||
            (List.range c.size).any fun i => mem (pc + i) ≠ c.bytes.getD i 0 then
          .error "replay code changed"
        else verify r mem stop fuel (pc + c.size) (count + 1)
    else .ok count

namespace Machine

/-- `fail`. -/
def fail (m : Machine) (why : String) : Machine := { m with replay := m.replay.fail why }

/-- The end of the hook `instruction`, for a block that was verified with `verified` bytes. -/
def charge (m : Machine) (r : Recipe) (size verified count : ℕ) : Machine :=
  if verified ≠ size then m.fail "replay block changed"
  else
    let m := { m with steps := m.steps + count }
    if r.h.steps < m.steps then m.fail "replay instruction bound exceeded" else m

/-- The hook `instruction`. -/
def instruction (m : Machine) (r : Recipe) (addr size : ℕ) : Machine :=
  match m.blocks addr with
  | some (verified, count) => m.charge r size verified count
  | none =>
    if size = 0 ∨ 65536 < size ∨ UINT64_MAX - size < addr then m.fail "invalid replay block"
    else
      match verify r m.replay.mem (addr + size) size addr 0 with
      | .error message => m.fail message
      | .ok count =>
        let m := { m with blocks := Function.update m.blocks addr (some (size, count)) }
        m.charge r size size count

/-- The hook `memory`. -/
def memory (m : Machine) (write : Bool) (addr size : ℕ) : Machine :=
  { m with replay := m.replay.memory write addr size }

/-- `uc_mem_write` and the stores of the emulated code. -/
def store (m : Machine) (addr : ℕ) (bytes : List UInt8) : Machine :=
  { m with replay := { m.replay with mem := Recording.Capture.store m.replay.mem addr bytes } }

end Machine

/-! ### The run -/

section Run

variable (E : Emulator) (r : Recipe) (strict : Bool)

/-- One step of the emulator: a block is translated and entered, or the next operation of the block
is done. An error of a hook stops it. -/
def step (m : Machine) : Phase E → Next E
  | .boundary regs =>
    if E.rip regs = r.h.stop then .stopped m regs
    else
      match E.fetch regs m.replay.mem with
      | none => .failed "Invalid memory fetch"
      | some (addr, size, block) =>
        if outside (executablePages r) addr size then
          .failed "Fetch from non-executable memory (UC_ERR_FETCH_PROT)"
        else
          let m := { m with executed := m.executed ++ [(addr, size)] }
          let m := if strict then m.instruction r addr size else m
          match m.replay.error with
          | some message => .failed message
          | none => .go m (.inside block)
  | .inside block =>
    match E.exec block with
    | .read addr size next =>
      let m := if strict then m.memory false addr size else m
      match m.replay.error with
      | some message => .failed message
      | none =>
        if outside (mappedPages r) addr size then
          .failed "Invalid memory read (UC_ERR_READ_UNMAPPED)"
        else .go m (.inside (next ((List.range size).map fun i => m.replay.mem (addr + i))))
    | .write addr bytes next =>
      let m := if strict then m.memory true addr bytes.length else m
      match m.replay.error with
      | some message => .failed message
      | none =>
        if outside (mappedPages r) addr bytes.length then
          .failed "Invalid memory write (UC_ERR_WRITE_UNMAPPED)"
        else if touches (executablePages r) addr bytes.length then
          .failed "Write to write-protected memory (UC_ERR_WRITE_PROT)"
        else .go (m.store addr bytes) (.inside next)
    | .done regs => .go m (.boundary regs)
    | .halt regs => .stopped m regs
    | .fault message => .failed message

/-- `uc_emu_start`: `time` is the number of steps before the timeout, which leaves `RIP` elsewhere.
-/
def emulate : ℕ → Machine → Phase E → Next E
  | 0, _, _ => .failed "replay control flow or return value diverged"
  | time + 1, m, phase =>
    match step E r strict m phase with
    | .go m phase => emulate time m phase
    | .stopped m regs => .stopped m regs
    | .failed message => .failed message

end Run

/-- The replay after the pages are mapped, with `m₀` in them. -/
def mapped (m₀ : ℕ → UInt8) (r : Recipe) : Replay where
  mem := m₀
  initialized := fun p => if p ∈ mappedPages r then some ByteMask.empty else none
  outputAddress := r.h.output
  length := r.h.length
  outputWritten := fun _ => ByteMask.empty
  error := none

/-- `run` up to the start of the emulator. -/
def setupFrom (m₀ : ℕ → UInt8) (r : Recipe) : Except String Replay :=
  if r.pages.toFinset.card ≠ r.pages.length then .error "duplicate recipe page"
  else if ¬ (r.code.map Instruction.address).Nodup then .error "duplicate instruction"
  else if rounded r.h.length + r.h.length / 4 + 4 * 2 ^ 20 < (mappedPages r).card * PAGE then
    .error "replay scratch exceeds the group budget"
  else do
    let s ← (mapped m₀ r).seedInputs r.inputs
    Replay.seedCode r.h s r.code

theorem setup_eq_setupFrom (r : Recipe) : Replay.setup r = setupFrom (fun _ => 0) r := rfl

/-- What a replay leaves: the output, `RAX`, the step count and the blocks executed. -/
structure Finished where
  output : List UInt8
  rax : ℕ
  steps : ℕ
  blocks : List (ℕ × ℕ)
deriving DecidableEq

/-- `output_written` has every byte of the output. -/
def allWritten (s : Replay) (length : ℕ) : Bool :=
  (pageOffsets length).all fun offset =>
    (s.outputWritten (offset / PAGE)).all 0 (min PAGE (length - offset))

/-- **`Replay::run`.** Without `strict` the masks are there but no hook looks at them. -/
def run (E : Emulator) (sha256 : List UInt8 → List UInt8) (time : ℕ) (m₀ : ℕ → UInt8) (r : Recipe)
    (strict : Bool) : Except String Finished :=
  if r.h.length = 0 ∨ r.h.output % PAGE ≠ 0 then .error "Invalid argument (UC_ERR_ARG)"
  else
    match setupFrom m₀ r with
    | .error message => .error message
    | .ok s =>
      match emulate E r strict time ⟨s, fun _ => none, 0, []⟩ (.boundary (E.boot r.h)) with
      | .failed message => .error message
      | .go _ _ => .error "replay control flow or return value diverged"
      | .stopped m regs =>
        if E.rip regs ≠ r.h.stop ∨ E.rax regs ≠ r.h.result ∨
          (strict = true ∧ m.steps ≠ r.h.steps) then
          .error "replay control flow or return value diverged"
        else if strict && !allWritten m.replay r.h.length then
          .error "replay did not produce every output byte"
        else
          let output := (List.range r.h.length).map fun i => m.replay.mem (r.h.output + i)
          if sha256 output ≠ r.h.digest then .error "replay output digest mismatch"
          else .ok ⟨output, E.rax regs, m.steps, m.executed⟩

/-! ### The hooks do not look at memory -/

/-- The replay with another memory. -/
def withMem (s : Replay) (mem : ℕ → UInt8) : Replay := { s with mem := mem }

theorem noteWrite_withMem (s : Replay) (mem : ℕ → UInt8) (addr count : ℕ) (m : ByteMask) :
    (withMem s mem).noteWrite addr count m = withMem (s.noteWrite addr count m) mem := by
  unfold Replay.noteWrite
  dsimp only [withMem, Replay.setKnown]
  split_ifs <;> rfl

theorem memoryLoop_withMem (write : Bool) (mem : ℕ → UInt8) : ∀ (fuel : ℕ) (s : Replay)
    (addr n : ℕ), (withMem s mem).memoryLoop write fuel addr n =
      withMem (s.memoryLoop write fuel addr n) mem
  | 0, _, _, _ => rfl
  | fuel + 1, s, addr, n => by
    rw [Replay.memoryLoop, Replay.memoryLoop]
    by_cases h0 : n = 0
    · rw [if_pos h0, if_pos h0]
    rw [if_neg h0, if_neg h0]
    have hi : (withMem s mem).initialized = s.initialized := rfl
    rw [hi]
    cases s.initialized (base addr) with
    | none => rfl
    | some m =>
      dsimp only
      split
      · rfl
      · cases write with
        | false => exact memoryLoop_withMem false mem fuel s _ _
        | true =>
          rw [if_pos rfl, if_pos rfl, noteWrite_withMem]
          exact memoryLoop_withMem true mem fuel _ _ _

theorem memory_withMem (s : Replay) (write : Bool) (mem : ℕ → UInt8) (addr n : ℕ) :
    (withMem s mem).memory write addr n = withMem (s.memory write addr n) mem := by
  unfold Replay.memory
  split
  · rfl
  split
  · rfl
  · exact memoryLoop_withMem write mem n s addr n

theorem seedBits_withMem (message : String) (mem : ℕ → UInt8) : ∀ (span : List ℕ) (s : Replay),
    (withMem s mem).seedBits message span =
      (s.seedBits message span).map fun s => withMem s mem
  | [], _ => rfl
  | a :: rest, s => by
    rw [Replay.seedBits, Replay.seedBits]
    have hi : (withMem s mem).initialized = s.initialized := rfl
    rw [hi]
    cases s.initialized (base a) with
    | none => rfl
    | some m => exact seedBits_withMem message mem rest (s.setKnown (base a) (m.set (a % PAGE)))

/-! ### What a hook that does not fail has seen -/

theorem fail_error (s : Replay) (why : String) : (s.fail why).error ≠ none := by
  unfold Replay.fail
  exact Option.some_ne_none _

/-- **A read that passes**: nothing changes, and every byte was known. -/
theorem memoryLoop_read_passed : ∀ {fuel : ℕ} {s : Replay} {addr n : ℕ}, n ≤ fuel →
    (s.memoryLoop false fuel addr n).error = none →
    s.memoryLoop false fuel addr n = s ∧ ∀ a ∈ Set.Ico addr (addr + n), s.known a = true
  | 0, s, addr, n, hn, _ => ⟨rfl, fun a ha => by
      have h1 := ha.1
      have h2 := ha.2
      omega⟩
  | fuel + 1, s, addr, n, hn, he => by
    rw [Replay.memoryLoop] at he ⊢
    by_cases h0 : n = 0
    · rw [if_pos h0]
      refine ⟨rfl, fun a ha => ?_⟩
      have h1 := ha.1
      have h2 := ha.2
      omega
    rw [if_neg h0] at he ⊢
    cases hi : s.initialized (base addr) with
    | none =>
      rw [hi] at he
      exact absurd he (fail_error s _)
    | some m =>
      rw [hi] at he
      dsimp only at he ⊢
      have hlt : addr % PAGE < PAGE := Nat.mod_lt _ PAGE_pos
      cases hall : m.all (addr % PAGE) (min n (PAGE - addr % PAGE)) with
      | false =>
        rw [hall] at he
        exact absurd he (fail_error s _)
      | true =>
        rw [hall] at he
        obtain ⟨hs, hk⟩ := memoryLoop_read_passed (by omega) he
        refine ⟨hs, fun a ha => ?_⟩
        have h1 := ha.1
        have h2 := ha.2
        by_cases hfar : addr + min n (PAGE - addr % PAGE) ≤ a
        · exact hk a ⟨hfar, by omega⟩
        · -- the byte lies on the first page, whose mask has all bits of the access
          have hbase : base a = base addr ∧ a % PAGE = addr % PAGE + (a - addr) := by
            unfold base PAGE at *
            omega
          unfold Replay.known
          rw [hbase.1, hi, hbase.2]
          exact (ByteMask.all_iff _ _ _).mp hall _ (by omega) (by omega)

/-- **A write that passes** goes to mapped pages. -/
theorem memoryLoop_write_passed : ∀ {fuel : ℕ} {s : Replay} {addr n : ℕ}, n ≤ fuel →
    (s.memoryLoop true fuel addr n).error = none → ∀ a ∈ Set.Ico addr (addr + n), s.maps a
  | 0, s, addr, n, hn, _ => fun a ha => by
    have h1 := ha.1
    have h2 := ha.2
    omega
  | fuel + 1, s, addr, n, hn, he => fun a ha => by
    have h1 := ha.1
    have h2 := ha.2
    rw [Replay.memoryLoop, if_neg (by omega)] at he
    cases hi : s.initialized (base addr) with
    | none =>
      rw [hi] at he
      exact absurd he (fail_error s _)
    | some m =>
      rw [hi] at he
      have hlt : addr % PAGE < PAGE := Nat.mod_lt _ PAGE_pos
      have hmarks := Replay.noteWrite_marks hi
        (show addr % PAGE + min n (PAGE - addr % PAGE) ≤ PAGE by omega)
      by_cases hfar : addr + min n (PAGE - addr % PAGE) ≤ a
      · exact (hmarks.maps a).mp (memoryLoop_write_passed (by omega) he a ⟨hfar, by omega⟩)
      · have hbase : base a = base addr := by
          unfold base PAGE at *
          omega
        unfold Replay.maps
        rw [hbase, hi]
        rfl

theorem memory_read_passed {s : Replay} {addr n : ℕ} (he : (s.memory false addr n).error = none) :
    s.memory false addr n = s ∧ ∀ a ∈ Set.Ico addr (addr + n), s.known a = true := by
  unfold Replay.memory at he ⊢
  by_cases h0 : n = 0
  · rw [if_pos h0]
    refine ⟨rfl, fun a ha => ?_⟩
    have h1 := ha.1
    have h2 := ha.2
    omega
  rw [if_neg h0] at he ⊢
  by_cases h1 : UINT64_MAX - n < addr
  · rw [if_pos h1] at he
    exact absurd he (fail_error s _)
  rw [if_neg h1] at he ⊢
  exact memoryLoop_read_passed le_rfl he

theorem memory_write_passed {s : Replay} {addr n : ℕ} (he : (s.memory true addr n).error = none) :
    Replay.Marks (Set.Ico addr (addr + n)) s (s.memory true addr n) := by
  unfold Replay.memory at he ⊢
  by_cases h0 : n = 0
  · rw [if_pos h0]
    subst h0
    exact ⟨rfl, rfl, fun a => Iff.rfl, fun a => by simp⟩
  rw [if_neg h0] at he ⊢
  by_cases h1 : UINT64_MAX - n < addr
  · rw [if_pos h1] at he
    exact absurd he (fail_error s _)
  rw [if_neg h1] at he ⊢
  exact Replay.memoryLoop_write le_rfl (memoryLoop_write_passed le_rfl he)

/-! ### Output bytes that are written are known -/

/-- Every bit of `output_written` is a bit of the masks. -/
structure Covers (s : Replay) : Prop where
  aligned : s.outputAddress % PAGE = 0
  known : ∀ k i, i < PAGE → (s.outputWritten k).test i = true →
    s.known (s.outputAddress + k * PAGE + i) = true

theorem Covers.noteWrite {s : Replay} (h : Covers s) {addr count : ℕ} {m : ByteMask}
    (hm : s.initialized (base addr) = some m) (hfit : addr % PAGE + count ≤ PAGE) :
    Covers (s.noteWrite addr count m) := by
  have hmarks := Replay.noteWrite_marks hm hfit
  have haddr : (s.noteWrite addr count m).outputAddress = s.outputAddress := by
    unfold Replay.noteWrite
    dsimp only
    split_ifs <;> rfl
  refine ⟨by rw [haddr]; exact h.aligned, fun k i hi ht => ?_⟩
  rw [haddr]
  rw [hmarks.known]
  have ha := h.aligned
  unfold Replay.noteWrite at ht
  dsimp only at ht
  split_ifs at ht with hin
  · by_cases hk : k = (addr - s.outputAddress) / PAGE
    · dsimp only [Replay.setKnown] at ht hin
      rw [hk, Function.update_self, ByteMask.test_mark, Bool.or_eq_true, decide_eq_true_iff] at ht
      rcases ht with ht | ht
      · left
        rw [hk]
        exact h.known _ i hi ht
      · right
        obtain ⟨h1, h2⟩ := hin
        rw [hk]
        refine ⟨?_, ?_⟩ <;> unfold PAGE at * <;> omega
    · dsimp only [Replay.setKnown] at ht
      rw [Function.update_of_ne hk] at ht
      exact .inl (h.known k i hi ht)
  · exact .inl (h.known k i hi ht)

theorem Covers.memoryLoop : ∀ {fuel : ℕ} {s : Replay} {addr n : ℕ}, Covers s →
    Covers (s.memoryLoop true fuel addr n)
  | 0, _, _, _, h => h
  | fuel + 1, s, addr, n, h => by
    rw [Replay.memoryLoop]
    split
    · exact h
    cases hi : s.initialized (base addr) with
    | none => exact ⟨h.aligned, h.known⟩
    | some m =>
      have hlt : addr % PAGE < PAGE := Nat.mod_lt _ PAGE_pos
      exact Covers.memoryLoop (h.noteWrite hi (by omega))

theorem Covers.memory {s : Replay} (h : Covers s) (addr n : ℕ) : Covers (s.memory true addr n) := by
  unfold Replay.memory
  split
  · exact h
  split
  · exact ⟨h.aligned, h.known⟩
  · exact h.memoryLoop

theorem memoryLoop_address : ∀ (fuel : ℕ) (s : Replay) (addr n : ℕ),
    (s.memoryLoop true fuel addr n).outputAddress = s.outputAddress
  | 0, _, _, _ => rfl
  | fuel + 1, s, addr, n => by
    rw [Replay.memoryLoop]
    split
    · rfl
    cases s.initialized (base addr) with
    | none => rfl
    | some m =>
      refine (memoryLoop_address fuel _ _ _).trans ?_
      unfold Replay.noteWrite
      dsimp only
      split_ifs <;> rfl

theorem memory_address (s : Replay) (addr n : ℕ) :
    (s.memory true addr n).outputAddress = s.outputAddress := by
  unfold Replay.memory
  split
  · rfl
  split
  · rfl
  · exact memoryLoop_address ..

theorem Covers.all {s : Replay} (h : Covers s) {length : ℕ} (hall : allWritten s length = true) :
    ∀ i < length, s.known (s.outputAddress + i) = true := by
  intro i hi
  have hoff : i / PAGE * PAGE ∈ pageOffsets length :=
    Recording.Finish.mem_pageOffsets.mpr ⟨Nat.mul_mod_left _ _, by unfold PAGE; omega⟩
  have hmask := List.all_eq_true.mp hall _ hoff
  rw [Nat.mul_div_cancel _ PAGE_pos, ByteMask.all_iff] at hmask
  have ht := hmask (i % PAGE) (Nat.zero_le _) (by unfold PAGE at *; omega)
  have hk := h.known _ _ (Nat.mod_lt _ PAGE_pos) ht
  rwa [Nat.add_assoc, Nat.mul_comm, Nat.div_add_mod] at hk

/-! ### Setting up -/

/-- Two replays that differ in memory only, and not on known bytes. -/
structure Like (s t : Replay) : Prop where
  same : t = withMem s t.mem
  agree : ∀ a, s.known a = true → s.mem a = t.mem a

/-- Seeding adds known bytes and touches nothing else of the checks. -/
structure Grows (s s' : Replay) : Prop where
  error : s'.error = s.error
  address : s'.outputAddress = s.outputAddress
  written : s'.outputWritten = s.outputWritten
  known : ∀ a, s.known a = true → s'.known a = true

theorem Grows.refl (s : Replay) : Grows s s := ⟨rfl, rfl, rfl, fun _ h => h⟩

theorem Grows.trans {s s' s'' : Replay} (h : Grows s s') (h' : Grows s' s'') : Grows s s'' :=
  ⟨h'.error.trans h.error, h'.address.trans h.address, h'.written.trans h.written,
    fun a ha => h'.known a (h.known a ha)⟩

theorem grows_seedBits {message : String} : ∀ {span : List ℕ} {s s' : Replay},
    s.seedBits message span = .ok s' → s'.mem = s.mem ∧ Grows s s' ∧
      ∀ a, s'.known a = true ↔ s.known a = true ∨ a ∈ span
  | [], s, s', h => by
    cases h
    exact ⟨rfl, Grows.refl s, fun a => by simp⟩
  | b :: rest, s, s', h => by
    rw [Replay.seedBits] at h
    cases hi : s.initialized (base b) with
    | none =>
      rw [hi] at h
      cases h
    | some m =>
      rw [hi] at h
      obtain ⟨hm, hg, hk⟩ := grows_seedBits h
      have hset : ∀ a, (s.setKnown (base b) (m.set (b % PAGE))).known a = true ↔
          s.known a = true ∨ a = b := by
        intro a
        rw [Replay.known_setKnown]
        by_cases ha : base a = base b
        · have hkn : s.known a = m.test (a % PAGE) := by
            unfold Replay.known
            rw [ha, hi]
          have he : a % PAGE = b % PAGE ↔ a = b := by
            have h1 := Recorder.base_add_mod a
            have h2 := Recorder.base_add_mod b
            omega
          rw [if_pos ha, ByteMask.test_set, Bool.or_eq_true, decide_eq_true_iff, hkn, he]
        · rw [if_neg ha]
          exact (or_iff_left fun e => ha (by rw [e])).symm
      refine ⟨hm, ⟨hg.error, hg.address, hg.written, fun a ha =>
        hg.known a ((hset a).mpr (.inl ha))⟩, fun a => ?_⟩
      rw [hk a, hset a, List.mem_cons, or_assoc]

theorem Like.seed {s s' t : Replay} {message : String} {address : ℕ} {bytes : List UInt8}
    (h : Like s t) (hs : s.seed message address bytes = .ok s') :
    ∃ t', t.seed message address bytes = .ok t' ∧ Like s' t' ∧ Grows s s' ∧
      ∀ i < bytes.length, s'.known (address + i) = true := by
  have hi : t.initialized = s.initialized := by rw [h.same]; rfl
  unfold Replay.seed at hs ⊢
  dsimp only at hs ⊢
  split at hs
  · cases hs
  next hmapped =>
  rw [if_neg (by rwa [hi])]
  obtain ⟨hm, hg, hk⟩ := grows_seedBits hs
  have ht : ({ t with mem := store t.mem address bytes } : Replay) =
      withMem { s with mem := store s.mem address bytes } (store t.mem address bytes) := by
    rw [h.same]
    rfl
  refine ⟨withMem s' (store t.mem address bytes), ?_, ⟨rfl, fun a ha => ?_⟩,
    ⟨hg.error, hg.address, hg.written, hg.known⟩, fun i hlt => (hk _).mpr (.inr ?_)⟩
  · rw [ht, seedBits_withMem, hs]
    rfl
  · rw [hm]
    change store s.mem address bytes a = store t.mem address bytes a
    unfold store
    by_cases hin : address ≤ a ∧ a < address + bytes.length
    · rw [if_pos hin, if_pos hin]
    · rw [if_neg hin, if_neg hin]
      rcases (hk a).mp ha with hold | hnew
      · exact h.agree a hold
      · obtain ⟨i, hlt, rfl⟩ := List.mem_map.mp hnew
        have := List.mem_range.mp hlt
        exact absurd ⟨by omega, by omega⟩ hin
  · exact List.mem_map.mpr ⟨i, List.mem_range.mpr hlt, rfl⟩

theorem Like.seedInputs : ∀ {gs : List Segment} {s s' t : Replay}, Like s t →
    s.seedInputs gs = .ok s' → ∃ t', t.seedInputs gs = .ok t' ∧ Like s' t' ∧ Grows s s'
  | [], s, s', t, h, hs => by
    cases hs
    exact ⟨t, rfl, h, Grows.refl s⟩
  | g :: gs, s, s', t, h, hs => by
    rw [Replay.seedInputs] at hs
    obtain ⟨s₁, h₁, hs⟩ := bind_ok hs
    obtain ⟨t₁, ht₁, hl₁, hg₁, -⟩ := h.seed h₁
    obtain ⟨t', ht', hl', hg'⟩ := Like.seedInputs hl₁ hs
    refine ⟨t', ?_, hl', hg₁.trans hg'⟩
    rw [Replay.seedInputs, ht₁]
    exact ht'

theorem Like.seedCode {h : Header} : ∀ {cs : List Instruction} {s s' t : Replay}, Like s t →
    Replay.seedCode h s cs = .ok s' → ∃ t', Replay.seedCode h t cs = .ok t' ∧ Like s' t' ∧
      Grows s s' ∧ ∀ c ∈ cs, ∀ i < (c.bytes.take c.size).length, s'.known (c.address + i) = true
  | [], s, s', t, hl, hs => by
    cases hs
    exact ⟨t, rfl, hl, Grows.refl s, fun c hc => absurd hc List.not_mem_nil⟩
  | c :: cs, s, s', t, hl, hs => by
    rw [Replay.seedCode] at hs
    split at hs
    · cases hs
    next ho =>
    obtain ⟨s₁, h₁, hs⟩ := bind_ok hs
    obtain ⟨t₁, ht₁, hl₁, hg₁, hk₁⟩ := hl.seed h₁
    obtain ⟨t', ht', hl', hg', hk'⟩ := Like.seedCode hl₁ hs
    refine ⟨t', ?_, hl', hg₁.trans hg', fun d hd i hi => ?_⟩
    · rw [Replay.seedCode, if_neg ho, ht₁]
      exact ht'
    · rcases List.mem_cons.mp hd with rfl | hd
      · exact hg'.known _ (hk₁ i hi)
      · exact hk' d hd i hi

/-- **Setting up twice**, over different contents of the pages. -/
theorem setupFrom_like {m₀ : ℕ → UInt8} (m₁ : ℕ → UInt8) {r : Recipe} {s : Replay}
    (hw : WellFormed r) (hs : setupFrom m₀ r = .ok s) :
    ∃ t, setupFrom m₁ r = .ok t ∧ Like s t ∧ s.error = none ∧ s.outputAddress = r.h.output ∧
      (∀ k, s.outputWritten k = ByteMask.empty) ∧
      ∀ c ∈ r.code, ∀ i < c.size, s.known (c.address + i) = true := by
  unfold setupFrom at hs ⊢
  split_ifs at hs ⊢ with h1 h2 h3
  obtain ⟨s₁, hs₁, hs⟩ := bind_ok hs
  have h0 : Like (mapped m₀ r) (mapped m₁ r) := by
    refine ⟨rfl, fun a ha => ?_⟩
    unfold Replay.known mapped at ha
    dsimp only at ha
    split_ifs at ha
    dsimp only at ha
    rw [ByteMask.test_empty] at ha
    cases ha
  obtain ⟨t₁, ht₁, hl₁, hg₁⟩ := h0.seedInputs hs₁
  obtain ⟨t, ht, hl, hg, hk⟩ := hl₁.seedCode hs
  refine ⟨t, ?_, hl, ?_, ?_, fun k => ?_, fun c hc i hi => hk c hc i ?_⟩
  · rw [ht₁]
    exact ht
  · exact hg.error.trans hg₁.error
  · exact hg.address.trans hg₁.address
  · rw [hg.written, hg₁.written]
    rfl
  · have hc' := hw.code c hc
    rw [List.length_take, hc'.bytes]
    have := hc'.short
    omega

/-! ### Blocks -/

/-- The byte belongs to an instruction of the recipe. -/
def IsCode (r : Recipe) (a : ℕ) : Prop := ∃ c ∈ r.code, ∃ j < c.size, a = c.address + j

/-- **A verified block** consists of code, and verifies in any memory that has the same code. -/
theorem verify_ok {r : Recipe} {mem mem' : ℕ → UInt8} {stop : ℕ}
    (hmem : ∀ a, IsCode r a → mem a = mem' a) : ∀ {fuel pc count n : ℕ},
    verify r mem stop fuel pc count = .ok n →
    verify r mem' stop fuel pc count = .ok n ∧ ∀ a, pc ≤ a → a < stop → IsCode r a
  | 0, pc, count, n, h => by
    unfold verify at h ⊢
    split_ifs at h ⊢ with hpc
    exact ⟨h, fun a h1 h2 => absurd (lt_of_le_of_lt h1 h2) hpc⟩
  | fuel + 1, pc, count, n, h => by
    rw [verify] at h ⊢
    by_cases hpc : pc < stop
    · rw [if_pos hpc] at h ⊢
      cases hf : r.code.find? fun c => c.address = pc with
      | none =>
        rw [hf] at h
        cases h
      | some c =>
        rw [hf] at h
        have hc := List.mem_of_find?_eq_some hf
        have hpcc : c.address = pc := by simpa using List.find?_some hf
        have hcode : ∀ i < c.size, IsCode r (pc + i) := fun i hi => ⟨c, hc, i, hi, by rw [hpcc]⟩
        have hany : (List.range c.size).any (fun i => decide (mem (pc + i) ≠ c.bytes.getD i 0)) =
            (List.range c.size).any fun i => decide (mem' (pc + i) ≠ c.bytes.getD i 0) := by
          rw [Bool.eq_iff_iff, List.any_eq_true, List.any_eq_true]
          refine exists_congr fun i => and_congr_right fun hi => ?_
          rw [hmem _ (hcode i (List.mem_range.mp hi))]
        dsimp only at h ⊢
        rw [← hany]
        by_cases h1 : stop - pc < c.size
        · rw [if_pos h1] at h
          cases h
        rw [if_neg h1] at h ⊢
        split at h
        · cases h
        next h2 =>
        rw [if_neg h2]
        obtain ⟨hv, hall⟩ := verify_ok hmem h
        refine ⟨hv, fun a ha1 ha2 => ?_⟩
        by_cases hin : a < pc + c.size
        · have := hcode (a - pc) (by omega)
          rwa [Nat.add_sub_cancel' ha1] at this
        · exact hall a (by omega) ha2
    · rw [if_neg hpc] at h ⊢
      exact ⟨h, fun a h1 h2 => absurd (lt_of_le_of_lt h1 h2) hpc⟩

/-- What the strict run keeps: no error so far, the code is known, verified blocks consist of code,
and written output bytes are known. -/
structure Good (r : Recipe) (m : Machine) : Prop where
  error : m.replay.error = none
  address : m.replay.outputAddress = r.h.output
  code : ∀ a, IsCode r a → m.replay.known a = true
  blocks : ∀ addr size count, m.blocks addr = some (size, count) →
    ∀ a, addr ≤ a → a < addr + size → IsCode r a
  covers : Covers m.replay

theorem Machine.fail_error (m : Machine) (why : String) : (m.fail why).replay.error ≠ none :=
  Emulation.fail_error m.replay why

theorem charge_passed {m : Machine} {r : Recipe} {size verified count : ℕ}
    (h : (m.charge r size verified count).replay.error = none) :
    verified = size ∧ m.steps + count ≤ r.h.steps := by
  unfold Machine.charge at h
  dsimp only at h
  split_ifs at h with h1 h2
  · exact absurd h (m.fail_error _)
  · exact absurd h (Machine.fail_error _ _)
  · exact ⟨not_not.mp h1, Nat.not_lt.mp h2⟩

theorem charge_eq {m : Machine} {r : Recipe} {size count : ℕ} (h : m.steps + count ≤ r.h.steps) :
    m.charge r size size count = { m with steps := m.steps + count } := by
  unfold Machine.charge
  rw [if_neg (not_not.mpr rfl)]
  exact if_neg (Nat.not_lt.mpr h)

/-- **The hook `instruction` when it passes**: the block consists of code; the hook has counted it
and perhaps noted it; and it does the same over any memory that has the same code. -/
theorem instruction_passed {r : Recipe} {m : Machine} (hg : Good r m) {addr size : ℕ}
    (he : (m.instruction r addr size).replay.error = none) :
    (∀ a, addr ≤ a → a < addr + size → IsCode r a) ∧ ∃ blocks steps,
      (∀ addr size count, blocks addr = some (size, count) →
        ∀ a, addr ≤ a → a < addr + size → IsCode r a) ∧
      ∀ m' : Machine, m'.blocks = m.blocks → m'.steps = m.steps →
        (∀ a, IsCode r a → m.replay.mem a = m'.replay.mem a) →
        m'.instruction r addr size = { m' with blocks := blocks, steps := steps } := by
  unfold Machine.instruction at he
  cases hb : m.blocks addr with
  | some x =>
    obtain ⟨verified, count⟩ := x
    rw [hb] at he
    obtain ⟨rfl, hsteps⟩ := charge_passed he
    refine ⟨hg.blocks _ _ _ hb, m.blocks, m.steps + count, hg.blocks, fun m' hb' hs' _ => ?_⟩
    unfold Machine.instruction
    rw [hb', hb]
    dsimp only
    rw [charge_eq (by rw [hs']; exact hsteps), hs', ← hb']
  | none =>
    rw [hb] at he
    dsimp only at he
    by_cases hbad : size = 0 ∨ 65536 < size ∨ UINT64_MAX - size < addr
    · rw [if_pos hbad] at he
      exact absurd he (m.fail_error _)
    rw [if_neg hbad] at he
    cases hv : verify r m.replay.mem (addr + size) size addr 0 with
    | error message =>
      rw [hv] at he
      exact absurd he (m.fail_error _)
    | ok count =>
      rw [hv] at he
      obtain ⟨-, hsteps⟩ := charge_passed he
      have hcode := (verify_ok (fun _ _ => rfl) hv).2
      refine ⟨fun a h1 h2 => hcode a h1 h2,
        Function.update m.blocks addr (some (size, count)), m.steps + count, ?_, ?_⟩
      · intro addr' size' count' h'
        by_cases ha : addr' = addr
        · rw [ha, Function.update_self] at h'
          cases h'
          rw [ha]
          exact hcode
        · rw [Function.update_of_ne ha] at h'
          exact hg.blocks _ _ _ h'
      · intro m' hb' hs' hmem
        unfold Machine.instruction
        rw [hb', hb]
        dsimp only
        rw [if_neg hbad, (verify_ok hmem hv).1]
        dsimp only
        rw [charge_eq (by rw [hs']; exact hsteps), hs']

/-! ### Two runs in step -/

/-- **In step**: `m` is in a strict run, `m'` in a strict one or in one without hooks. -/
structure Twin (strict : Bool) (m m' : Machine) : Prop where
  agree : ∀ a, m.replay.known a = true → m.replay.mem a = m'.replay.mem a
  executed : m'.executed = m.executed
  error : m'.replay.error = none
  same : strict = true → m'.replay = withMem m.replay m'.replay.mem ∧ m'.blocks = m.blocks ∧
    m'.steps = m.steps

section Lockstep

variable {E : Emulator} {r : Recipe} {strict : Bool} {m m' m₁ : Machine}

theorem Twin.boundary (hg : Good r m) (ht : Twin strict m m') {regs : E.Regs} {phase : Phase E}
    (h : step E r true m (.boundary regs) = .go m₁ phase) :
    ∃ m₁', step E r strict m' (.boundary regs) = .go m₁' phase ∧ Good r m₁ ∧
      Twin strict m₁ m₁' := by
  unfold step at h ⊢
  dsimp only at h ⊢
  by_cases hstop : E.rip regs = r.h.stop
  · rw [if_pos hstop] at h
    cases h
  rw [if_neg hstop] at h ⊢
  cases hf : E.fetch regs m.replay.mem with
  | none =>
    rw [hf] at h
    cases h
  | some x =>
    obtain ⟨addr, size, block⟩ := x
    rw [hf] at h
    dsimp only at h
    by_cases hx : outside (executablePages r) addr size = true
    · rw [if_pos hx] at h
      cases h
    rw [if_neg hx, if_pos rfl] at h
    cases he : (({ m with executed := m.executed ++ [(addr, size)] } : Machine).instruction r addr
        size).replay.error with
    | some message =>
      rw [he] at h
      cases h
    | none =>
      rw [he] at h
      have hg' : Good r { m with executed := m.executed ++ [(addr, size)] } :=
        ⟨hg.error, hg.address, hg.code, hg.blocks, hg.covers⟩
      obtain ⟨hcode, blocks, steps, hblocks, hall⟩ := instruction_passed hg' he
      have hone := hall _ rfl rfl fun _ _ => rfl
      rw [hone] at h
      cases h
      have hfetch : E.fetch regs m'.replay.mem = some (addr, size, block) :=
        E.fetch_local hf fun i hi => ht.agree _ (hg.code _ (hcode _ (by omega) (by omega)))
      rw [hfetch]
      dsimp only
      rw [if_neg hx]
      refine ⟨⟨m'.replay, if strict then blocks else m'.blocks, if strict then steps else m'.steps,
        m.executed ++ [(addr, size)]⟩, ?_, ⟨hg.error, hg.address, hg.code, hblocks, hg.covers⟩, ?_⟩
      · cases strict with
        | false =>
          simp only [Bool.false_eq_true, if_false, ht.error, ht.executed]
        | true =>
          obtain ⟨hsr, hsb, hss⟩ := ht.same rfl
          have htwo := hall { m' with executed := m'.executed ++ [(addr, size)] } hsb hss
            fun a ha => ht.agree a (hg.code a ha)
          rw [if_pos rfl, htwo]
          dsimp only
          rw [ht.error, ht.executed]
          rfl
      · cases strict with
        | false => exact ⟨ht.agree, rfl, ht.error, fun hf => Bool.noConfusion hf⟩
        | true => exact ⟨ht.agree, rfl, ht.error, fun _ => ⟨(ht.same rfl).1, rfl, rfl⟩⟩

theorem Twin.read (hg : Good r m) (ht : Twin strict m m') {block : E.Block} {addr size : ℕ}
    {next : List UInt8 → E.Block} (hx : E.exec block = .read addr size next) {phase : Phase E}
    (h : step E r true m (.inside block) = .go m₁ phase) :
    ∃ m₁', step E r strict m' (.inside block) = .go m₁' phase ∧ Good r m₁ ∧ Twin strict m₁ m₁' := by
  rw [step] at h ⊢
  rw [hx] at h ⊢
  dsimp only at h ⊢
  rw [if_pos rfl] at h
  unfold Machine.memory at h ⊢
  cases he : (m.replay.memory false addr size).error with
  | some message =>
    rw [he] at h
    cases h
  | none =>
    rw [he] at h
    obtain ⟨hsame, hknown⟩ := memory_read_passed he
    dsimp only at h
    by_cases hout : outside (mappedPages r) addr size = true
    · rw [if_pos hout] at h
      cases h
    rw [if_neg hout, hsame] at h
    cases h
    have hbytes : (List.range size).map (fun i => m.replay.mem (addr + i)) =
        (List.range size).map fun i => m'.replay.mem (addr + i) := by
      refine List.map_congr_left fun i hi => ht.agree _ (hknown _ ⟨Nat.le_add_right _ _, ?_⟩)
      exact Nat.add_lt_add_left (List.mem_range.mp hi) _
    refine ⟨m', ?_, hg, ht⟩
    cases strict with
    | false =>
      rw [if_neg (by decide), ht.error]
      dsimp only
      rw [if_neg hout, hbytes]
    | true =>
      have hsame' : m'.replay.memory false addr size = m'.replay := by
        rw [(ht.same rfl).1, memory_withMem, hsame]
      rw [if_pos rfl, hsame', ht.error]
      dsimp only
      rw [if_neg hout, hbytes]

theorem store_agree {mem mem' : ℕ → UInt8} {addr : ℕ} {bytes : List UInt8} {a : ℕ}
    (h : a ∈ Set.Ico addr (addr + bytes.length) ∨ mem a = mem' a) :
    store mem addr bytes a = store mem' addr bytes a := by
  unfold store
  by_cases hin : addr ≤ a ∧ a < addr + bytes.length
  · rw [if_pos hin, if_pos hin]
  · rw [if_neg hin, if_neg hin]
    exact h.resolve_left hin

theorem Twin.write (hg : Good r m) (ht : Twin strict m m') {block : E.Block} {addr : ℕ}
    {bytes : List UInt8} {next : E.Block} (hx : E.exec block = .write addr bytes next)
    {phase : Phase E} (h : step E r true m (.inside block) = .go m₁ phase) :
    ∃ m₁', step E r strict m' (.inside block) = .go m₁' phase ∧ Good r m₁ ∧ Twin strict m₁ m₁' := by
  rw [step] at h ⊢
  rw [hx] at h ⊢
  dsimp only at h ⊢
  rw [if_pos rfl] at h
  unfold Machine.memory Machine.store at h ⊢
  cases he : (m.replay.memory true addr bytes.length).error with
  | some message =>
    rw [he] at h
    cases h
  | none =>
    rw [he] at h
    have hmarks := memory_write_passed he
    dsimp only at h
    by_cases hout : outside (mappedPages r) addr bytes.length = true
    · rw [if_pos hout] at h
      cases h
    by_cases hprot : touches (executablePages r) addr bytes.length = true
    · rw [if_neg hout, if_pos hprot] at h
      cases h
    rw [if_neg hout, if_neg hprot] at h
    cases h
    have haddr : (m.replay.memory true addr bytes.length).outputAddress = r.h.output := by
      rw [← hg.address]
      exact memory_address ..
    have hcov := hg.covers.memory addr bytes.length
    have hgood : Good r { m with replay := { m.replay.memory true addr bytes.length with
        mem := store (m.replay.memory true addr bytes.length).mem addr bytes } } :=
      ⟨he, haddr, fun a ha => (hmarks.known a).mpr (.inl (hg.code a ha)), hg.blocks,
        ⟨hcov.aligned, hcov.known⟩⟩
    have hagree : ∀ a, (m.replay.memory true addr bytes.length).known a = true →
        store (m.replay.memory true addr bytes.length).mem addr bytes a =
          store m'.replay.mem addr bytes a := by
      intro a ha
      refine store_agree ?_
      rw [hmarks.mem]
      exact ((hmarks.known a).mp ha).symm.imp id (ht.agree a)
    cases strict with
    | false =>
      refine ⟨{ m' with replay := { m'.replay with mem := store m'.replay.mem addr bytes } }, ?_,
        hgood, ⟨hagree, ht.executed, ht.error, fun hf => Bool.noConfusion hf⟩⟩
      rw [if_neg (by decide), ht.error]
      dsimp only
      rw [if_neg hout, if_neg hprot]
    | true =>
      obtain ⟨hsr, hsb, hss⟩ := ht.same rfl
      have hmem : m'.replay.memory true addr bytes.length =
          withMem (m.replay.memory true addr bytes.length) m'.replay.mem := by
        rw [hsr, memory_withMem]
        rfl
      refine ⟨⟨withMem (m.replay.memory true addr bytes.length) (store m'.replay.mem addr bytes),
        m'.blocks, m'.steps, m'.executed⟩, ?_, hgood,
        ⟨hagree, ht.executed, he, fun _ => ⟨rfl, hsb, hss⟩⟩⟩
      rw [if_pos rfl, hmem]
      change (match (m.replay.memory true addr bytes.length).error with
        | some message => Next.failed message
        | none => _) = _
      rw [he]
      dsimp only
      rw [if_neg hout, if_neg hprot]
      rfl

/-- **One step in step.** -/
theorem Twin.step (hg : Good r m) (ht : Twin strict m m') {phase phase₁ : Phase E}
    (h : step E r true m phase = .go m₁ phase₁) :
    ∃ m₁', step E r strict m' phase = .go m₁' phase₁ ∧ Good r m₁ ∧ Twin strict m₁ m₁' := by
  cases phase with
  | boundary regs => exact ht.boundary hg h
  | inside block =>
    cases hx : E.exec block with
    | read addr size next => exact ht.read hg hx h
    | write addr bytes next => exact ht.write hg hx h
    | done regs =>
      rw [Emulation.step] at h ⊢
      rw [hx] at h ⊢
      cases h
      exact ⟨m', rfl, hg, ht⟩
    | halt regs =>
      rw [Emulation.step] at h
      rw [hx] at h
      cases h
    | fault message =>
      rw [Emulation.step] at h
      rw [hx] at h
      cases h

theorem Twin.stopped (ht : Twin strict m m') {phase : Phase E} {regs : E.Regs}
    (h : Emulation.step E r true m phase = .stopped m₁ regs) :
    m₁ = m ∧ Emulation.step E r strict m' phase = .stopped m' regs ∧ Twin strict m₁ m' := by
  cases phase with
  | boundary regs' =>
    unfold Emulation.step at h ⊢
    dsimp only at h ⊢
    by_cases hstop : E.rip regs' = r.h.stop
    · rw [if_pos hstop] at h ⊢
      cases h
      exact ⟨rfl, rfl, ht⟩
    rw [if_neg hstop] at h
    split at h
    · cases h
    · split at h
      · cases h
      · split at h <;> cases h
  | inside block =>
    rw [Emulation.step] at h ⊢
    cases hx : E.exec block with
    | read addr size next =>
      rw [hx] at h
      dsimp only at h
      split at h
      · cases h
      · split at h <;> cases h
    | write addr bytes next =>
      rw [hx] at h
      dsimp only at h
      split at h
      · cases h
      · split at h
        · cases h
        · split at h <;> cases h
    | done regs' =>
      rw [hx] at h
      cases h
    | halt regs' =>
      rw [hx] at h
      cases h
      exact ⟨rfl, rfl, ht⟩
    | fault message =>
      rw [hx] at h
      cases h

/-- **Two whole runs in step.** The induction is on the time; one step is `Twin.step`. -/
theorem Twin.emulate : ∀ {time : ℕ} {m m' m₁ : Machine} {phase : Phase E} {regs : E.Regs},
    Good r m → Twin strict m m' → Emulation.emulate E r true time m phase = .stopped m₁ regs →
    ∃ m₁', Emulation.emulate E r strict time m' phase = .stopped m₁' regs ∧ Good r m₁ ∧
      Twin strict m₁ m₁'
  | 0, m, m', m₁, phase, regs, _, _, h => by cases h
  | time + 1, m, m', m₁, phase, regs, hg, ht, h => by
    rw [Emulation.emulate] at h ⊢
    cases hs : Emulation.step E r true m phase with
    | go m₂ phase₂ =>
      rw [hs] at h
      obtain ⟨m₂', hs', hg₂, ht₂⟩ := ht.step hg hs
      rw [hs']
      exact Twin.emulate hg₂ ht₂ h
    | stopped m₂ regs₂ =>
      rw [hs] at h
      cases h
      obtain ⟨rfl, hs', ht₂⟩ := ht.stopped hs
      rw [hs']
      exact ⟨m', rfl, hg, ht₂⟩
    | failed message =>
      rw [hs] at h
      cases h

end Lockstep

/-- The end of both runs: the checks have the same outcome, and the output is known. -/
theorem finish_twin {E : Emulator} {sha256 : List UInt8 → List UInt8} {time : ℕ} {r : Recipe}
    {m₁ : ℕ → UInt8} {t : Replay} {m : Machine} {regs : E.Regs} {result : Finished}
    (harg : ¬ (r.h.length = 0 ∨ r.h.output % PAGE ≠ 0)) (ht : setupFrom m₁ r = .ok t)
    (htwin : ∀ strict, ∃ m', emulate E r strict time ⟨t, fun _ => none, 0, []⟩
      (.boundary (E.boot r.h)) = .stopped m' regs ∧ Good r m ∧ Twin strict m m')
    (h : (if E.rip regs ≠ r.h.stop ∨ E.rax regs ≠ r.h.result ∨
      (true = true ∧ m.steps ≠ r.h.steps) then
        Except.error "replay control flow or return value diverged"
      else if true && !allWritten m.replay r.h.length then
        Except.error "replay did not produce every output byte"
      else
        if sha256 ((List.range r.h.length).map fun i => m.replay.mem (r.h.output + i)) ≠
          r.h.digest then
          Except.error "replay output digest mismatch"
        else .ok ⟨(List.range r.h.length).map fun i => m.replay.mem (r.h.output + i), E.rax regs,
          m.steps, m.executed⟩) = .ok result) :
    run E sha256 time m₁ r true = .ok result ∧
    ∃ steps, run E sha256 time m₁ r false =
      .ok ⟨result.output, result.rax, steps, result.blocks⟩ := by
  split_ifs at h with h1 h2 h3
  rw [not_or, not_or] at h1
  obtain ⟨hrip, hrax, hsteps⟩ := h1
  have hall : allWritten m.replay r.h.length = true := by simpa using h2
  have hout : ∀ m' : Machine, (∀ a, m.replay.known a = true → m.replay.mem a = m'.replay.mem a) →
      Good r m → (List.range r.h.length).map (fun i => m'.replay.mem (r.h.output + i)) =
        (List.range r.h.length).map fun i => m.replay.mem (r.h.output + i) := by
    intro m' hagree hg
    refine List.map_congr_left fun i hi => (hagree _ ?_).symm
    have hk := hg.covers.all hall i (List.mem_range.mp hi)
    rwa [hg.address] at hk
  cases h
  constructor
  · obtain ⟨m', he', hg, htw⟩ := htwin true
    obtain ⟨hsr, -, hss⟩ := htw.same rfl
    unfold run
    rw [if_neg harg, ht]
    dsimp only
    rw [he']
    dsimp only
    have hall' : allWritten m'.replay r.h.length = true := by
      rw [hsr]
      exact hall
    rw [hss, hall', hout m' htw.agree hg, htw.executed, if_neg (by tauto), if_neg (by decide),
      if_neg h3]
  · obtain ⟨m', he', hg, htw⟩ := htwin false
    refine ⟨m'.steps, ?_⟩
    unfold run
    rw [if_neg harg, ht]
    dsimp only
    rw [he']
    dsimp only
    rw [hout m' htw.agree hg, htw.executed, if_neg (by simp [hrip, hrax]),
      if_neg (by rw [Bool.false_and]; decide), if_neg h3]

/-- **A strictly validated recipe is self-contained.** If the strict replay succeeds with `m₀` in
the mapped pages before inputs and code are written, then with any other contents the strict replay
gives the same output, `RAX`, step count and blocks, and the replay without hooks, which `RESTORE`
uses, gives the same output, `RAX` and blocks. -/
theorem self_contained (E : Emulator) (sha256 : List UInt8 → List UInt8) (time : ℕ) {r : Recipe}
    (hw : WellFormed r) {m₀ : ℕ → UInt8} {result : Finished}
    (h : run E sha256 time m₀ r true = .ok result) (m₁ : ℕ → UInt8) :
    run E sha256 time m₁ r true = .ok result ∧
    ∃ steps, run E sha256 time m₁ r false =
      .ok ⟨result.output, result.rax, steps, result.blocks⟩ := by
  unfold run at h
  by_cases harg : r.h.length = 0 ∨ r.h.output % PAGE ≠ 0
  · rw [if_pos harg] at h
    cases h
  rw [if_neg harg] at h
  cases hs : setupFrom m₀ r with
  | error message =>
    rw [hs] at h
    cases h
  | ok s =>
    rw [hs] at h
    dsimp only at h
    obtain ⟨t, ht, hl, herr, haddr, hempty, hcode⟩ := setupFrom_like m₁ hw hs
    have hgood : Good r ⟨s, fun _ => none, 0, []⟩ := by
      refine ⟨herr, haddr, ?_, fun _ _ _ hn => (Option.some_ne_none _ hn.symm).elim, ?_, ?_⟩
      · rintro a ⟨c, hc, j, hj, rfl⟩
        exact hcode c hc j hj
      · rw [haddr]
        exact not_not.mp fun hne => harg (.inr hne)
      · intro k i _ hbit
        rw [hempty, ByteMask.test_empty] at hbit
        cases hbit
    have htwin : ∀ strict, Twin strict ⟨s, fun _ => none, 0, []⟩ ⟨t, fun _ => none, 0, []⟩ := by
      intro strict
      refine ⟨hl.agree, rfl, ?_, fun _ => ⟨hl.same, rfl, rfl⟩⟩
      rw [hl.same]
      exact herr
    cases he : emulate E r true time ⟨s, fun _ => none, 0, []⟩ (.boundary (E.boot r.h)) with
    | failed message =>
      rw [he] at h
      cases h
    | go m phase =>
      rw [he] at h
      cases h
    | stopped m regs =>
      rw [he] at h
      exact finish_twin harg ht (fun strict => (htwin strict).emulate hgood he) h


/-- `mov byte ptr [rdi], 7` and `ret`, with the return address on the stack. -/
def sampleRecipe : Recipe where
  h :=
    { magic := MAGIC, version := 1, entry := 0x5000, stop := 0x6000, output := 0x10000, length := 1,
      result := 0, steps := 2, inputBytes := 8, fsBase := 0, gsBase := 0,
      regs := [0, 0, 0, 0, 0, 0x10000, 0, 0, 0, 0, 0, 0, 0, 0, 0, 0x7000, 0x5000, 2],
      xmm := List.replicate 16 (List.replicate 16 0), mxcsr := 0x1f80,
      pageCount := 1, codeCount := 2, inputCount := 1, digest := Checked.sampleDigest }
  pages := [0x7000]
  code := [⟨0x5000, 3, [0xc6, 0x07, 0x07] ++ List.replicate 12 0⟩,
    ⟨0x5003, 1, 0xc3 :: List.replicate 14 0⟩]
  inputs := [⟨0x7000, leBytes 8 0x6000⟩]

/-- What the emulator makes of that code. -/
def sampleEmulator : Emulator where
  Regs := ℕ
  Block := ℕ
  rip := id
  rax := fun _ => 0
  boot := Header.entry
  fetch := fun rip m =>
    if rip = 0x5000 ∧ m 0x5000 = 0xc6 ∧ m 0x5001 = 0x07 ∧ m 0x5002 = 0x07 ∧ m 0x5003 = 0xc3 then
      some (0x5000, 4, 0)
    else none
  exec := fun block => match block with
    | 0 => .write 0x10000 [7] 1
    | 1 => .read 0x7000 8 fun bytes => leNat bytes + 2
    | rip + 2 => .done rip
  fetch_local := by
    intro rip m m' addr size block h hm
    split_ifs at h with hc
    cases h
    obtain ⟨h0, h1, h2, h3, h4⟩ := hc
    exact if_pos ⟨h0, (hm 0 (by decide)).symm.trans h1, (hm 1 (by decide)).symm.trans h2,
      (hm 2 (by decide)).symm.trans h3, (hm 3 (by decide)).symm.trans h4⟩

theorem self_contained_sample :
    run sampleEmulator (fun b => if b = [7] then Checked.sampleDigest else []) 10
      (fun _ => 0) sampleRecipe true =
      .ok ⟨[7], 0, 2, [(0x5000, 4)]⟩ ∧
    run sampleEmulator (fun b => if b = [7] then Checked.sampleDigest else []) 10
      (fun _ => 255) sampleRecipe true =
      .ok ⟨[7], 0, 2, [(0x5000, 4)]⟩ := by
  have hw : WellFormed sampleRecipe := by decide +kernel
  have h : run sampleEmulator (fun b => if b = [7] then Checked.sampleDigest else []) 10
    (fun _ => 0) sampleRecipe
      true = .ok ⟨[7], 0, 2, [(0x5000, 4)]⟩ := by decide +kernel
  exact ⟨h, (self_contained _ _ _ hw h fun _ => 255).1⟩

end Afterfree.Worker.Emulation
