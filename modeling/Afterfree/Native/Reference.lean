import Afterfree.Native.Decode

/-!
# The recorded program

What a recipe's instructions do, one at a time, over a flat memory that starts with the inputs: the
meaning that the generated code has to keep. `step` reads nothing but the recipe; a jump through a
slot and a return take their targets from memory. `advance` is the same for a decoded instruction,
with the target of a branch as `decode` has found it.

* `step_eq_advance`: they agree as long as the jump slots hold what the inputs hold.
-/

namespace Afterfree.Native.Reference

open Afterfree.Common Afterfree.Codec Afterfree.Encoding Afterfree.Native.X86
  Afterfree.Native.Decode

/-! ### Memory -/

/-- A flat memory of bytes. -/
abbrev Memory : Type := Word → UInt8

/-- The `n` bytes from an address on. -/
def readBytes (mem : Memory) (a : Word) (n : ℕ) : List UInt8 :=
  (List.range n).map fun j => mem (a + BitVec.ofNat 64 j)

/-- A memory with bytes put at an address. -/
def writeBytes (mem : Memory) (a : Word) (bytes : List UInt8) : Memory :=
  fun b => bytes.getD (b - a).toNat (mem b)

/-- The bytes of a store with their addresses. -/
def storedBytes (a : Word) (bytes : List UInt8) : List (Word × UInt8) :=
  (List.range bytes.length).map fun j => (a + BitVec.ofNat 64 j, bytes.getD j 0)

theorem readBytes_length (mem : Memory) (a : Word) (n : ℕ) : (readBytes mem a n).length = n := by
  simp [readBytes]

theorem readBytes_congr {mem mem' : Memory} {a a' : Word} {n : ℕ}
    (h : ∀ j < n, mem (a + BitVec.ofNat 64 j) = mem' (a' + BitVec.ofNat 64 j)) :
    readBytes mem a n = readBytes mem' a' n :=
  List.map_congr_left fun j hj => h j (List.mem_range.mp hj)

theorem sub_toNat_lt {a b : Word} {n : ℕ} (h : a.toNat + n ≤ 2 ^ 64) :
    (b - a).toNat < n ↔ a.toNat ≤ b.toNat ∧ b.toNat < a.toNat + n := by
  have ha := a.isLt
  have hb := b.isLt
  rw [BitVec.toNat_sub]
  omega

theorem toNat_add_ofNat {a : Word} {j : ℕ} (h : a.toNat + j < 2 ^ 64) :
    (a + BitVec.ofNat 64 j).toNat = a.toNat + j := by
  rw [BitVec.toNat_add, BitVec.toNat_ofNat, Nat.mod_eq_of_lt (by omega : j < 2 ^ 64),
    Nat.mod_eq_of_lt h]

theorem writeBytes_outside {mem : Memory} {a b : Word} {bytes : List UInt8}
    (hn : a.toNat + bytes.length ≤ 2 ^ 64)
    (h : b.toNat < a.toNat ∨ a.toNat + bytes.length ≤ b.toNat) :
    writeBytes mem a bytes b = mem b := by
  have hlt : ¬ (b - a).toNat < bytes.length := by
    rw [sub_toNat_lt hn]
    omega
  unfold writeBytes
  rw [List.getD_eq_getElem?_getD, List.getElem?_eq_none (by omega)]
  rfl

theorem writeBytes_inside {mem : Memory} {a : Word} {bytes : List UInt8} {j : ℕ}
    (hj : j < bytes.length) (hn : bytes.length ≤ 2 ^ 64) :
    writeBytes mem a bytes (a + BitVec.ofNat 64 j) = bytes.getD j 0 := by
  have hsub : (a + BitVec.ofNat 64 j - a).toNat = j := by
    rw [BitVec.add_comm, BitVec.add_sub_cancel, BitVec.toNat_ofNat]
    exact Nat.mod_eq_of_lt (by omega)
  unfold writeBytes
  rw [hsub, List.getD_eq_getElem?_getD, List.getD_eq_getElem?_getD, List.getElem?_eq_getElem hj]
  rfl

/-! ### The guest -/

/-- QBDI's saved-register order, translated to register numbers: `physical`. -/
def physical (i : Fin 16) : Fin 16 :=
  [0, 3, 1, 2, 6, 7, 8, 9, 10, 11, 12, 13, 14, 15, 5, 4].getD i 0

/-- Where a register is saved. -/
def savedAt (r : Fin 16) : Fin 16 :=
  [0, 2, 3, 1, 15, 14, 4, 5, 6, 7, 8, 9, 10, 11, 12, 13].getD r 0

@[simp] theorem physical_savedAt (r : Fin 16) : physical (savedAt r) = r := by
  revert r
  decide

@[simp] theorem savedAt_physical (i : Fin 16) : savedAt (physical i) = i := by
  revert i
  decide

/-- The state of the recorded program. -/
structure Guest where
  pc : ℕ
  core : Core
  mem : Memory

/-- The registers of the header. -/
def headerCore (h : Header) : Core where
  gpr r := BitVec.ofNat 64 (h.regs.getD (savedAt r) 0)
  xmm k := BitVec.ofNat 128 (leNat (h.xmm.getD k []))
  flags := BitVec.ofNat 64 (h.regs.getD 17 0)
  mxcsr := BitVec.ofNat 32 h.mxcsr

/-- A flat memory with the inputs in it. -/
def inputMemory (r : Recipe) : Memory := fun a => (snapshot r.inputs a.toNat).getD 0

/-- The recorded program before its first instruction. -/
def initialGuest (r : Recipe) : Guest := ⟨r.h.entry, headerCore r.h, inputMemory r⟩

/-! ### One instruction -/

/-- The address of the memory operand. -/
def operandAddress (h : Header) (c : Instruction) (i : Inst) (m : Mem) (core : Core) : Word :=
  effective h (c.address + c.size) (decide (i.mnemonic = .lea)) m core

/-- What the instruction gets from its memory operand. -/
def loadedFrom (h : Header) (c : Instruction) (i : Inst) (g : Guest) : Loaded :=
  match i.memory with
  | none => .nothing
  | some m =>
    if i.mnemonic = .lea then .address (operandAddress h c i m g.core)
    else if m.action = .read then
      .bytes (readBytes g.mem (operandAddress h c i m g.core) (m.size / 8))
    else .nothing

/-- The instruction stores to its memory operand. -/
def storesTo (i : Inst) : Option Mem :=
  match i.memory with
  | none => none
  | some m => if i.mnemonic ≠ .lea ∧ m.action = .write then some m else none

/-- A permitted instruction: the guest after it and the bytes it stores. -/
def execute (isa : Isa) (h : Header) (c : Instruction) (i : Inst) (g : Guest) :
    Guest × List (Word × UInt8) :=
  let x := isa.exec i g.core (loadedFrom h c i g)
  match storesTo i with
  | none => (⟨c.address + c.size, x.1, g.mem⟩, [])
  | some m =>
    let a := operandAddress h c i m g.core
    (⟨c.address + c.size, x.1, writeBytes g.mem a x.2⟩, storedBytes a x.2)

/-- What one instruction of the recorded program leads to. -/
inductive Outcome
  | next (g : Guest) (stored : List (Word × UInt8))
  | returned (address : ℕ)
  | stuck

/-- Where a branch goes when it is taken. -/
def jumpsTo (c : Instruction) (i : Inst) (mem : Memory) : Option ℕ :=
  match (if i.mnemonic = .jmp then ripJumpSlot c else none) with
  | some slot => some (leNat (readBytes mem (BitVec.ofNat 64 slot) 8))
  | none =>
    match i.visible, i.operands with
    | 1, .immediate true v :: _ =>
      some (BitVec.ofNat 64 (c.address + c.size) + BitVec.ofInt 64 v).toNat
    | _, _ => none

/-- **One instruction of the recorded program.** -/
def step (isa : Isa) (r : Recipe) (g : Guest) : Outcome :=
  match r.code.find? fun c => c.address = g.pc with
  | none => .stuck
  | some c =>
    match isa.decode (c.bytes.take c.size) with
    | none => .stuck
    | some i =>
      if i.mnemonic = .ret ∧ c.size = 1 ∧ c.bytes.getD 0 0 = 0xc3 then
        .returned (leNat (readBytes g.mem (g.core.gpr 4) 8))
      else if i.conditional = true ∧ condition (i.opcode % 16) g.core.flags = false then
        .next { g with pc := c.address + c.size } []
      else if i.conditional = true ∨ i.mnemonic = .jmp then
        match jumpsTo c i g.mem with
        | none => .stuck
        | some target => .next { g with pc := target } []
      else
        let x := execute isa r.h c i g
        .next x.1 x.2

/-- **The first `n` instructions** of the recorded program from a guest on, with the bytes they
store. -/
inductive Executes (isa : Isa) (r : Recipe) (g : Guest) : ℕ → List (Word × UInt8) → Guest → Prop
  | refl : Executes isa r g 0 [] g
  | snoc {n : ℕ} {t s : List (Word × UInt8)} {g' g'' : Guest} (h : Executes isa r g n t g')
    (hs : step isa r g' = .next g'' s) : Executes isa r g (n + 1) (t ++ s) g''

/-! ### With decoded instructions -/

/-- A decoded instruction that does not return: the guest after it and the bytes it stores. -/
def advance (isa : Isa) (h : Header) (d : Decoded) (g : Guest) : Guest × List (Word × UInt8) :=
  if d.branch then
    match d.condition with
    | some code => if condition code g.core.flags then ({ g with pc := d.target }, [])
      else ({ g with pc := d.next }, [])
    | none => ({ g with pc := d.target }, [])
  else execute isa h d.source d.inst g

/-- The slot of a jump through memory. -/
def jumpSlot (c : Instruction) (i : Inst) : Option ℕ :=
  if i.mnemonic = .jmp then ripJumpSlot c else none

/-- The memory still holds what the inputs hold in the slot of every jump. -/
def SlotsKept (r : Recipe) (ds : List Decoded) (mem : Memory) : Prop :=
  ∀ d ∈ ds, ∀ slot, jumpSlot d.source d.inst = some slot → ∀ j < 8,
    mem (BitVec.ofNat 64 (slot + j)) = inputMemory r (BitVec.ofNat 64 (slot + j))

section Advance
variable {isa : Isa} {r : Recipe} {p : Plan} (hw : WellFormed r) (ha : Admitted isa r p)

theorem readBytes_inputMemory (hw : WellFormed r) {a : ℕ} {n : ℕ} {bytes : List UInt8}
    (h : readSnapshot r a n = some bytes) {mem : Memory}
    (hm : ∀ j < n, mem (BitVec.ofNat 64 (a + j)) = inputMemory r (BitVec.ofNat 64 (a + j))) :
    readBytes mem (BitVec.ofNat 64 a) n = bytes := by
  obtain ⟨hfit, hlen, hbytes⟩ := readSnapshot_spec hw h
  unfold UINT64_MAX at hfit
  refine List.ext_getElem? fun j => ?_
  by_cases hj : j < n
  · have hsum : BitVec.ofNat 64 a + BitVec.ofNat 64 j = BitVec.ofNat 64 (a + j) := by
      rw [BitVec.ofNat_add]
    have hto : (BitVec.ofNat 64 (a + j)).toNat = a + j := by
      rw [BitVec.toNat_ofNat, Nat.mod_eq_of_lt (by omega)]
    have hsome : (snapshot r.inputs (a + j)).isSome := by
      rw [← hbytes j hj, List.getElem?_eq_getElem (by omega)]
      rfl
    rw [hbytes j hj, readBytes, List.getElem?_map, List.getElem?_range hj, Option.map_some,
      hsum, hm j hj, inputMemory, hto]
    obtain ⟨b, hb⟩ := Option.isSome_iff_exists.mp hsome
    rw [hb]
    rfl
  · rw [List.getElem?_eq_none (by rw [readBytes_length]; omega), List.getElem?_eq_none (by omega)]

include hw ha

theorem find_code {d : Decoded} (hd : d ∈ p.instructions) :
    r.code.find? (fun c => c.address = d.pc) = some d.source := by
  rw [← ha.sources, List.find?_map]
  have h := ha.find_pc hw hd
  unfold find at h
  have hcomp : ((fun c : Instruction => decide (c.address = d.pc)) ∘ Decoded.source) =
      fun e : Decoded => decide (e.pc = d.pc) := rfl
  rw [hcomp, h]
  rfl

theorem jumpsTo_eq {d : Decoded} (hd : d ∈ p.instructions) (hb : d.branch = true)
    {mem : Memory} (hk : SlotsKept r p.instructions mem) :
    jumpsTo d.source d.inst mem = some d.target := by
  have ht := (ha.admissible d hd).target hb
  have hslot := hk d hd
  unfold jumpSlot at hslot
  unfold branchTarget at ht
  unfold jumpsTo
  generalize (if d.inst.mnemonic = .jmp then ripJumpSlot d.source else none) = s at *
  cases s with
  | some slot =>
    simp only at ht ⊢
    split_ifs at ht
    cases hs : readSnapshot r slot 8 with
    | none => rw [hs] at ht; cases ht
    | some bytes =>
      rw [hs] at ht
      rw [readBytes_inputMemory hw hs (hslot slot rfl), Except.ok.inj ht]
  | none =>
    simp only at ht ⊢
    generalize d.inst.visible = v at ht ⊢
    generalize d.inst.operands = os at ht ⊢
    split at ht
    · exact congrArg some (Except.ok.inj ht)
    · cases ht

/-- **The recorded program and its decoded form** take the same step. -/
theorem step_eq_advance {d : Decoded} (hd : d ∈ p.instructions) (hr : d.returns = false)
    {g : Guest} (hpc : g.pc = d.pc) (hk : SlotsKept r p.instructions g.mem) :
    step isa r g = .next (advance isa r.h d g).1 (advance isa r.h d g).2 := by
  have hadm := ha.admissible d hd
  have hnot : ¬ (d.inst.mnemonic = .ret ∧ d.source.size = 1 ∧ d.source.bytes.getD 0 0 = 0xc3) := by
    have hret := hadm.returning
    rw [hr] at hret
    simpa using hret.symm
  unfold step advance
  rw [hpc, find_code hw ha hd]
  simp only [hadm.decoded, if_neg hnot]
  cases hb : d.branch with
  | false =>
    have hkind := hadm.branches
    rw [hb] at hkind
    have hcond : ¬ (d.inst.conditional = true ∨ d.inst.mnemonic = .jmp) := by simpa using hkind.symm
    rw [if_neg (fun h => hcond (.inl h.1)), if_neg hcond]
    rfl
  | true =>
    have hkind : d.inst.conditional = true ∨ d.inst.mnemonic = .jmp := by
      have := hadm.branches
      rw [hb] at this
      simpa using this.symm
    have hc := hadm.condition hb
    unfold branchCondition at hc
    rw [if_pos hkind, jumpsTo_eq hw ha hd hb hk]
    by_cases hcond : d.inst.conditional = true
    · rw [if_pos hcond] at hc
      split_ifs at hc
      rw [← Except.ok.inj hc]
      simp only [hcond, true_and, if_true]
      cases condition (d.inst.opcode % 16) g.core.flags <;> rfl
    · rw [if_neg hcond] at hc
      rw [← Except.ok.inj hc, if_neg (fun h => hcond h.1)]
      rfl

end Advance

end Afterfree.Native.Reference
