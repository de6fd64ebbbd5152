import Mathlib.Data.BitVec
import Afterfree.Native.X86

/-!
# Affine accesses

`affine.hpp`: a body without branches is decoded, its one memory access is found, and the
instructions that change the registers of its address are added up. The decoder and the meaning of
instructions are not part of the repository: they are the fields of `Machine`, with what the proof
relies on about them.

`prove` says that the address of the access grows by the width of the access in every iteration. It
reads the address off the memory operand, and this is where the access is made, but for one
instruction: `BT` of a memory operand by a register goes to the operand that the bit lies in
(`bitOffset`). `prove_affine` is exact about this.
-/

namespace Afterfree.Loops.Affine

open Afterfree.Native.X86 (Word)

/-! ### Decoded instructions -/

/-- `ZydisRegister`: a general register by the number of the 64-bit register that holds it and its
size in bits. -/
inductive Register
  | none | rip | flags | mxcsr
  | gp (index : Fin 16) (size : ℕ)
  | xmm (index : Fin 16)
  | other
deriving DecidableEq, Repr

/-- `ZydisRegisterGetLargestEnclosing`, as far as general registers go. -/
def Register.largest : Register → Register
  | .gp k _ => .gp k 64
  | r => r

/-- `ZydisOperandActions`. -/
structure Actions where
  read : Bool
  write : Bool
  condRead : Bool
  condWrite : Bool
deriving DecidableEq, Repr

/-- `ZYDIS_OPERAND_ACTION_MASK_WRITE`. -/
def Actions.writes (a : Actions) : Bool := a.write || a.condWrite

/-- `ZYDIS_OPERAND_ACTION_READ` and `ZYDIS_OPERAND_ACTION_WRITE`: what callers ask for. -/
inductive Kind
  | read | write
deriving DecidableEq, Repr

/-- The actions of a pure access. -/
def Kind.actions : Kind → Actions
  | .read => ⟨true, false, false, false⟩
  | .write => ⟨false, true, false, false⟩

/-- Segment registers of an address. -/
inductive Segment
  | fs | gs | other
deriving DecidableEq, Repr

/-- The address of a memory operand. -/
structure Mem where
  base : Register
  index : Register
  scale : ℕ
  disp : Word
  segment : Segment
deriving DecidableEq, Repr

/-- What an operand is; an immediate with `imm.value.u`. -/
inductive Value
  | register (r : Register)
  | memory (m : Mem)
  | immediate (relative : Bool) (v : Word)
  | pointer
deriving DecidableEq, Repr

/-- `ZydisDecodedOperand`; `size` is in bits. -/
structure Operand where
  value : Value
  size : ℕ
  actions : Actions
deriving DecidableEq, Repr

/-- The mnemonics: those of the native replay, and `BT`. -/
inductive Mnemonic
  | bt
  | named (m : Native.X86.Mnemonic)
deriving DecidableEq, Repr

/-- `ZydisInstructionCategory`, as far as the source asks. -/
inductive Category
  | condBranch | uncondBranch | call | ret | other
deriving DecidableEq, Repr

/-- `Operation`: `ZydisDecodedInstruction` with its operands. `prefixed` is `LOCK`, `REP`, `REPE` or
`REPNE`; the first `visible` operands are visible. -/
structure Operation where
  length : ℕ
  legacy : Bool
  prefixed : Bool
  mnemonic : Mnemonic
  category : Category
  opcode : ℕ
  operands : List Operand
  visible : ℕ
  addressWidth : ℕ
deriving DecidableEq, Repr

/-! ### The proof -/

/-- `AffineAccess`; `lead` is `prefix`. -/
structure AffineAccess where
  base : Register
  index : Register
  scale : ℕ
  width : ℕ
  count : ℕ
  lead : Word
  baseDelta : Word
  indexDelta : Word
deriving DecidableEq, Repr

/-- The result before anything is decoded. -/
def AffineAccess.blank : AffineAccess := ⟨.none, .none, 0, 0, 0, 0, 0, 0⟩

/-- The result so far and `access_at`. -/
structure Found where
  result : AffineAccess
  accessAt : ℕ
deriving DecidableEq, Repr

/-- Run a step that may throw for each element of a list, with its position from `i` on. -/
def eachFrom {α β : Type} (f : β → ℕ → α → Except String β) : ℕ → List α → β → Except String β
  | _, [], b => .ok b
  | i, x :: xs, b => do
    let b ← f b i x
    eachFrom f (i + 1) xs b

/-- One operand of the first pass, of the instruction number `n`. -/
def noteOperand (kind : Kind) (op : Operation) (n : ℕ) (s : Found) (i : ℕ) (o : Operand) :
    Except String Found :=
  match o.value with
  | .memory m =>
    if op.mnemonic = .named .nop then .ok s
    else if m.base = .rip ∨ op.addressWidth ≠ 64 then
      .error "affine proof needs ordinary 64-bit addresses"
    else if op.mnemonic = .named .lea then .ok s
    else if s.result.width ≠ 0 ∨ op.visible ≤ i ∨ o.actions ≠ kind.actions ∨ o.size = 0 ∨
        128 < o.size ∨ o.size % 8 ≠ 0 ∨ m.segment = .fs ∨ m.segment = .gs then
      .error "affine proof requires one pure memory access"
    else .ok
      { result := { s.result with
          base := m.base, index := m.index, scale := m.scale, width := o.size / 8, lead := m.disp }
        accessAt := n }
  | _ => .ok s

/-- The instruction leaves the straight line. -/
def Operation.leaves (op : Operation) : Bool :=
  !op.legacy || op.category = .condBranch || op.category = .uncondBranch || op.category = .call ||
    op.category = .ret

/-- The first pass: decode the body and find the access. -/
def decodeBody (decode : List UInt8 → Option Operation) (kind : Kind) :
    ℕ → List UInt8 → List Operation → Found → Except String (List Operation × Found)
  | 0, _, body, s => .ok (body, s)
  | fuel + 1, bytes, body, s =>
    if bytes = [] then .ok (body, s)
    else
      match decode bytes with
      | none => .error "affine proof requires a straight-line body"
      | some op =>
        if op.leaves then .error "affine proof requires a straight-line body"
        else do
          let s ← eachFrom (noteOperand kind op body.length) 0 op.operands s
          decodeBody decode kind fuel (bytes.drop op.length) (body ++ [op]) s

/-- What the instruction adds to its first operand, the register `largest`. -/
def Operation.delta (op : Operation) (largest : Register) : Option Word :=
  match op.mnemonic, (op.operands[1]?).map Operand.value with
  | .named .add, some (.immediate _ v) => some v
  | .named .sub, some (.immediate _ v) => some (0 - v)
  | .named .inc, _ => some 1
  | .named .dec, _ => some (BitVec.allOnes 64)
  | .named .lea, some (.memory m) =>
    if op.addressWidth = 64 ∧ m.base = largest ∧ m.index = .none then some m.disp else none
  | _, _ => none

/-- The result so far and `total`. -/
structure Summed where
  result : AffineAccess
  total : Word
deriving DecidableEq, Repr

/-- How often a register counts in the address. -/
def AffineAccess.weight (a : AffineAccess) (r : Register) : Word :=
  (if r = a.base then 1 else 0) + if r = a.index then BitVec.ofNat 64 a.scale else 0

/-- One operand of the second pass, of the instruction number `n`. -/
def noteWrite (accessAt : ℕ) (op : Operation) (n : ℕ) (s : Summed) (i : ℕ) (o : Operand) :
    Except String Summed :=
  match o.value with
  | .register v =>
    if !o.actions.writes then .ok s
    else if v.largest ≠ s.result.base ∧ v.largest ≠ s.result.index then .ok s
    else if v ≠ v.largest ∨ i ≠ 0 then .error "affine proof rejects partial address writes"
    else
      match op.delta v.largest with
      | none => .error "affine proof rejects data-dependent address changes"
      | some delta =>
        let a := s.result
        let change := delta * a.weight v.largest
        .ok
          { result := { a with
              baseDelta := if v.largest = a.base then a.baseDelta + delta else a.baseDelta
              indexDelta := if v.largest = a.index then a.indexDelta + delta else a.indexDelta
              lead := if n < accessAt then a.lead + change else a.lead }
            total := s.total + change }
  | _ => .ok s

/-- One instruction of the second pass. -/
def noteChange (accessAt : ℕ) (s : Summed) (n : ℕ) (op : Operation) : Except String Summed :=
  eachFrom (noteWrite accessAt op n) 0 op.operands s

/-- `AffineAccess::prove`. -/
def prove (decode : List UInt8 → Option Operation) (bytes : List UInt8) (kind : Kind) :
    Except String AffineAccess := do
  let (body, s) ← decodeBody decode kind bytes.length bytes [] ⟨AffineAccess.blank, 0⟩
  let result := { s.result with count := body.length }
  if result.width = 0 then .ok result
  else
    let s ← eachFrom (noteChange s.accessAt) 0 body ⟨result, 0⟩
    if s.total ≠ BitVec.ofNat 64 s.result.width then
      .error "affine proof rejects non-contiguous accesses"
    else .ok s.result

/-! ### What instructions do -/

/-- The general registers, the flags and everything else. -/
structure State (ρ : Type) where
  gpr : Fin 16 → Word
  flags : Word
  rest : ρ

section Meaning

variable {ρ : Type}

/-- The value of a register in an address; no register counts nothing. -/
def State.value (s : State ρ) : Register → Word
  | .gp k _ => s.gpr k
  | _ => 0

/-- The effective address of a memory operand. -/
def Mem.address (m : Mem) (s : State ρ) : Word :=
  s.value m.base + s.value m.index * BitVec.ofNat 64 m.scale + m.disp

/-- `BT` of memory by a register: the register holds a signed bit number, and the access goes to the
operand that the bit lies in. All other instructions access their operand. -/
def Operation.bitOffset (op : Operation) (s : State ρ) : Word :=
  match op.mnemonic, (op.operands[1]?).map Operand.value with
  | .bt, some (.register (.gp k w)) =>
    BitVec.ofInt 64 (((w / 8 : ℕ) : ℤ) * (((s.gpr k).setWidth w).toInt / (w : ℤ)))
  | _, _ => 0

/-- The memory operand of an instruction that accesses memory, with its size in bytes. -/
def Operation.accessed (op : Operation) : Option (Mem × ℕ) :=
  if op.mnemonic = .named .nop ∨ op.mnemonic = .named .lea then none
  else op.operands.findSome? fun o => match o.value with
    | .memory m => some (m, o.size / 8)
    | _ => none

/-- The access an instruction makes: its address and its size. -/
def Operation.access (op : Operation) (s : State ρ) : Option (Word × ℕ) :=
  op.accessed.map fun x => (x.1.address s + op.bitOffset s, x.2)

/-- An operand writes a part of the register. -/
def Operand.writesTo (o : Operand) (k : Fin 16) : Bool :=
  match o.value with
  | .register r => o.actions.writes && r.largest = .gp k 64
  | _ => false

/-- **The machine.** `decode` is `ZydisDecoderDecodeFull` and `meaning` is what an instruction does
to the state.

* `decode_length`: an instruction has bytes, and no more than there are;
* `decode_append`: bytes behind an instruction do not matter;
* `operand_register`, `memory_base`, `memory_index`: a register operand is a register, and a 64-bit
  address of a legacy instruction is made of 64-bit general registers or `RIP`;
* `bt_size`: the bit number of `BT` has 16, 32 or 64 bits;
* `meaning_kept`: the operands name every register that the instruction writes;
* `meaning_add`, `meaning_sub`, `meaning_inc`, `meaning_dec`, `meaning_lea`: what these do to a
  64-bit register, `LEA` of an address without `RIP`;
* `cmp_register`: `CMP` of a 64-bit register is of a general one;
* `meaning_cmp`: a comparison of 64-bit registers leaves them alone and sets the carry and the zero
  flag. -/
structure Machine (ρ : Type) where
  decode : List UInt8 → Option Operation
  meaning : Operation → State ρ → State ρ
  decode_length : ∀ bytes op, decode bytes = some op → 0 < op.length ∧ op.length ≤ bytes.length
  decode_append : ∀ bytes more op, decode bytes = some op → decode (bytes ++ more) = some op
  operand_register : ∀ bytes op, decode bytes = some op → ∀ o ∈ op.operands,
    o.value ≠ .register .none
  memory_base : ∀ bytes op m, decode bytes = some op → op.legacy = true → op.addressWidth = 64 →
    ∀ o ∈ op.operands, o.value = .memory m → m.base = .none ∨ m.base = .rip ∨ ∃ k, m.base = .gp k 64
  memory_index : ∀ bytes op m, decode bytes = some op → op.legacy = true → op.addressWidth = 64 →
    ∀ o ∈ op.operands, o.value = .memory m → m.index = .none ∨ ∃ k, m.index = .gp k 64
  bt_size : ∀ bytes op k w, decode bytes = some op → op.mnemonic = .bt →
    (op.operands[1]?).map Operand.value = some (.register (.gp k w)) → w = 16 ∨ w = 32 ∨ w = 64
  meaning_kept : ∀ bytes op s k, decode bytes = some op →
    (∀ o ∈ op.operands, o.writesTo k = false) → (meaning op s).gpr k = s.gpr k
  meaning_add : ∀ bytes op s k relative v, decode bytes = some op → op.mnemonic = .named .add →
    (op.operands[0]?).map Operand.value = some (.register (.gp k 64)) →
    (op.operands[1]?).map Operand.value = some (.immediate relative v) →
    (meaning op s).gpr k = s.gpr k + v
  meaning_sub : ∀ bytes op s k relative v, decode bytes = some op → op.mnemonic = .named .sub →
    (op.operands[0]?).map Operand.value = some (.register (.gp k 64)) →
    (op.operands[1]?).map Operand.value = some (.immediate relative v) →
    (meaning op s).gpr k = s.gpr k - v
  meaning_inc : ∀ bytes op s k, decode bytes = some op → op.mnemonic = .named .inc →
    (op.operands[0]?).map Operand.value = some (.register (.gp k 64)) →
    (meaning op s).gpr k = s.gpr k + 1
  meaning_dec : ∀ bytes op s k, decode bytes = some op → op.mnemonic = .named .dec →
    (op.operands[0]?).map Operand.value = some (.register (.gp k 64)) →
    (meaning op s).gpr k = s.gpr k - 1
  meaning_lea : ∀ bytes op s k m, decode bytes = some op → op.mnemonic = .named .lea →
    op.addressWidth = 64 → m.base ≠ .rip →
    (op.operands[0]?).map Operand.value = some (.register (.gp k 64)) →
    (op.operands[1]?).map Operand.value = some (.memory m) →
    (meaning op s).gpr k = m.address s
  cmp_register : ∀ bytes op r, decode bytes = some op → op.mnemonic = .named .cmp →
    ∀ o ∈ op.operands.take 2, o.size = 64 → o.value = .register r → ∃ k, r = .gp k 64
  meaning_cmp : ∀ bytes op s a b, decode bytes = some op → op.mnemonic = .named .cmp →
    (op.operands[0]?).map Operand.value = some (.register (.gp a 64)) →
    (op.operands[1]?).map Operand.value = some (.register (.gp b 64)) →
    (meaning op s).gpr = s.gpr ∧
      Native.X86.carry (meaning op s).flags = decide (s.gpr a < s.gpr b) ∧
      Native.X86.zero (meaning op s).flags = decide (s.gpr a = s.gpr b)

variable (machine : Machine ρ)

/-- The state after some instructions. -/
def Machine.run (ops : List Operation) (s : State ρ) : State ρ :=
  ops.foldl (fun s op => machine.meaning op s) s

/-- The accesses of some instructions. -/
def Machine.accesses : List Operation → State ρ → List (Word × ℕ)
  | [], _ => []
  | op :: ops, s => (op.access s).toList ++ Machine.accesses ops (machine.meaning op s)

/-- The bytes are these instructions. -/
inductive Machine.Decodes : List UInt8 → List Operation → Prop
  | nil : Decodes [] []
  | cons {bytes : List UInt8} {op : Operation} {ops : List Operation} :
    machine.decode bytes = some op → Decodes (bytes.drop op.length) ops → Decodes bytes (op :: ops)

end Meaning

/-! ### Loops that may throw -/

theorem eachFrom_append {α β : Type} (f : β → ℕ → α → Except String β) :
    ∀ (xs ys : List α) (i : ℕ) (b : β), eachFrom f i (xs ++ ys) b =
      (eachFrom f i xs b >>= eachFrom f (i + xs.length) ys)
  | [], ys, i, b => rfl
  | x :: xs, ys, i, b => by
    rw [List.cons_append, eachFrom, eachFrom]
    cases hx : f b i x with
    | error e => rfl
    | ok b' =>
      show eachFrom f (i + 1) (xs ++ ys) b' = (eachFrom f (i + 1) xs b' >>= _)
      rw [eachFrom_append f xs ys (i + 1) b', List.length_cons]
      congr 1
      funext c
      congr 1
      omega

/-! ### The first pass -/

section Decode

variable {ρ : Type} {machine : Machine ρ} {kind : Kind}

/-- A register of a 64-bit address. -/
def Ordinary (r : Register) : Prop := r = .none ∨ ∃ k, r = .gp k 64

/-- The result describes the operand. -/
structure Describes (a : AffineAccess) (m : Mem) (w : ℕ) : Prop where
  base : a.base = m.base
  index : a.index = m.index
  scale : a.scale = m.scale
  width : a.width = w
  lead : a.lead = m.disp
  pos : 0 < w
  base_ordinary : Ordinary m.base
  index_ordinary : Ordinary m.index

/-- The memory operand among some operands. -/
def memoryOf (os : List Operand) : Option (Mem × ℕ) :=
  os.findSome? fun o => match o.value with
    | .memory m => some (m, o.size / 8)
    | _ => none

/-- The operands of an instruction that is not `NOP` or `LEA`: none is in memory, or there is one
and it is described. -/
theorem noteOperands_cases {op : Operation} {n : ℕ} (hop : ¬ (op.mnemonic = .named .nop ∨
      op.mnemonic = .named .lea))
    (hbase : ∀ o ∈ op.operands, ∀ m, o.value = .memory m → op.addressWidth = 64 →
      m.base = .none ∨ m.base = .rip ∨ ∃ k, m.base = .gp k 64)
    (hindex : ∀ o ∈ op.operands, ∀ m, o.value = .memory m → op.addressWidth = 64 →
      Ordinary m.index) :
    ∀ {os : List Operand} {i : ℕ} {s s' : Found}, (∀ o ∈ os, o ∈ op.operands) →
      eachFrom (noteOperand kind op n) i os s = .ok s' →
      (memoryOf os = none ∧ s' = s) ∨
      ∃ m w, memoryOf os = some (m, w) ∧ s.result.width = 0 ∧ s'.accessAt = n ∧
        Describes s'.result m w ∧ s'.result.baseDelta = s.result.baseDelta ∧
        s'.result.indexDelta = s.result.indexDelta
  | [], i, s, s', _, h => by
    cases h
    exact Or.inl ⟨rfl, rfl⟩
  | o :: os, i, s, s', hmem, h => by
    obtain ⟨s₁, h₁, h⟩ := Codec.bind_ok h
    have ih := noteOperands_cases hop hbase hindex
      (fun x hx => hmem x (List.mem_cons_of_mem _ hx)) h
    have hskip : (∀ m, o.value ≠ .memory m) → s₁ = s ∧ memoryOf (o :: os) = memoryOf os := by
      intro hv
      unfold noteOperand at h₁
      unfold memoryOf
      rw [List.findSome?_cons]
      cases ho : o.value with
      | memory m => exact absurd ho (hv m)
      | register | immediate | pointer =>
        rw [ho] at h₁
        cases h₁
        exact ⟨rfl, rfl⟩
    by_cases hv : ∃ m, o.value = .memory m
    swap
    · obtain ⟨rfl, hos⟩ := hskip fun m hm => hv ⟨m, hm⟩
      rw [hos]
      exact ih
    obtain ⟨m, hm⟩ := hv
    have ho : o ∈ op.operands := hmem o List.mem_cons_self
    unfold noteOperand at h₁
    rw [hm] at h₁
    dsimp only at h₁
    rw [if_neg fun hn => hop (Or.inl hn)] at h₁
    split_ifs at h₁ with hrip hlea hbad
    · exact absurd hlea fun hl => hop (Or.inr hl)
    · cases h₁
      have hwidth : 0 < o.size / 8 := by omega
      have hrip' : m.base ≠ .rip := fun hr => hrip (Or.inl hr)
      have haddr : op.addressWidth = 64 := not_not.mp fun hw => hrip (Or.inr hw)
      have hord : Ordinary m.base := (hbase o ho m hm haddr).imp_right fun hr =>
        hr.resolve_left hrip'
      refine Or.inr ⟨m, o.size / 8, ?_, by omega, ?_⟩
      · unfold memoryOf
        rw [List.findSome?_cons, hm]
      · -- a second operand in memory would have been refused
        rcases ih with ⟨-, rfl⟩ | ⟨m', w', -, hzero, -⟩
        · exact ⟨rfl, ⟨rfl, rfl, rfl, rfl, rfl, hwidth, hord, hindex o ho m hm haddr⟩, rfl, rfl⟩
        · exact absurd hzero (Nat.ne_of_gt hwidth)

/-- Where the access is after some instructions. -/
def Located (body : List Operation) (s : Found) : Prop :=
  s.result.baseDelta = 0 ∧ s.result.indexDelta = 0 ∧
  ((s.result.width = 0 ∧ ∀ op ∈ body, op.accessed = none) ∨
    ∃ first op last m w, body = first ++ op :: last ∧ first.length = s.accessAt ∧
      op.accessed = some (m, w) ∧ (∀ x ∈ first, x.accessed = none) ∧
      (∀ x ∈ last, x.accessed = none) ∧ Describes s.result m w)

theorem skipOperands {op : Operation} {n : ℕ}
    (hop : op.mnemonic = .named .nop ∨ op.mnemonic = .named .lea) :
    ∀ {os : List Operand} {i : ℕ} {s s' : Found},
      eachFrom (noteOperand kind op n) i os s = .ok s' → s' = s
  | [], _, _, _, h => by
    cases h
    rfl
  | o :: os, i, s, s', h => by
    obtain ⟨s₁, h₁, h⟩ := Codec.bind_ok h
    have h₁' : s₁ = s := by
      unfold noteOperand at h₁
      cases ho : o.value with
      | memory m =>
        rw [ho] at h₁
        dsimp only at h₁
        split_ifs at h₁ with hn hrip hl
        · cases h₁
          rfl
        · cases h₁
          rfl
        · exact absurd hop (not_or.mpr ⟨hn, hl⟩)
      | register | immediate | pointer =>
        rw [ho] at h₁
        cases h₁
        rfl
    rw [skipOperands hop h, h₁']

/-- **One instruction** of the first pass. -/
theorem Located.snoc {bytes : List UInt8} {op : Operation} {body : List Operation} {s s' : Found}
    (hdec : machine.decode bytes = some op) (hleg : op.legacy = true) (h : Located body s)
    (hs : eachFrom (noteOperand kind op body.length) 0 op.operands s = .ok s') :
    Located (body ++ [op]) s' := by
  obtain ⟨hb, hi, hloc⟩ := h
  -- nothing was found in this instruction
  have hnone : op.accessed = none → s' = s → Located (body ++ [op]) s' := by
    rintro hacc rfl
    refine ⟨hb, hi, ?_⟩
    rcases hloc with ⟨hw, hall⟩ | ⟨first, x, last, m, w, rfl, hlen, hx, hf, hl, hdesc⟩
    · refine Or.inl ⟨hw, fun y hy => ?_⟩
      rcases List.mem_append.mp hy with hy | hy
      · exact hall y hy
      · rw [List.mem_singleton.mp hy, hacc]
    · refine Or.inr ⟨first, x, last ++ [op], m, w, ?_, hlen, hx, hf, fun y hy => ?_, hdesc⟩
      · rw [List.append_assoc, List.cons_append]
      · rcases List.mem_append.mp hy with hy | hy
        · exact hl y hy
        · rw [List.mem_singleton.mp hy, hacc]
  by_cases hop : op.mnemonic = .named .nop ∨ op.mnemonic = .named .lea
  · exact hnone (if_pos hop) (skipOperands hop hs)
  have hacc : op.accessed = memoryOf op.operands := if_neg hop
  rcases noteOperands_cases hop
    (fun o ho m hm ha => machine.memory_base bytes op m hdec hleg ha o ho hm)
    (fun o ho m hm ha => machine.memory_index bytes op m hdec hleg ha o ho hm)
    (fun o ho => ho) hs with
    ⟨hno, he⟩ | ⟨m, w, hm, hzero, hat, hdesc, hb', hi'⟩
  · exact hnone (hacc.trans hno) he
  · refine ⟨hb'.trans hb, hi'.trans hi,
      Or.inr ⟨body, op, [], m, w, rfl, hat.symm, hacc.trans hm, ?_,
      fun x hx => absurd hx List.not_mem_nil, hdesc⟩⟩
    rcases hloc with ⟨-, hall⟩ | ⟨first, x, last, m', w', -, -, -, -, -, hdesc'⟩
    · exact hall
    · exact absurd (hdesc'.width.symm.trans hzero) (Nat.ne_of_gt hdesc'.pos)

/-- **The first pass.** -/
theorem decodeBody_ok :
    ∀ {fuel : ℕ} {bytes : List UInt8} {body body' : List Operation} {s s' : Found},
    bytes.length ≤ fuel → Located body s →
    decodeBody machine.decode kind fuel bytes body s = .ok (body', s') →
    ∃ ops, body' = body ++ ops ∧ machine.Decodes bytes ops ∧ Located body' s'
  | 0, bytes, body, body', s, s', hf, hl, h => by
    cases h
    obtain rfl : bytes = [] := List.eq_nil_of_length_eq_zero (by omega)
    exact ⟨[], (List.append_nil _).symm, .nil, hl⟩
  | fuel + 1, bytes, body, body', s, s', hf, hl, h => by
    rw [decodeBody] at h
    split_ifs at h with hnil
    · cases h
      subst hnil
      exact ⟨[], (List.append_nil _).symm, .nil, hl⟩
    cases hdec : machine.decode bytes with
    | none =>
      rw [hdec] at h
      cases h
    | some op =>
      rw [hdec] at h
      dsimp only at h
      split_ifs at h with hleave
      obtain ⟨s₁, h₁, h⟩ := Codec.bind_ok h
      have hleg : op.legacy = true := by
        cases hl : op.legacy with
        | true => rfl
        | false => exact absurd (by simp [Operation.leaves, hl]) hleave
      obtain ⟨hpos, hle⟩ := machine.decode_length bytes op hdec
      obtain ⟨ops, rfl, hops, hloc⟩ := decodeBody_ok (by rw [List.length_drop]; omega)
        (hl.snoc hdec hleg h₁) h
      exact ⟨op :: ops, by rw [List.append_assoc]; rfl, .cons hdec hops, hloc⟩

end Decode

/-! ### The second pass -/

section Change

variable {ρ : Type} {machine : Machine ρ} {accessAt n : ℕ} {op : Operation} {s s' : Summed}

/-- The operand does not write a register of the address. -/
def Spares (a : AffineAccess) (o : Operand) : Prop :=
  ∀ v, o.value = .register v → o.actions.writes = true → v.largest ≠ a.base ∧ v.largest ≠ a.index

/-- The sums after a register of the address has grown. -/
def Summed.grown (s : Summed) (accessAt n : ℕ) (r : Register) (delta : Word) : Summed where
  result := { s.result with
    baseDelta := if r = s.result.base then s.result.baseDelta + delta else s.result.baseDelta
    indexDelta := if r = s.result.index then s.result.indexDelta + delta else s.result.indexDelta
    lead := if n < accessAt then s.result.lead + delta * s.result.weight r else s.result.lead }
  total := s.total + delta * s.result.weight r

/-- One operand: it spares the address, or it is the first one and its register grows. -/
theorem noteWrite_cases {i : ℕ} {o : Operand} (h : noteWrite accessAt op n s i o = .ok s') :
    (s' = s ∧ Spares s.result o) ∨
      ∃ v delta, i = 0 ∧ o.value = .register v ∧ v = v.largest ∧
        (v = s.result.base ∨ v = s.result.index) ∧ op.delta v = some delta ∧
        s' = s.grown accessAt n v delta := by
  unfold noteWrite at h
  cases ho : o.value with
  | register v =>
    rw [ho] at h
    dsimp only at h
    by_cases hw : (!o.actions.writes) = true
    · rw [if_pos hw] at h
      cases h
      refine Or.inl ⟨rfl, fun v' _ hw' => ?_⟩
      rw [hw'] at hw
      cases hw
    rw [if_neg hw] at h
    by_cases hother : v.largest ≠ s.result.base ∧ v.largest ≠ s.result.index
    · rw [if_pos hother] at h
      cases h
      refine Or.inl ⟨rfl, fun v' hv' _ => ?_⟩
      obtain rfl : v = v' := Value.register.inj (ho.symm.trans hv')
      exact hother
    rw [if_neg hother] at h
    by_cases hpart : v ≠ v.largest ∨ i ≠ 0
    · rw [if_pos hpart] at h
      cases h
    · rw [if_neg hpart] at h
      obtain ⟨hfull, hfirst⟩ := not_or.mp hpart
      have hv : v = v.largest := not_not.mp hfull
      cases hd : op.delta v.largest with
      | none =>
        rw [hd] at h
        cases h
      | some delta =>
        rw [hd] at h
        cases h
        refine Or.inr ⟨v, delta, not_not.mp hfirst, rfl, hv, ?_, hv ▸ hd, ?_⟩
        · rw [← hv] at hother
          tauto
        · rw [← hv]
          rfl
  | memory | immediate | pointer =>
    rw [ho] at h
    cases h
    refine Or.inl ⟨rfl, fun v' hv' _ => ?_⟩
    rw [ho] at hv'
    cases hv'

theorem noteWrites_tail : ∀ {os : List Operand} {i : ℕ} {s s' : Summed},
    eachFrom (noteWrite accessAt op n) (i + 1) os s = .ok s' →
    s' = s ∧ ∀ o ∈ os, Spares s.result o
  | [], _, _, _, h => by
    cases h
    exact ⟨rfl, fun o ho => absurd ho List.not_mem_nil⟩
  | o :: os, i, s, s', h => by
    obtain ⟨s₁, h₁, h₂⟩ := Codec.bind_ok h
    have htail : eachFrom (noteWrite accessAt op n) (i + 1 + 1) os s₁ = .ok s' := h₂
    rcases noteWrite_cases h₁ with ⟨rfl, ho⟩ | ⟨v, delta, h0, -⟩
    · obtain ⟨rfl, hos⟩ := noteWrites_tail htail
      refine ⟨rfl, fun x hx => ?_⟩
      rcases List.mem_cons.mp hx with rfl | hx
      · exact ho
      · exact hos x hx
    · exact absurd h0 (Nat.succ_ne_zero i)

/-- **One instruction**: it spares the address, or it adds to one register of it. -/
theorem noteChange_cases (h : noteChange accessAt s n op = .ok s') :
    (s' = s ∧ ∀ o ∈ op.operands, Spares s.result o) ∨
      ∃ v delta, (op.operands[0]?).map Operand.value = some (.register v) ∧ v = v.largest ∧
        (v = s.result.base ∨ v = s.result.index) ∧ op.delta v = some delta ∧
        s' = s.grown accessAt n v delta ∧
        ∀ o ∈ op.operands.drop 1, Spares s.result o := by
  unfold noteChange at h
  cases hops : op.operands with
  | nil =>
    rw [hops] at h
    cases h
    exact Or.inl ⟨rfl, fun o ho => absurd ho List.not_mem_nil⟩
  | cons o os =>
    rw [hops] at h
    obtain ⟨s₁, h₁, h⟩ := Codec.bind_ok h
    obtain ⟨rfl, hos⟩ := noteWrites_tail h
    rcases noteWrite_cases h₁ with ⟨rfl, ho⟩ | ⟨v, delta, -, hv, hfull, hreg, hd, rfl⟩
    · refine Or.inl ⟨rfl, fun x hx => ?_⟩
      rcases List.mem_cons.mp hx with rfl | hx
      · exact ho
      · exact hos x hx
    · exact Or.inr ⟨v, delta, congrArg some hv, hfull, hreg, hd, rfl, fun x hx => hos x hx⟩

theorem value_kept {bytes : List UInt8} (hdec : machine.decode bytes = some op) (st : State ρ)
    {r : Register} (hr : Ordinary r)
    (hspare : ∀ o ∈ op.operands, ∀ v, o.value = .register v → o.actions.writes = true →
      v.largest ≠ r) : (machine.meaning op st).value r = st.value r := by
  rcases hr with rfl | ⟨k, rfl⟩
  · rfl
  · refine machine.meaning_kept bytes op st k hdec fun o ho => ?_
    unfold Operand.writesTo
    cases hv : o.value with
    | register v =>
      dsimp only
      rw [Bool.and_eq_false_iff]
      by_cases hw : o.actions.writes = true
      · exact Or.inr (decide_eq_false (hspare o ho v hv hw))
      · exact Or.inl (Bool.not_eq_true _ ▸ hw)
    | memory | immediate | pointer => rfl

theorem value_grown {bytes : List UInt8} (hdec : machine.decode bytes = some op) (st : State ρ)
    {k : Fin 16} {delta : Word}
    (hfirst : (op.operands[0]?).map Operand.value = some (.register (.gp k 64)))
    (hd : op.delta (.gp k 64) = some delta) :
    (machine.meaning op st).gpr k = st.gpr k + delta := by
  unfold Operation.delta at hd
  split at hd
  · rename_i relative v hm hv
    cases hd
    exact machine.meaning_add bytes op st k _ _ hdec hm hfirst hv
  · rename_i relative v hm hv
    cases hd
    rw [machine.meaning_sub bytes op st k _ _ hdec hm hfirst hv]
    ring
  · rename_i hm
    cases hd
    exact machine.meaning_inc bytes op st k hdec hm hfirst
  · rename_i hm
    cases hd
    rw [machine.meaning_dec bytes op st k hdec hm hfirst, show BitVec.allOnes 64 =
      (-1 : Word) by decide]
    ring
  · rename_i m hm hv
    split_ifs at hd with hlea
    cases hd
    obtain ⟨hwidth, hbase, hindex⟩ := hlea
    rw [machine.meaning_lea bytes op st k m hdec hm hwidth
      (by rw [hbase]; exact Register.noConfusion)
      hfirst hv]
    unfold Mem.address
    rw [hbase, hindex]
    show st.gpr k + 0 * _ + m.disp = _
    ring
  · cases hd

/-- What the second pass says about some instructions: how the registers of the address move, and
how the sums do. -/
structure Moves (machine : Machine ρ) (ops : List Operation) (s s' : Summed) : Prop where
  base : s'.result.base = s.result.base
  index : s'.result.index = s.result.index
  scale : s'.result.scale = s.result.scale
  width : s'.result.width = s.result.width
  base_value : ∀ st, (machine.run ops st).value s.result.base + s.result.baseDelta =
    st.value s.result.base + s'.result.baseDelta
  index_value : ∀ st, (machine.run ops st).value s.result.index + s.result.indexDelta =
    st.value s.result.index + s'.result.indexDelta
  total : s'.total + (s.result.baseDelta + s.result.indexDelta * BitVec.ofNat 64 s.result.scale) =
    s.total + (s'.result.baseDelta + s'.result.indexDelta * BitVec.ofNat 64 s.result.scale)

theorem Moves.refl (machine : Machine ρ) (s : Summed) : Moves machine [] s s :=
  ⟨rfl, rfl, rfl, rfl, fun _ => rfl, fun _ => rfl, rfl⟩

theorem Moves.trans {xs ys : List Operation} {s₁ s₂ s₃ : Summed} (h : Moves machine xs s₁ s₂)
    (h' : Moves machine ys s₂ s₃) : Moves machine (xs ++ ys) s₁ s₃ := by
  have hrun : ∀ st, machine.run (xs ++ ys) st = machine.run ys (machine.run xs st) := fun st =>
    List.foldl_append
  refine ⟨h'.base.trans h.base, h'.index.trans h.index, h'.scale.trans h.scale,
    h'.width.trans h.width, fun st => ?_, fun st => ?_, ?_⟩
  · have h1 := h.base_value st
    have h2 := h'.base_value (machine.run xs st)
    rw [h.base] at h2
    rw [hrun]
    linear_combination h1 + h2
  · have h1 := h.index_value st
    have h2 := h'.index_value (machine.run xs st)
    rw [h.index] at h2
    rw [hrun]
    linear_combination h1 + h2
  · have h1 := h.total
    have h2 := h'.total
    rw [h.scale] at h2
    linear_combination h1 + h2

/-- **One instruction** moves the registers by what the sums say. -/
theorem noteChange_moves {bytes : List UInt8} (hdec : machine.decode bytes = some op)
    (hb : Ordinary s.result.base) (hi : Ordinary s.result.index)
    (h : noteChange accessAt s n op = .ok s') : Moves machine [op] s s' ∧
      s'.result.lead + (if n < accessAt then s.total else 0) =
        s.result.lead + if n < accessAt then s'.total else 0 := by
  rcases noteChange_cases h with ⟨rfl, hspare⟩ | ⟨v, delta, hfirst, hfull, hreg, hd, rfl, hspare⟩
  · have hkeep : ∀ st r, Ordinary r → (r = s'.result.base ∨ r = s'.result.index) →
        (machine.run [op] st).value r = st.value r := by
      intro st r hr hor
      refine value_kept hdec st hr fun o ho v hv hw he => ?_
      obtain ⟨h1, h2⟩ := hspare o ho v hv hw
      rcases hor with rfl | rfl
      · exact h1 he
      · exact h2 he
    refine ⟨⟨rfl, rfl, rfl, rfl, fun st => ?_, fun st => ?_, rfl⟩, rfl⟩
    · rw [hkeep st _ hb (Or.inl rfl)]
    · rw [hkeep st _ hi (Or.inr rfl)]
  · -- the register that grows is a general one
    have hnone : v ≠ .none := by
      rintro rfl
      obtain ⟨o, ho, hv⟩ := Option.map_eq_some_iff.mp hfirst
      exact machine.operand_register bytes op hdec o (List.mem_of_getElem? ho) hv
    obtain ⟨k, rfl⟩ : ∃ k, v = .gp k 64 := by
      rcases hreg with he | he
      · rw [he] at hnone ⊢
        exact hb.resolve_left hnone
      · rw [he] at hnone ⊢
        exact hi.resolve_left hnone
    have hmove : ∀ st r, Ordinary r → (r = s.result.base ∨ r = s.result.index) →
        (machine.run [op] st).value r = st.value r + if .gp k 64 = r then delta else 0 := by
      intro st r hr hor
      by_cases he : Register.gp k 64 = r
      · subst he
        rw [if_pos rfl]
        exact value_grown hdec st hfirst hd
      · rw [if_neg he, add_zero]
        refine value_kept hdec st hr fun o ho v hv hw hl => ?_
        cases hops : op.operands with
        | nil =>
          rw [hops] at ho
          exact absurd ho List.not_mem_nil
        | cons x xs =>
          rw [hops] at ho hfirst hspare
          rcases List.mem_cons.mp ho with rfl | hx
          · cases hv.symm.trans (Option.some.inj hfirst)
            exact he hl
          · obtain ⟨h1, h2⟩ := hspare o hx v hv hw
            rcases hor with rfl | rfl
            · exact h1 hl
            · exact h2 hl
    refine ⟨⟨rfl, rfl, rfl, rfl, fun st => ?_, fun st => ?_, ?_⟩, ?_⟩
    · rw [hmove st _ hb (Or.inl rfl)]
      unfold Summed.grown
      dsimp only
      split_ifs <;> ring
    · rw [hmove st _ hi (Or.inr rfl)]
      unfold Summed.grown
      dsimp only
      split_ifs <;> ring
    · unfold Summed.grown AffineAccess.weight
      dsimp only
      split_ifs <;> ring
    · unfold Summed.grown
      dsimp only
      split_ifs <;> ring

/-- Instructions that were decoded. -/
def Machine.Known (machine : Machine ρ) (ops : List Operation) : Prop :=
  ∀ op ∈ ops, ∃ bytes, machine.decode bytes = some op

theorem Machine.Decodes.known {bytes : List UInt8} {ops : List Operation}
    (h : machine.Decodes bytes ops) : machine.Known ops := by
  induction h with
  | nil => exact fun op hop => absurd hop List.not_mem_nil
  | cons hdec _ ih =>
    intro op hop
    rcases List.mem_cons.mp hop with rfl | hop
    · exact ⟨_, hdec⟩
    · exact ih op hop

/-- **The second pass**, by induction over the instructions. In front of the access the sums go to
`lead`, behind it they do not. -/
theorem noteChanges_moves : ∀ {ops : List Operation} {i : ℕ} {s s' : Summed}, machine.Known ops →
    Ordinary s.result.base → Ordinary s.result.index →
    eachFrom (noteChange accessAt) i ops s = .ok s' →
    Moves machine ops s s' ∧
      (i + ops.length ≤ accessAt → s'.result.lead + s.total = s.result.lead + s'.total) ∧
      (accessAt ≤ i → s'.result.lead = s.result.lead)
  | [], i, s, s', _, _, _, h => by
    cases h
    exact ⟨Moves.refl machine s, fun _ => rfl, fun _ => rfl⟩
  | op :: ops, i, s, s', hk, hb, hi, h => by
    obtain ⟨s₁, h₁, h₂⟩ := Codec.bind_ok h
    have htail : eachFrom (noteChange accessAt) (i + 1) ops s₁ = .ok s' := h₂
    obtain ⟨bytes, hdec⟩ := hk op List.mem_cons_self
    obtain ⟨hm, hlead⟩ := noteChange_moves hdec hb hi h₁
    obtain ⟨hm', hbefore, hbehind⟩ := noteChanges_moves
      (fun x hx => hk x (List.mem_cons_of_mem _ hx)) (hm.base ▸ hb) (hm.index ▸ hi) htail
    refine ⟨hm.trans hm', fun hle => ?_, fun hle => ?_⟩
    · rw [List.length_cons] at hle
      have h1 := hbefore (by omega)
      rw [if_pos (by omega), if_pos (by omega)] at hlead
      linear_combination h1 + hlead
    · have h1 := hbehind (by omega)
      rw [if_neg (by omega), if_neg (by omega), add_zero, add_zero] at hlead
      exact h1.trans hlead

end Change

/-! ### Iterations -/

section Iterations

variable {ρ : Type} {machine : Machine ρ} {a : AffineAccess} {bytes : List UInt8} {kind : Kind}

/-- The address of the first access of an iteration, from the registers at its start. -/
def AffineAccess.start (a : AffineAccess) (st : State ρ) : Word :=
  st.value a.base + st.value a.index * BitVec.ofNat 64 a.scale + a.lead

/-- What `prove` has found: where the access is, and how an iteration moves its address. -/
structure Proved (machine : Machine ρ) (a : AffineAccess) (first last : List Operation)
    (op : Operation) (m : Mem) : Prop where
  accessed : op.accessed = some (m, a.width)
  before : ∀ x ∈ first, x.accessed = none
  behind : ∀ x ∈ last, x.accessed = none
  address : ∀ st, m.address (machine.run first st) = a.start st
  base : ∀ st, (machine.run (first ++ op :: last) st).value a.base = st.value a.base + a.baseDelta
  index : ∀ st, (machine.run (first ++ op :: last) st).value a.index =
    st.value a.index + a.indexDelta
  total : a.baseDelta + a.indexDelta * BitVec.ofNat 64 a.scale = BitVec.ofNat 64 a.width
  base_ordinary : Ordinary a.base
  index_ordinary : Ordinary a.index

/-- **`prove`** that finds an access. -/
theorem prove_ok (h : prove machine.decode bytes kind = .ok a) (hw : 0 < a.width) :
    ∃ first op last m, machine.Decodes bytes (first ++ op :: last) ∧
      Proved machine a first last op m := by
  unfold prove at h
  obtain ⟨⟨body, s⟩, hbody, h⟩ := Codec.bind_ok h
  dsimp only at h
  obtain ⟨ops, he, hdec, hloc⟩ := (@decodeBody_ok ρ machine kind) le_rfl
    ⟨rfl, rfl, Or.inl ⟨rfl, fun op hop => absurd hop List.not_mem_nil⟩⟩ hbody
  rw [List.nil_append] at he
  subst he
  split_ifs at h with hzero
  · cases h
    exact absurd hzero (Nat.ne_of_gt hw)
  obtain ⟨s', hsum, h⟩ := Codec.bind_ok h
  split_ifs at h with htotal
  cases h
  obtain ⟨hb, hi, hloc⟩ := hloc
  rcases hloc with ⟨h0, -⟩ | ⟨first, op, last, m, w, rfl, hlen, hacc, hfirst, hlast, hdesc⟩
  · exact absurd h0 hzero
  -- the sums in front of the access and behind it
  rw [eachFrom_append] at hsum
  obtain ⟨s₁, hs₁, hs₂⟩ := Codec.bind_ok hsum
  have hknown := hdec.known
  have hord : Ordinary s.result.base := hdesc.base ▸ hdesc.base_ordinary
  have hord' : Ordinary s.result.index := hdesc.index ▸ hdesc.index_ordinary
  obtain ⟨hm₁, hlead₁, -⟩ := noteChanges_moves
    (fun x hx => hknown x (List.mem_append_left _ hx)) (by exact hord) (by exact hord') hs₁
  obtain ⟨hm₂, -, hlead₂⟩ := noteChanges_moves
    (fun x hx => hknown x (List.mem_append_right _ hx)) (by rw [hm₁.base]; exact hord)
    (by rw [hm₁.index]; exact hord') hs₂
  have hm := hm₁.trans hm₂
  have hlead := (hlead₂ (by omega)).trans
    ((add_zero _).symm.trans ((hlead₁ (by omega)).trans (add_comm _ _)))
  have hbase : s'.result.base = m.base := hm.base.trans hdesc.base
  have hindex : s'.result.index = m.index := hm.index.trans hdesc.index
  have hscale : s'.result.scale = m.scale := hm.scale.trans hdesc.scale
  refine ⟨first, op, last, m, hdec, ?_, hfirst, hlast, fun st => ?_, fun st => ?_, fun st => ?_, ?_,
    hbase ▸ hdesc.base_ordinary, hindex ▸ hdesc.index_ordinary⟩
  · rw [hacc, hm.width]
    exact congrArg (fun w => some (m, w)) hdesc.width.symm
  · have h1 := hm₁.base_value st
    have h2 := hm₁.index_value st
    have h3 := hm₁.total
    dsimp only at h1 h2 h3 hlead
    rw [hb, hdesc.base] at h1
    rw [hi, hdesc.index] at h2
    rw [hb, hi, hdesc.scale] at h3
    rw [hdesc.lead] at hlead
    unfold Mem.address AffineAccess.start
    rw [hbase, hindex, hscale]
    linear_combination h1 + h2 * BitVec.ofNat 64 m.scale - h3 - hlead
  · have h1 := hm.base_value st
    dsimp only at h1
    rw [hb, add_zero] at h1
    rw [hm.base]
    exact h1
  · have h1 := hm.index_value st
    dsimp only at h1
    rw [hi, add_zero] at h1
    rw [hm.index]
    exact h1
  · have h1 := hm.total
    dsimp only at h1
    rw [hb, hi] at h1
    rw [← not_not.mp htotal, hm.scale]
    linear_combination -h1

theorem accesses_append (machine : Machine ρ) : ∀ (xs ys : List Operation) (st : State ρ),
    machine.accesses (xs ++ ys) st = machine.accesses xs st ++ machine.accesses ys
      (machine.run xs st)
  | [], _, _ => rfl
  | x :: xs, ys, st => by
    rw [List.cons_append, Machine.accesses, Machine.accesses, accesses_append machine xs ys,
      List.append_assoc]
    rfl

theorem accesses_none (machine : Machine ρ) : ∀ {ops : List Operation} {st : State ρ},
    (∀ x ∈ ops, x.accessed = none) → machine.accesses ops st = []
  | [], _, _ => rfl
  | x :: xs, st, h => by
    have hx : x.access st = none := by
      unfold Operation.access
      rw [h x List.mem_cons_self]
      rfl
    rw [Machine.accesses, hx, accesses_none machine fun y hy => h y (List.mem_cons_of_mem _ hy)]
    rfl

section Proved

variable {first last : List Operation} {op : Operation} {m : Mem}

theorem Proved.accesses (h : Proved machine a first last op m) (st : State ρ) :
    machine.accesses (first ++ op :: last) st =
      [(a.start st + op.bitOffset (machine.run first st), a.width)] := by
  have hop : op.access (machine.run first st) =
      some (a.start st + op.bitOffset (machine.run first st), a.width) := by
    unfold Operation.access
    rw [h.accessed, Option.map_some, h.address]
  rw [accesses_append, accesses_none machine h.before, Machine.accesses, hop,
    accesses_none machine h.behind]
  rfl

/-- **Iterations**: the registers and the address after `k` of them. -/
theorem Proved.iterate (h : Proved machine a first last op m) (st : State ρ) (k : ℕ) :
    ((machine.run (first ++ op :: last))^[k] st).value a.base =
      st.value a.base + BitVec.ofNat 64 k * a.baseDelta ∧
    ((machine.run (first ++ op :: last))^[k] st).value a.index =
      st.value a.index + BitVec.ofNat 64 k * a.indexDelta ∧
    a.start ((machine.run (first ++ op :: last))^[k] st) =
      a.start st + BitVec.ofNat 64 k * BitVec.ofNat 64 a.width := by
  have hk : ∀ n : ℕ, BitVec.ofNat 64 (n + 1) = BitVec.ofNat 64 n + 1 := fun n => BitVec.ofNat_add ..
  have hreg : ∀ n, ((machine.run (first ++ op :: last))^[n] st).value a.base =
      st.value a.base + BitVec.ofNat 64 n * a.baseDelta ∧
      ((machine.run (first ++ op :: last))^[n] st).value a.index =
        st.value a.index + BitVec.ofNat 64 n * a.indexDelta := by
    intro n
    induction n with
    | zero =>
      rw [Function.iterate_zero_apply]
      constructor
      · simp
      · simp
    | succ n ih =>
      rw [Function.iterate_succ_apply', h.base, h.index, ih.1, ih.2, hk]
      constructor
      · ring
      · ring
  refine ⟨(hreg k).1, (hreg k).2, ?_⟩
  unfold AffineAccess.start
  rw [(hreg k).1, (hreg k).2, ← h.total]
  ring

end Proved

/-- When the instruction is `BT` of memory by a register, the bit lies in the operand. -/
def BitsInside (op : Operation) (st : State ρ) : Prop :=
  ∀ k w, op.mnemonic = .bt → (op.operands[1]?).map Operand.value = some (.register (.gp k w)) →
    0 ≤ ((st.gpr k).setWidth w).toInt ∧ ((st.gpr k).setWidth w).toInt < w

theorem ofInt_bit_eq_zero {w : ℕ} (hw : w = 16 ∨ w = 32 ∨ w = 64) (x : BitVec w) :
    BitVec.ofInt 64 (((w / 8 : ℕ) : ℤ) * (x.toInt / (w : ℤ))) = 0 ↔ 0 ≤ x.toInt ∧ x.toInt < w := by
  have hlow := BitVec.le_toInt x
  have hhigh := BitVec.toInt_lt (x := x)
  have hinj : ∀ z : ℤ, -2 ^ 62 ≤ z → z < 2 ^ 62 → (BitVec.ofInt 64 z = 0 ↔ z = 0) := by
    intro z h1 h2
    constructor
    · intro hz
      have := congrArg BitVec.toInt hz
      rwa [BitVec.toInt_ofInt_eq_self (by decide) (by omega) (by omega)] at this
    · rintro rfl
      rfl
  rcases hw with rfl | rfl | rfl
  · rw [hinj _ (by omega) (by omega)]
    omega
  · rw [hinj _ (by omega) (by omega)]
    omega
  · rw [hinj _ (by omega) (by omega)]
    omega

theorem bitOffset_eq_zero {op : Operation} (hdec : machine.decode bytes = some op) (st : State ρ) :
    op.bitOffset st = 0 ↔ BitsInside op st := by
  unfold Operation.bitOffset BitsInside
  split
  · rename_i k w hm hv
    have hw := machine.bt_size bytes op k w hdec hm hv
    rw [ofInt_bit_eq_zero hw]
    constructor
    · intro h k' w' _ hv'
      rw [hv] at hv'
      cases hv'
      exact h
    · exact fun h => h k w hm hv
  · rename_i hno
    exact ⟨fun _ k w hm hv => absurd hv (hno k w hm), fun _ => rfl⟩

/-- No `BT` among the instructions leads away from its operand. -/
def Inside (machine : Machine ρ) (body : List Operation) (st : State ρ) : Prop :=
  ∀ front op back, body = front ++ op :: back → op.accessed ≠ none →
    BitsInside op (machine.run front st)

theorem Proved.inside_iff {first last : List Operation} {op : Operation} {m : Mem}
    (h : Proved machine a first last op m) (hdec : machine.decode bytes = some op) (st : State ρ) :
    Inside machine (first ++ op :: last) st ↔ op.bitOffset (machine.run first st) = 0 := by
  rw [bitOffset_eq_zero hdec]
  constructor
  · intro hin
    refine hin first op last rfl ?_
    rw [h.accessed]
    exact Option.some_ne_none _
  · intro hbits front op' back hsplit hacc
    rcases List.append_eq_append_iff.mp hsplit with ⟨xs, h1, h2⟩ | ⟨xs, h1, h2⟩
    · cases xs with
      | nil =>
        rw [List.nil_append] at h2
        cases h2
        rw [h1, List.append_nil]
        exact hbits
      | cons x xs =>
        rw [List.cons_append] at h2
        cases h2
        exact absurd (h.behind op' (List.mem_append_right _ List.mem_cons_self)) hacc
    · cases xs with
      | nil =>
        rw [List.nil_append] at h2
        cases h2
        rw [List.append_nil] at h1
        rw [← h1]
        exact hbits
      | cons x xs =>
        rw [List.cons_append] at h2
        cases h2
        rw [h1] at h
        exact absurd (h.before op' (List.mem_append_right _ List.mem_cons_self)) hacc

/-- **One iteration** accesses what the proof says exactly when no `BT` leads away. -/
theorem Proved.accesses_iff {first last : List Operation} {op : Operation} {m : Mem}
    (h : Proved machine a first last op m) (hdec : machine.decode bytes = some op) (st : State ρ) :
    machine.accesses (first ++ op :: last) st = [(a.start st, a.width)] ↔
      Inside machine (first ++ op :: last) st := by
  rw [h.inside_iff hdec, h.accesses]
  constructor
  · intro he
    exact add_eq_left.mp (congrArg Prod.fst (List.cons.inj he).1)
  · intro hz
    rw [hz, add_zero]

/-- What the proof is taken for: in every iteration the registers of the address have moved by their
deltas, and there is one access, of the width and at the address that the proof gives. -/
def Holds (machine : Machine ρ) (a : AffineAccess) (body : List Operation) (st : State ρ) : Prop :=
  ∀ k, ((machine.run body)^[k] st).value a.base = st.value a.base +
    BitVec.ofNat 64 k * a.baseDelta ∧
    ((machine.run body)^[k] st).value a.index =
      st.value a.index + BitVec.ofNat 64 k * a.indexDelta ∧
    machine.accesses body ((machine.run body)^[k] st) =
      [(st.value a.base + st.value a.index * BitVec.ofNat 64 a.scale + a.lead +
        BitVec.ofNat 64 k * BitVec.ofNat 64 a.width, a.width)]

/-- **Affine proofs.** For every body that `prove` accepts with an access, and every state at the
start of the first iteration, what the proof is taken for holds exactly when no `BT` of the body
leads away from its operand. -/
theorem prove_affine (machine : Machine ρ) (bytes : List UInt8) (kind : Kind) (a : AffineAccess)
    (h : prove machine.decode bytes kind = .ok a) (hw : 0 < a.width) :
    ∃ body, machine.Decodes bytes body ∧ ∀ st : State ρ, Holds machine a body st ↔
      ∀ k, Inside machine body ((machine.run body)^[k] st) := by
  obtain ⟨first, op, last, m, hdec, hp⟩ := prove_ok h hw
  obtain ⟨b, hop⟩ := hdec.known op (List.mem_append_right _ List.mem_cons_self)
  refine ⟨_, hdec, fun st => ?_⟩
  constructor
  · intro hall k
    have hk := (hall k).2.2
    rw [← hp.accesses_iff hop, (hp.iterate st k).2.2]
    exact hk
  · intro hin k
    obtain ⟨h1, h2, h3⟩ := hp.iterate st k
    have hk := (hp.accesses_iff hop _).mpr (hin k)
    rw [h3] at hk
    exact ⟨h1, h2, hk⟩

end Iterations

/-! ### A few instructions

The laws of `Machine` for the instructions of two small loops over the words from `RDI` to `RSI`. -/

/-- A register that is read, and one that is read and written. -/
def readOperand (k : Fin 16) : Operand := ⟨.register (.gp k 64), 64, ⟨true, false, false, false⟩⟩

@[inherit_doc readOperand]
def updateOperand (k : Fin 16) : Operand := ⟨.register (.gp k 64), 64, ⟨true, true, false, false⟩⟩

/-- The flags as a hidden operand that is written. -/
def flagsOperand : Operand := ⟨.register .flags, 64, ⟨false, true, false, false⟩⟩

/-- `[rdi]`. -/
def wordOperand : Operand :=
  ⟨.memory ⟨.gp 7 64, .none, 0, 0, .other⟩, 64, ⟨true, false, false, false⟩⟩

/-- `bt [rdi], rax`. -/
def btOperation : Operation :=
  ⟨4, true, false, .bt, .other, 0xa3, [wordOperand, readOperand 0, flagsOperand], 2, 64⟩

/-- `mov rax, [rdi]`. -/
def movOperation : Operation :=
  ⟨3, true, false, .named .mov, .other, 0x8b,
    [⟨.register (.gp 0 64), 64, ⟨false, true, false, false⟩⟩, wordOperand], 2, 64⟩

/-- `add rdi, 8`. -/
def addOperation : Operation :=
  ⟨4, true, false, .named .add, .other, 0x83,
    [updateOperand 7, ⟨.immediate false 8, 8, ⟨true, false, false, false⟩⟩, flagsOperand], 2, 64⟩

/-- `cmp rdi, rsi`. -/
def cmpOperation : Operation :=
  ⟨3, true, false, .named .cmp, .other, 0x39, [readOperand 7, readOperand 6, flagsOperand], 2, 64⟩

/-- `jb rel8`. -/
def jbOperation (d : UInt8) : Operation :=
  ⟨2, true, false, .named .other, .condBranch, 0x72,
    [⟨.immediate true (BitVec.ofInt 64 (BitVec.ofNat 8 d.toNat).toInt), 8,
      ⟨true, false, false, false⟩⟩, ⟨.register .rip, 64, ⟨true, true, false, false⟩⟩,
      ⟨.register .flags, 64, ⟨true, false, false, false⟩⟩], 1, 64⟩

/-- The decoder of these instructions. -/
def wordDecode : List UInt8 → Option Operation
  | 0x48 :: 0x0f :: 0xa3 :: 0x07 :: _ => some btOperation
  | 0x48 :: 0x8b :: 0x07 :: _ => some movOperation
  | 0x48 :: 0x83 :: 0xc7 :: 0x08 :: _ => some addOperation
  | 0x48 :: 0x39 :: 0xf7 :: _ => some cmpOperation
  | 0x72 :: d :: _ => some (jbOperation d)
  | _ => none

/-- The word at an address. -/
def wordAt (memory : Word → UInt8) (a : Word) : Word :=
  BitVec.ofNat 64 (Common.leNat ((List.range 8).map fun i => memory (a + BitVec.ofNat 64 i)))

/-- What they do, over a memory. -/
def wordMeaning (op : Operation) (s : State (Word → UInt8)) : State (Word → UInt8) :=
  match op.mnemonic with
  | .bt =>
    let bit := (wordAt s.rest (s.gpr 7 + op.bitOffset s)).getLsbD ((s.gpr 0).toNat % 64)
    { s with flags := if bit then s.flags ||| 1 else s.flags &&& ~~~ 1 }
  | .named .mov => { s with gpr := Function.update s.gpr 0 (wordAt s.rest (s.gpr 7)) }
  | .named .add =>
    { s with
      gpr := Function.update s.gpr 7 (s.gpr 7 + 8)
      flags := Native.X86.tinyIsa.addFlags s.flags (s.gpr 7) 8 }
  | .named .cmp => { s with flags := Native.X86.tinyIsa.subFlags s.flags (s.gpr 7) (s.gpr 6) }
  | _ => s

theorem wordDecode_cases {bytes : List UInt8} {op : Operation} (h : wordDecode bytes = some op) :
    op.length ≤ bytes.length ∧ (∀ more, wordDecode (bytes ++ more) = some op) ∧
      (op = btOperation ∨ op = movOperation ∨ op = addOperation ∨ op = cmpOperation ∨
        ∃ d, op = jbOperation d) := by
  unfold wordDecode at h
  split at h
  · cases h
    exact ⟨by simp [btOperation], fun _ => rfl, Or.inl rfl⟩
  · cases h
    exact ⟨by simp [movOperation], fun _ => rfl, Or.inr (Or.inl rfl)⟩
  · cases h
    exact ⟨by simp [addOperation], fun _ => rfl, Or.inr (Or.inr (Or.inl rfl))⟩
  · cases h
    exact ⟨by simp [cmpOperation], fun _ => rfl, Or.inr (Or.inr (Or.inr (Or.inl rfl)))⟩
  · cases h
    exact ⟨by simp [jbOperation], fun _ => rfl, Or.inr (Or.inr (Or.inr (Or.inr ⟨_, rfl⟩)))⟩
  · cases h

/-- **These instructions** satisfy the laws. -/
def wordMachine : Machine (Word → UInt8) where
  decode := wordDecode
  meaning := wordMeaning
  decode_length bytes op h := by
    obtain ⟨hlen, -, rfl | rfl | rfl | rfl | ⟨d, rfl⟩⟩ := wordDecode_cases h <;>
      exact ⟨Nat.zero_lt_succ _, hlen⟩
  decode_append bytes more op h := (wordDecode_cases h).2.1 more
  operand_register bytes op h o ho := by
    obtain ⟨-, -, rfl | rfl | rfl | rfl | ⟨d, rfl⟩⟩ := wordDecode_cases h <;>
      simp [btOperation, movOperation, addOperation, cmpOperation, jbOperation, readOperand,
        updateOperand, flagsOperand, wordOperand] at ho <;>
      rcases ho with rfl | rfl | rfl <;> simp
  memory_base bytes op m h _ _ o ho hm := by
    obtain ⟨-, -, rfl | rfl | rfl | rfl | ⟨d, rfl⟩⟩ := wordDecode_cases h <;>
      simp [btOperation, movOperation, addOperation, cmpOperation, jbOperation, readOperand,
        updateOperand, flagsOperand, wordOperand] at ho <;>
      rcases ho with rfl | rfl | rfl <;> cases hm <;> exact Or.inr (Or.inr ⟨7, rfl⟩)
  memory_index bytes op m h _ _ o ho hm := by
    obtain ⟨-, -, rfl | rfl | rfl | rfl | ⟨d, rfl⟩⟩ := wordDecode_cases h <;>
      simp [btOperation, movOperation, addOperation, cmpOperation, jbOperation, readOperand,
        updateOperand, flagsOperand, wordOperand] at ho <;>
      rcases ho with rfl | rfl | rfl <;> cases hm <;> exact Or.inl rfl
  bt_size bytes op k w h hm hv := by
    obtain ⟨-, -, rfl | rfl | rfl | rfl | ⟨d, rfl⟩⟩ := wordDecode_cases h <;> cases hm
    cases hv
    exact Or.inr (Or.inr rfl)
  meaning_kept bytes op s k h hk := by
    obtain ⟨-, -, rfl | rfl | rfl | rfl | ⟨d, rfl⟩⟩ := wordDecode_cases h
    · rfl
    · have h0 : k ≠ 0 := by
        rintro rfl
        cases hk _ List.mem_cons_self
      exact Function.update_of_ne h0 _ _
    · have h7 : k ≠ 7 := by
        rintro rfl
        cases hk _ List.mem_cons_self
      exact Function.update_of_ne h7 _ _
    · rfl
    · rfl
  meaning_add bytes op s k relative v h hm h0 h1 := by
    obtain ⟨-, -, rfl | rfl | rfl | rfl | ⟨d, rfl⟩⟩ := wordDecode_cases h <;> cases hm
    cases h0
    cases h1
    show Function.update s.gpr 7 (s.gpr 7 + 8) 7 = s.gpr 7 + 8
    rw [Function.update_self]
  meaning_sub bytes op s k relative v h hm h0 h1 := by
    obtain ⟨-, -, rfl | rfl | rfl | rfl | ⟨d, rfl⟩⟩ := wordDecode_cases h <;> cases hm
  meaning_inc bytes op s k h hm h0 := by
    obtain ⟨-, -, rfl | rfl | rfl | rfl | ⟨d, rfl⟩⟩ := wordDecode_cases h <;> cases hm
  meaning_dec bytes op s k h hm h0 := by
    obtain ⟨-, -, rfl | rfl | rfl | rfl | ⟨d, rfl⟩⟩ := wordDecode_cases h <;> cases hm
  meaning_lea bytes op s k m h hm ha hb h0 h1 := by
    obtain ⟨-, -, rfl | rfl | rfl | rfl | ⟨d, rfl⟩⟩ := wordDecode_cases h <;> cases hm
  cmp_register bytes op r h hm o ho hs hv := by
    obtain ⟨-, -, rfl | rfl | rfl | rfl | ⟨d, rfl⟩⟩ := wordDecode_cases h <;> cases hm
    simp [cmpOperation, readOperand] at ho
    rcases ho with rfl | rfl <;> cases hv <;> exact ⟨_, rfl⟩
  meaning_cmp bytes op s a b h hm h0 h1 := by
    obtain ⟨-, -, rfl | rfl | rfl | rfl | ⟨d, rfl⟩⟩ := wordDecode_cases h <;> cases hm
    cases h0
    cases h1
    exact ⟨rfl, Native.X86.tinyIsa.sub_carry _ _ _, Native.X86.tinyIsa.sub_zero _ _ _⟩

/-- `bt [rdi], rax; add rdi, 8`. -/
def btBody : List UInt8 := [0x48, 0x0f, 0xa3, 0x07, 0x48, 0x83, 0xc7, 0x08]

/-- `RDI` is `0x1000` and `RAX` is 64. -/
def btState : State (Word → UInt8) where
  gpr := Function.update (Function.update (fun _ => 0) 7 0x1000) 0 64
  flags := 0
  rest := fun _ => 0

/-- `prove` accepts the body, and the first access is at `0x1008` instead of `0x1000`. -/
theorem prove_not_affine : ∃ a, prove wordMachine.decode btBody .read = .ok a ∧ 0 < a.width ∧
    ∃ body, wordMachine.Decodes btBody body ∧ ¬ Holds wordMachine a body btState := by
  refine ⟨⟨.gp 7 64, .none, 0, 8, 2, 0, 8, 0⟩, by decide, by decide, [btOperation, addOperation],
    .cons rfl (.cons rfl .nil), fun h => ?_⟩
  have h0 := (h 0).2.2
  revert h0
  decide

/-- `mov rax, [rdi]; add rdi, 8`. -/
def movBody : List UInt8 := [0x48, 0x8b, 0x07, 0x48, 0x83, 0xc7, 0x08]

theorem prove_affine_mov : ∃ a, prove wordMachine.decode movBody .read = .ok a ∧ 0 < a.width ∧
    ∃ body, wordMachine.Decodes movBody body ∧ Holds wordMachine a body btState := by
  have hok : prove wordMachine.decode movBody .read = .ok ⟨.gp 7 64, .none, 0, 8, 2, 0, 8, 0⟩ := by
    decide
  obtain ⟨body, hdec, hiff⟩ := prove_affine wordMachine movBody .read _ hok (by decide)
  refine ⟨_, hok, by decide, body, hdec, (hiff btState).mpr fun n first op last hbody hacc => ?_⟩
  -- no instruction that is decoded from these bytes is `BT`
  have hbody' : body = [movOperation, addOperation] := by
    cases hdec with
    | cons h1 h2 =>
      cases h1
      cases h2 with
      | cons h3 h4 =>
        cases h3
        cases h4 with
        | nil => rfl
        | cons h5 _ => cases h5
  intro k w hbt
  have hop : op ∈ [movOperation, addOperation] := by
    rw [← hbody', hbody]
    exact List.mem_append_right _ List.mem_cons_self
  rcases List.mem_cons.mp hop with rfl | hop
  · cases hbt
  · rw [List.mem_singleton.mp hop] at hbt
    cases hbt

end Afterfree.Loops.Affine
