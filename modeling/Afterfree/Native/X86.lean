import Afterfree.Codec

/-!
# Instructions as the native replay sees them

`x86.hpp` and the parts of an instruction that `NativeReplay` reads from the decoder. The decoder,
the meaning of a permitted instruction and the flags that the arithmetic of the guard code leaves
behind are not part of the repository: they are the fields of `Isa`, with what the compiler relies
on about them.
-/

namespace Afterfree.Native.X86

open Afterfree.Common

/-- Numerals name registers, and lists of registers can be searched. -/
instance registers_ne : NeZero 16 := ⟨by decide⟩

instance registers_lawful : LawfulBEq (Fin 16) := inferInstance

/-- A 64-bit register or address. -/
abbrev Word : Type := BitVec 64

/-- The registers an instruction can change. -/
structure Core where
  gpr : Fin 16 → Word
  xmm : Fin 16 → BitVec 128
  flags : Word
  mxcsr : BitVec 32

/-! ### Decoded instructions -/

/-- `ZydisRegister`, as far as `use` tells them apart: a general register by the number of the
64-bit register that holds it, and whether it is one of `AH`, `CH`, `DH` and `BH`. -/
inductive Register
  | none | rip | flags | mxcsr
  | gp (index : Fin 16) (high : Bool)
  | xmm (index : Fin 16)
  | other
deriving DecidableEq, Repr

/-- Segment registers of an address. -/
inductive SegmentRegister
  | fs | gs | other
deriving DecidableEq, Repr

/-- `ZydisOperandActions`. -/
inductive Action
  | read | write | other
deriving DecidableEq, Repr

/-- A memory operand; `size` is in bits. -/
structure Mem where
  base : Register
  index : Register
  scale : ℕ
  disp : ℤ
  segment : SegmentRegister
  size : ℕ
  action : Action
deriving DecidableEq, Repr

/-- `ZydisDecodedOperand`. -/
inductive Operand
  | register (r : Register)
  | memory (m : Mem)
  | immediate (relative : Bool) (value : ℤ)
  | pointer
deriving DecidableEq, Repr

/-- The mnemonics that the source names. -/
inductive Mnemonic
  | mov | movzx | movsx | movsxd | lea | add | sub | imul | and | or | xor | not | neg | shl | shr
  | sar | rol | ror | cmp | test | inc | dec | adc | sbb | clc | stc | cmc | nop | endbr64 | movd
  | movq | movdqa | movdqu | movaps | movups | movapd | movupd | movsd | movss | pxor | pand | por
  | paddq | paddd | paddw | paddb | psubq | psubd | psubw | psubb | psllq | psrlq | pslld | psrld
  | pshufd | xorps | xorpd | addsd | addss | addpd | addps | subsd | subss | mulsd | mulss | mulpd
  | mulps | cvtsi2sd | cvtsi2ss | ret | jmp | other
deriving DecidableEq, Repr

/-- `permitted`: every mnemonic of the list but the control transfers. -/
def permitted : Mnemonic → Bool
  | .ret | .jmp | .other => false
  | _ => true

/-- The unaligned move that `compile` emits in place of an aligned one. -/
def Mnemonic.unaligned : Mnemonic → Option Mnemonic
  | .movdqa => some .movdqu
  | .movaps => some .movups
  | .movapd => some .movupd
  | _ => none

/-- `ZydisAccessedFlags`. -/
structure FlagMasks where
  tested : BitVec 32
  modified : BitVec 32
  set0 : BitVec 32
  set1 : BitVec 32
deriving DecidableEq, Repr

/-- `ZydisDecodedInstruction` with its operands. `prefixed` is `LOCK`, `REP`, `REPE` or `REPNE`;
`conditional` is the category `COND_BR`; the first `visible` operands are visible. -/
structure Inst where
  length : ℕ
  legacy : Bool
  prefixed : Bool
  mnemonic : Mnemonic
  conditional : Bool
  opcode : ℕ
  operands : List Operand
  visible : ℕ
  addressWidth : ℕ
  cpuFlags : Option FlagMasks
deriving DecidableEq, Repr

namespace Inst

/-- The flags the instruction tests. -/
def tested (i : Inst) : BitVec 32 :=
  match i.cpuFlags with
  | some f => f.tested
  | none => 0

/-- `killed`: the flags the instruction writes whatever its operands are. A shift or a rotation by
zero writes none. -/
def killed (i : Inst) : BitVec 32 :=
  match i.mnemonic with
  | .shl | .shr | .sar | .rol | .ror => 0
  | _ =>
    match i.cpuFlags with
    | some f => f.modified ||| f.set0 ||| f.set1
    | none => 0

/-- The registers in the operands, with those of addresses. Those of a `NOP` do not count. -/
def registers (i : Inst) : List Register :=
  if i.mnemonic = .nop then []
  else i.operands.flatMap fun o => match o with
    | .register r => [r]
    | .memory m => [m.base, m.index]
    | _ => []

/-- The general registers among them. -/
def gprs (i : Inst) : List (Fin 16) :=
  i.registers.filterMap fun r => match r with
    | .gp k _ => some k
    | _ => none

/-- The vector registers among them. -/
def vectors (i : Inst) : List (Fin 16) :=
  i.registers.filterMap fun r => match r with
    | .xmm k => some k
    | _ => none

/-- The memory operand. -/
def memory (i : Inst) : Option Mem :=
  if i.mnemonic = .nop then none
  else i.operands.findSome? fun o => match o with
    | .memory m => some m
    | _ => none

/-- The instruction with `request.mnemonic` replaced. -/
def unaligned (i : Inst) : Inst :=
  match i.mnemonic.unaligned with
  | some m => { i with mnemonic := m }
  | none => i

/-- The processor wants the memory operand aligned: it has 16 bytes, and the instruction is no
unaligned move. -/
def aligned (i : Inst) : Bool :=
  match i.memory with
  | none => false
  | some m =>
    m.size = 128 && i.mnemonic ≠ .lea && i.mnemonic ≠ .movdqu && i.mnemonic ≠ .movups &&
      i.mnemonic ≠ .movupd

end Inst

theorem Inst.memory_gprs {i : Inst} {m : Mem} (hm : i.memory = some m) {k : Fin 16} {high : Bool}
    (hk : m.base = .gp k high ∨ m.index = .gp k high) : k ∈ i.gprs := by
  unfold Inst.memory at hm
  split_ifs at hm with hn
  obtain ⟨o, ho, hmem⟩ := List.exists_of_findSome?_eq_some hm
  have hreg : Register.gp k high ∈ i.registers := by
    rw [Inst.registers, if_neg hn]
    refine List.mem_flatMap.mpr ⟨o, ho, ?_⟩
    cases o with
    | memory m' =>
      obtain rfl := Option.some.inj hmem
      rcases hk with h | h <;> simp [h]
    | register | immediate | pointer => cases hmem
  exact List.mem_filterMap.mpr ⟨_, hreg, rfl⟩

/-! ### Flags and conditions -/

/-- Two flag registers agree on the flags of a mask. -/
def Agree (mask : BitVec 32) (f g : Word) : Prop :=
  ∀ k, mask.getLsbD k = true → f.getLsbD k = g.getLsbD k

theorem Agree.refl (mask : BitVec 32) (f : Word) : Agree mask f f := fun _ _ => rfl

theorem Agree.symm {mask : BitVec 32} {f g : Word} (h : Agree mask f g) : Agree mask g f :=
  fun k hk => (h k hk).symm

theorem Agree.trans {mask : BitVec 32} {f g e : Word} (h : Agree mask f g) (h' : Agree mask g e) :
    Agree mask f e := fun k hk => (h k hk).trans (h' k hk)

theorem Agree.zero (f g : Word) : Agree 0 f g := fun k hk => by simp at hk

theorem Agree.mono {mask mask' : BitVec 32} {f g : Word} (h : Agree mask f g)
    (hm : ∀ k, mask'.getLsbD k = true → mask.getLsbD k = true) : Agree mask' f g :=
  fun k hk => h k (hm k hk)

/-- Carry, parity, zero, sign and overflow. -/
def carry (f : Word) : Bool := f.getLsbD 0

@[inherit_doc carry] def parity (f : Word) : Bool := f.getLsbD 2

@[inherit_doc carry] def zero (f : Word) : Bool := f.getLsbD 6

@[inherit_doc carry] def sign (f : Word) : Bool := f.getLsbD 7

@[inherit_doc carry] def overflow (f : Word) : Bool := f.getLsbD 11

/-- The condition of `Jcc` by the low four bits of its opcode. -/
def condition (code : ℕ) (f : Word) : Bool :=
  match code with
  | 0 => overflow f
  | 1 => !overflow f
  | 2 => carry f
  | 3 => !carry f
  | 4 => zero f
  | 5 => !zero f
  | 6 => carry f || zero f
  | 7 => !(carry f || zero f)
  | 8 => sign f
  | 9 => !sign f
  | 10 => parity f
  | 11 => !parity f
  | 12 => sign f != overflow f
  | 13 => !(sign f != overflow f)
  | 14 => zero f || (sign f != overflow f)
  | _ => !(zero f || (sign f != overflow f))

/-- The flags that arithmetic does not write. -/
def steady (f : Word) : Word := f &&& ~~~ 0x8d5#64

theorem getLsbD_steady (f : Word) {k : ℕ} (hk : (0x8d5#64).getLsbD k = true) :
    (steady f).getLsbD k = false := by
  rw [steady, BitVec.getLsbD_and, BitVec.getLsbD_not, hk]
  simp

theorem steady_or (f : Word) {x : Word} (hx : x &&& ~~~ 0x8d5#64 = 0) :
    steady (steady f ||| x) = steady f := by
  unfold steady
  rw [BitVec.and_comm _ (~~~ 0x8d5#64), BitVec.and_or_distrib_left, BitVec.and_comm _ x, hx]
  ext k
  simp

/-! ### What is given from outside -/

/-- What an instruction gets from its memory operand: `LEA` the address, a load the bytes. -/
inductive Loaded
  | nothing
  | address (a : Word)
  | bytes (b : List UInt8)
deriving DecidableEq, Repr

/-- Two cores agree on the registers of an instruction and on `MXCSR`. -/
structure SameOn (gprs vectors : List (Fin 16)) (c c' : Core) : Prop where
  gpr : ∀ r ∈ gprs, c.gpr r = c'.gpr r
  xmm : ∀ r ∈ vectors, c.xmm r = c'.xmm r
  mxcsr : c.mxcsr = c'.mxcsr

/-- **The instruction set.** `decode` is `ZydisDecoderDecodeFull`; `exec` is the meaning of a
permitted instruction: the core after it and the bytes it stores. `subFlags`, `addFlags` and
`testFlags` are the flags after `CMP` or `SUB`, `ADD` and `TEST` of the guard code, by the flags
before and the operands.

* `exec_gpr`, `exec_xmm`: registers that are no operands are left alone;
* `exec_same`: the operands, `MXCSR` and the tested flags decide the result and the killed flags,
  and a flag that is not killed depends on its old value beside them;
* `exec_stores`: a store has the size of its operand;
* `exec_unaligned`: an unaligned move does what the aligned one does;
* `store_unaligned`: a permitted instruction that stores 16 bytes is a move, so that the code that
  is emitted for it wants no alignment;
* `branch_tested`, `branch_killed`: a conditional jump by flags tests those of its condition, and no
  branch writes a flag;
* `exec_flags`: the flags after an instruction depend on its operands, `MXCSR` and the flags before;
* `sub_flags`, `sub_steady`, `add_steady`: `CMP` and `SUB` write all of their flags by their
  operands, and leave the others alone, as `ADD` does;
* `sub_carry`, `sub_zero`, `add_carry`, `test_zero`: the flags that the guard code branches on. -/
structure Isa where
  decode : List UInt8 → Option Inst
  exec : Inst → Core → Loaded → Core × List UInt8
  subFlags : Word → Word → Word → Word
  addFlags : Word → Word → Word → Word
  testFlags : Word → Word → Word → Word
  exec_gpr : ∀ (i : Inst) (c : Core) (l : Loaded), ∀ r ∉ i.gprs, (exec i c l).1.gpr r = c.gpr r
  exec_xmm : ∀ (i : Inst) (c : Core) (l : Loaded), ∀ r ∉ i.vectors, (exec i c l).1.xmm r = c.xmm r
  exec_same : ∀ (i : Inst) (c c' : Core) (l : Loaded) (live : BitVec 32),
    SameOn i.gprs i.vectors c c' → Agree (i.tested ||| live) c.flags c'.flags →
    SameOn i.gprs i.vectors (exec i c l).1 (exec i c' l).1 ∧
      Agree (i.killed ||| live) (exec i c l).1.flags (exec i c' l).1.flags ∧
      (exec i c l).2 = (exec i c' l).2
  exec_flags : ∀ (i : Inst) (c c' : Core) (l : Loaded), SameOn i.gprs i.vectors c c' →
    c.flags = c'.flags → (exec i c l).1.flags = (exec i c' l).1.flags
  exec_stores : ∀ (i : Inst) (c : Core) (l : Loaded) (m : Mem), i.memory = some m →
    m.action = .write → i.mnemonic ≠ .lea → (exec i c l).2.length = m.size / 8
  exec_unaligned : ∀ (i : Inst) (c : Core) (l : Loaded), exec i.unaligned c l = exec i c l
  store_unaligned : ∀ (i : Inst) (bytes : List UInt8) (m : Mem), decode bytes = some i →
    permitted i.mnemonic = true → i.memory = some m → m.action = .write →
      i.unaligned.aligned = false
  branch_tested : ∀ (i : Inst) (bytes : List UInt8), decode bytes = some i → i.conditional = true →
    (0x70 ≤ i.opcode ∧ i.opcode ≤ 0x7f) ∨ (0x80 ≤ i.opcode ∧ i.opcode ≤ 0x8f) →
    ∀ f g, Agree i.tested f g → condition (i.opcode % 16) f = condition (i.opcode % 16) g
  branch_killed : ∀ (i : Inst) (bytes : List UInt8), decode bytes = some i →
    i.conditional = true ∨ i.mnemonic = .jmp → i.killed = 0
  sub_flags : ∀ f g a b, steady f = steady g → subFlags f a b = subFlags g a b
  sub_steady : ∀ f a b, steady (subFlags f a b) = steady f
  add_steady : ∀ f a b, steady (addFlags f a b) = steady f
  sub_carry : ∀ f a b, carry (subFlags f a b) = decide (a < b)
  sub_zero : ∀ f a b, zero (subFlags f a b) = decide (a = b)
  add_carry : ∀ f a b, carry (addFlags f a b) = decide (2 ^ 64 ≤ a.toNat + b.toNat)
  test_zero : ∀ f a b, zero (testFlags f a b) = decide (a &&& b = 0)

theorem Isa.exec_sameOn (isa : Isa) {gprs vectors : List (Fin 16)} {i : Inst} {c c' : Core}
    {live : BitVec 32} (hg : ∀ r ∈ i.gprs, r ∈ gprs) (hx : ∀ r ∈ i.vectors, r ∈ vectors)
    (l : Loaded) (h : SameOn gprs vectors c c') (hf : Agree (i.tested ||| live) c.flags c'.flags) :
    SameOn gprs vectors (isa.exec i c l).1 (isa.exec i c' l).1 ∧
      Agree (i.killed ||| live) (isa.exec i c l).1.flags (isa.exec i c' l).1.flags ∧
      (isa.exec i c l).2 = (isa.exec i c' l).2 := by
  have hown : SameOn i.gprs i.vectors c c' :=
    ⟨fun r hr => h.gpr r (hg r hr), fun r hr => h.xmm r (hx r hr), h.mxcsr⟩
  obtain ⟨hs, hfl, hout⟩ := isa.exec_same i c c' l live hown hf
  refine ⟨⟨fun r hr => ?_, fun r hr => ?_, hs.mxcsr⟩, hfl, hout⟩
  · by_cases hi : r ∈ i.gprs
    · exact hs.gpr r hi
    · rw [isa.exec_gpr i c l r hi, isa.exec_gpr i c' l r hi]
      exact h.gpr r hr
  · by_cases hi : r ∈ i.vectors
    · exact hs.xmm r hi
    · rw [isa.exec_xmm i c l r hi, isa.exec_xmm i c' l r hi]
      exact h.xmm r hr

/-! ### Addresses -/

/-- The value of a register in an address. -/
def Register.value (r : Register) (c : Core) : Word :=
  match r with
  | .gp k _ => c.gpr k
  | _ => 0

/-- **The address of a memory operand** of an instruction that ends at `next`, as `address` computes
it into the scratch register. -/
def effective (h : Header) (next : ℕ) (lea : Bool) (m : Mem) (c : Core) : Word :=
  if m.base = .rip then BitVec.ofNat 64 next + BitVec.ofInt 64 m.disp
  else if lea = false ∧ m.segment = .fs then BitVec.ofNat 64 h.fsBase + BitVec.ofInt 64 m.disp
  else if lea = false ∧ m.segment = .gs then BitVec.ofNat 64 h.gsBase + BitVec.ofInt 64 m.disp
  else m.base.value c + m.index.value c * BitVec.ofNat 64 m.scale + BitVec.ofInt 64 m.disp

theorem effective_same {h : Header} {next : ℕ} {lea : Bool} {m : Mem} {gprs vectors : List (Fin 16)}
    {c c' : Core} (hs : SameOn gprs vectors c c') (hb : ∀ k high, m.base = .gp k high → k ∈ gprs)
    (hi : ∀ k high, m.index = .gp k high → k ∈ gprs) :
    effective h next lea m c = effective h next lea m c' := by
  have hv : ∀ r : Register, (∀ k high, r = .gp k high → k ∈ gprs) → r.value c = r.value c' := by
    intro r hr
    cases r with
    | gp k high => exact hs.gpr k (hr k high rfl)
    | _ => rfl
  unfold effective
  rw [hv m.base hb, hv m.index hi]

/-! ### A few instructions

The laws of `Isa` for a handful of encodings, with which small recipes can be run. -/

/-- `ret`, `nop`, `mov byte [rdi], imm8`, `pxor xmm0, [rsi]` and `jb rel8`. -/
def tinyDecode (bytes : List UInt8) : Option Inst :=
  if bytes = [0xc3] then some ⟨1, true, false, .ret, false, 0xc3, [], 0, 64, none⟩
  else if bytes = [0x90] then some ⟨1, true, false, .nop, false, 0x90, [], 0, 64, none⟩
  else if bytes = [0x66, 0x0f, 0xef, 0x06] then
    some ⟨4, true, false, .pxor, false, 0xef,
      [.register (.xmm 0), .memory ⟨.gp 6 false, .none, 0, 0, .other, 128, .read⟩], 2, 64, none⟩
  else
    match bytes with
    | [a, b] =>
      if a = 0x72 then
        some ⟨2, true, false, .other, true, 0x72, [.immediate true (BitVec.ofNat 8 b.toNat).toInt],
          1, 64,
          some ⟨1, 0, 0, 0⟩⟩
      else none
    | [a, b, v] =>
      if a = 0xc6 ∧ b = 0x07 then
        some ⟨3, true, false, .mov, false, 0xc6,
          [.memory ⟨.gp 7 false, .none, 0, 0, .other, 8, .write⟩, .immediate false v.toNat], 2, 64,
            none⟩
      else none
    | _ => none

/-- The immediate operand. -/
def immediateOf (i : Inst) : ℕ :=
  (i.operands.findSome? fun o => match o with
    | .immediate _ v => some v.toNat
    | _ => none).getD 0

/-- `pxor` works on its first vector register, a `mov` to memory stores its immediate, and every
instruction clears the flags it writes. -/
def tinyExec (i : Inst) (c : Core) (l : Loaded) : Core × List UInt8 :=
  ({ gpr := c.gpr
     xmm := fun k =>
       match l with
       | .bytes b => if i.mnemonic = .pxor ∧ i.vectors.head? = some k then
           c.xmm k ^^^ BitVec.ofNat 128 (leNat b) else c.xmm k
       | _ => c.xmm k
     flags := c.flags &&& ~~~ i.killed.setWidth 64
     mxcsr := c.mxcsr },
    match i.memory with
    | some m => if m.action = .write ∧ i.mnemonic ≠ .lea then leBytes (m.size / 8) (immediateOf i)
        else []
    | none => [])

theorem tinyExec_unaligned (i : Inst) (c : Core) (l : Loaded) :
    tinyExec i.unaligned c l = tinyExec i c l := by
  have hmove : ∀ m, m = .movdqu ∨ m = .movups ∨ m = .movupd →
      i.mnemonic = .movdqa ∨ i.mnemonic = .movaps ∨ i.mnemonic = .movapd →
      tinyExec { i with mnemonic := m } c l = tinyExec i c l := by
    rintro m (rfl | rfl | rfl) (h | h | h) <;>
      simp [tinyExec, Inst.memory, Inst.vectors, Inst.registers, Inst.killed, immediateOf, h]
  unfold Inst.unaligned
  split
  · next m hm =>
    revert hm
    cases hi : i.mnemonic <;> intro hm <;> cases hm <;> exact hmove _ (by simp) (by simp [hi])
  · rfl

theorem tinyDecode_conditional {bytes : List UInt8} {i : Inst} (h : tinyDecode bytes = some i)
    (hi : i.conditional = true ∨ i.mnemonic = .jmp) :
    i.opcode % 16 = 2 ∧ i.tested = 1 ∧ i.killed = 0 := by
  unfold tinyDecode at h
  split_ifs at h
  · obtain rfl := Option.some.inj h
    simp at hi
  · obtain rfl := Option.some.inj h
    simp at hi
  · obtain rfl := Option.some.inj h
    simp at hi
  · split at h
    · split_ifs at h
      obtain rfl := Option.some.inj h
      simp [Inst.tested, Inst.killed]
    · split_ifs at h
      obtain rfl := Option.some.inj h
      simp at hi
    · cases h

theorem tinyDecode_store {bytes : List UInt8} {i : Inst} {m : Mem} (h : tinyDecode bytes = some i)
    (hm : i.memory = some m) (hw : m.action = .write) : i.unaligned.aligned = false := by
  unfold tinyDecode at h
  split_ifs at h
  · obtain rfl := Option.some.inj h
    cases hm
  · obtain rfl := Option.some.inj h
    cases hm
  · obtain rfl := Option.some.inj h
    cases hm
    cases hw
  · split at h
    · split_ifs at h
      obtain rfl := Option.some.inj h
      cases hm
    · split_ifs at h
      obtain rfl := Option.some.inj h
      rfl
    · cases h

/-- **These instructions** satisfy the laws. -/
def tinyIsa : Isa where
  decode := tinyDecode
  exec := tinyExec
  subFlags f a b := steady f ||| (if a < b then 1 else 0) ||| (if a = b then 64 else 0)
  addFlags f a b := steady f ||| if 2 ^ 64 ≤ a.toNat + b.toNat then 1 else 0
  testFlags _ a b := if a &&& b = 0 then 64 else 0
  exec_gpr _ _ _ _ _ := rfl
  exec_xmm i c l k hk := by
    cases l with
    | bytes b =>
      have hne : ¬ (i.mnemonic = .pxor ∧ i.vectors.head? = some k) := fun hc =>
        hk (List.mem_of_mem_head? (by rw [hc.2]; rfl))
      simp only [tinyExec, if_neg hne]
    | nothing | address => rfl
  exec_same i c c' l live hs hf := by
    refine ⟨⟨hs.gpr, fun k hk => ?_, hs.mxcsr⟩, fun k hk => ?_, rfl⟩
    · cases l with
      | bytes b => simp only [tinyExec, hs.xmm k hk]
      | nothing | address => exact hs.xmm k hk
    · have hlt : k < 32 := by
        by_contra hc
        rw [BitVec.getLsbD_of_ge _ _ (by omega)] at hk
        cases hk
      simp only [tinyExec, BitVec.getLsbD_and, BitVec.getLsbD_not, BitVec.getLsbD_setWidth]
      cases hkill : i.killed.getLsbD k with
      | true => simp [show k < 64 by omega]
      | false =>
        rw [BitVec.getLsbD_or, hkill, Bool.false_or] at hk
        rw [hf k (by rw [BitVec.getLsbD_or, hk, Bool.or_true])]
  exec_flags i c c' l _ hf := by simp only [tinyExec, hf]
  exec_stores i c l m hm hw hl := by
    simp only [tinyExec, hm, hw, hl, ne_eq, not_false_eq_true, and_self, if_true, leBytes_length]
  exec_unaligned := tinyExec_unaligned
  store_unaligned _ _ _ h _ hm hw := tinyDecode_store h hm hw
  branch_tested i bytes h hi _ f g hfg := by
    obtain ⟨hop, ht, -⟩ := tinyDecode_conditional h (.inl hi)
    rw [ht] at hfg
    rw [hop]
    exact hfg 0 (by decide)
  branch_killed i bytes h hi := (tinyDecode_conditional h hi).2.2
  sub_flags f g a b h := by rw [h]
  sub_steady f a b := by
    rw [BitVec.or_assoc]
    refine steady_or f ?_
    by_cases h1 : a < b
    · rw [if_pos h1, if_neg (BitVec.ne_of_lt h1)]
      rfl
    · rw [if_neg h1]
      by_cases h2 : a = b
      · rw [if_pos h2]
        rfl
      · rw [if_neg h2]
        rfl
  add_steady f a b := by
    refine steady_or f ?_
    by_cases h1 : 2 ^ 64 ≤ a.toNat + b.toNat
    · rw [if_pos h1]
      rfl
    · rw [if_neg h1]
      rfl
  sub_carry f a b := by
    have h0 := getLsbD_steady f (k := 0) (by decide)
    rw [carry, BitVec.getLsbD_or, BitVec.getLsbD_or, h0]
    by_cases h1 : a < b
    · simp [h1, BitVec.ne_of_lt h1]
    · by_cases h2 : a = b <;> simp [h1, h2]
  sub_zero f a b := by
    have h0 := getLsbD_steady f (k := 6) (by decide)
    rw [zero, BitVec.getLsbD_or, BitVec.getLsbD_or, h0]
    by_cases h1 : a < b
    · simp [h1, BitVec.ne_of_lt h1]
    · by_cases h2 : a = b <;> simp [h1, h2]
  add_carry f a b := by
    have h0 := getLsbD_steady f (k := 0) (by decide)
    rw [carry, BitVec.getLsbD_or, h0]
    by_cases h1 : 2 ^ 64 ≤ a.toNat + b.toNat
    · rw [if_pos h1, decide_eq_true h1]
      rfl
    · rw [if_neg h1, decide_eq_false h1]
      rfl
  test_zero f a b := by
    by_cases h1 : a &&& b = 0
    · rw [if_pos h1, decide_eq_true h1]
      rfl
    · rw [if_neg h1, decide_eq_false h1]
      rfl

end Afterfree.Native.X86
