import Afterfree.Lib.Fixpoint
import Afterfree.Native.X86
import Afterfree.Encoding

/-!
# The decoder of the native replay

`NativeReplay::decode` of `native_replay.hpp` with `read_snapshot` and `rip_jump_slot` of
`common.hpp`: the limits of the subset, the checks on each instruction, the block starts, the closed
control-flow graph, the flags that are live before each instruction and the registers left over for
the guard code. Sums of addresses are natural numbers where `decode` of `common.hpp` has bounded
them; the targets of jumps wrap.

* `decode_admitted`: what every plan that `decode` returns satisfies.
-/

namespace Afterfree.Native.Decode

open Afterfree.Common Afterfree.Codec Afterfree.Encoding Afterfree.Native.X86 Afterfree.Lib

/-! ### Snapshots -/

/-- The segment holds the byte at an address. -/
def holds (a : ℕ) (s : Segment) : Bool := s.address ≤ a && a - s.address < s.bytes.length

/-- The loop of `read_snapshot`: it copies what the first segment with the address has from there
on. `some none` is `return false`; `none` is a loop that is still running when the fuel is used up.
-/
def readSnapshotLoop (inputs : List Segment) : ℕ → ℕ → ℕ → Option (Option (List UInt8))
  | _, _, 0 => some (some [])
  | 0, _, _ + 1 => none
  | fuel + 1, address, size + 1 =>
    match inputs.find? (holds address) with
    | none => some none
    | some found =>
      let offset := address - found.address
      let count := min (size + 1) (found.bytes.length - offset)
      (readSnapshotLoop inputs fuel (address + count) (size + 1 - count)).map
        (Option.map ((found.bytes.drop offset).take count ++ ·))

/-- `read_snapshot`. -/
def readSnapshot (r : Recipe) (address size : ℕ) : Option (List UInt8) :=
  if UINT64_MAX - size < address then none else (readSnapshotLoop r.inputs size address size).join

/-- The signed number of four little-endian bytes. -/
def int32 (bytes : List UInt8) : ℤ := (BitVec.ofNat 32 (leNat bytes)).toInt

/-- `rip_jump_slot`. -/
def ripJumpSlot (c : Instruction) : Option ℕ :=
  if c.size ≠ 6 ∨ c.bytes.getD 0 0 ≠ 0xff ∨ c.bytes.getD 1 0 ≠ 0x25 then none
  else
    let slot := (BitVec.ofNat 64 (c.address + c.size) +
      BitVec.ofInt 64 (int32 ((c.bytes.drop 2).take 4))).toNat
    if slot ≤ UINT64_MAX - 8 then some slot else none

/-! ### One instruction -/

/-- `struct Decoded`; `flags_in` is kept apart. -/
structure Decoded where
  source : Instruction
  inst : Inst
  target : ℕ
  memory : Option Mem
  condition : Option ℕ
  branch : Bool
  returns : Bool
deriving DecidableEq, Repr

namespace Decoded

/-- The address of the instruction, its key in the map. -/
def pc (d : Decoded) : ℕ := d.source.address

/-- The address after it. -/
def next (d : Decoded) : ℕ := d.source.address + d.source.size

/-- Control can go on at the next address. -/
def falls (d : Decoded) : Bool := !d.returns && (!d.branch || d.condition.isSome)

/-- The instruction ends a block. -/
def ends (d : Decoded) : Bool := d.branch || d.returns

end Decoded

/-- `used_gp` and `used_xmm`. -/
structure Used where
  gp : List (Fin 16)
  xmm : List (Fin 16)
deriving DecidableEq, Repr

/-- `use`. -/
def use (u : Used) : Register → Except String Used
  | .none | .rip | .flags | .mxcsr => .ok u
  | .gp k high =>
    if k = 4 ∨ high = true then .error "native replay requires a stack-free body"
    else .ok { u with gp := u.gp.insert k }
  | .xmm k => .ok { u with xmm := u.xmm.insert k }
  | .other => .error "unsupported native register state"

/-- The checks on operand number `k` of an instruction. -/
def operand (i : Inst) (k : ℕ) (o : Operand) (u : Used) (memory : Option Mem) :
    Except String (Used × Option Mem) :=
  match o with
  | .register r => do
    let u ← use u r
    .ok (u, memory)
  | .memory m =>
    if i.visible ≤ k ∨ memory.isSome ∨ i.addressWidth ≠ 64 ∨ m.size = 0 ∨ 128 < m.size ∨
        m.size % 8 ≠ 0 then .error "unsupported native memory operand"
    else do
      let u ← use u m.base
      let u ← use u m.index
      if (m.segment = .fs ∨ m.segment = .gs) ∧ (m.base ≠ .none ∨ m.index ≠ .none) then
        .error "unsupported native TLS addressing"
      else if i.mnemonic ≠ .lea ∧ m.action ≠ .read ∧ m.action ≠ .write then
        .error "native replay requires pure loads or stores"
      else .ok (u, some m)
  | _ => .ok (u, memory)

/-- All operands, the first of them having number `k`. -/
def operands (i : Inst) : ℕ → List Operand → Used → Option Mem → Except String (Used × Option Mem)
  | _, [], u, memory => .ok (u, memory)
  | k, o :: os, u, memory => do
    let x ← operand i k o u memory
    operands i (k + 1) os x.1 x.2

/-- The two spans share a byte. -/
def overlap (a n b m : ℕ) : Bool := a < b + m && b < a + n

/-- The target of a branch. -/
def branchTarget (r : Recipe) (c : Instruction) (i : Inst) : Except String ℕ :=
  match (if i.mnemonic = .jmp then ripJumpSlot c else none) with
  | some slot =>
    if overlap slot 8 r.h.output (rounded r.h.length) then
      .error "native control flow depends on mutable output"
    else if r.code.any fun other => overlap slot 8 other.address other.size then
      .error "native control input overlaps code"
    else
      match readSnapshot r slot 8 with
      | none => .error "native jump reads a missing input byte"
      | some bytes => .ok (leNat bytes)
  | none =>
    match i.visible, i.operands with
    | 1, .immediate true v :: _ =>
      .ok (BitVec.ofNat 64 (c.address + c.size) + BitVec.ofInt 64 v).toNat
    | _, _ => .error "native replay requires bounded control flow"

/-- The condition of a branch. -/
def branchCondition (i : Inst) : Except String (Option ℕ) :=
  if i.conditional then
    if (0x70 ≤ i.opcode ∧ i.opcode ≤ 0x7f) ∨ (0x80 ≤ i.opcode ∧ i.opcode ≤ 0x8f) then
      .ok (some (i.opcode % 16))
    else .error "unsupported native branch condition"
  else .ok none

/-- One turn of the loop over `recipe.code`. -/
def decodeOne (isa : Isa) (r : Recipe) (u : Used) (c : Instruction) :
    Except String (Decoded × Used) :=
  if overlap c.address c.size r.h.output (rounded r.h.length) then
    .error "output overlaps native code"
  else
    match isa.decode (c.bytes.take c.size) with
    | none => .error "unsupported native instruction encoding"
    | some i =>
      if i.length ≠ c.size ∨ i.legacy = false ∨ i.prefixed = true then
        .error "unsupported native instruction encoding"
      else do
        let returns := decide (i.mnemonic = .ret ∧ c.size = 1 ∧ c.bytes.getD 0 0 = 0xc3)
        let branch := decide (i.conditional = true ∨ i.mnemonic = .jmp)
        let target ← (if branch then branchTarget r c i else .ok 0)
        let condition ← (if branch then branchCondition i else .ok none)
        if branch = false ∧ returns = false ∧ permitted i.mnemonic = false then
          .error "instruction outside native replay subset"
        else
          let x ← (if returns = false ∧ i.mnemonic ≠ .nop then operands i 0 i.operands u none
            else .ok (u, none))
          .ok (⟨c, i, target, x.2, condition, branch, returns⟩, x.1)

/-- The loop over `recipe.code`. -/
def decodeAll (isa : Isa) (r : Recipe) :
    List Instruction → Used → Except String (List Decoded × Used)
  | [], u => .ok ([], u)
  | c :: cs, u => do
    let x ← decodeOne isa r u c
    let y ← decodeAll isa r cs x.2
    .ok (x.1 :: y.1, y.2)

/-! ### The control-flow graph -/

/-- `instructions.emplace`: the map in the order of its keys. -/
def emplace (d : Decoded) : List Decoded → List Decoded
  | [] => [d]
  | x :: xs =>
    if d.pc < x.pc then d :: x :: xs else if d.pc = x.pc then x :: xs else x :: emplace d xs

/-- `instructions.find`. -/
def find (ds : List Decoded) (pc : ℕ) : Option Decoded := ds.find? fun d => d.pc = pc

/-- `instructions.count`. -/
def present (ds : List Decoded) (pc : ℕ) : Bool := (find ds pc).isSome

/-- `block_starts`. -/
def blockStarts (r : Recipe) (ds : List Decoded) : List ℕ :=
  r.h.entry :: (ds.filter Decoded.branch).flatMap fun d => [d.target, d.next]

/-- The check of one node of the graph. -/
def openEnd (ds : List Decoded) (d : Decoded) : Option String :=
  if d.branch && !present ds d.target then some "native branch target was not observed"
  else if d.falls && !present ds d.next then some "native control-flow graph is incomplete"
  else none

/-! ### Live flags -/

/-- The flags before each instruction, by its address: `flags_in`. -/
abbrev Flags : Type := ℕ → BitVec 32

/-- `live`: the flags that a successor of the instruction needs. -/
def live (f : Flags) (d : Decoded) : BitVec 32 :=
  (if d.branch then f d.target else 0) ||| (if d.falls then f d.next else 0)

/-- `needed`. -/
def needed (ds : List Decoded) (f : Flags) (pc : ℕ) : BitVec 32 :=
  match find ds pc with
  | some d => d.inst.tested ||| (live f d &&& ~~~ d.inst.killed)
  | none => 0

/-- The `do`/`while` loop: sweeps from the last instruction to the first. -/
def livenessLoop (ds : List Decoded) (sweeps : ℕ) : Option Flags :=
  Fixpoint.iterate (needed ds) (ds.reverse.map Decoded.pc) sweeps fun _ => 0

/-- Its result; `Liveness` shows that it ends within these sweeps. -/
def liveness (ds : List Decoded) : Flags := (livenessLoop ds (32 * ds.length + 1)).getD fun _ => 0

/-! ### Registers for the guard code -/

/-- The 64-bit fields of `State` that the generated code reads and writes. -/
inductive Field
  | entry | cursor | stop | limit | delta | remaining | nextPage | nextFrame | trigger | collecting
  | validating | error
deriving DecidableEq, Repr

/-- The registers that can be left over, in the order they are tried. -/
def pool : List (Fin 16) := [15, 14, 13, 12, 11, 10, 9, 8, 3, 5, 6, 7, 2, 1]

/-- The fields that are kept in registers, as far as there are any. `stop` is `State::end`. -/
def hotFields : List Field := [.cursor, .remaining, .limit, .delta, .trigger, .nextPage, .stop]

/-- **The registers of the guard code**: none of them is one of the guest's, and no two are the
same. -/
structure Allocation where
  used : List (Fin 16)
  context : Fin 16
  scratch : Fin 16
  hot : List (Field × Fin 16)
  context_free : context ∉ used
  scratch_free : scratch ∉ used
  scratch_ne : scratch ≠ context
  hot_free : ∀ x ∈ hot, x.2 ∉ used ∧ x.2 ≠ context ∧ x.2 ≠ scratch
  hot_fields : (hot.map Prod.fst).Nodup
  hot_registers : (hot.map Prod.snd).Nodup

theorem map_fst_zip_sublist {α β : Type} : ∀ (as : List α) (bs : List β),
    ((as.zip bs).map Prod.fst).Sublist as
  | [], _ => by simp
  | _ :: _, [] => by simp
  | a :: as, _ :: bs => (map_fst_zip_sublist as bs).cons_cons a

theorem map_snd_zip_sublist {α β : Type} : ∀ (as : List α) (bs : List β),
    ((as.zip bs).map Prod.snd).Sublist bs
  | [], _ => by simp
  | _ :: _, [] => by simp
  | _ :: as, b :: bs => (map_snd_zip_sublist as bs).cons_cons b

/-- What is left of the pool gives the context register, the scratch register and then one register
for each field, when the register cache is on. -/
def allocate (cache : Bool) (used : List (Fin 16)) : Option Allocation :=
  match h : pool.filter fun p => p ∉ used with
  | context :: scratch :: rest =>
    have hn : (context :: scratch :: rest).Nodup := h ▸ List.Nodup.filter _ (by decide)
    have hfree : ∀ x ∈ context :: scratch :: rest, x ∉ used := fun x hx => by
      rw [← h] at hx
      simpa using (List.mem_filter.mp hx).2
    have hzip : ∀ x ∈ hotFields.zip rest, x.2 ∈ rest := fun x hx => (List.of_mem_zip hx).2
    some
      { used, context, scratch
        hot := if cache then hotFields.zip rest else []
        context_free := hfree _ (by simp)
        scratch_free := hfree _ (by simp)
        scratch_ne := by
          rintro rfl
          simp at hn
        hot_free := by
          intro x hx
          cases cache with
          | false => simp at hx
          | true =>
            have hr := hzip x (by simpa using hx)
            refine ⟨hfree _ (by simp [hr]), ?_, ?_⟩
            · rintro rfl
              simp [hr] at hn
            · rintro rfl
              simp [hr] at hn
        hot_fields := by
          cases cache with
          | false => simp
          | true =>
            have hfields : hotFields.Nodup := by decide
            simpa using (map_fst_zip_sublist hotFields rest).nodup hfields
        hot_registers := by
          cases cache with
          | false => simp
          | true =>
            have hrest : rest.Nodup := (List.nodup_cons.mp (List.nodup_cons.mp hn).2).2
            simpa using (map_snd_zip_sublist hotFields rest).nodup hrest }
  | _ => none

/-! ### The whole decoder -/

/-- The members of a `NativeReplay` that `decode` fills in. -/
structure Plan where
  recipe : Recipe
  instructions : List Decoded
  starts : List ℕ
  flagsIn : Flags
  registers : Allocation
  vectors : List (Fin 16)

/-- The first check of `decode`: bits 8, 14 and 18 of the flags are trap, nested task and alignment
check. -/
def subsetExceeded (r : Recipe) : Bool :=
  4096 < r.code.length || 128 < r.inputs.length || r.h.mxcsr &&& 0x1f80 ≠ 0x1f80 ||
    r.h.regs.getD 17 0 &&& (2 ^ 8 ||| 2 ^ 14 ||| 2 ^ 18) ≠ 0

/-- `NativeReplay::decode`. -/
def decode (isa : Isa) (cache : Bool) (r : Recipe) : Except String Plan :=
  if subsetExceeded r then .error "native replay subset exceeded"
  else
    match readSnapshot r (r.h.regs.getD 15 0) 8 with
    | none => .error "native return reads a missing input byte"
    | some returned =>
      if leNat returned ≠ r.h.stop then .error "native return address diverged"
      else do
        let x ← decodeAll isa r r.code ⟨[], []⟩
        let ds := x.1.foldl (fun m d => emplace d m) []
        if present ds r.h.entry = false then .error "native entry was not observed"
        else
          match ds.findSome? (openEnd ds) with
          | some message => .error message
          | none =>
            match allocate cache (x.2.gp.insert 0) with
            | none => .error "no scratch registers for checked native replay"
            | some registers =>
              .ok
                { recipe := r
                  instructions := ds
                  starts := blockStarts r ds
                  flagsIn := liveness ds
                  registers
                  vectors := (List.finRange 16).filter (· ∈ x.2.xmm) }

/-! ### What a snapshot reads -/

/-- The byte of the inputs at an address. -/
def snapshot (inputs : List Segment) (a : ℕ) : Option UInt8 :=
  (inputs.find? (holds a)).bind fun s => s.bytes[a - s.address]?

theorem holds_iff {a : ℕ} {s : Segment} :
    holds a s = true ↔ s.address ≤ a ∧ a < s.address + s.bytes.length := by
  unfold holds
  simp only [Bool.and_eq_true, decide_eq_true_eq]
  omega

theorem find_holds {inputs : List Segment}
    (hs : inputs.Pairwise fun a b => a.address + a.bytes.length ≤ b.address) {s : Segment} {a : ℕ}
    (hm : s ∈ inputs) (ha : holds a s = true) : inputs.find? (holds a) = some s := by
  induction inputs with
  | nil => cases hm
  | cons x xs ih =>
    rw [List.pairwise_cons] at hs
    rcases List.mem_cons.mp hm with rfl | hm
    · rw [List.find?_cons_of_pos ha]
    · have hx : ¬ holds a x = true := fun hc => by
        have := hs.1 s hm
        rw [holds_iff] at hc ha
        omega
      rw [List.find?_cons_of_neg hx]
      exact ih hs.2 hm

theorem snapshot_of_mem {inputs : List Segment}
    (hs : inputs.Pairwise fun a b => a.address + a.bytes.length ≤ b.address) {s : Segment} {j : ℕ}
    (hm : s ∈ inputs) (hj : j < s.bytes.length) :
    snapshot inputs (s.address + j) = s.bytes[j]? := by
  have hh : holds (s.address + j) s = true := holds_iff.mpr (by omega)
  rw [snapshot, find_holds hs hm hh, Option.bind_some, Nat.add_sub_cancel_left]

/-- **The loop of `read_snapshot`** copies the bytes of the inputs. -/
theorem readSnapshotLoop_spec {inputs : List Segment}
    (hs : inputs.Pairwise fun a b => a.address + a.bytes.length ≤ b.address) :
    ∀ {fuel address size : ℕ} {bytes : List UInt8},
      readSnapshotLoop inputs fuel address size = some (some bytes) →
      bytes.length = size ∧ ∀ i < size, bytes[i]? = snapshot inputs (address + i)
  | fuel, _, 0, bytes, h => by
    cases fuel <;> cases h <;> exact ⟨rfl, by simp⟩
  | 0, _, _ + 1, _, h => by cases h
  | fuel + 1, address, size + 1, bytes, h => by
    rw [readSnapshotLoop] at h
    cases hf : inputs.find? (holds address) with
    | none => rw [hf] at h; cases h
    | some s =>
      rw [hf] at h
      have hmem := List.mem_of_find?_eq_some hf
      have hh := holds_iff.mp (List.find?_some hf)
      simp only [Option.map_eq_some_iff] at h
      obtain ⟨_, hrest, rest, rfl, rfl⟩ := h
      obtain ⟨hlen, hbytes⟩ := readSnapshotLoop_spec hs hrest
      generalize hcount : min (size + 1) (s.bytes.length - (address - s.address)) = count at *
      have hhead : ((s.bytes.drop (address - s.address)).take count).length = count := by
        rw [List.length_take, List.length_drop]
        omega
      refine ⟨by rw [List.length_append, hhead, hlen]; omega, fun i hi => ?_⟩
      by_cases hic : i < count
      · have hat : address + i = s.address + (address - s.address + i) := by omega
        rw [List.getElem?_append_left (by omega), List.getElem?_take_of_lt hic, List.getElem?_drop,
          hat, snapshot_of_mem hs hmem (by omega)]
      · rw [List.getElem?_append_right (by omega), hhead, hbytes (i - count) (by omega)]
        congr 1
        omega

/-- **`read_snapshot`** of a well-formed recipe. -/
theorem readSnapshot_spec {r : Recipe} (hw : WellFormed r) {address size : ℕ} {bytes : List UInt8}
    (h : readSnapshot r address size = some bytes) :
    address + size ≤ UINT64_MAX ∧ bytes.length = size ∧
      ∀ i < size, bytes[i]? = snapshot r.inputs (address + i) := by
  unfold readSnapshot at h
  split_ifs at h with hc
  obtain ⟨hlen, hbytes⟩ := readSnapshotLoop_spec hw.inputs_sorted (Option.join_eq_some_iff.mp h)
  by_cases hsize : size ≤ UINT64_MAX
  · exact ⟨by omega, hlen, hbytes⟩
  · refine ⟨?_, hlen, hbytes⟩
    -- such a size reads a byte beyond the last one of the address space
    have hb := hbytes (size - 1) (by omega)
    rw [List.getElem?_eq_getElem (by omega)] at hb
    obtain ⟨s, hf, -⟩ := Option.bind_eq_some_iff.mp hb.symm
    have hh := holds_iff.mp (List.find?_some hf)
    have := (hw.inputs s (List.mem_of_find?_eq_some hf)).fits
    omega

/-! ### What `decode` accepts -/

/-- More registers are in use, and the stack pointer still is not. -/
structure Extends (u u' : Used) : Prop where
  gp : ∀ k ∈ u.gp, k ∈ u'.gp
  xmm : ∀ k ∈ u.xmm, k ∈ u'.xmm
  stack : (4 : Fin 16) ∉ u.gp → (4 : Fin 16) ∉ u'.gp

theorem Extends.refl (u : Used) : Extends u u := ⟨fun _ h => h, fun _ h => h, fun h => h⟩

theorem Extends.trans {u v w : Used} (h : Extends u v) (h' : Extends v w) : Extends u w :=
  ⟨fun k hk => h'.gp k (h.gp k hk), fun k hk => h'.xmm k (h.xmm k hk),
    fun h4 => h'.stack (h.stack h4)⟩

/-- A register is in use. -/
def InUse (u : Used) (r : Register) : Prop :=
  (∀ k high, r = .gp k high → k ∈ u.gp) ∧ ∀ k, r = .xmm k → k ∈ u.xmm

theorem InUse.mono {u u' : Used} {r : Register} (h : InUse u r) (he : Extends u u') : InUse u' r :=
  ⟨fun k high hr => he.gp k (h.1 k high hr), fun k hr => he.xmm k (h.2 k hr)⟩

theorem use_ok {u u' : Used} {r : Register} (h : use u r = .ok u') : Extends u u' ∧ InUse u' r := by
  cases r with
  | gp k high =>
    rw [use] at h
    split_ifs at h with hc
    obtain rfl := Except.ok.inj h
    have hk : ¬ 4 = k := fun e => hc (.inl e.symm)
    refine ⟨⟨fun j hj => List.mem_insert_of_mem hj, fun j hj => hj, fun h4 => ?_⟩, ?_, ?_⟩
    · simp [List.mem_insert_iff, hk, h4]
    · rintro j high' hr
      cases hr
      exact List.mem_insert_self
    · rintro j hr
      cases hr
  | xmm k =>
    rw [use] at h
    obtain rfl := Except.ok.inj h
    refine ⟨⟨fun j hj => hj, fun j hj => List.mem_insert_of_mem hj, fun h4 => h4⟩, ?_, ?_⟩
    · rintro j high hr
      cases hr
    · rintro j hr
      cases hr
      exact List.mem_insert_self
  | other => cases h
  | none | rip | flags | mxcsr =>
    cases h
    exact ⟨.refl u, by simp, by simp⟩

/-- The registers of an operand. -/
def operandRegisters : Operand → List Register
  | .register r => [r]
  | .memory m => [m.base, m.index]
  | _ => []

/-- The memory operand among a list. -/
def operandMemory : Operand → Option Mem
  | .memory m => some m
  | _ => none

/-- What the checks have seen of a memory operand. -/
structure Addressable (i : Inst) (m : Mem) : Prop where
  pos : 0 < m.size
  le : m.size ≤ 128
  bytes : m.size % 8 = 0
  action : i.mnemonic = .lea ∨ m.action = .read ∨ m.action = .write

/-- **One operand.** -/
theorem operand_ok {i : Inst} {k : ℕ} {o : Operand} {u u' : Used} {memory memory' : Option Mem}
    (h : operand i k o u memory = .ok (u', memory')) :
    Extends u u' ∧ (∀ r ∈ operandRegisters o, InUse u' r) ∧
      memory' = (operandMemory o).or memory ∧
        (∀ m, o = .memory m → memory = none ∧ Addressable i m) := by
  cases o with
  | register r =>
    obtain ⟨v, hv, h⟩ := bind_ok h
    obtain ⟨rfl, rfl⟩ := Prod.mk.inj (Except.ok.inj h)
    obtain ⟨he, hu⟩ := use_ok hv
    exact ⟨he, by simpa [operandRegisters] using hu, rfl, by simp⟩
  | memory m =>
    simp only [operand] at h
    by_cases hbad : i.visible ≤ k ∨ memory.isSome = true ∨ i.addressWidth ≠ 64 ∨ m.size = 0 ∨
        128 < m.size ∨ m.size % 8 ≠ 0
    · rw [if_pos hbad] at h
      cases h
    rw [if_neg hbad] at h
    obtain ⟨v, hv, h⟩ := bind_ok h
    obtain ⟨w, hw, h⟩ := bind_ok h
    split_ifs at h with htls hact
    obtain ⟨rfl, rfl⟩ := Prod.mk.inj (Except.ok.inj h)
    obtain ⟨he, hb⟩ := use_ok hv
    obtain ⟨he', hi⟩ := use_ok hw
    have hnone : memory = none := by
      cases memory with
      | none => rfl
      | some x => simp at hbad
    have haddr : Addressable i m := by
      simp only [not_or, not_and, not_not, not_lt] at hbad hact
      refine ⟨by omega, by omega, by omega, ?_⟩
      by_cases hlea : i.mnemonic = .lea
      · exact .inl hlea
      · by_cases hr : m.action = .read
        · exact .inr (.inl hr)
        · exact .inr (.inr (hact hlea hr))
    refine ⟨he.trans he', ?_, by rw [hnone]; rfl, ?_⟩
    · intro r hr
      rcases List.mem_pair.mp hr with rfl | rfl
      · exact hb.mono he'
      · exact hi
    · rintro m' hm
      cases hm
      exact ⟨hnone, haddr⟩
  | immediate | pointer =>
    obtain ⟨rfl, rfl⟩ := Prod.mk.inj (Except.ok.inj h)
    exact ⟨.refl _, by simp [operandRegisters], rfl, by simp⟩

/-- **All operands**: at most one of them is in memory. -/
theorem operands_ok {i : Inst} : ∀ {os : List Operand} {k : ℕ} {u u' : Used}
    {memory memory' : Option Mem}, operands i k os u memory = .ok (u', memory') →
    Extends u u' ∧ (∀ o ∈ os, ∀ r ∈ operandRegisters o, InUse u' r) ∧
      memory' = memory.or (os.findSome? operandMemory) ∧
      ∀ m, memory' = some m → memory = some m ∨ Addressable i m
  | [], k, u, u', memory, memory', h => by
    obtain ⟨rfl, rfl⟩ := Prod.mk.inj (Except.ok.inj h)
    exact ⟨.refl _, by simp, by simp, fun m hm => .inl hm⟩
  | o :: os, k, u, u', memory, memory', h => by
    obtain ⟨⟨v, memory₁⟩, h1, h2⟩ := bind_ok h
    obtain ⟨he1, hr1, hm1, ha1⟩ := operand_ok h1
    obtain ⟨he2, hr2, hm2, ha2⟩ := operands_ok h2
    refine ⟨he1.trans he2, ?_, ?_, ?_⟩
    · intro o' ho r hr
      rcases List.mem_cons.mp ho with rfl | ho
      · exact (hr1 r hr).mono he2
      · exact hr2 o' ho r hr
    · simp only at hm2
      rw [hm2, hm1]
      cases o with
      | memory m =>
        obtain ⟨rfl, -⟩ := ha1 m rfl
        rfl
      | _ => simp [operandMemory, List.findSome?_cons]
    · intro m hm
      rcases ha2 m hm with h' | h'
      · simp only at h'
        rw [hm1] at h'
        cases o with
        | memory m' =>
          have hmm : m' = m := by simpa [operandMemory] using h'
          exact .inr (hmm ▸ (ha1 m' rfl).2)
        | _ => exact .inl (by simpa [operandMemory] using h')
      · exact .inr h'

/-- What the loop over `recipe.code` has checked of one instruction. -/
structure Admissible (isa : Isa) (r : Recipe) (d : Decoded) : Prop where
  outside : overlap d.source.address d.source.size r.h.output (rounded r.h.length) = false
  decoded : isa.decode (d.source.bytes.take d.source.size) = some d.inst
  branches : d.branch = decide (d.inst.conditional = true ∨ d.inst.mnemonic = .jmp)
  returning : d.returns = decide (d.inst.mnemonic = .ret ∧ d.source.size = 1 ∧
    d.source.bytes.getD 0 0 = 0xc3)
  target : d.branch = true → branchTarget r d.source d.inst = .ok d.target
  condition : d.branch = true → branchCondition d.inst = .ok d.condition
  permits : d.branch = false → d.returns = false → permitted d.inst.mnemonic = true
  memory : d.returns = false → d.memory = d.inst.memory
  addressable : ∀ m, d.memory = some m → Addressable d.inst m

/-- **One instruction.** -/
theorem decodeOne_ok {isa : Isa} {r : Recipe} {u u' : Used} {c : Instruction} {d : Decoded}
    (h : decodeOne isa r u c = .ok (d, u')) :
    d.source = c ∧ Admissible isa r d ∧ Extends u u' ∧
      (d.returns = false → ∀ x ∈ d.inst.registers, InUse u' x) := by
  unfold decodeOne at h
  split_ifs at h with hout
  cases hi : isa.decode (c.bytes.take c.size) with
  | none => rw [hi] at h; cases h
  | some i =>
    rw [hi] at h
    simp only at h
    by_cases henc : i.length ≠ c.size ∨ i.legacy = false ∨ i.prefixed = true
    · rw [if_pos henc] at h
      cases h
    rw [if_neg henc] at h
    generalize hret :
      decide (i.mnemonic = .ret ∧ c.size = 1 ∧ c.bytes.getD 0 0 = 0xc3) = returns at h
    generalize hbr : decide (i.conditional = true ∨ i.mnemonic = .jmp) = branch at h
    obtain ⟨target, htarget, h⟩ := bind_ok h
    obtain ⟨condition, hcond, h⟩ := bind_ok h
    by_cases hperm : branch = false ∧ returns = false ∧ permitted i.mnemonic = false
    · rw [if_pos hperm] at h
      cases h
    rw [if_neg hperm] at h
    obtain ⟨⟨v, memory⟩, hops, h⟩ := bind_ok h
    obtain ⟨rfl, rfl⟩ := Prod.mk.inj (Except.ok.inj h)
    have hpermits : branch = false → returns = false → permitted i.mnemonic = true := by
      intro h1 h2
      by_contra hc
      exact hperm ⟨h1, h2, by simpa using hc⟩
    have htarget' : branch = true → branchTarget r c i = .ok target := by
      rintro rfl
      simpa using htarget
    have hcond' : branch = true → branchCondition i = .ok condition := by
      rintro rfl
      simpa using hcond
    by_cases hscan : returns = false ∧ i.mnemonic ≠ .nop
    · rw [if_pos hscan] at hops
      obtain ⟨he, hr, hm, ha⟩ := operands_ok hops
      refine ⟨rfl, ⟨by simpa using hout, hi, hbr.symm, hret.symm, htarget', hcond', hpermits,
        ?_, ?_⟩, he, ?_⟩
      · intro _
        rw [hm, Inst.memory, if_neg hscan.2]
        rfl
      · intro m hm'
        rcases ha m hm' with h' | h'
        · cases h'
        · exact h'
      · intro _ x hx
        rw [Inst.registers, if_neg hscan.2] at hx
        obtain ⟨o, ho, hx⟩ := List.mem_flatMap.mp hx
        exact hr o ho x (by cases o <;> exact hx)
    · rw [if_neg hscan] at hops
      obtain ⟨rfl, rfl⟩ := Prod.mk.inj (Except.ok.inj hops)
      have hnop : returns = false → i.mnemonic = .nop := by
        intro h1
        by_contra hc
        exact hscan ⟨h1, hc⟩
      refine ⟨rfl, ⟨by simpa using hout, hi, hbr.symm, hret.symm, htarget', hcond',
        hpermits, ?_, by simp⟩,
        .refl _, ?_⟩
      · intro h1
        rw [Inst.memory, if_pos (hnop h1)]
      · intro h1 x hx
        rw [Inst.registers, if_pos (hnop h1)] at hx
        cases hx

/-- **The loop over the instructions.** -/
theorem decodeAll_ok {isa : Isa} {r : Recipe} : ∀ {cs : List Instruction} {u u' : Used}
    {ds : List Decoded}, decodeAll isa r cs u = .ok (ds, u') →
    ds.map Decoded.source = cs ∧ (∀ d ∈ ds, Admissible isa r d) ∧ Extends u u' ∧
      ∀ d ∈ ds, d.returns = false → ∀ x ∈ d.inst.registers, InUse u' x
  | [], u, u', ds, h => by
    obtain ⟨rfl, rfl⟩ := Prod.mk.inj (Except.ok.inj h)
    exact ⟨rfl, by simp, .refl _, by simp⟩
  | c :: cs, u, u', ds, h => by
    obtain ⟨⟨d, v⟩, h1, h⟩ := bind_ok h
    obtain ⟨⟨es, w⟩, h2, h⟩ := bind_ok h
    obtain ⟨rfl, rfl⟩ := Prod.mk.inj (Except.ok.inj h)
    obtain ⟨hs1, ha1, he1, hr1⟩ := decodeOne_ok h1
    obtain ⟨hs2, ha2, he2, hr2⟩ := decodeAll_ok h2
    refine ⟨by simp [hs1, hs2], ?_, he1.trans he2, ?_⟩
    · intro x hx
      rcases List.mem_cons.mp hx with rfl | hx
      · exact ha1
      · exact ha2 x hx
    · intro x hx hret y hy
      rcases List.mem_cons.mp hx with rfl | hx
      · exact (hr1 hret y hy).mono he2
      · exact hr2 x hx hret y hy

theorem emplace_last {d : Decoded} : ∀ {xs : List Decoded}, (∀ x ∈ xs, x.pc < d.pc) →
    emplace d xs = xs ++ [d]
  | [], _ => rfl
  | x :: xs, h => by
    have hx := h x List.mem_cons_self
    rw [emplace, if_neg (by omega), if_neg (by omega),
      emplace_last fun y hy => h y (List.mem_cons_of_mem _ hy), List.cons_append]

theorem foldl_emplace : ∀ {ds xs : List Decoded}, (xs ++ ds).Pairwise (fun a b => a.pc < b.pc) →
    ds.foldl (fun m d => emplace d m) xs = xs ++ ds
  | [], xs, _ => by simp
  | d :: ds, xs, h => by
    have hlt : ∀ x ∈ xs, x.pc < d.pc := fun x hx =>
      (List.pairwise_append.mp h).2.2 x hx d List.mem_cons_self
    rw [List.foldl_cons, emplace_last hlt, foldl_emplace (by simpa using h), List.append_assoc]
    rfl

/-- **What `decode` accepts.** -/
structure Admitted (isa : Isa) (r : Recipe) (p : Plan) : Prop where
  recipe : p.recipe = r
  subset : subsetExceeded r = false
  returned : ∃ bytes, readSnapshot r (r.h.regs.getD 15 0) 8 = some bytes ∧ leNat bytes = r.h.stop
  sources : p.instructions.map Decoded.source = r.code
  admissible : ∀ d ∈ p.instructions, Admissible isa r d
  starts : p.starts = blockStarts r p.instructions
  entry : present p.instructions r.h.entry = true
  target : ∀ d ∈ p.instructions, d.branch = true → present p.instructions d.target = true
  falls : ∀ d ∈ p.instructions, d.falls = true → present p.instructions d.next = true
  flags : p.flagsIn = liveness p.instructions
  gprs : ∀ d ∈ p.instructions, d.returns = false → ∀ k ∈ d.inst.gprs, k ∈ p.registers.used
  vectors : ∀ d ∈ p.instructions, d.returns = false → ∀ k ∈ d.inst.vectors, k ∈ p.vectors
  result : (0 : Fin 16) ∈ p.registers.used
  stack : (4 : Fin 16) ∉ p.registers.used

theorem allocate_used {cache : Bool} {used : List (Fin 16)} {a : Allocation}
    (h : allocate cache used = some a) : a.used = used := by
  unfold allocate at h
  split at h
  · obtain rfl := Option.some.inj h
    rfl
  · cases h

theorem closed_of_findSome {ds : List Decoded} (h : ds.findSome? (openEnd ds) = none) :
    (∀ d ∈ ds, d.branch = true → present ds d.target = true) ∧
      ∀ d ∈ ds, d.falls = true → present ds d.next = true := by
  rw [List.findSome?_eq_none_iff] at h
  constructor
  · intro d hd hb
    have hc := h d hd
    unfold openEnd at hc
    split_ifs at hc with h1
    simpa [hb] using h1
  · intro d hd hf
    have hc := h d hd
    unfold openEnd at hc
    split_ifs at hc with h1 h2
    simpa [hf] using h2

/-- **`decode` returns admitted plans only.** -/
theorem decode_admitted {isa : Isa} {cache : Bool} {r : Recipe} {p : Plan} (hw : WellFormed r)
    (h : decode isa cache r = .ok p) : Admitted isa r p := by
  unfold decode at h
  split_ifs at h with hsub
  cases hr : readSnapshot r (r.h.regs.getD 15 0) 8 with
  | none => rw [hr] at h; cases h
  | some returned =>
    rw [hr] at h
    simp only at h
    by_cases hstop : leNat returned ≠ r.h.stop
    · rw [if_pos hstop] at h
      cases h
    rw [if_neg hstop] at h
    obtain ⟨⟨ds, u⟩, hall, h⟩ := bind_ok h
    obtain ⟨hsrc, hadm, hext, huse⟩ := decodeAll_ok hall
    have hsorted : ds.Pairwise fun a b => a.pc < b.pc := by
      have hc := hw.code_sorted
      rw [← hsrc, List.pairwise_map] at hc
      refine hc.imp_of_mem fun {a b} ha _ hab => ?_
      have := (hw.code a.source (hsrc ▸ List.mem_map_of_mem ha)).pos
      unfold Decoded.pc
      omega
    have hmap : ds.foldl (fun m d => emplace d m) [] = ds := by
      rw [foldl_emplace (by simpa using hsorted), List.nil_append]
    simp only [hmap] at h
    by_cases hentry : present ds r.h.entry = false
    · rw [if_pos hentry] at h
      cases h
    rw [if_neg hentry] at h
    cases hopen : ds.findSome? (openEnd ds) with
    | some message => rw [hopen] at h; cases h
    | none =>
      rw [hopen] at h
      simp only at h
      cases halloc : allocate cache (u.gp.insert 0) with
      | none => rw [halloc] at h; cases h
      | some a =>
        rw [halloc] at h
        obtain rfl := Except.ok.inj h
        have hused := allocate_used halloc
        obtain ⟨htarget, hfalls⟩ := closed_of_findSome hopen
        refine ⟨rfl, by simpa using hsub, ⟨returned, hr, not_not.mp hstop⟩, hsrc, hadm, rfl,
          by simpa using hentry, htarget, hfalls, rfl, ?_, ?_, ?_, ?_⟩
        · intro d hd hret k hk
          simp only [hused, Inst.gprs, List.mem_filterMap] at hk ⊢
          obtain ⟨x, hx, hk⟩ := hk
          have hin := (huse d hd hret x hx).1
          cases x with
          | gp j high =>
            obtain rfl := Option.some.inj hk
            exact List.mem_insert_of_mem (hin j high rfl)
          | _ => cases hk
        · intro d hd hret k hk
          simp only [Inst.vectors, List.mem_filterMap] at hk
          obtain ⟨x, hx, hk⟩ := hk
          have hin := (huse d hd hret x hx).2
          cases x with
          | xmm j =>
            obtain rfl := Option.some.inj hk
            simpa using hin j rfl
          | _ => cases hk
        · simp only [hused]
          exact List.mem_insert_self
        · simp only [hused]
          have h4 := hext.stack (by simp)
          simp [List.mem_insert_iff, h4]

/-! ### Positions in the map -/

section Positions
variable {isa : Isa} {r : Recipe} {p : Plan} (hw : WellFormed r) (ha : Admitted isa r p)
include hw ha

theorem Admitted.sorted : p.instructions.Pairwise fun a b => a.next ≤ b.pc := by
  have hc := hw.code_sorted
  rw [← ha.sources, List.pairwise_map] at hc
  exact hc

theorem Admitted.source_ok {d : Decoded} (hd : d ∈ p.instructions) : InstructionOk d.source :=
  hw.code _ (ha.sources ▸ List.mem_map_of_mem hd)

theorem Admitted.find_pc {d : Decoded} (hd : d ∈ p.instructions) :
    find p.instructions d.pc = some d := by
  have hs := ha.sorted hw
  have hpos : ∀ x ∈ p.instructions, x.pc < x.next := fun x hx => by
    have := (ha.source_ok hw hx).pos
    unfold Decoded.pc Decoded.next
    omega
  unfold find
  generalize p.instructions = ds at hd hs hpos
  induction ds with
  | nil => cases hd
  | cons x xs ih =>
    rw [List.pairwise_cons] at hs
    rcases List.mem_cons.mp hd with rfl | hd
    · rw [List.find?_cons_of_pos (by simp)]
    · have h1 := hs.1 d hd
      have h2 := hpos x List.mem_cons_self
      rw [List.find?_cons_of_neg (by simp; omega)]
      exact ih hd hs.2 fun y hy => hpos y (List.mem_cons_of_mem _ hy)

/-- **Address order**: what follows an instruction in the map is what follows it in memory. -/
theorem Admitted.successor {i : ℕ} {d : Decoded} (hi : p.instructions[i]? = some d)
    (hf : d.falls = true) : ∃ e, p.instructions[i + 1]? = some e ∧ e.pc = d.next := by
  obtain ⟨hlt, hget⟩ := List.getElem?_eq_some_iff.mp hi
  have hd : d ∈ p.instructions := hget ▸ List.getElem_mem hlt
  have hs := List.pairwise_iff_getElem.mp (ha.sorted hw)
  obtain ⟨e, he⟩ := Option.isSome_iff_exists.mp (ha.falls d hd hf)
  have hepc : e.pc = d.next := by simpa using List.find?_some he
  obtain ⟨j, hj, hej⟩ := List.getElem_of_mem (List.mem_of_find?_eq_some he)
  have hdpos := (ha.source_ok hw hd).pos
  have hij : i < j := by
    rcases lt_trichotomy i j with h | h | h
    · exact h
    · subst h
      have hde : e.pc = d.pc := by rw [← hej, ← hget]
      unfold Decoded.pc Decoded.next at *
      omega
    · have hbad := hs j i hj hlt h
      rw [hget, hej] at hbad
      have := (ha.source_ok hw (List.mem_of_find?_eq_some he)).pos
      unfold Decoded.pc Decoded.next at *
      omega
  by_cases hji : j = i + 1
  · subst hji
    exact ⟨e, List.getElem?_eq_some_iff.mpr ⟨hj, hej⟩, hepc⟩
  · -- an instruction in between would have to fit into no room
    have hmid : i + 1 < p.instructions.length := by omega
    have h1 := hs i (i + 1) hlt hmid (by omega)
    have h2 := hs (i + 1) j hmid hj (by omega)
    have h3 := (ha.source_ok hw (List.getElem_mem hmid)).pos
    rw [hget] at h1
    rw [hej] at h2
    unfold Decoded.pc Decoded.next at *
    omega

end Positions

/-! ### Small recipes -/

/-- Instructions one after the other. -/
def layOut : ℕ → List (List UInt8) → List Instruction
  | _, [] => []
  | a, b :: bs => ⟨a, b.length, b ++ List.replicate (15 - b.length) 0⟩ :: layOut (a + b.length) bs

/-- A recipe for one byte at `0x10000`, where `RDI` points to: instructions from `0x5000` on, `RSI`
and `RSP` as given, and `0x9000` to return to. -/
def tinyRecipe (rsi rsp : ℕ) (code : List (List UInt8)) (inputs : List Segment) : Recipe where
  h :=
    { magic := MAGIC, version := 1, entry := 0x5000, stop := 0x9000, output := 0x10000, length := 1,
      result := 0, steps := code.length, inputBytes := (inputs.map fun s => s.bytes.length).sum,
      fsBase := 0, gsBase := 0,
      regs := [0, 0, 0, 0, rsi, 0x10000, 0, 0, 0, 0, 0, 0, 0, 0, 0, rsp, 0, 0],
      xmm := List.replicate 16 (List.replicate 16 0), mxcsr := 0x1f80, pageCount := 0,
      codeCount := code.length, inputCount := inputs.length, digest := List.replicate 32 0 }
  pages := []
  code := layOut 0x5000 code
  inputs := inputs

/-- `mov byte [rdi], 7` and `ret`. -/
def fillRecipe : Recipe :=
  tinyRecipe 0 0x7000 [[0xc6, 0x07, 0x07], [0xc3]] [⟨0x7000, [0, 0x90, 0, 0, 0, 0, 0, 0]⟩]

theorem fillRecipe_ok : WellFormed fillRecipe ∧ (decode tinyIsa true fillRecipe).isOk = true := by
  constructor <;> decide +kernel

theorem exists_plan {isa : Isa} {cache : Bool} {r : Recipe} (h : (decode isa cache r).isOk = true) :
    ∃ p, decode isa cache r = .ok p := by
  cases hd : decode isa cache r with
  | error _ => rw [hd] at h; cases h
  | ok p => exact ⟨p, rfl⟩

end Afterfree.Native.Decode
