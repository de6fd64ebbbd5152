import Afterfree.Loops.Affine

/-!
# Native loops and their read plans

`native_loop.hpp`: a short loop is decoded, and when it is not traced and its counter is the
register that moves its one read, the bytes it is about to read are known beforehand. The generated
code runs the body while the condition of the branch holds; of the constructor, what it reads off
the instructions is here, and the emission of the code is not.

`prepareReads_exact`: the loop makes as many iterations as the plan counts, and the reads are those
of the plan exactly when no `BT` of the body leads away from its operand.
-/

namespace Afterfree.Loops.ReadPlan

open Afterfree.Common Afterfree.Codec Afterfree.Loops.Affine
open Afterfree.Native.X86 (Word)

/-! ### Registers -/

/-- `GPRState` of the instrumentation: `RAX`, `RBX`, `RCX`, `RDX`, `RSI`, `RDI`, `R8` to `R15`,
`RBP`, `RSP`, `RIP` and the flags. -/
abbrev GPRState : Type := Fin 18 → Word

/-- `physical`: the numbers of the saved registers. -/
def physical : List (Fin 16) := [0, 3, 1, 2, 6, 7, 8, 9, 10, 11, 12, 13, 14, 15, 5, 4]

/-- `value`. -/
def value (g : GPRState) (r : Register) : Word :=
  match physical.findIdx? fun k => decide (Register.gp k 64 = r) with
  | some i => g (Fin.ofNat 18 i)
  | none => 0

/-- The state that the generated code starts from. -/
def load {ρ : Type} (g : GPRState) (rest : ρ) : State ρ := ⟨fun k => value g (.gp k 64), g 17, rest⟩

theorem load_value {ρ : Type} (g : GPRState) (rest : ρ) {r : Register} (h : Ordinary r) :
    (load g rest).value r = value g r := by
  rcases h with rfl | ⟨k, rfl⟩
  · rfl
  · rfl

/-! ### The constructor -/

/-- The mnemonics that a loop may have. -/
def allowed : Mnemonic → Bool
  | .bt => true
  | .named m => Native.X86.permitted m

/-- What the constructor has noted. -/
structure Noted where
  used : Finset (Fin 16)
  vectors : Finset (Fin 16)
  written : List Register
  compared : Register
  bound : Register
  condition : Option ℕ
  instructionCount : ℕ
deriving DecidableEq

/-- Nothing noted. -/
def Noted.blank : Noted := ⟨∅, ∅, [], .none, .none, none, 0⟩

/-- `use`. -/
def use (branch : Bool) (r : Register) (s : Noted) : Except String Noted :=
  match r with
  | .rip => if branch then .ok s else .error "loop uses unsupported register state"
  | .none | .flags | .mxcsr => .ok s
  | .gp k _ =>
    if k = 4 then .error "loop uses unsupported register state"
    else .ok { s with used := insert k s.used }
  | .xmm k => .ok { s with vectors := insert k s.vectors }
  | .other => .error "loop uses unsupported register state"

/-- One operand. -/
def noteLoopOperand (tracing branch : Bool) (op : Operation) (s : Noted) (i : ℕ) (o : Operand) :
    Except String Noted :=
  match o.value with
  | .register r => do
    let s ← use branch r s
    .ok (if o.actions.writes then { s with written := r.largest :: s.written } else s)
  | .memory m =>
    if op.mnemonic = .named .nop then .ok s
    else if tracing ∧ op.mnemonic ≠ .named .lea ∧ (o.actions ≠ Kind.write.actions ∨ o.size = 0 ∨
        128 < o.size ∨ o.size % 8 ≠ 0 ∨ m.segment = .fs ∨ m.segment = .gs) then
      .error "inline capture requires pure output stores"
    else do
      let s ← use branch m.base s
      let s ← use branch m.index s
      if op.visible ≤ i ∨ op.addressWidth ≠ 64 then .error "loop has implicit memory effects"
      else .ok s
  | _ => .ok s

/-- The instruction compares two 64-bit registers. -/
def comparison (op : Operation) : Option (Register × Register) :=
  match op.mnemonic, op.operands with
  | .named .cmp, x :: y :: _ =>
    match x.value, y.value with
    | .register a, .register b => if x.size = 64 ∧ y.size = 64 then some (a, b) else none
    | _, _ => none
  | _, _ => none

/-- The instruction is the branch back to the head. -/
def backedge (head after : ℕ) (op : Operation) : Bool :=
  match op.operands with
  | x :: _ =>
    match x.value with
    | .immediate true v =>
      op.category = .condBranch && BitVec.ofNat 64 after + v = BitVec.ofNat 64 head &&
        ((0x70 ≤ op.opcode && op.opcode ≤ 0x7f) || (0x80 ≤ op.opcode && op.opcode ≤ 0x8f))
    | _ => false
  | [] => false

/-- One instruction, at `off` of `size` bytes. -/
def noteInstruction (tracing : Bool) (head after bodySize size off : ℕ) (op : Operation)
    (s : Noted) :
    Except String Noted :=
  if op.legacy = false ∨ op.prefixed = true then .error "unsupported loop instruction"
  else if off = bodySize ∧ (off + op.length ≠ size ∨ backedge head after op = false) then
    .error "loop backedge unsupported"
  else if off ≠ bodySize ∧ (bodySize < off + op.length ∨ allowed op.mnemonic = false) then
    .error "loop has a control or state boundary"
  else
    let s := if off = bodySize then { s with condition := some (op.opcode % 16) } else s
    let s :=
      match comparison op with
      | some (a, b) => if off + op.length = bodySize then { s with compared := a, bound := b }
          else s
      | none => s
    eachFrom (noteLoopOperand tracing (decide (off = bodySize)) op) 0 op.operands
      { s with instructionCount := s.instructionCount + 1 }

/-- The loop over the instructions. -/
def noteLoop (decode : List UInt8 → Option Operation) (tracing : Bool) (head after bodySize : ℕ)
    (original : List UInt8) : ℕ → ℕ → Noted → Except String Noted
  | 0, _, s => .ok s
  | fuel + 1, off, s =>
    if original.length ≤ off then .ok s
    else
      match decode (original.drop off) with
      | none => .error "unsupported loop instruction"
      | some op => do
        let s ← noteInstruction tracing head after bodySize original.length off op s
        noteLoop decode tracing head after bodySize original fuel (off + op.length) s

/-- A read plan: `read_plan`, `read_counter`, `read_bound` and `read_increment`. -/
structure Plan where
  access : AffineAccess
  counter : Register
  bound : Register
  increment : Word
deriving DecidableEq, Repr

/-- The plan of a loop that is not traced, if it has one. Equality is symmetric: for `JNE` the
operand that the body writes is the counter. -/
def plan (decode : List UInt8 → Option Operation) (body : List UInt8) (s : Noted) (condition : ℕ) :
    Option Plan :=
  let swap := condition = 5 ∧ s.bound ∈ s.written ∧ s.compared ∉ s.written
  let counter := if swap then s.bound else s.compared
  let bound := if swap then s.compared else s.bound
  if (condition = 2 ∨ condition = 5) ∧ bound ≠ .none ∧ bound ∉ s.written then
    match prove decode body .read with
    | .error _ => none
    | .ok a =>
      let delta :=
        if counter = a.base ∧ a.indexDelta = 0 then a.baseDelta
        else if counter = a.index ∧ a.baseDelta = 0 then a.indexDelta
        else 0
      if a.width ≠ 0 ∧ delta ≠ 0 ∧ delta ≤ BitVec.ofNat 64 a.width then
        some ⟨a, counter, bound, delta⟩
      else none
  else none

/-- The order in which registers are tried for the generated code. -/
def candidates : List (Fin 16) := [15, 14, 13, 12, 11, 10, 9, 8, 3, 5, 6, 7, 2, 1, 0]

/-- `NativeLoop`; the output of a traced loop is the access of its proof. -/
structure NativeLoop where
  original : List UInt8
  bodySize : ℕ
  tracing : Bool
  condition : ℕ
  instructionCount : ℕ
  output : Option AffineAccess
  readPlan : Option Plan
deriving DecidableEq

/-- The end of the constructor: the condition, the registers of the generated code and the plan. -/
def NativeLoop.assemble (decode : List UInt8 → Option Operation) (original : List UInt8)
    (bodySize : ℕ) (tracing : Bool) (s : Noted) (output : Option AffineAccess) :
    Except String NativeLoop :=
  match s.condition with
  | none => .error "loop has no backedge"
  | some condition =>
    let free := candidates.filter fun k => decide (k ∉ s.used)
    if free = [] then .error "loop has no context register"
    else if tracing ∧ free.length < 3 then
      .error "inline capture lacks instrumentation registers"
    else
      .ok
        { original, bodySize, tracing, condition
          instructionCount := s.instructionCount
          output
          readPlan := if tracing then none else plan decode (original.take bodySize) s condition }

/-- `NativeLoop::NativeLoop`, from the bytes of the loop. `immutable` says that they are in a
mapping that is executable and not writable; `original` is `none` when they cannot be read. -/
def NativeLoop.make (decode : List UInt8 → Option Operation) (immutable : Bool)
    (original : Option (List UInt8)) (head branch after : ℕ) (tracing : Bool) :
    Except String NativeLoop :=
  if branch < head ∨ 256 < after - head ∨ after ≤ branch then .error "loop extent unsupported"
  else if immutable = false then .error "loop code is not immutable executable memory"
  else
    match original with
    | none => .error "loop code unavailable"
    | some original => do
      let s ← noteLoop decode tracing head after
        (branch - head) original original.length 0 Noted.blank
      let output ←
        (if tracing then (prove decode (original.take (branch - head)) .write).map some
          else .ok none)
      NativeLoop.assemble decode original (branch - head) tracing s output

namespace NativeLoop

/-- `continues`. -/
def continues (loop : NativeLoop) (flags : Word) : Bool :=
  let carry := flags.getLsbD 0
  let parity := flags.getLsbD 2
  let zero := flags.getLsbD 6
  let sign := flags.getLsbD 7
  let overflow := flags.getLsbD 11
  let values := [overflow, carry, zero, carry || zero, sign, parity, sign != overflow,
    zero || (sign != overflow)]
  values.getD (loop.condition / 2) false != (loop.condition % 2 == 1)

/-- `prepare_reads`: what it passes to `af_prepare_read`. `disabled` is `AF_DISABLE_READ_PLANS`. -/
def prepareReads (loop : NativeLoop) (disabled : Bool) (g : GPRState) : Option (ℕ × ℕ) :=
  match loop.readPlan with
  | none => none
  | some p =>
    if disabled then none
    else
      let current := (value g p.counter).toNat
      let bound := (value g p.bound).toNat
      if bound ≤ current ∨ (bound - current) % p.increment.toNat ≠ 0 then none
      else
        let iterations := (bound - current) / p.increment.toNat
        if MAX_BUFFER / p.access.width < iterations then none
        else
          let size := iterations * p.access.width
          let first := (value g p.access.base +
            value g p.access.index * BitVec.ofNat 64 p.access.scale + p.access.lead).toNat
          if UINT64_MAX - size < first then none else some (first, size)

end NativeLoop

/-! ### What the constructor has noted -/

section Note

variable {tracing : Bool} {head after bodySize size off : ℕ} {op : Operation} {s s' : Noted}

/-- The second has what the first has written, and the same comparison. -/
structure Noted.Extends (s s' : Noted) : Prop where
  compared : s'.compared = s.compared
  bound : s'.bound = s.bound
  written : ∀ r ∈ s.written, r ∈ s'.written

theorem Noted.Extends.refl (s : Noted) : s.Extends s := ⟨rfl, rfl, fun _ h => h⟩

theorem Noted.Extends.trans {s₁ s₂ s₃ : Noted} (h : s₁.Extends s₂) (h' : s₂.Extends s₃) :
    s₁.Extends s₃ :=
  ⟨h'.compared.trans h.compared, h'.bound.trans h.bound, fun r hr => h'.written r (h.written r hr)⟩

theorem use_extends {branch : Bool} {r : Register} (h : use branch r s = .ok s') :
    s.Extends s' := by
  unfold use at h
  cases r with
  | rip =>
    dsimp only at h
    split_ifs at h
    cases h
    exact .refl s
  | none | flags | mxcsr =>
    cases h
    exact .refl s
  | gp k w =>
    dsimp only at h
    split_ifs at h
    cases h
    exact ⟨rfl, rfl, fun _ h => h⟩
  | xmm k =>
    cases h
    exact ⟨rfl, rfl, fun _ h => h⟩
  | other => cases h

/-- The registers an operand writes are noted. -/
def Wrote (o : Operand) (s : Noted) : Prop :=
  ∀ v, o.value = .register v → o.actions.writes = true → v.largest ∈ s.written

theorem noteLoopOperand_ok {branch : Bool} {i : ℕ} {o : Operand}
    (h : noteLoopOperand tracing branch op s i o = .ok s') : s.Extends s' ∧ Wrote o s' := by
  unfold noteLoopOperand at h
  unfold Wrote
  cases ho : o.value with
  | register r =>
    rw [ho] at h
    obtain ⟨s₁, hu, h⟩ := bind_ok h
    have hext := use_extends hu
    by_cases hw : o.actions.writes = true
    · rw [if_pos hw] at h
      cases h
      refine ⟨⟨hext.compared, hext.bound, fun x hx => List.mem_cons_of_mem _ (hext.written x hx)⟩,
        ?_⟩
      intro v hv _
      cases hv
      exact List.mem_cons_self
    · rw [if_neg hw] at h
      cases h
      exact ⟨hext, fun v _ hw' => absurd hw' hw⟩
  | memory m =>
    rw [ho] at h
    dsimp only at h
    refine ⟨?_, fun v hv => by cases hv⟩
    by_cases hnop : op.mnemonic = .named .nop
    · rw [if_pos hnop] at h
      cases h
      exact .refl s
    rw [if_neg hnop] at h
    by_cases htrace : tracing ∧ op.mnemonic ≠ .named .lea ∧ (o.actions ≠ Kind.write.actions ∨
        o.size = 0 ∨ 128 < o.size ∨ o.size % 8 ≠ 0 ∨ m.segment = .fs ∨ m.segment = .gs)
    · rw [if_pos htrace] at h
      cases h
    · rw [if_neg htrace] at h
      obtain ⟨s₁, h₁, h⟩ := bind_ok h
      obtain ⟨s₂, h₂, h⟩ := bind_ok h
      split_ifs at h
      cases h
      exact (use_extends h₁).trans (use_extends h₂)
  | immediate | pointer =>
    rw [ho] at h
    cases h
    exact ⟨.refl s, fun v hv => by cases hv⟩

theorem noteLoopOperands_ok {branch : Bool} : ∀ {os : List Operand} {i : ℕ} {s s' : Noted},
    eachFrom (noteLoopOperand tracing branch op) i os s = .ok s' →
    s.Extends s' ∧ ∀ o ∈ os, Wrote o s'
  | [], _, s, _, h => by
    cases h
    exact ⟨.refl s, fun o ho => absurd ho List.not_mem_nil⟩
  | o :: os, i, s, s', h => by
    obtain ⟨s₁, h₁, h₂⟩ := bind_ok h
    have htail : eachFrom (noteLoopOperand tracing branch op) (i + 1) os s₁ = .ok s' := h₂
    obtain ⟨hext, ho⟩ := noteLoopOperand_ok h₁
    obtain ⟨hext', hos⟩ := noteLoopOperands_ok htail
    refine ⟨hext.trans hext', fun x hx => ?_⟩
    rcases List.mem_cons.mp hx with rfl | hx
    · exact fun v hv hw => hext'.written _ (ho v hv hw)
    · exact hos x hx

/-- **One instruction** is noted: its writes, and its comparison when it ends the body. -/
theorem noteInstruction_ok
    (h : noteInstruction tracing head after bodySize size off op s = .ok s') :
    (∀ r ∈ s.written, r ∈ s'.written) ∧ (∀ o ∈ op.operands, Wrote o s') ∧
      ((s'.compared = s.compared ∧ s'.bound = s.bound) ∨
        (off + op.length = bodySize ∧ comparison op = some (s'.compared, s'.bound))) := by
  unfold noteInstruction at h
  by_cases h1 : op.legacy = false ∨ op.prefixed = true
  · rw [if_pos h1] at h
    cases h
  rw [if_neg h1] at h
  by_cases h2 : off = bodySize ∧ (off + op.length ≠ size ∨ backedge head after op = false)
  · rw [if_pos h2] at h
    cases h
  rw [if_neg h2] at h
  by_cases h3 : off ≠ bodySize ∧ (bodySize < off + op.length ∨ allowed op.mnemonic = false)
  · rw [if_pos h3] at h
    cases h
  rw [if_neg h3] at h
  dsimp only at h
  generalize hs₁ :
    (if off = bodySize then { s with condition := some (op.opcode % 16) } else s) = s₁
    at h
  have hsame : s₁.written = s.written ∧ s₁.compared = s.compared ∧ s₁.bound = s.bound := by
    rw [← hs₁]
    split_ifs <;> exact ⟨rfl, rfl, rfl⟩
  obtain ⟨hext, hwrote⟩ := noteLoopOperands_ok h
  rw [← hsame.1, ← hsame.2.1, ← hsame.2.2, hext.compared, hext.bound]
  cases hcmp : comparison op with
  | none =>
    rw [hcmp] at hext
    exact ⟨hext.written, hwrote, Or.inl ⟨rfl, rfl⟩⟩
  | some x =>
    rw [hcmp] at hext
    dsimp only at hext ⊢
    by_cases hend : off + op.length = bodySize
    · rw [if_pos hend] at hext ⊢
      exact ⟨hext.written, hwrote, Or.inr ⟨hend, rfl⟩⟩
    · rw [if_neg hend] at hext ⊢
      exact ⟨hext.written, hwrote, Or.inl ⟨rfl, rfl⟩⟩

end Note

section Loop

variable {ρ : Type} {machine : Machine ρ} {tracing : Bool} {head after bodySize : ℕ}
  {original : List UInt8}

theorem noteLoop_behind : ∀ {fuel off : ℕ} {s s' : Noted}, bodySize ≤ off →
    noteLoop machine.decode tracing head after bodySize original fuel off s = .ok s' → s.Extends s'
  | 0, _, s, _, _, h => by
    cases h
    exact .refl s
  | fuel + 1, off, s, s', hoff, h => by
    rw [noteLoop] at h
    split_ifs at h with hend
    · cases h
      exact .refl s
    cases hdec : machine.decode (original.drop off) with
    | none =>
      rw [hdec] at h
      cases h
    | some op =>
      rw [hdec] at h
      obtain ⟨s₁, h₁, h⟩ := bind_ok h
      have hpos := (machine.decode_length _ op hdec).1
      obtain ⟨hw, -, hcmp⟩ := noteInstruction_ok h₁
      have hext := noteLoop_behind (by omega) h
      rcases hcmp with ⟨hc, hb⟩ | ⟨he, -⟩
      · exact Noted.Extends.trans ⟨hc, hb, hw⟩ hext
      · omega

/-- **The loop over the instructions**, along the instructions of the body. -/
theorem noteLoop_body {rest : List UInt8} {ops : List Operation} (hdec : machine.Decodes rest ops) :
    ∀ {fuel off : ℕ} {s s' : Noted}, off ≤ bodySize → rest = (original.take bodySize).drop off →
      original.length ≤ off + fuel →
      noteLoop machine.decode tracing head after bodySize original fuel off s = .ok s' →
      (∀ r ∈ s.written, r ∈ s'.written) ∧ (∀ op ∈ ops, ∀ o ∈ op.operands, Wrote o s') ∧
        ((s'.compared = s.compared ∧ s'.bound = s.bound) ∨
          ∃ front last, ops = front ++ [last] ∧ comparison last =
            some (s'.compared, s'.bound)) := by
  induction hdec with
  | nil =>
    intro fuel off s s' hoff hrest hfuel h
    have hlen := congrArg List.length hrest
    rw [List.length_nil, List.length_drop, List.length_take] at hlen
    by_cases hshort : original.length ≤ off
    · -- nothing is left at all
      have hs : s' = s := by
        cases fuel with
        | zero =>
          cases h
          rfl
        | succ fuel =>
          rw [noteLoop, if_pos hshort] at h
          cases h
          rfl
      subst hs
      exact ⟨fun r hr => hr, fun op hop => absurd hop List.not_mem_nil, Or.inl ⟨rfl, rfl⟩⟩
    · have hext := noteLoop_behind (by omega) h
      exact ⟨hext.written, fun op hop => absurd hop List.not_mem_nil,
        Or.inl ⟨hext.compared, hext.bound⟩⟩
  | @cons rest op ops hop hops ih =>
    intro fuel off s s' hoff hrest hfuel h
    obtain ⟨hpos, hle⟩ := machine.decode_length _ op hop
    have hlen := congrArg List.length hrest
    rw [List.length_drop, List.length_take] at hlen
    have hfull : original.drop off = rest ++ original.drop bodySize := by
      rw [hrest, ← List.drop_append_of_le_length (by rw [List.length_take]; omega),
        List.take_append_drop]
    have hdec : machine.decode (original.drop off) = some op := by
      rw [hfull]
      exact machine.decode_append _ _ op hop
    cases fuel with
    | zero => omega
    | succ fuel =>
      rw [noteLoop, if_neg (by omega), hdec] at h
      obtain ⟨s₁, h₁, h⟩ := bind_ok h
      obtain ⟨hw, hwrote, hcmp⟩ := noteInstruction_ok h₁
      have hrest' : rest.drop op.length = (original.take bodySize).drop (off + op.length) := by
        rw [hrest, List.drop_drop]
      obtain ⟨hw', hwrote', hcmp'⟩ := ih (by omega) hrest' (by omega) h
      refine ⟨fun r hr => hw' r (hw r hr), fun x hx => ?_, ?_⟩
      · rcases List.mem_cons.mp hx with rfl | hx
        · exact fun o ho v hv hwr => hw' _ (hwrote o ho v hv hwr)
        · exact hwrote' x hx
      · rcases hcmp' with ⟨hc', hb'⟩ | ⟨front, last, rfl, hlast⟩
        · rcases hcmp with ⟨hc, hb⟩ | ⟨hend, hcomp⟩
          · exact Or.inl ⟨hc'.trans hc, hb'.trans hb⟩
          · -- the instruction ends the body, so nothing follows
            have hnil : ops = [] := by
              generalize hr : rest.drop op.length = r at hops
              have hlen' := congrArg List.length hr
              rw [List.length_drop] at hlen'
              cases hops with
              | nil => rfl
              | cons hnext _ =>
                obtain ⟨h1, h2⟩ := machine.decode_length _ _ hnext
                omega
            rw [hnil, hc', hb']
            exact Or.inr ⟨[], op, rfl, hcomp⟩
        · exact Or.inr ⟨op :: front, last, rfl, hlast⟩

end Loop

/-! ### Running a loop -/

section Run

variable {ρ : Type} {machine : Machine ρ}

/-- The generated code makes `n` more iterations: it runs the body while the condition holds. -/
def Iterates (machine : Machine ρ) (loop : NativeLoop) (body : List Operation) (st : State ρ)
    (n : ℕ) :
    Prop :=
  (∀ j < n, loop.continues ((machine.run body)^[j] st).flags = true) ∧
    loop.continues ((machine.run body)^[n] st).flags = false

/-- The bytes that `n` iterations access. -/
def bytesOf (machine : Machine ρ) (body : List Operation) (st : State ρ) (n : ℕ) : Set ℕ :=
  {x | ∃ j < n, ∃ access ∈ machine.accesses body ((machine.run body)^[j] st),
    access.1.toNat ≤ x ∧ x < access.1.toNat + access.2}

theorem continues_below {loop : NativeLoop} (h : loop.condition = 2) (flags : Word) :
    loop.continues flags = Native.X86.carry flags := by
  unfold NativeLoop.continues
  rw [h]
  simp [Native.X86.carry]

theorem continues_notEqual {loop : NativeLoop} (h : loop.condition = 5) (flags : Word) :
    loop.continues flags = !Native.X86.zero flags := by
  unfold NativeLoop.continues
  rw [h]
  simp [Native.X86.zero]

theorem run_kept {r : Register} (hr : Ordinary r) : ∀ {ops : List Operation}, machine.Known ops →
    (∀ op ∈ ops, ∀ o ∈ op.operands, ∀ v, o.value = .register v → o.actions.writes = true →
      v.largest ≠ r) → ∀ st : State ρ, (machine.run ops st).value r = st.value r
  | [], _, _, _ => rfl
  | op :: ops, hk, hw, st => by
    obtain ⟨bytes, hdec⟩ := hk op List.mem_cons_self
    have h1 := value_kept hdec st hr (hw op List.mem_cons_self)
    have h2 := run_kept hr (fun x hx => hk x (List.mem_cons_of_mem _ hx))
      (fun x hx => hw x (List.mem_cons_of_mem _ hx)) (machine.meaning op st)
    exact h2.trans h1

theorem iterate_kept {r : Register} {body : List Operation}
    (h : ∀ st : State ρ, (machine.run body st).value r = st.value r) (st : State ρ) :
    ∀ j, ((machine.run body)^[j] st).value r = st.value r
  | 0 => rfl
  | j + 1 => by rw [Function.iterate_succ_apply', h, iterate_kept h st j]

theorem run_comparison {front : List Operation} {last : Operation} {c b : Register}
    (hk : machine.Known (front ++ [last])) (hcmp : comparison last = some (c, b)) :
    (∃ k, c = .gp k 64) ∧ (∃ k, b = .gp k 64) ∧ ∀ st : State ρ,
      Native.X86.carry (machine.run (front ++ [last]) st).flags =
        decide ((machine.run (front ++ [last]) st).value c <
          (machine.run (front ++ [last]) st).value b) ∧
      Native.X86.zero (machine.run (front ++ [last]) st).flags =
        decide ((machine.run (front ++ [last]) st).value c =
          (machine.run (front ++ [last]) st).value b) := by
  obtain ⟨bytes, hdec⟩ := hk last (List.mem_append_right _ List.mem_cons_self)
  unfold comparison at hcmp
  split at hcmp
  · rename_i x y rest hm hops
    split at hcmp
    · rename_i a b' hx hy
      split_ifs at hcmp with hsize
      cases hcmp
      obtain ⟨i, rfl⟩ := machine.cmp_register bytes last c hdec hm x (by rw [hops]; simp) hsize.1 hx
      obtain ⟨j, rfl⟩ := machine.cmp_register bytes last b hdec hm y (by rw [hops]; simp) hsize.2 hy
      refine ⟨⟨i, rfl⟩, ⟨j, rfl⟩, fun st => ?_⟩
      obtain ⟨hg, hc, hz⟩ := machine.meaning_cmp bytes last (machine.run front st) i j hdec hm
        (by rw [hops]; exact congrArg some hx) (by rw [hops]; exact congrArg some hy)
      have hrun : machine.run (front ++ [last]) st = machine.meaning last
        (machine.run front st) := by
        unfold Machine.run
        rw [List.foldl_append]
        rfl
      rw [hrun]
      show _ = decide ((machine.meaning last (machine.run front st)).gpr i <
          (machine.meaning last (machine.run front st)).gpr j) ∧
        _ = decide ((machine.meaning last (machine.run front st)).gpr i =
          (machine.meaning last (machine.run front st)).gpr j)
      rw [hg]
      exact ⟨hc, hz⟩
    · cases hcmp
  · cases hcmp

/-- What the constructor has proved about a loop with a plan. -/
structure Planned (machine : Machine ρ) (loop : NativeLoop) (p : Plan) (first last : List Operation)
    (op : Operation) (m : Mem) : Prop where
  proved : Proved machine p.access first last op m
  width : 0 < p.access.width
  increment : p.increment ≠ 0
  counter : ∃ k, p.counter = .gp k 64
  bound : ∃ k, p.bound = .gp k 64
  grows : ∀ st : State ρ, (machine.run (first ++ op :: last) st).value p.counter =
    st.value p.counter + p.increment
  fixed : ∀ st : State ρ, (machine.run (first ++ op :: last) st).value p.bound = st.value p.bound
  exits : ∀ st : State ρ, loop.continues (machine.run (first ++ op :: last) st).flags = true ↔
    if loop.condition = 2 then
      (machine.run (first ++ op :: last) st).value p.counter <
        (machine.run (first ++ op :: last) st).value p.bound
    else (machine.run (first ++ op :: last) st).value p.counter ≠
      (machine.run (first ++ op :: last) st).value p.bound

/-- **The constructor** proves what the plan says. -/
theorem make_planned {immutable : Bool} {original : List UInt8} {head branch after : ℕ}
    {loop : NativeLoop} {p : Plan}
    (h : NativeLoop.make machine.decode immutable (some original) head branch after false =
      .ok loop)
    (hp : loop.readPlan = some p) :
    ∃ first op last m, machine.Decodes (original.take (branch - head)) (first ++ op :: last) ∧
      Planned machine loop p first last op m := by
  unfold NativeLoop.make at h
  by_cases hextent : branch < head ∨ 256 < after - head ∨ after ≤ branch
  · rw [if_pos hextent] at h
    cases h
  rw [if_neg hextent] at h
  by_cases himm : immutable = false
  · rw [if_pos himm] at h
    cases h
  rw [if_neg himm] at h
  obtain ⟨s, hs, h⟩ := bind_ok h
  obtain ⟨output, -, h⟩ := bind_ok h
  unfold NativeLoop.assemble at h
  cases hcond : s.condition with
  | none =>
    rw [hcond] at h
    cases h
  | some condition =>
    rw [hcond] at h
    dsimp only at h
    by_cases hfree : candidates.filter (fun k => decide (k ∉ s.used)) = []
    · rw [if_pos hfree] at h
      cases h
    rw [if_neg hfree, if_neg fun ht => Bool.false_ne_true ht.1] at h
    cases h
    dsimp only at hp
    rw [if_neg Bool.false_ne_true] at hp
    unfold plan at hp
    dsimp only at hp
    generalize hcounter :
      (if condition = 5 ∧ s.bound ∈ s.written ∧ s.compared ∉ s.written then s.bound
      else s.compared) = counter at hp
    generalize hbound : (if condition = 5 ∧ s.bound ∈ s.written ∧ s.compared ∉ s.written then
      s.compared else s.bound) = bound at hp
    by_cases hplan : (condition = 2 ∨ condition = 5) ∧ bound ≠ .none ∧ bound ∉ s.written
    swap
    · rw [if_neg hplan] at hp
      cases hp
    rw [if_pos hplan] at hp
    obtain ⟨hcode, hsome, hfixed⟩ := hplan
    cases hprove : prove machine.decode (original.take (branch - head)) .read with
    | error e =>
      rw [hprove] at hp
      cases hp
    | ok a =>
      rw [hprove] at hp
      dsimp only at hp
      generalize hdelta : (if counter = a.base ∧ a.indexDelta = 0 then a.baseDelta
        else if counter = a.index ∧ a.baseDelta = 0 then a.indexDelta else 0) = delta at hp
      split_ifs at hp with hok
      cases hp
      obtain ⟨hwidth, hne, -⟩ := hok
      obtain ⟨first, op, last, m, hdec, hproved⟩ := prove_ok hprove (Nat.pos_of_ne_zero hwidth)
      obtain ⟨-, hwrote, hcmp⟩ := noteLoop_body hdec (Nat.zero_le _) rfl (by omega) hs
      -- the comparison that was noted ends the body
      have hnone : s.bound = .none → s.compared = .none → False := by
        intro h1 h2
        rw [h1, h2] at hbound
        split_ifs at hbound <;> exact hsome hbound.symm
      rcases hcmp with ⟨h1, h2⟩ | ⟨front, cmp, hbody, hcomp⟩
      · exact absurd h1 fun h1 => hnone h2 h1
      have hknown := hdec.known
      rw [hbody] at hknown
      obtain ⟨hc, hb, hflags⟩ := run_comparison hknown hcomp
      rw [← hbody] at hflags
      refine ⟨first, op, last, m, hdec, hproved, Nat.pos_of_ne_zero hwidth, hne, ?_,
        ?_, fun st => ?_,
        fun st => ?_, fun st => ?_⟩
      · show ∃ k, counter = .gp k 64
        rw [← hcounter]
        split_ifs
        · exact hb
        · exact hc
      · show ∃ k, bound = .gp k 64
        rw [← hbound]
        split_ifs
        · exact hc
        · exact hb
      · show (machine.run _ st).value counter = st.value counter + delta
        split_ifs at hdelta with h1 h2
        · rw [h1.1, ← hdelta]
          exact hproved.base st
        · rw [h2.1, ← hdelta]
          exact hproved.index st
        · exact absurd hdelta.symm hne
      · refine run_kept ?_ hdec.known (fun x hx o ho v hv hw he => ?_) st
        · right
          rw [← hbound]
          split_ifs
          · exact hc
          · exact hb
        · have hin := hwrote x hx o ho v hv hw
          rw [he] at hin
          exact hfixed hin
      · show NativeLoop.continues _ _ = true ↔ if condition = 2 then
          (machine.run (first ++ op :: last) st).value counter <
            (machine.run (first ++ op :: last) st).value bound
          else (machine.run (first ++ op :: last) st).value counter ≠
            (machine.run (first ++ op :: last) st).value bound
        obtain ⟨hcarry, hzero⟩ := hflags st
        rcases hcode with h2 | h5
        · rw [continues_below h2, hcarry, decide_eq_true_iff, if_pos h2, ← hcounter, ← hbound,
            if_neg (by omega), if_neg (by omega)]
        · rw [continues_notEqual h5, hzero, if_neg (by omega), ← hcounter, ← hbound]
          rw [Bool.not_eq_true', decide_eq_false_iff_not]
          split_ifs
          · exact not_congr eq_comm
          · exact Iff.rfl

section Exact

variable {loop : NativeLoop} {p : Plan} {first last : List Operation} {op : Operation} {m : Mem}

theorem Planned.counter_iterate (h : Planned machine loop p first last op m) (st : State ρ)
    (j : ℕ) :
    ((machine.run (first ++ op :: last))^[j] st).value p.counter =
      st.value p.counter + BitVec.ofNat 64 j * p.increment := by
  induction j with
  | zero => simp
  | succ j ih =>
    rw [Function.iterate_succ_apply', h.grows, ih, show BitVec.ofNat 64 (j + 1) =
      BitVec.ofNat 64 j + 1 from BitVec.ofNat_add ..]
    ring

theorem toNat_advance {c d : Word} {b j : ℕ} (hb : b < 2 ^ 64) (h : c.toNat + j * d.toNat ≤ b) :
    (c + BitVec.ofNat 64 j * d).toNat = c.toNat + j * d.toNat := by
  rw [BitVec.toNat_add, BitVec.toNat_mul, BitVec.toNat_ofNat, Nat.mod_mul_mod, Nat.add_mod_mod,
    Nat.mod_eq_of_lt (by omega)]

/-- **The number of iterations** is what the counter, the bound and the increment say. -/
theorem Planned.iterates (h : Planned machine loop p first last op m) {st : State ρ} {n : ℕ}
    (hcont : loop.continues st.flags = true) (hpos : 0 < n)
    (hn : (st.value p.counter).toNat + n * p.increment.toNat = (st.value p.bound).toNat) :
    Iterates machine loop (first ++ op :: last) st n := by
  have hinc : 0 < p.increment.toNat := by
    refine Nat.pos_of_ne_zero fun hz => h.increment (BitVec.eq_of_toNat_eq ?_)
    rw [hz]
    rfl
  have hfixed := fun j => iterate_kept h.fixed st j
  -- the condition after an iteration compares the counter with the bound
  have hstep : ∀ j, 0 < j → j ≤ n →
      (loop.continues ((machine.run (first ++ op :: last))^[j] st).flags = true ↔ j < n) := by
    intro j hj hle
    obtain ⟨i, rfl⟩ : ∃ i, j = i + 1 := ⟨j - 1, by omega⟩
    have hmul : (i + 1) * p.increment.toNat ≤ n * p.increment.toNat := Nat.mul_le_mul_right _ hle
    have hval : (((machine.run (first ++ op :: last))^[i + 1] st).value p.counter).toNat =
        (st.value p.counter).toNat + (i + 1) * p.increment.toNat := by
      rw [h.counter_iterate]
      exact toNat_advance (st.value p.bound).isLt (by omega)
    have hlt : (st.value p.counter).toNat + (i + 1) * p.increment.toNat < (st.value p.bound).toNat ↔
        i + 1 < n := by
      rw [← hn, Nat.add_lt_add_iff_left, Nat.mul_lt_mul_right hinc]
    have hexit := h.exits ((machine.run (first ++ op :: last))^[i] st)
    rw [← Function.iterate_succ_apply' (machine.run (first ++ op :: last))] at hexit
    rw [hexit]
    split_ifs with h2
    · rw [BitVec.lt_def, hval, hfixed, hlt]
    · rw [ne_eq, BitVec.toNat_inj.symm, hval, hfixed]
      omega
  refine ⟨fun j hj => ?_, ?_⟩
  · rcases Nat.eq_zero_or_pos j with rfl | hjpos
    · exact hcont
    · exact (hstep j hjpos hj.le).mpr hj
  · exact Bool.eq_false_iff.mpr fun ht => absurd ((hstep n hpos le_rfl).mp ht) (lt_irrefl n)

end Exact

/-- **Read plans.** For every loop that is not traced and has a plan, and every state at its branch
in which the loop goes on: what `prepare_reads` passes on is not empty, at most `MAX_BUFFER` long
and does not wrap; the loop makes as many more iterations as the plan counts; and iteration `j`
reads the `j`-th piece of the span, in every iteration, exactly when no `BT` leads away from its
operand. The bytes that are read are then those of the span. -/
theorem prepareReads_exact (machine : Machine ρ) (immutable : Bool) (original : List UInt8)
    (head branch after : ℕ) (loop : NativeLoop) (p : Plan)
    (hloop : NativeLoop.make machine.decode immutable (some original) head branch after false =
      .ok loop)
    (hp : loop.readPlan = some p) (disabled : Bool) (g : GPRState) (rest : ρ)
    (hcont : loop.continues (g 17) = true) (first size : ℕ)
    (hpass : loop.prepareReads disabled g = some (first, size)) :
    ∃ body n, machine.Decodes (original.take (branch - head)) body ∧
      n = ((value g p.bound).toNat - (value g p.counter).toNat) / p.increment.toNat ∧
      0 < size ∧ size ≤ MAX_BUFFER ∧ first + size ≤ UINT64_MAX ∧
      Iterates machine loop body (load g rest) n ∧
      ((∀ j < n, machine.accesses body ((machine.run body)^[j] (load g rest)) =
          [(BitVec.ofNat 64 (first + j * p.access.width), p.access.width)]) ↔
        ∀ j < n, Inside machine body ((machine.run body)^[j] (load g rest))) ∧
      ((∀ j < n, Inside machine body ((machine.run body)^[j] (load g rest))) →
        bytesOf machine body (load g rest) n = Set.Ico first (first + size)) := by
  obtain ⟨front, op, back, m, hdec, hplan⟩ := make_planned hloop hp
  have hproved := hplan.proved
  obtain ⟨b, hop⟩ := hdec.known op (List.mem_append_right _ List.mem_cons_self)
  -- the checks of `prepare_reads`
  unfold NativeLoop.prepareReads at hpass
  rw [hp] at hpass
  dsimp only at hpass
  split_ifs at hpass with hdis hrange hlong hwrap
  cases hpass
  obtain ⟨hlt, hdiv⟩ := not_or.mp hrange
  have hcounter := load_value g rest (Or.inr hplan.counter)
  have hbound := load_value g rest (Or.inr hplan.bound)
  have hstart : p.access.start (load g rest) = value g p.access.base +
      value g p.access.index * BitVec.ofNat 64 p.access.scale + p.access.lead := by
    unfold AffineAccess.start
    rw [load_value g rest hproved.base_ordinary, load_value g rest hproved.index_ordinary]
  rw [← hstart] at hwrap ⊢
  generalize hn : ((value g p.bound).toNat - (value g p.counter).toNat) / p.increment.toNat = n
    at hlong hwrap ⊢
  have htotal : (value g p.counter).toNat + n * p.increment.toNat = (value g p.bound).toNat := by
    have := Nat.div_add_mod ((value g p.bound).toNat - (value g p.counter).toNat) p.increment.toNat
    rw [hn, not_not.mp hdiv, Nat.mul_comm] at this
    omega
  have hpos : 0 < n := by
    refine Nat.pos_of_ne_zero fun h0 => ?_
    rw [h0] at htotal
    omega
  have hsize : n * p.access.width ≤ MAX_BUFFER := by
    have := Nat.mul_le_mul_right p.access.width (not_lt.mp hlong)
    exact this.trans (Nat.div_mul_le_self _ _)
  have hfit : (p.access.start (load g rest)).toNat + n * p.access.width ≤ UINT64_MAX := by
    have hmax : MAX_BUFFER ≤ UINT64_MAX := by decide
    omega
  -- the address of an iteration, without wraparound
  have haddr : ∀ j < n, p.access.start ((machine.run (front ++ op :: back))^[j] (load g rest)) =
      BitVec.ofNat 64 ((p.access.start (load g rest)).toNat + j * p.access.width) ∧
      (p.access.start (load g rest)).toNat + j * p.access.width < 2 ^ 64 := by
    intro j hj
    have hmul : j * p.access.width ≤ n * p.access.width := Nat.mul_le_mul_right _ hj.le
    have hlt64 : (p.access.start (load g rest)).toNat + j * p.access.width < 2 ^ 64 := by
      unfold UINT64_MAX at hfit
      omega
    refine ⟨?_, hlt64⟩
    rw [(hproved.iterate (load g rest) j).2.2, BitVec.ofNat_add, BitVec.ofNat_mul,
      BitVec.ofNat_toNat, BitVec.setWidth_eq]
  have hiff : ∀ j < n, machine.accesses (front ++ op :: back)
      ((machine.run (front ++ op :: back))^[j] (load g rest)) =
        [(BitVec.ofNat 64 ((p.access.start (load g rest)).toNat + j * p.access.width),
          p.access.width)] ↔
      Inside machine (front ++ op :: back)
        ((machine.run (front ++ op :: back))^[j] (load g rest)) := by
    intro j hj
    rw [← (haddr j hj).1]
    exact hproved.accesses_iff hop _
  refine ⟨_, n, hdec, rfl, Nat.mul_pos hpos hplan.width, hsize, hfit, ?_, ?_, fun hin => ?_⟩
  · exact hplan.iterates hcont hpos (by rw [hcounter, hbound]; exact htotal)
  · exact forall_congr' fun j => forall_congr' fun hj => hiff j hj
  · -- the pieces of the iterations make up the span
    ext x
    rw [Set.mem_Ico]
    constructor
    · rintro ⟨j, hj, access, hacc, h1, h2⟩
      rw [(hiff j hj).mpr (hin j hj), List.mem_singleton] at hacc
      subst hacc
      rw [BitVec.toNat_ofNat, Nat.mod_eq_of_lt (haddr j hj).2] at h1 h2
      have hmul : (j + 1) * p.access.width ≤ n * p.access.width := Nat.mul_le_mul_right _ hj
      rw [Nat.succ_mul] at hmul
      dsimp only at h2
      omega
    · rintro ⟨h1, h2⟩
      have hw := hplan.width
      have hj : (x - (p.access.start (load g rest)).toNat) / p.access.width < n :=
        Nat.div_lt_of_lt_mul (by rw [Nat.mul_comm]; omega)
      have hmem := List.mem_singleton_self (BitVec.ofNat 64 ((p.access.start (load g rest)).toNat +
        (x - (p.access.start (load g rest)).toNat) / p.access.width * p.access.width),
          p.access.width)
      rw [← (hiff _ hj).mpr (hin _ hj)] at hmem
      refine ⟨_, hj, _, hmem, ?_⟩
      · rw [BitVec.toNat_ofNat, Nat.mod_eq_of_lt (haddr _ hj).2]
        have hdm := Nat.div_add_mod (x - (p.access.start (load g rest)).toNat) p.access.width
        have hmod := Nat.mod_lt (x - (p.access.start (load g rest)).toNat) hw
        rw [Nat.mul_comm] at hdm
        dsimp only
        omega

end Run

/-! ### Two small loops -/

/-- `bt [rdi], rax; add rdi, 8; cmp rdi, rsi; jb`. -/
def btLoop : List UInt8 := btBody ++ [0x48, 0x39, 0xf7, 0x72, 0xf3]

/-- `mov rax, [rdi]; add rdi, 8; cmp rdi, rsi; jb`. -/
def movLoop : List UInt8 := movBody ++ [0x48, 0x39, 0xf7, 0x72, 0xf4]

/-- `RDI` is `0x1000`, `RSI` is `0x1010`, `RAX` is 64 and the carry flag is set. -/
def branchState : GPRState :=
  fun i => [64, 0, 0, 0, 0x1010, 0x1000].getD i.val (if i = 17 then 1 else 0)

/-- The plan of both loops. -/
def wordPlan : Plan := ⟨⟨.gp 7 64, .none, 0, 8, 3, 0, 8, 0⟩, .gp 7 64, .gp 6 64, 8⟩

/-- `prepare_reads` passes on the two words from `0x1000`, and the loop reads those from `0x1008`.
-/
theorem prepareReads_not_exact : ∃ loop body,
    NativeLoop.make wordMachine.decode true (some btLoop) 0x5000 0x500b 0x500d false = .ok loop ∧
    loop.continues (branchState 17) = true ∧
    loop.prepareReads false branchState = some (0x1000, 16) ∧
    wordMachine.Decodes (btLoop.take 11) body ∧
    0x1000 ∉ bytesOf wordMachine body (load branchState fun _ => 0) 2 ∧
    0x1010 ∈ bytesOf wordMachine body (load branchState fun _ => 0) 2 := by
  refine ⟨⟨btLoop, 11, false, 2, 4, none, some wordPlan⟩, [btOperation, addOperation, cmpOperation],
    by decide +kernel, by decide, by decide, .cons rfl (.cons rfl (.cons rfl .nil)), ?_, ?_⟩
  · rintro ⟨j, hj, access, hacc, h1, -⟩
    have hall : ∀ j < 2, ∀ access ∈ wordMachine.accesses [btOperation, addOperation, cmpOperation]
        ((wordMachine.run [btOperation, addOperation, cmpOperation])^[j]
          (load branchState fun _ => 0)), 0x1000 < access.1.toNat := by
      decide +kernel
    exact absurd h1 (not_le.mpr (hall j hj access hacc))
  · exact ⟨1, by decide, (0x1010, 8), by decide +kernel, by decide, by decide⟩

theorem prepareReads_exact_mov : ∃ loop body,
    NativeLoop.make wordMachine.decode true (some movLoop) 0x5000 0x500a 0x500c false = .ok loop ∧
    loop.prepareReads false branchState = some (0x1000, 16) ∧
    wordMachine.Decodes (movLoop.take 10) body ∧
    bytesOf wordMachine body (load branchState fun _ => 0) 2 = Set.Ico 0x1000 0x1010 := by
  have hloop : NativeLoop.make wordMachine.decode true (some movLoop) 0x5000 0x500a 0x500c false =
      .ok ⟨movLoop, 10, false, 2, 4, none, some wordPlan⟩ := by
    decide +kernel
  have hpass : NativeLoop.prepareReads ⟨movLoop, 10, false, 2, 4, none, some wordPlan⟩ false
      branchState = some (0x1000, 16) := by
    decide
  obtain ⟨body, n, hdec, hn, -, -, -, -, -, hbytes⟩ := prepareReads_exact wordMachine true movLoop
    0x5000 0x500a 0x500c _ wordPlan hloop rfl false branchState (fun _ => 0) (by decide) _ _ hpass
  obtain rfl : n = 2 := hn.trans (by decide)
  refine ⟨_, body, hloop, hpass, hdec, hbytes fun j _ front op back hbody hacc k w hbt => ?_⟩
  -- no instruction that is decoded from these bytes is `BT`
  have hbody' : body = [movOperation, addOperation, cmpOperation] := by
    cases hdec with
    | cons h1 h2 =>
      cases h1
      cases h2 with
      | cons h3 h4 =>
        cases h3
        cases h4 with
        | cons h5 h6 =>
          cases h5
          cases h6 with
          | nil => rfl
          | cons h7 _ => cases h7
  have hop : op ∈ [movOperation, addOperation, cmpOperation] := by
    rw [← hbody', hbody]
    exact List.mem_append_right _ List.mem_cons_self
  simp only [List.mem_cons, List.not_mem_nil, or_false] at hop
  rcases hop with rfl | rfl | rfl <;> cases hbt

end Afterfree.Loops.ReadPlan
