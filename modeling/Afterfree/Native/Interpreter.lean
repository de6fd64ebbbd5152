import Afterfree.Lib.Machine
import Afterfree.Native.Arenas
import Afterfree.Native.Budget

/-!
# The checked interpreter

What the generated code is for: the recorded program, one instruction at a time, with a check in
front of every access, a budget for every block, checkpoints at pages of the output, and an end at
the limit of a window. The guest has a flat memory here, and there are no registers of guard code,
no windows of host memory and no cached trigger.

* `step`: one instruction, as `Reference.advance` takes it, behind its checks;
* `hostStep`: one piece of the generated code, as a step of the same kind;
* `Sound`: the output so far, and the inputs around it.
-/

namespace Afterfree.Native.Interpreter

open Afterfree.Common Afterfree.Codec Afterfree.Encoding Afterfree.Native.X86
  Afterfree.Native.Decode
open Afterfree.Native.Reference Afterfree.Native.Compile Afterfree.Native.Pieces
  Afterfree.Native.Calls
open Afterfree.Lib

/-! ### Points of a replay -/

/-- Where a replay stands: the guest, the end of its output, and what is left of the budget. -/
structure Point where
  guest : Guest
  cursor : Word
  remaining : Word

/-- What is known of checkpoints: those that have been taken, by the addresses of their frames. -/
structure Ledger where
  collecting : Word
  nextPage : Word
  nextFrame : Word
  frames : Word → Option Point

/-- How far a call goes: the limit of its window, and whether the program ends in it. -/
structure Extent where
  limit : Word
  validating : Bool

section
variable (c : Compiler)

/-- `State::end`. -/
def stop : Word := BitVec.ofNat 64 (c.recipe.h.output + c.recipe.h.length)

/-- The fields that a guard reads, with the guest's addresses for the host's. -/
def Point.fields (limit : Word) (p : Point) : Field → Word
  | .cursor => p.cursor
  | .limit => limit
  | _ => 0

/-- The memory operand that the instruction accesses. -/
def accessed (d : Decoded) : Option Mem :=
  if d.branch then none
  else d.memory.filter fun _ => d.inst.mnemonic ≠ .lea

/-- The budget of a block is taken at its start. -/
def spend (d : Decoded) (p : Point) : Point :=
  if c.starts d then { p with remaining := p.remaining - BitVec.ofNat 64 (c.blockCount d) } else p

@[simp] theorem spend_guest (d : Decoded) (p : Point) : (spend c d p).guest = p.guest := by
  unfold spend
  split_ifs <;> rfl

@[simp] theorem spend_cursor (d : Decoded) (p : Point) : (spend c d p).cursor = p.cursor := by
  unfold spend
  split_ifs <;> rfl

/-- What a return has to find. -/
def Complete (p : Point) : Prop :=
  p.cursor = stop c ∧ p.remaining = 0 ∧ p.guest.core.gpr 0 = BitVec.ofNat 64 c.recipe.h.result

instance (p : Point) : Decidable (Complete c p) := inferInstanceAs (Decidable (_ ∧ _))

/-- The instruction itself. -/
def follow (d : Decoded) (p : Point) : Point :=
  { p with guest := (advance c.isa c.recipe.h d p.guest).1 }

/-- An instruction behind the checks of its block start. -/
def body (limit : Word) (d : Decoded) (p : Point) : Point ⊕ (Exit × Point) :=
  if d.returns then .inr (if Complete c p then .returned else .diverged, p)
  else
    match accessed d with
    | none => .inl (follow c d p)
    | some m =>
      let a := operandOf c d m p.guest.core
      match served c d m (p.fields limit) a with
      | none => .inr (.rejected, p)
      | some x =>
        if d.inst.unaligned.aligned = true ∧ x.toNat % 16 ≠ 0 then .inr (.faulted, p)
        else if m.action = .write then
          .inl { follow c d p with cursor := a + BitVec.ofNat 64 (m.size / 8) }
        else .inl (follow c d p)

/-- A checkpoint is due at a point, or the block has missed it. -/
def Ledger.Due (p : Point) (b : Ledger) : Prop :=
  b.collecting ≠ 0 ∧ p.cursor ≠ stop c ∧ ¬ p.cursor < b.nextPage

instance (p : Point) (b : Ledger) : Decidable (b.Due c p) := inferInstanceAs (Decidable (_ ∧ _))

/-- The checkpoint part of a block start. -/
def Ledger.pass (p : Point) (b : Ledger) : Ledger :=
  if b.Due c p then
    if p.cursor = b.nextPage then
      { b with
        nextFrame := b.nextFrame + BitVec.ofNat 64 c.frameSize
        nextPage := b.nextPage + BitVec.ofNat 64 PAGE
        frames := Function.update b.frames b.nextFrame (some p) }
    else { b with collecting := 0 }
  else b

/-- The ledger behind the block start of an instruction, if it has one. -/
def crossed (d : Decoded) (p : Point) (b : Ledger) : Ledger := if c.starts d then b.pass c p else b

/-- **One instruction** of a replay. -/
def step (q : Extent) (s : Point × Ledger) : Option ((Point × Ledger) ⊕ (Exit × Point × Ledger)) :=
  (find c.plan.instructions s.1.guest.pc).map fun d =>
    if c.starts d = true ∧ q.validating = false ∧ s.1.cursor = q.limit then .inr (.yielded, s)
    else if c.starts d = true ∧ s.1.remaining < BitVec.ofNat 64 (c.blockCount d) then
      .inr (.exhausted, spend c d s.1, crossed c d s.1 s.2)
    else
      (body c q.limit d (spend c d s.1)).map (fun p => (p, crossed c d s.1 s.2))
        fun x => (x.1, x.2, crossed c d s.1 s.2)

/-- Where a piece leads to, or how it ends the run. -/
def toSum : Flow → (ℕ × Host) ⊕ (Exit × Host)
  | .next position h => .inl (position, h)
  | .stop e h => .inr (e, h)

/-- **One piece** of the generated code. -/
def hostStep (s : ℕ × Host) : Option ((ℕ × Host) ⊕ (Exit × Host)) :=
  c.plan.instructions[s.1]?.map fun d => toSum (c.piece s.1 d s.2)

theorem run_eq : ∀ (fuel position : ℕ) (h : Host), c.run fuel position h =
    (Machine.run (hostStep c) fuel (position, h)).map fun x => (x.1.1, x.1.2, x.2 + lastCount x.1.1)
  | 0, _, _ => rfl
  | fuel + 1, position, h => by
    rw [Compiler.run, Machine.run, hostStep]
    cases c.plan.instructions[position]? with
    | none => rfl
    | some d =>
      simp only [Option.map_some]
      cases c.piece position d h with
      | stop e h' => simp [toSum, lastCount]
      | next j h' =>
        simp only [toSum, run_eq fuel j h', Option.map_map]
        congr 1
        funext x
        simp only [Function.comp_apply, Prod.mk.injEq, true_and]
        omega

/-! ### The output so far -/

/-- **What holds at every point**: the cursor is in the output, and around what has been stored the
memory holds the inputs. -/
structure Sound (p : Point) : Prop where
  low : c.recipe.h.output ≤ p.cursor.toNat
  high : p.cursor.toNat ≤ c.recipe.h.output + c.recipe.h.length
  outside : ∀ a : Word, ¬ (c.recipe.h.output ≤ a.toNat ∧ a.toNat < p.cursor.toNat) →
    p.guest.mem a = inputMemory c.recipe a

/-- What an instruction that goes on does to output and memory, with the bytes it stores. -/
inductive Taken (limit : Word) (p p' : Point) : List (Word × UInt8) → Prop
  | quiet (hc : p'.cursor = p.cursor) (hm : p'.guest.mem = p.guest.mem) : Taken limit p p' []
  | store {bytes : List UInt8} (hpos : 0 < bytes.length) (hlen : bytes.length ≤ 16)
    (hfit : p.cursor.toNat + bytes.length < 2 ^ 64)
    (hlimit : p.cursor.toNat + bytes.length ≤ limit.toNat)
    (hc : p'.cursor = p.cursor + BitVec.ofNat 64 bytes.length)
    (hm : p'.guest.mem = writeBytes p.guest.mem p.cursor bytes) :
    Taken limit p p' (storedBytes p.cursor bytes)

theorem Taken.cursor {limit : Word} {p p' : Point} {t : List (Word × UInt8)}
    (h : Taken limit p p' t) :
    p'.cursor.toNat = p.cursor.toNat + t.length ∧ (t ≠ [] → p'.cursor.toNat ≤ limit.toNat) := by
  cases h with
  | quiet hc hm => exact ⟨by rw [hc]; rfl, fun h => absurd rfl h⟩
  | store hpos hlen hfit hlimit hc hm =>
    rw [hc, toNat_add_ofNat hfit, storedBytes, List.length_map, List.length_range]
    exact ⟨rfl, fun _ => hlimit⟩

theorem Taken.below {limit : Word} {p p' : Point} {t : List (Word × UInt8)} (h : Taken limit p p' t)
    {a : Word} (ha : a.toNat < p.cursor.toNat) : p'.guest.mem a = p.guest.mem a := by
  cases h with
  | quiet hc hm => rw [hm]
  | store hpos hlen hfit hlimit hc hm => rw [hm, writeBytes_outside (by omega) (.inl ha)]

variable {c}

/-- **A taken step keeps the output in order.** -/
theorem Taken.sound {limit : Word} {p p' : Point} {t : List (Word × UInt8)} (h : Taken limit p p' t)
    (hs : Sound c p) (hl : limit.toNat ≤ c.recipe.h.output + c.recipe.h.length) : Sound c p' := by
  obtain ⟨hcur, hlim⟩ := h.cursor
  cases h with
  | quiet hc hm =>
    refine ⟨by rw [hc]; exact hs.low, by rw [hc]; exact hs.high, fun a ha => ?_⟩
    rw [hm]
    exact hs.outside a (by rwa [hc] at ha)
  | store hpos hlen hfit hlimit hc hm =>
    have hto := toNat_add_ofNat hfit
    have hlow := hs.low
    refine ⟨by omega, by rw [hc, hto]; omega, fun a ha => ?_⟩
    rw [hc, hto] at ha
    rw [hm, writeBytes_outside (by omega) (by omega)]
    exact hs.outside a (by omega)

section
variable {r : Recipe} (hw : WellFormed r) (ha : Admitted c.isa r c.plan)

theorem accessed_eq {d : Decoded} {m : Mem} (h : accessed d = some m) :
    d.branch = false ∧ d.memory = some m ∧ d.inst.mnemonic ≠ .lea := by
  unfold accessed at h
  split_ifs at h with hb
  obtain ⟨hm, hl⟩ := Option.filter_eq_some_iff.mp h
  exact ⟨by simpa using hb, hm, of_decide_eq_true hl⟩

include ha

theorem accessed_action {d : Decoded} (hd : d ∈ c.plan.instructions) {m : Mem}
    (h : accessed d = some m) :
    m.action = .read ∨ m.action = .write := by
  obtain ⟨-, hm, hl⟩ := accessed_eq h
  rcases ((ha.admissible d hd).addressable m hm).action with h | h
  · exact absurd h hl
  · exact h

/-- **An instruction that goes on.** -/
theorem body_taken {limit : Word} {d : Decoded} (hd : d ∈ c.plan.instructions) {p p' : Point}
    (h : body c limit d p = .inl p') :
    d.returns = false ∧ p'.guest = (advance c.isa c.recipe.h d p.guest).1 ∧
      p'.remaining = p.remaining ∧
      Taken limit p p' (advance c.isa c.recipe.h d p.guest).2 := by
  unfold body at h
  cases hr : d.returns with
  | true => rw [hr] at h; cases h
  | false =>
    have hmem : d.memory = d.inst.memory := (ha.admissible d hd).memory hr
    -- without a store, memory stays as it is
    have hquiet : (∀ m, accessed d = some m → m.action ≠ .write) →
        (advance c.isa c.recipe.h d p.guest).1.mem = p.guest.mem ∧
          (advance c.isa c.recipe.h d p.guest).2 = [] := by
      intro hno
      unfold advance
      cases hb : d.branch with
      | true =>
        simp only [if_true]
        cases d.condition with
        | none => exact ⟨rfl, rfl⟩
        | some code => simp only; split_ifs <;> exact ⟨rfl, rfl⟩
      | false =>
        have hstores : storesTo d.inst = none := by
          unfold storesTo
          rw [← hmem]
          cases hm : d.memory with
          | none => rfl
          | some m =>
            refine if_neg fun hc => hno m ?_ hc.2
            simp [accessed, hb, hm, hc.1]
        simp only [Bool.false_eq_true, if_false, execute, hstores, and_self]
    rw [hr] at h
    simp only [Bool.false_eq_true, if_false] at h
    cases hacc : accessed d with
    | none =>
      rw [hacc] at h
      obtain rfl := Sum.inl.inj h
      obtain ⟨h1, h2⟩ := hquiet (by simp [hacc])
      rw [h2]
      exact ⟨rfl, rfl, rfl, .quiet rfl h1⟩
    | some m =>
      rw [hacc] at h
      simp only at h
      cases hs : served c d m (p.fields limit) (operandOf c d m p.guest.core) with
      | none => rw [hs] at h; cases h
      | some x =>
        rw [hs] at h
        simp only at h
        split_ifs at h with hal hwr
        · obtain rfl := Sum.inl.inj h
          obtain ⟨hb, hm, hl⟩ := accessed_eq hacc
          unfold served at hs
          split_ifs at hs with h1 h2
          obtain ⟨hcur, hfit, hlim⟩ := h2
          have hcur' : operandOf c d m p.guest.core = p.cursor := hcur
          have hadd := (ha.admissible d hd).addressable m hm
          have hsize : 0 < m.size / 8 ∧ m.size / 8 ≤ 16 := by
            have h1 := hadd.pos
            have h2 := hadd.le
            have h3 := hadd.bytes
            omega
          have hstores : storesTo d.inst = some m := by
            unfold storesTo
            rw [← hmem, hm]
            exact if_pos ⟨hl, hwr⟩
          have hlen := c.isa.exec_stores d.inst p.guest.core
            (loadedFrom c.recipe.h d.source d.inst p.guest) m (hmem ▸ hm) hwr hl
          have hop : operandAddress c.recipe.h d.source d.inst m p.guest.core = p.cursor := hcur
          rw [BitVec.lt_def, toNat_add_ofNat hfit, hcur'] at hlim
          rw [hcur'] at hfit
          have hlim' : ¬ limit.toNat < p.cursor.toNat + m.size / 8 := hlim
          refine ⟨rfl, rfl, rfl, ?_⟩
          simp only [follow, advance, hb, Bool.false_eq_true, if_false, execute, hstores, hop]
          refine .store (by omega) (by omega) (by omega) (by omega) ?_ rfl
          rw [hlen, hcur']
        · obtain rfl := Sum.inl.inj h
          obtain ⟨h1, h2⟩ := hquiet fun m' hm' => by
            obtain rfl := Option.some.inj (hacc.symm.trans hm')
            exact hwr
          rw [h2]
          exact ⟨rfl, rfl, rfl, .quiet rfl h1⟩

end

end

end Afterfree.Native.Interpreter
