import Afterfree.Native.Reference

/-!
# Control flow through memory

`decode` resolves the return address and the jumps through memory once, from the inputs. A jump slot
that shares a byte with the output is refused. The slot of the return address is not compared with
it, and inputs may overlap the output.

* `Executes.unstored`: memory that a run has not stored to;
* `control_inputs_kept`: a run that stores inside the output and not to the return address finds all
  slots as they were;
* `return_overwritten`: a recipe whose only store is to its return address.
-/

namespace Afterfree.Native.Slots

open Afterfree.Common Afterfree.Codec Afterfree.Encoding Afterfree.Native.X86
  Afterfree.Native.Decode
open Afterfree.Native.Reference

theorem writeBytes_unstored {mem : Memory} {a b : Word} {bytes : List UInt8}
    (h : ∀ x ∈ storedBytes a bytes, x.1 ≠ b) : writeBytes mem a bytes b = mem b := by
  have hlt : ¬ (b - a).toNat < bytes.length := by
    intro hc
    have hmem : (b, bytes.getD (b - a).toNat 0) ∈ storedBytes a bytes := by
      refine List.mem_map.mpr ⟨(b - a).toNat, List.mem_range.mpr hc, ?_⟩
      rw [BitVec.ofNat_toNat, BitVec.setWidth_eq, BitVec.add_comm, BitVec.sub_add_cancel]
    exact h _ hmem rfl
  unfold writeBytes
  rw [List.getD_eq_getElem?_getD, List.getElem?_eq_none (by omega)]
  rfl

section
variable {isa : Isa} {r : Recipe} {p : Plan} (hw : WellFormed r) (ha : Admitted isa r p)

theorem advance_unstored {h : Header} {d : Decoded} {g : Guest} {b : Word}
    (hb : ∀ x ∈ (advance isa h d g).2, x.1 ≠ b) : (advance isa h d g).1.mem b = g.mem b := by
  unfold advance at *
  split_ifs at * with hbr
  · split
    · split_ifs <;> rfl
    · rfl
  · unfold execute at *
    cases hs : storesTo d.inst with
    | none => rfl
    | some m =>
      simp only [hs] at hb
      exact writeBytes_unstored hb

/-- What `decode` has found at a slot is there in memory. -/
def ReturnKept (r : Recipe) (mem : Memory) : Prop :=
  ∀ j < 8, mem (BitVec.ofNat 64 (r.h.regs.getD 15 0 + j)) =
    inputMemory r (BitVec.ofNat 64 (r.h.regs.getD 15 0 + j))

/-- The stores of a run are bytes of the output. -/
def StoresInside (r : Recipe) (t : List (Word × UInt8)) : Prop :=
  ∀ x ∈ t, r.h.output ≤ x.1.toNat ∧ x.1.toNat < r.h.output + r.h.length

/-- No store of a run is to the return address. -/
def ReturnUnstored (r : Recipe) (t : List (Word × UInt8)) : Prop :=
  ∀ x ∈ t, ¬ (r.h.regs.getD 15 0 ≤ x.1.toNat ∧ x.1.toNat < r.h.regs.getD 15 0 + 8)

theorem advance_stack (ha : Admitted isa r p) {d : Decoded} (hd : d ∈ p.instructions)
    (hr : d.returns = false) (g : Guest) : (advance isa r.h d g).1.core.gpr 4 = g.core.gpr 4 := by
  have h4 : (4 : Fin 16) ∉ d.inst.gprs := fun hc => ha.stack (ha.gprs d hd hr 4 hc)
  unfold advance
  split_ifs
  · split
    · split_ifs <;> rfl
    · rfl
  · unfold execute
    cases storesTo d.inst with
    | none => exact isa.exec_gpr _ _ _ 4 h4
    | some m => exact isa.exec_gpr _ _ _ 4 h4

include hw ha

theorem slot_outside {d : Decoded} (hd : d ∈ p.instructions) {slot : ℕ}
    (hs : jumpSlot d.source d.inst = some slot) :
    slot + 8 ≤ UINT64_MAX ∧ ∀ j < 8,
      ¬ (r.h.output ≤ slot + j ∧ slot + j < r.h.output + r.h.length) := by
  have hbr : d.branch = true := by
    rw [(ha.admissible d hd).branches, decide_eq_true_eq]
    unfold jumpSlot at hs
    split_ifs at hs with hj
    exact .inr hj
  have ht := (ha.admissible d hd).target hbr
  unfold branchTarget at ht
  unfold jumpSlot at hs
  rw [hs] at ht
  simp only at ht
  split_ifs at ht with h1 h2
  cases hread : readSnapshot r slot 8 with
  | none => rw [hread] at ht; cases ht
  | some bytes =>
    refine ⟨(readSnapshot_spec hw hread).1, fun j hj hc => h1 ?_⟩
    have hle : r.h.length ≤ rounded r.h.length := le_rounded r.h.length
    unfold overlap
    simp only [Bool.and_eq_true, decide_eq_true_eq]
    omega

theorem slotsKept_of_unstored {t : List (Word × UInt8)} (hin : StoresInside r t) {mem : Memory}
    (hm : ∀ b, (∀ x ∈ t, x.1 ≠ b) → mem b = inputMemory r b) : SlotsKept r p.instructions mem := by
  intro d hd slot hs j hj
  obtain ⟨hfit, hout⟩ := slot_outside hw ha hd hs
  refine hm _ fun x hx hc => hout j hj ?_
  have hx' := hin x hx
  unfold UINT64_MAX at hfit
  rw [hc, BitVec.toNat_ofNat, Nat.mod_eq_of_lt (by omega)] at hx'
  exact hx'

theorem step_decoded {g g' : Guest} {s : List (Word × UInt8)}
    (hk : SlotsKept r p.instructions g.mem) (hs : step isa r g = .next g' s) :
    ∃ d ∈ p.instructions, d.returns = false ∧ g.pc = d.pc ∧
      advance isa r.h d g = (g', s) := by
  cases hc : r.code.find? fun c => c.address = g.pc with
  | none =>
    unfold step at hs
    rw [hc] at hs
    cases hs
  | some c =>
    have hmem := List.mem_of_find?_eq_some hc
    have hpc : c.address = g.pc := by simpa using List.find?_some hc
    rw [← ha.sources] at hmem
    obtain ⟨d, hd, rfl⟩ := List.mem_map.mp hmem
    cases hr : d.returns with
    | true =>
      have hret := (ha.admissible d hd).returning
      rw [hr] at hret
      unfold step at hs
      rw [hc] at hs
      simp only [(ha.admissible d hd).decoded] at hs
      rw [if_pos (of_decide_eq_true hret.symm)] at hs
      cases hs
    | false =>
      have heq := step_eq_advance hw ha hd hr hpc.symm hk
      rw [hs] at heq
      obtain ⟨h1, h2⟩ := Outcome.next.inj heq
      exact ⟨d, hd, hr, hpc.symm, Prod.ext h1.symm h2.symm⟩

/-- **What a run leaves alone**: the memory it has not stored to, and the stack pointer. -/
theorem Executes.unstored {n : ℕ} {t : List (Word × UInt8)} {g : Guest}
    (hx : Executes isa r (initialGuest r) n t g) (hin : StoresInside r t) :
    (∀ b, (∀ x ∈ t, x.1 ≠ b) → g.mem b = inputMemory r b) ∧
      g.core.gpr 4 = BitVec.ofNat 64 (r.h.regs.getD 15 0) := by
  induction hx with
  | refl => exact ⟨fun _ _ => rfl, rfl⟩
  | @snoc n t s g' g'' hx hs ih =>
    obtain ⟨hmem, hstack⟩ := ih fun x hx => hin x (List.mem_append_left _ hx)
    have hk : SlotsKept r p.instructions g'.mem :=
      slotsKept_of_unstored hw ha (fun x hx => hin x (List.mem_append_left _ hx)) hmem
    obtain ⟨d, hd, hr, -, hadv⟩ := step_decoded hw ha hk hs
    have hg : g'' = (advance isa r.h d g').1 := by rw [hadv]
    have hst : s = (advance isa r.h d g').2 := by rw [hadv]
    refine ⟨fun b hb => ?_, ?_⟩
    · rw [hg, advance_unstored fun x hx => hb x (List.mem_append_right _ (hst ▸ hx))]
      exact hmem b fun x hx => hb x (List.mem_append_left _ hx)
    · rw [hg, advance_stack ha hd hr, hstack]

theorem step_returns {d : Decoded} (hd : d ∈ p.instructions) (hr : d.returns = true) {g : Guest}
    (hpc : g.pc = d.pc) (hstack : g.core.gpr 4 = BitVec.ofNat 64 (r.h.regs.getD 15 0))
    (hk : ReturnKept r g.mem) : step isa r g = .returned r.h.stop := by
  have hret := (ha.admissible d hd).returning
  rw [hr] at hret
  obtain ⟨bytes, hread, hstop⟩ := ha.returned
  unfold step
  rw [hpc, find_code hw ha hd]
  simp only [(ha.admissible d hd).decoded]
  rw [if_pos (of_decide_eq_true hret.symm), hstack, readBytes_inputMemory hw hread hk, hstop]

end

/-- **Control flow inputs.** For every admitted recipe and every prefix of its execution that stores
inside the output and not to the return address, the return address and every jump slot hold what
the inputs hold: a return goes to `stop` and every taken branch to its compiled target. -/
theorem control_inputs_kept {isa : Isa} {cache : Bool} {r : Recipe} {p : Plan} (hw : WellFormed r)
    (hp : decode isa cache r = .ok p) {n : ℕ} {t : List (Word × UInt8)} {g : Guest}
    (hx : Executes isa r (initialGuest r) n t g) (hin : StoresInside r t)
    (hret : ReturnUnstored r t) :
    ReturnKept r g.mem ∧ SlotsKept r p.instructions g.mem ∧
      (∀ d ∈ p.instructions, d.returns = true → g.pc = d.pc → step isa r g = .returned r.h.stop) ∧
      ∀ d ∈ p.instructions, d.branch = true → jumpsTo d.source d.inst g.mem = some d.target := by
  have ha := decode_admitted hw hp
  obtain ⟨hmem, hstack⟩ := Executes.unstored hw ha hx hin
  have hslots := slotsKept_of_unstored hw ha hin hmem
  have hkept : ReturnKept r g.mem := by
    intro j hj
    obtain ⟨bytes, hread, -⟩ := ha.returned
    have hfit := (readSnapshot_spec hw hread).1
    refine hmem _ fun x hx hc => hret x hx ?_
    unfold UINT64_MAX at hfit
    rw [hc, BitVec.toNat_ofNat, Nat.mod_eq_of_lt (by omega)]
    omega
  exact ⟨hkept, hslots, fun d hd hr hpc => step_returns hw ha hd hr hpc hstack hkept,
    fun d hd hb => jumpsTo_eq hw ha hd hb hslots⟩

/-- The recipe for one byte, with the output where its return address is. -/
def returnRecipe : Recipe :=
  tinyRecipe 0 0x10000 [[0xc6, 0x07, 0x07], [0xc3]] [⟨0x10000, [0, 0x90, 0, 0, 0, 0, 0, 0]⟩]

/-- The guest behind the first instruction of a recipe for one byte. -/
def filled (r : Recipe) : Guest :=
  (execute tinyIsa r.h ⟨0x5000, 3, [0xc6, 0x07, 0x07] ++ List.replicate 12 0⟩
    ⟨3, true, false, .mov, false, 0xc6,
      [.memory ⟨.gp 7 false, .none, 0, 0, .other, 8, .write⟩, .immediate false 7], 2, 64, none⟩
    (initialGuest r)).1

theorem fill_inside (rsp : ℕ) (inputs : List Segment) :
    StoresInside (tinyRecipe 0 rsp [[0xc6, 0x07, 0x07], [0xc3]] inputs) [(0x10000, 7)] := by
  intro x hx
  rw [List.mem_singleton] at hx
  subst hx
  exact ⟨Nat.le_refl 0x10000, Nat.lt_succ_self 0x10000⟩

theorem fill_executes : Executes tinyIsa fillRecipe (initialGuest fillRecipe) 1 [(0x10000, 7)]
    (filled fillRecipe) := .snoc .refl rfl

/-- A run of the recipe that keeps its return address. -/
theorem control_inputs_kept_fill : ReturnUnstored fillRecipe [(0x10000, 7)] ∧
    ReturnKept fillRecipe (filled fillRecipe).mem := by
  have hret : ReturnUnstored fillRecipe [(0x10000, 7)] := by
    intro x hx hc
    rw [List.mem_singleton] at hx
    subst hx
    exact absurd hc.2 (Nat.not_lt.mpr (Nat.le_of_ble_eq_true rfl : 0x7000 + 8 ≤ 0x10000))
  have hin : StoresInside fillRecipe [(0x10000, 7)] := fill_inside 0x7000 _
  obtain ⟨p, hp⟩ := exists_plan fillRecipe_ok.2
  exact ⟨hret, (control_inputs_kept fillRecipe_ok.1 hp fill_executes hin hret).1⟩

/-- **The store to the return address**: the recipe is admitted, its run stores inside the output,
and its return goes elsewhere. -/
theorem return_overwritten : WellFormed returnRecipe ∧
    (decode tinyIsa true returnRecipe).isOk = true ∧
    Executes tinyIsa returnRecipe (initialGuest returnRecipe) 1 [(0x10000, 7)]
      (filled returnRecipe) ∧
    StoresInside returnRecipe [(0x10000, 7)] ∧ ¬ ReturnKept returnRecipe (filled returnRecipe).mem ∧
    step tinyIsa returnRecipe (filled returnRecipe) = .returned 0x9007 ∧
      returnRecipe.h.stop = 0x9000 := by
  refine ⟨by decide +kernel, by decide +kernel, .snoc .refl rfl, fill_inside 0x10000 _, ?_, ?_, rfl⟩
  · intro hk
    exact absurd (hk 0 (by decide)) (by decide +kernel)
  · rfl

end Afterfree.Native.Slots
