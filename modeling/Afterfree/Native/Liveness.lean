import Afterfree.Native.Reference

/-!
# Live flags

The data-flow analysis of `NativeReplay::decode` over a closed instruction map. A guard may clobber
the flags in front of an instruction whose `flags_in` is empty.

* `liveness_solves`: the loop ends, and its result solves the equation of every instruction;
* `exec_live`, `branch_live`: instructions keep two states in agreement on the live flags;
* `clobbered_run`: a run with the flags clobbered wherever `flags_in` is empty goes through the same
  registers and memories as one without.
-/

namespace Afterfree.Native.Liveness

open Afterfree.Common Afterfree.Codec Afterfree.Native.X86 Afterfree.Native.Decode
open Afterfree.Native.Reference Afterfree.Lib

/-- **A closed instruction map**: keys in order, and every branch target and every fall-through is a
key. -/
structure ClosedMap (ds : List Decoded) : Prop where
  keys : ds.Pairwise fun a b => a.pc < b.pc
  target : ∀ d ∈ ds, d.branch = true → present ds d.target = true
  falls : ∀ d ∈ ds, d.falls = true → present ds d.next = true

theorem find_of_mem {ds : List Decoded} (hk : ds.Pairwise fun a b => a.pc < b.pc) {d : Decoded}
    (hd : d ∈ ds) : find ds d.pc = some d := by
  unfold find
  induction ds with
  | nil => cases hd
  | cons x xs ih =>
    rw [List.pairwise_cons] at hk
    rcases List.mem_cons.mp hd with rfl | hd
    · rw [List.find?_cons_of_pos (by simp)]
    · have hlt := hk.1 d hd
      rw [List.find?_cons_of_neg (by simp; omega)]
      exact ih hk.2 hd

theorem mem_of_find {ds : List Decoded} {pc : ℕ} {d : Decoded} (h : find ds pc = some d) :
    d ∈ ds ∧ d.pc = pc :=
  ⟨List.mem_of_find?_eq_some h, by simpa using List.find?_some h⟩

/-! ### The loop -/

/-- The flags of a mask. -/
def bits (m : BitVec 32) : Finset (Fin 32) := Finset.univ.filter fun k => m.getLsbD k = true

theorem mem_bits {m : BitVec 32} {k : Fin 32} : k ∈ bits m ↔ m.getLsbD k = true := by
  simp [bits]

theorem bits_injective : Function.Injective bits := by
  intro a b h
  refine BitVec.eq_of_getLsbD_eq fun k hk => ?_
  have hiff := Finset.ext_iff.mp h ⟨k, hk⟩
  rw [mem_bits, mem_bits] at hiff
  exact Bool.eq_iff_iff.mpr hiff

theorem needed_mono (ds : List Decoded) (f g : Flags) (h : Fixpoint.Below bits f g) :
    Fixpoint.Below bits (needed ds f) (needed ds g) := by
  intro pc k
  unfold needed
  cases find ds pc with
  | none => exact id
  | some d =>
    have ht := @h d.target k
    have hn := @h d.next k
    simp only [mem_bits] at ht hn
    simp only [mem_bits, live, BitVec.getLsbD_or, BitVec.getLsbD_and, Bool.or_eq_true,
      Bool.and_eq_true]
    rintro (h1 | ⟨h1 | h1, h2⟩)
    · exact .inl h1
    · refine .inr ⟨.inl ?_, h2⟩
      by_cases hb : d.branch = true
      · rw [if_pos hb] at h1 ⊢
        exact ht h1
      · rw [if_neg hb] at h1
        simp at h1
    · refine .inr ⟨.inr ?_, h2⟩
      by_cases hb : d.falls = true
      · rw [if_pos hb] at h1 ⊢
        exact hn h1
      · rw [if_neg hb] at h1
        simp at h1

/-- **The `do`/`while` loop ends.** -/
theorem livenessLoop_ends (ds : List Decoded) :
    livenessLoop ds (32 * ds.length + 1) = some (liveness ds) := by
  have hstart : Fixpoint.Ascending bits (needed ds) (ds.reverse.map Decoded.pc) fun _ => 0 := by
    intro pc _ k hk
    simp [mem_bits] at hk
  have hfuel : Fintype.card (Fin 32) * (ds.reverse.map Decoded.pc).length <
      Fixpoint.weight bits (ds.reverse.map Decoded.pc) (fun _ => 0) + (32 * ds.length + 1) := by
    rw [Fintype.card_fin, List.length_map, List.length_reverse]
    omega
  obtain ⟨g, hg⟩ := Fixpoint.iterate_terminates (needed_mono ds) bits_injective hstart hfuel
  have hloop : livenessLoop ds (32 * ds.length + 1) = some g := hg
  rw [liveness, hloop]
  rfl

/-- **Its result solves the equation** of every instruction. -/
theorem liveness_solves {ds : List Decoded} (hk : ds.Pairwise fun a b => a.pc < b.pc) {d : Decoded}
    (hd : d ∈ ds) :
    liveness ds d.pc = d.inst.tested ||| (live (liveness ds) d &&& ~~~ d.inst.killed) := by
  have h := Fixpoint.iterate_solves (livenessLoop_ends ds) d.pc
    (List.mem_map_of_mem (List.mem_reverse.mpr hd))
  rw [← h, needed, find_of_mem hk hd]

/-! ### Paths -/

/-- An edge of the control-flow graph. -/
def Edge (ds : List Decoded) (a b : ℕ) : Prop :=
  ∃ d, find ds a = some d ∧ ((d.branch = true ∧ b = d.target) ∨ (d.falls = true ∧ b = d.next))

/-- The instruction at an address tests a flag. -/
def Tests (ds : List Decoded) (a k : ℕ) : Prop :=
  ∃ d, find ds a = some d ∧ d.inst.tested.getLsbD k = true

/-- The instruction at an address writes a flag whatever its operands are. -/
def Writes (ds : List Decoded) (a k : ℕ) : Prop :=
  ∃ d, find ds a = some d ∧ d.inst.killed.getLsbD k = true

theorem tested_live {ds : List Decoded} (hk : ds.Pairwise fun a b => a.pc < b.pc) {a k : ℕ}
    (h : Tests ds a k) : (liveness ds a).getLsbD k = true := by
  obtain ⟨d, hf, ht⟩ := h
  obtain ⟨hd, rfl⟩ := mem_of_find hf
  rw [liveness_solves hk hd, BitVec.getLsbD_or, ht, Bool.true_or]

theorem edge_live {ds : List Decoded} (hk : ds.Pairwise fun a b => a.pc < b.pc) {a b k : ℕ}
    (he : Edge ds a b) (hb : (liveness ds b).getLsbD k = true) (hw : ¬ Writes ds a k) :
    (liveness ds a).getLsbD k = true := by
  obtain ⟨d, hf, hedge⟩ := he
  obtain ⟨hd, rfl⟩ := mem_of_find hf
  have hkill : d.inst.killed.getLsbD k = false := by
    by_contra hc
    exact hw ⟨d, hf, by simpa using hc⟩
  have hlive : (live (liveness ds) d).getLsbD k = true := by
    unfold live
    rw [BitVec.getLsbD_or, Bool.or_eq_true]
    rcases hedge with ⟨h1, rfl⟩ | ⟨h1, rfl⟩
    · exact .inl (by rwa [if_pos h1])
    · exact .inr (by rwa [if_pos h1])
  have hk32 : k < 32 := by
    by_contra hc
    rw [BitVec.getLsbD_of_ge _ _ (by omega)] at hb
    cases hb
  rw [liveness_solves hk hd, BitVec.getLsbD_or, BitVec.getLsbD_and, hlive,
    BitVec.getLsbD_not, hkill]
  simp [hk32]

/-- **A path to a test**: a flag that is not live at its start has been written on the way. -/
theorem path_writes {ds : List Decoded} (hk : ds.Pairwise fun a b => a.pc < b.pc) {k : ℕ} :
    ∀ (n : ℕ) (path : ℕ → ℕ), (∀ i < n, Edge ds (path i) (path (i + 1))) →
      (liveness ds (path 0)).getLsbD k = false → Tests ds (path n) k →
      ∃ i < n, Writes ds (path i) k
  | 0, path, _, hdead, ht => by
    rw [tested_live hk ht] at hdead
    cases hdead
  | n + 1, path, hedges, hdead, ht => by
    by_cases hw : Writes ds (path 0) k
    · exact ⟨0, by omega, hw⟩
    · have hdead' : (liveness ds (path 1)).getLsbD k = false := by
        by_contra hc
        have := edge_live hk (hedges 0 (by omega)) (by simpa using hc) hw
        rw [hdead] at this
        cases this
      obtain ⟨i, hi, hwi⟩ := path_writes hk n (fun i => path (i + 1))
        (fun i hi => hedges (i + 1) (by omega)) hdead' ht
      exact ⟨i + 1, by omega, hwi⟩

/-! ### Instructions -/

/-- **A permitted instruction** keeps two cores in agreement that agree on the guest's registers and
on the live flags. -/
theorem exec_live (isa : Isa) {flags : Flags} {d : Decoded} {gprs vectors : List (Fin 16)}
    {c c' : Core} (l : Loaded)
    (hsolve : flags d.pc = d.inst.tested ||| (live flags d &&& ~~~ d.inst.killed))
    (hf : d.falls = true) (hg : ∀ k ∈ d.inst.gprs, k ∈ gprs)
    (hx : ∀ k ∈ d.inst.vectors, k ∈ vectors) (hs : SameOn gprs vectors c c')
    (ha : Agree (flags d.pc) c.flags c'.flags) :
    SameOn gprs vectors (isa.exec d.inst c l).1 (isa.exec d.inst c' l).1 ∧
      Agree (flags d.next) (isa.exec d.inst c l).1.flags (isa.exec d.inst c' l).1.flags ∧
      (isa.exec d.inst c l).2 = (isa.exec d.inst c' l).2 := by
  rw [hsolve] at ha
  obtain ⟨h1, h2, h3⟩ := isa.exec_sameOn hg hx l hs ha
  refine ⟨h1, h2.mono fun k hk => ?_, h3⟩
  have hlive : (live flags d).getLsbD k = true := by
    unfold live
    rw [if_pos hf, BitVec.getLsbD_or, hk, Bool.or_true]
  have hk32 : k < 32 := by
    by_contra hc
    rw [BitVec.getLsbD_of_ge _ _ (by omega)] at hk
    cases hk
  rw [BitVec.getLsbD_or, BitVec.getLsbD_and, hlive, BitVec.getLsbD_not]
  cases d.inst.killed.getLsbD k <;> simp [hk32]

/-- The masks of a decoded branch are right: its condition depends on the flags it tests, and it
kills none. -/
def BranchMasks (d : Decoded) : Prop :=
  (∀ code, d.condition = some code →
    ∀ f g, Agree d.inst.tested f g → condition code f = condition code g) ∧
  (d.branch = true → d.inst.killed = 0)

/-- **A branch** goes the same way, and the flags live there agree. -/
theorem branch_live {flags : Flags} {d : Decoded} {f g : Word}
    (hsolve : flags d.pc = d.inst.tested ||| (live flags d &&& ~~~ d.inst.killed))
    (hm : BranchMasks d) (hb : d.branch = true) (ha : Agree (flags d.pc) f g) :
    (∀ code, d.condition = some code → condition code f = condition code g) ∧
      Agree (flags d.target) f g ∧ (d.falls = true → Agree (flags d.next) f g) := by
  have hkill := hm.2 hb
  rw [hsolve, hkill] at ha
  have hlive : ∀ k, (live flags d).getLsbD k = true →
      (d.inst.tested ||| (live flags d &&& ~~~ (0 : BitVec 32))).getLsbD k = true := by
    intro k hk
    have hk32 : k < 32 := by
      by_contra hc
      rw [BitVec.getLsbD_of_ge _ _ (by omega)] at hk
      cases hk
    rw [BitVec.getLsbD_or, BitVec.getLsbD_and, hk, BitVec.getLsbD_not]
    simp [hk32]
  refine ⟨fun code hc => hm.1 code hc f g ?_, ?_, fun hf => ?_⟩
  · exact ha.mono fun k hk => by rw [BitVec.getLsbD_or, hk, Bool.true_or]
  · refine ha.mono fun k hk => hlive k ?_
    unfold live
    rw [if_pos hb, BitVec.getLsbD_or, hk, Bool.true_or]
  · refine ha.mono fun k hk => hlive k ?_
    unfold live
    rw [if_pos hf, BitVec.getLsbD_or, hk, Bool.or_true]

/-! ### Clobbered runs -/

/-- One instruction of the map; a return ends the run. -/
def mapStep (isa : Isa) (h : Header) (ds : List Decoded) (g : Guest) : Option Guest :=
  match find ds g.pc with
  | none => none
  | some d => if d.returns then none else some (advance isa h d g).1

/-- The run of the map. -/
def mapRun (isa : Isa) (h : Header) (ds : List Decoded) (g : Guest) : ℕ → Option Guest
  | 0 => some g
  | n + 1 => (mapRun isa h ds g n).bind (mapStep isa h ds)

/-- A guard in front of the instruction: it can leave any flags behind when `flags_in` is empty. -/
def clobber (flags : Flags) (noise : Option Word) (g : Guest) : Guest :=
  match noise with
  | none => g
  | some v => if flags g.pc = 0 then { g with core := { g.core with flags := v } } else g

/-- The run with a guard in front of every instruction that `noise` chooses. -/
def clobberedRun (isa : Isa) (h : Header) (ds : List Decoded) (noise : ℕ → Option Word)
    (g : Guest) :
    ℕ → Option Guest
  | 0 => some g
  | n + 1 => (clobberedRun isa h ds noise g n).bind fun g' =>
      mapStep isa h ds (clobber (liveness ds) (noise n) g')

/-- Two guests that differ in dead flags at most. -/
structure Twin (flags : Flags) (g g' : Guest) : Prop where
  pc : g.pc = g'.pc
  gpr : g.core.gpr = g'.core.gpr
  xmm : g.core.xmm = g'.core.xmm
  mxcsr : g.core.mxcsr = g'.core.mxcsr
  mem : g.mem = g'.mem
  flags : Agree (flags g.pc) g.core.flags g'.core.flags

theorem Twin.clobber {flags : Flags} {g g' : Guest} (h : Twin flags g g') (noise : Option Word) :
    Twin flags g (clobber flags noise g') := by
  unfold Liveness.clobber
  cases noise with
  | none => exact h
  | some v =>
    simp only
    split_ifs with hz
    · refine ⟨h.pc, h.gpr, h.xmm, h.mxcsr, h.mem, ?_⟩
      rw [h.pc, hz]
      exact Agree.zero _ _
    · exact h

theorem Twin.loadedFrom {flags : Flags} {g g' : Guest} (ht : Twin flags g g') (h : Header)
    (c : Instruction) (i : Inst) :
    loadedFrom h c i g = loadedFrom h c i g' ∧
      ∀ m, operandAddress h c i m g.core = operandAddress h c i m g'.core := by
  have haddr : ∀ m, operandAddress h c i m g.core = operandAddress h c i m g'.core := by
    intro m
    have hs : SameOn (List.finRange 16) (List.finRange 16) g.core g'.core :=
      ⟨fun r _ => congrFun ht.gpr r, fun r _ => congrFun ht.xmm r, ht.mxcsr⟩
    exact effective_same hs (fun k _ _ => List.mem_finRange k) (fun k _ _ => List.mem_finRange k)
  refine ⟨?_, haddr⟩
  unfold Reference.loadedFrom
  cases i.memory with
  | none => rfl
  | some m => simp only [haddr m, ht.mem]

/-- **One instruction** keeps twins. -/
theorem Twin.advance (isa : Isa) (h : Header) {ds : List Decoded}
    (hk : ds.Pairwise fun a b => a.pc < b.pc) {d : Decoded} (hd : d ∈ ds) (hm : BranchMasks d)
    (hr : d.returns = false) {g g' : Guest} (ht : Twin (liveness ds) g g') (hpc : g.pc = d.pc) :
    Twin (liveness ds) (advance isa h d g).1 (advance isa h d g').1 := by
  have hsolve := liveness_solves hk hd
  have hagree : Agree (liveness ds d.pc) g.core.flags g'.core.flags := hpc ▸ ht.flags
  unfold Reference.advance
  cases hb : d.branch with
  | true =>
    obtain ⟨hcond, htarget, hnext⟩ := branch_live hsolve hm hb hagree
    have hgo : ∀ pc, Agree (liveness ds pc) g.core.flags g'.core.flags →
        Twin (liveness ds) { g with pc := pc } { g' with pc := pc } := fun pc hp =>
      ⟨rfl, ht.gpr, ht.xmm, ht.mxcsr, ht.mem, hp⟩
    simp only [if_true]
    cases hc : d.condition with
    | none => exact hgo _ htarget
    | some code =>
      have hf : d.falls = true := by simp [Decoded.falls, hr, hb, hc]
      simp only [hcond code hc]
      split_ifs
      · exact hgo _ htarget
      · exact hgo _ (hnext hf)
  | false =>
    have hf : d.falls = true := by simp [Decoded.falls, hr, hb]
    obtain ⟨hload, haddr⟩ := ht.loadedFrom h d.source d.inst
    have hs : SameOn (List.finRange 16) (List.finRange 16) g.core g'.core :=
      ⟨fun r _ => congrFun ht.gpr r, fun r _ => congrFun ht.xmm r, ht.mxcsr⟩
    obtain ⟨hsame, hflags, hout⟩ :=
      exec_live isa (Reference.loadedFrom h d.source d.inst g) hsolve hf
      (fun k _ => List.mem_finRange k) (fun k _ => List.mem_finRange k) hs hagree
    have hgpr := funext fun r => hsame.gpr r (List.mem_finRange r)
    have hxmm := funext fun r => hsame.xmm r (List.mem_finRange r)
    simp only [Bool.false_eq_true, if_false]
    unfold execute
    rw [← hload]
    cases storesTo d.inst with
    | none => exact ⟨rfl, hgpr, hxmm, hsame.mxcsr, ht.mem, hflags⟩
    | some m =>
      refine ⟨rfl, hgpr, hxmm, hsame.mxcsr, ?_, hflags⟩
      simp only [haddr m, ht.mem, hout]

/-- **Clobbering dead flags changes nothing else.** -/
theorem clobbered_run (isa : Isa) (h : Header) {ds : List Decoded} (hc : ClosedMap ds)
    (hm : ∀ d ∈ ds, BranchMasks d) (noise : ℕ → Option Word) (g : Guest) :
    ∀ n, Option.Rel (Twin (liveness ds)) (mapRun isa h ds g n) (clobberedRun isa h ds noise g n)
  | 0 => .some ⟨rfl, rfl, rfl, rfl, rfl, .refl _ _⟩
  | n + 1 => by
    have ih := clobbered_run isa h hc hm noise g n
    rw [mapRun, clobberedRun]
    generalize mapRun isa h ds g n = a at ih
    generalize clobberedRun isa h ds noise g n = b at ih
    cases ih with
    | none => exact .none
    | some ht =>
      have ht' := ht.clobber (noise n)
      simp only [Option.bind_some, mapStep, ← ht'.pc]
      split
      · exact .none
      · next d hf =>
        obtain ⟨hd, hpc⟩ := mem_of_find hf
        split_ifs with hr
        · exact .none
        · exact .some (ht'.advance isa h hc.keys hd (hm d hd) (by simpa using hr) hpc.symm)

/-! ### The analysis is sound -/

/-- **Live flags.** Over every closed instruction map the loop ends. A flag outside of `flags_in` is
tested on no path before an instruction on it has written the flag whatever its operands are. So a
run with the flags clobbered in front of any instructions whose `flags_in` is empty goes on as long
as the run without, with the same registers and memory, and every instruction finds the flags it
tests unchanged. -/
theorem liveness_sound (isa : Isa) (h : Header) {ds : List Decoded} (hc : ClosedMap ds)
    (hm : ∀ d ∈ ds, BranchMasks d) :
    livenessLoop ds (32 * ds.length + 1) = some (liveness ds) ∧
      (∀ (n : ℕ) (path : ℕ → ℕ) (k : ℕ), (∀ i < n, Edge ds (path i) (path (i + 1))) →
        (liveness ds (path 0)).getLsbD k = false → Tests ds (path n) k →
        ∃ i < n, Writes ds (path i) k) ∧
      ∀ (noise : ℕ → Option Word) (g : Guest) (n : ℕ),
        ((mapRun isa h ds g n).isSome = (clobberedRun isa h ds noise g n).isSome) ∧
        ∀ a b, mapRun isa h ds g n = some a → clobberedRun isa h ds noise g n = some b →
          a.pc = b.pc ∧ a.core.gpr = b.core.gpr ∧ a.core.xmm = b.core.xmm ∧
            a.core.mxcsr = b.core.mxcsr ∧ a.mem = b.mem ∧
            ∀ k, Tests ds a.pc k → a.core.flags.getLsbD k =
              (clobber (liveness ds) (noise n) b).core.flags.getLsbD k := by
  refine ⟨livenessLoop_ends ds, fun n path k => path_writes hc.keys n path, fun noise g n => ?_⟩
  have hrel := clobbered_run isa h hc hm noise g n
  constructor
  · generalize mapRun isa h ds g n = x at hrel
    generalize clobberedRun isa h ds noise g n = y at hrel
    cases hrel <;> rfl
  · intro a b hx hy
    rw [hx, hy] at hrel
    cases hrel with
    | some ht =>
      refine ⟨ht.pc, ht.gpr, ht.xmm, ht.mxcsr, ht.mem, fun k hk => ?_⟩
      exact (ht.clobber (noise n)).flags k (tested_live hc.keys hk)

/-- `nop` and `ret`. -/
def straightMap : List Decoded :=
  [⟨⟨0, 1, [0x90]⟩, ⟨1, true, false, .nop, false, 0x90, [], 0, 64, none⟩, 0, none, none,
    false, false⟩, ⟨⟨1, 1, [0xc3]⟩, ⟨1, true, false, .ret, false, 0xc3, [], 0, 64, none⟩, 0, none,
    none, false, true⟩]

theorem straightMap_closed : ClosedMap straightMap :=
  ⟨by decide, by decide, by decide⟩

/-- `mov byte [rdi], 7`, `jb` back to it and `ret`. -/
def loopMap : List Decoded :=
  [⟨⟨0, 3, [0xc6, 7, 7]⟩, ⟨3, true, false, .mov, false, 0xc6,
      [.memory ⟨.gp 7 false, .none, 0, 0, .other, 8, .write⟩, .immediate false 7], 2, 64, none⟩, 0,
      some ⟨.gp 7 false, .none, 0, 0, .other, 8, .write⟩, none, false, false⟩,
    ⟨⟨3, 2, [0x72, 0xfb]⟩, ⟨2, true, false, .other, true, 0x72, [.immediate true (-5)], 1, 64,
      some ⟨1, 0, 0, 0⟩⟩, 0, none, some 2, true, false⟩,
    ⟨⟨5, 1, [0xc3]⟩, ⟨1, true, false, .ret, false, 0xc3, [], 0, 64, none⟩, 0, none,
      none, false, true⟩]

theorem loopMap_closed : ClosedMap loopMap := ⟨by decide, by decide, by decide⟩

theorem loopMap_masks : ∀ d ∈ loopMap, BranchMasks d := by
  intro d hd
  simp only [loopMap, List.mem_cons, List.not_mem_nil, or_false] at hd
  rcases hd with rfl | rfl | rfl
  · exact ⟨fun _ h => (by cases h), fun h => (by cases h)⟩
  · refine ⟨fun code hc f g hfg => ?_, fun _ => by decide⟩
    obtain rfl := Option.some.inj hc
    exact hfg 0 (by decide)
  · exact ⟨fun _ h => (by cases h), fun h => (by cases h)⟩

/-- The loop keeps its carry flag. -/
theorem liveness_sound_loop : ClosedMap loopMap ∧
    livenessLoop loopMap (32 * loopMap.length + 1) = some (liveness loopMap) :=
  ⟨loopMap_closed, (liveness_sound tinyIsa (Header.ofBytes []) loopMap_closed loopMap_masks).1⟩

/-- The carry flag is dead before the `nop`, and nothing on the only path from there writes it. -/
theorem unwritten_path : ClosedMap straightMap ∧ (liveness straightMap 0).getLsbD 0 = false ∧
    Edge straightMap 0 1 ∧ (∀ a, ¬ Edge straightMap 1 a) ∧
    ¬ ∃ i ∈ [0, 1], Writes straightMap i 0 := by
  refine ⟨straightMap_closed, by decide +kernel, ⟨_, rfl, .inr ⟨rfl, rfl⟩⟩, ?_, ?_⟩
  · rintro a ⟨d, hf, hd⟩
    obtain rfl := Option.some.inj hf
    rcases hd with ⟨h1, -⟩ | ⟨h1, -⟩ <;> cases h1
  · rintro ⟨i, hi, d, hf, hd⟩
    rcases List.mem_pair.mp hi with rfl | rfl
    · obtain rfl := Option.some.inj hf
      revert hd
      decide
    · obtain rfl := Option.some.inj hf
      revert hd
      decide

end Afterfree.Native.Liveness
