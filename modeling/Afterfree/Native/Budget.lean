import Afterfree.Native.Calls

/-!
# The instruction budget

The budget is charged once for a block, with a count that `compile` has computed. Every target of a
branch and every instruction behind one starts a block, so that a run leaves a block at its end
only. The potential of a piece is what is left of the budget together with what the block has been
charged for and not executed: each instruction takes one from it, and no run has more pieces than
that.

* `blockCount_unroll`: the counts of straight-line code;
* `run_budget`: a run ends within its budget, and the budget has gone down by what it has executed;
* `call_budget`: so does a call of the generated code.
-/

namespace Afterfree.Native.Budget

open Afterfree.Common Afterfree.Codec Afterfree.Encoding Afterfree.Native.X86
  Afterfree.Native.Decode
open Afterfree.Native.Reference Afterfree.Native.Compile Afterfree.Native.Pieces
  Afterfree.Native.Calls

section
variable {c : Compiler} {r : Recipe} (hw : WellFormed r) (ha : Admitted c.isa r c.plan)

/-! ### Block counts -/

theorem countFrom_le (c : Compiler) : ∀ fuel pc, c.countFrom fuel pc ≤ fuel
  | 0, _ => Nat.le_refl 0
  | fuel + 1, pc => by
    rw [Compiler.countFrom]
    split
    · omega
    · next found _ =>
      have := countFrom_le c fuel found.next
      split_ifs <;> omega

include hw ha

theorem countFrom_stable :
    ∀ (fuel fuel' : ℕ) {i : ℕ} {d : Decoded}, c.plan.instructions[i]? = some d →
    c.plan.instructions.length - i ≤ fuel → c.plan.instructions.length - i ≤ fuel' →
    c.countFrom fuel d.pc = c.countFrom fuel' d.pc
  | 0, fuel', i, d, hi, h1, h2 => by
    have := (List.getElem?_eq_some_iff.mp hi).1
    omega
  | fuel + 1, 0, i, d, hi, h1, h2 => by
    have := (List.getElem?_eq_some_iff.mp hi).1
    omega
  | fuel + 1, fuel' + 1, i, d, hi, h1, h2 => by
    have hd : d ∈ c.plan.instructions := List.mem_of_getElem? hi
    rw [Compiler.countFrom, Compiler.countFrom, ha.find_pc hw hd]
    simp only
    cases he : d.ends with
    | true => rfl
    | false =>
      have hf : d.falls = true := by
        unfold Decoded.ends at he
        unfold Decoded.falls
        cases hb : d.branch <;> cases hr : d.returns <;> simp_all
      obtain ⟨e, hei, hepc⟩ := ha.successor hw hi hf
      have hrec := countFrom_stable fuel fuel' hei (by omega) (by omega)
      rw [hepc] at hrec
      simp only [hrec]

/-- **The count of a block** is one more than that of its rest. -/
theorem blockCount_unroll {i : ℕ} {d : Decoded} (hi : c.plan.instructions[i]? = some d) :
    (d.ends = true → c.blockCount d = 1) ∧
    (d.ends = false → ∃ e, c.plan.instructions[i + 1]? = some e ∧ e.pc = d.next ∧
      c.blockCount d = 1 + if c.starts e then 0 else c.blockCount e) := by
  have hd : d ∈ c.plan.instructions := List.mem_of_getElem? hi
  have hlt := (List.getElem?_eq_some_iff.mp hi).1
  obtain ⟨k, hk⟩ := Nat.exists_eq_succ_of_ne_zero (by omega : c.plan.instructions.length ≠ 0)
  have hunfold : c.blockCount d = if d.ends then 1 else if d.next ∈ c.plan.starts then 1
      else 1 + c.countFrom k d.next := by
    rw [Compiler.blockCount, hk, Compiler.countFrom, ha.find_pc hw hd]
  constructor
  · intro he
    rw [hunfold, if_pos he]
  · intro he
    have hf : d.falls = true := by
      unfold Decoded.ends at he
      unfold Decoded.falls
      cases hb : d.branch <;> cases hr : d.returns <;> simp_all
    obtain ⟨e, hei, hepc⟩ := ha.successor hw hi hf
    refine ⟨e, hei, hepc, ?_⟩
    have hei' := (List.getElem?_eq_some_iff.mp hei).1
    have hst := countFrom_stable hw ha k c.plan.instructions.length hei (by omega) (by omega)
    rw [hunfold, if_neg (by simp [he]), Compiler.starts, hepc, Compiler.blockCount, ← hst, hepc]
    by_cases hs : d.next ∈ c.plan.starts <;> simp [hs]

omit hw in
theorem blockCount_toNat (d : Decoded) :
    (BitVec.ofNat 64 (c.blockCount d)).toNat = c.blockCount d := by
  have hlen : c.plan.instructions.length = r.code.length := by rw [← ha.sources, List.length_map]
  have hle := countFrom_le c c.plan.instructions.length d.pc
  have hsub := ha.subset
  unfold subsetExceeded at hsub
  have hcode : r.code.length ≤ 4096 := by
    simp only [Bool.or_eq_false_iff, decide_eq_false_iff_not] at hsub
    omega
  rw [BitVec.toNat_ofNat]
  refine Nat.mod_eq_of_lt ?_
  unfold Compiler.blockCount
  omega

omit hw ha in
theorem label_spec {pc : ℕ} (hp : present c.plan.instructions pc = true) :
    ∃ d, c.plan.instructions[c.label pc]? = some d ∧ d.pc = pc := by
  obtain ⟨d, hd⟩ := Option.isSome_iff_exists.mp hp
  have hmem := List.mem_of_find?_eq_some hd
  have hpc : d.pc = pc := by simpa using List.find?_some hd
  have hlt : c.label pc < c.plan.instructions.length :=
    List.findIdx_lt_length_of_exists ⟨d, hmem, by simpa using hpc⟩
  refine ⟨_, List.getElem?_eq_getElem hlt, ?_⟩
  exact of_decide_eq_true (List.findIdx_getElem (w := hlt))

/-! ### Runs -/

/-- What is left of the budget, with what the block has been charged for. -/
def owed (c : Compiler) (d : Decoded) (h : Host) : ℕ :=
  ((view c.regs h).word .remaining).toNat + if c.starts d then 0 else c.blockCount d

omit hw in
theorem starts_behind {d e : Decoded} (hd : d ∈ c.plan.instructions) (hb : d.branch = true)
    (he : e.pc = d.target ∨ e.pc = d.next) : c.starts e = true := by
  unfold Compiler.starts
  rw [ha.starts, decide_eq_true_eq]
  refine List.mem_cons_of_mem _ (List.mem_flatMap.mpr ⟨d, List.mem_filter.mpr ⟨hd, hb⟩, ?_⟩)
  rcases he with he | he <;> simp [he]

theorem Body.owed {i j : ℕ} {d : Decoded} (hi : c.plan.instructions[i]? = some d) {h h' : Host}
    (hb : Body c i d h (.next j h')) : ∃ e, c.plan.instructions[j]? = some e ∧
      Budget.owed c e h' + 1 = ((view c.regs h).word .remaining).toNat + c.blockCount d := by
  have hd : d ∈ c.plan.instructions := List.mem_of_getElem? hi
  have hk := hb.kept ha hd
  have hrem := hk.word .remaining (by decide)
  obtain ⟨hone, hrest⟩ := blockCount_unroll hw ha hi
  unfold Budget.owed
  rw [hrem]
  rcases hk.goes with ⟨hf, rfl⟩ | ⟨hbr, rfl⟩
  · cases hends : d.ends with
    | true =>
      have hbr : d.branch = true := by simpa [Decoded.ends, hk.returns] using hends
      obtain ⟨e, he, hpc⟩ := ha.successor hw hi hf
      refine ⟨e, he, ?_⟩
      rw [starts_behind ha hd hbr (.inr hpc), hone hends]
      simp
    | false =>
      obtain ⟨e, he, -, hc⟩ := hrest hends
      refine ⟨e, he, ?_⟩
      rw [hc]
      omega
  · obtain ⟨e, he, hpc⟩ := label_spec (ha.target d hd hbr)
    refine ⟨e, he, ?_⟩
    rw [starts_behind ha hd hbr (.inl hpc), hone (by simp [Decoded.ends, hbr])]
    simp

omit hw in
theorem Passed.remaining {i : ℕ} {d : Decoded} {h g : Host}
    (haf : Affords c d (view c.regs h).word) (hp : Passed c i d h g) :
    ((view c.regs g).word .remaining).toNat + c.blockCount d =
      ((view c.regs h).word .remaining).toNat := by
  unfold Affords at haf
  rw [BitVec.lt_def, blockCount_toNat ha] at haf
  have hlt := ((view c.regs h).word .remaining).isLt
  rw [hp.crossed.word, chargedWord, Function.update_self, BitVec.toNat_sub, blockCount_toNat ha]
  omega

/-- **Every piece takes one from the potential.** -/
theorem piece_owed {i j : ℕ} {d : Decoded} (hi : c.plan.instructions[i]? = some d) {h h' : Host}
    (hp : c.piece i d h = .next j h') :
    ∃ e, c.plan.instructions[j]? = some e ∧ owed c e h' + 1 = owed c d h := by
  have hstep := piece_step ha i (List.mem_of_getElem? hi) h
  rw [hp] at hstep
  cases hstep with
  | start hs hy haf hpass hb =>
    obtain ⟨e, he, howed⟩ := Body.owed hw ha hi hb
    have hrem := Passed.remaining ha haf hpass
    refine ⟨e, he, ?_⟩
    rw [howed, hrem, owed, hs]
    simp
  | inner hs hb =>
    obtain ⟨e, he, howed⟩ := Body.owed hw ha hi hb
    refine ⟨e, he, ?_⟩
    rw [howed, owed, hs]
    simp

theorem Reaches.owed {i : ℕ} {d : Decoded} (hi : c.plan.instructions[i]? = some d) {h h' : Host}
    {n j : ℕ} (hr : Reaches c i h n j h') :
    ∃ e, c.plan.instructions[j]? = some e ∧ Budget.owed c e h' + n = Budget.owed c d h := by
  induction hr with
  | refl => exact ⟨d, hi, rfl⟩
  | snoc _ hj hp ih =>
    obtain ⟨e, he, howed⟩ := ih
    obtain rfl := Option.some.inj (hj.symm.trans he)
    obtain ⟨e', he', hone⟩ := piece_owed hw ha hj hp
    exact ⟨e', he', by omega⟩

/-- **A run ends** before its potential is used up. -/
theorem run_ends : ∀ (k : ℕ) {i : ℕ} {d : Decoded} {h : Host}, c.plan.instructions[i]? = some d →
    owed c d h ≤ k → ∃ n e h' j d' g, Stops c i h n e h' j d' g ∧ n ≤ k
  | k, i, d, h, hi, hk => by
    cases hp : c.piece i d h with
    | stop e h' => exact ⟨0, e, h', i, d, h, ⟨.refl, hi, hp⟩, by omega⟩
    | next j g =>
      obtain ⟨e, he, howed⟩ := piece_owed hw ha hi hp
      match k with
      | 0 => omega
      | k + 1 =>
        obtain ⟨n, x, h', j', d', g', hs, hn⟩ := run_ends k (h := g) he (by omega)
        exact ⟨n + 1, x, h', j', d', g', ⟨.cons hi hp hs.reaches, hs.at', hs.stop⟩, by omega⟩

omit hw in
/-- The last piece of a run: what it leaves of the budget, and where the `State` object is. -/
theorem stop_owed {i : ℕ} {d : Decoded} (hi : c.plan.instructions[i]? = some d) {h h' : Host}
    {e : Exit} (hp : c.piece i d h = .stop e h') (hc : d.ends = true → c.blockCount d = 1) :
    (e = .yielded → ((view c.regs h').word .remaining).toNat = owed c d h) ∧
    (e = .returned ∨ e = .diverged → ((view c.regs h').word .remaining).toNat + 1 = owed c d h) ∧
    (view c.regs h').pointer = (view c.regs h).pointer ∧
    (e ≠ .yielded → e ≠ .returned → e ≠ .faulted → (view c.regs h').word .error = 1) := by
  have hstep := piece_step ha i (List.mem_of_getElem? hi) h
  rw [hp] at hstep
  -- what a return finds, by the budget in front of it
  have hbody : ∀ g, Body c i d g (.stop e h') →
      (e ≠ .yielded) ∧
        (e = .returned ∨ e = .diverged → ((view c.regs h').word .remaining).toNat + 1 =
        ((view c.regs g).word .remaining).toNat + c.blockCount d) ∧
      (view c.regs h').pointer = (view c.regs g).pointer ∧
      (e ≠ .yielded → e ≠ .returned → e ≠ .faulted → (view c.regs h').word .error = 1) := by
    intro g hb
    generalize hf : Flow.stop e h' = f at hb
    cases hb with
    | returned hr _ hv =>
      cases hf
      refine ⟨by decide, fun _ => ?_, by rw [hv], fun _ h2 => absurd rfl h2⟩
      rw [hv, hc (by simp [Decoded.ends, hr])]
    | diverged hr _ hv =>
      cases hf
      refine ⟨by decide, fun _ => ?_, by
        rw [hv]; rfl, fun _ _ _ => by rw [hv, View.word_setWord_self]⟩
      rw [hv, hc (by simp [Decoded.ends, hr])]
      rfl
    | branch _ _ =>
      unfold Compiler.jump at hf
      split at hf
      · cases hf
      · split_ifs at hf
    | quiet | store | load => cases hf
    | rejected _ _ _ _ _ hv =>
      cases hf
      exact ⟨by decide, fun h => by
        simp at h, by rw [hv]; rfl, fun _ _ _ => by rw [hv, View.word_setWord_self]⟩
    | faulted _ _ _ _ _ _ _ hv =>
      cases hf
      refine ⟨by decide, fun h => by simp at h, ?_, fun _ _ h3 => absurd rfl h3⟩
      rw [hv]
      exact (guardView_rest _ _ _).1
  unfold owed
  generalize hf : Flow.stop e h' = f at hstep
  cases hstep with
  | yielded hs hh hy hv =>
    cases hf
    refine ⟨fun _ => ?_, fun h => by simp at h, by rw [hv]; rfl, fun h => absurd rfl h⟩
    rw [hv, hs]
    rfl
  | exhausted hs hy haf hv =>
    cases hf
    refine ⟨fun h => by
      simp at h, fun h => by simp at h, ?_, fun _ _ _ => by rw [hv, View.word_setWord_self]⟩
    rw [hv]
    exact (passedView_crossed c i d h).pointer
  | start hs hy haf hpass hb =>
    subst hf
    obtain ⟨hne, hret, hptr, herr⟩ := hbody _ hb
    refine ⟨fun h => absurd h hne, fun h => ?_, hptr.trans hpass.crossed.pointer, herr⟩
    rw [hret h, Passed.remaining ha haf hpass, hs]
    simp
  | inner hs hb =>
    subst hf
    obtain ⟨hne, hret, hptr, herr⟩ := hbody _ hb
    refine ⟨fun h => absurd h hne, fun h => ?_, hptr, herr⟩
    rw [hret h, hs]
    simp

omit hw in
theorem Reaches.pointer {i n j : ℕ} {h h' : Host} (hr : Reaches c i h n j h') :
    (view c.regs h').pointer = (view c.regs h).pointer := by
  induction hr with
  | refl => rfl
  | @snoc n i j d g g' _ hj hp ih =>
    have hstep := piece_step ha i (List.mem_of_getElem? hj) g
    rw [hp] at hstep
    cases hstep with
    | start hs hy haf hpass hb =>
      exact ((hb.kept ha (List.mem_of_getElem? hj)).pointer.trans hpass.crossed.pointer).trans ih
    | inner hs hb => exact (hb.kept ha (List.mem_of_getElem? hj)).pointer.trans ih

/-- **The budget of a run** from a block start on. -/
theorem run_budget {i : ℕ} {d : Decoded} (hi : c.plan.instructions[i]? = some d)
    (hs : c.starts d = true) (h : Host) :
    ∃ e h' n, (∀ fuel, ((view c.regs h).word .remaining).toNat < fuel →
        c.run fuel i h = some (e, h', n)) ∧
      n ≤ ((view c.regs h).word .remaining).toNat ∧
      (e = .yielded ∨ e = .returned ∨ e = .diverged →
        ((view c.regs h').word .remaining).toNat + n = ((view c.regs h).word .remaining).toNat) ∧
      (view c.regs h').pointer = (view c.regs h).pointer ∧
      (e = .yielded ∨ e = .returned ∨ e = .faulted ∨ (view c.regs h').word .error = 1) := by
  have hpot : owed c d h = ((view c.regs h).word .remaining).toNat := by
    rw [owed, hs]
    simp
  obtain ⟨n, e, h', j, d', g, hstops, hn⟩ := run_ends hw ha _ hi (Nat.le_of_eq hpot)
  obtain ⟨d'', hd'', howed⟩ := Reaches.owed hw ha hi hstops.reaches
  obtain rfl := Option.some.inj (hstops.at'.symm.trans hd'')
  obtain ⟨hy, hr, hptr, herr⟩ := stop_owed ha hstops.at' hstops.stop
    (blockCount_unroll hw ha hstops.at').1
  refine ⟨e, h', n + lastCount e, fun fuel hf => run_of_reaches hstops fuel (by omega), ?_, ?_,
    hptr.trans (Reaches.pointer ha hstops.reaches), ?_⟩
  · unfold lastCount
    split_ifs with he
    · have := hr he
      omega
    · omega
  · intro he
    unfold lastCount
    rcases he with rfl | he
    · have := hy rfl
      simp only [reduceCtorEq, or_self, if_false]
      omega
    · have := hr he
      rw [if_pos he]
      omega
  · by_cases h1 : e = .yielded
    · exact .inl h1
    by_cases h2 : e = .returned
    · exact .inr (.inl h2)
    by_cases h3 : e = .faulted
    · exact .inr (.inr (.inl h3))
    · exact .inr (.inr (.inr (herr h1 h2 h3)))

theorem call_budget {h : Host} {d : Decoded}
    (hi : c.plan.instructions[((h.state (h.core.gpr 7)).word .entry).toNat]? = some d)
    (hs : c.starts d = true) :
    ∃ e h' n, (∀ fuel, ((h.state (h.core.gpr 7)).word .remaining).toNat < fuel →
        c.call fuel h = some (e, h', n)) ∧
      n ≤ ((h.state (h.core.gpr 7)).word .remaining).toNat ∧
      (e = .yielded ∨ e = .returned ∨ e = .diverged →
        ((h'.state (h.core.gpr 7)).word .remaining).toNat + n =
          ((h.state (h.core.gpr 7)).word .remaining).toNat) ∧
      (e = .yielded ∨ e = .returned ∨ e = .faulted ∨
        (h'.state (h.core.gpr 7)).word .error = 1) := by
  have hent := enter_spec (c := c) h
  rw [← hent.word] at hi ⊢
  obtain ⟨e, h', n, hrun, hn, hcount, hptr, herr⟩ := run_budget hw ha hi hs (c.enter h)
  rw [hent.pointer] at hptr
  have hstate := (exit_spec (c := c) h').1
  rw [hptr] at hstate
  refine ⟨e, c.exit h', n, ?_, hn, ?_, ?_⟩
  · intro fuel hf
    unfold Compiler.call
    simp only [get_eq]
    rw [hrun fuel hf]
    rfl
  · rw [hstate, Function.update_self]
    exact hcount
  · rw [hstate, Function.update_self]
    exact herr

end

/-! ### Compiled replay always stops -/

/-- **Compiled replay always stops.** For every recipe that `decode` admits, a call with any
registers, flags, inputs and limits whose entry is a block start executes at most `remaining` guest
instructions and ends: it yields, returns, takes an exception, or sets `error`. Where it yields or
reaches a return, `remaining` has gone down by the number of guest instructions executed. -/
theorem compiled_replay_stops {isa : Isa} {cache : Bool} {r : Recipe} {p : Plan} (hw : WellFormed r)
    (hp : decode isa cache r = .ok p) (fast : Bool) (data : Segment → Word) (h : Host) {d : Decoded}
    (hi : p.instructions[((h.state (h.core.gpr 7)).word .entry).toNat]? = some d)
    (hs : d.pc ∈ p.starts) :
    ∃ e h' n, (∀ fuel, ((h.state (h.core.gpr 7)).word .remaining).toNat < fuel →
        Compiler.call ⟨isa, p, fast, data⟩ fuel h = some (e, h', n)) ∧
      n ≤ ((h.state (h.core.gpr 7)).word .remaining).toNat ∧
      (e = .yielded ∨ e = .returned ∨ e = .diverged →
        ((h'.state (h.core.gpr 7)).word .remaining).toNat + n =
          ((h.state (h.core.gpr 7)).word .remaining).toNat) ∧
      (e = .yielded ∨ e = .returned ∨ e = .faulted ∨
        (h'.state (h.core.gpr 7)).word .error = 1) := by
  have hstart : Compiler.starts ⟨isa, p, fast, data⟩ d = true := decide_eq_true hs
  exact call_budget (c := ⟨isa, p, fast, data⟩) hw (decode_admitted hw hp) hi hstart

/-- A host whose `State` object has a budget, and limits as a call of `run` for all of one byte sets
them. -/
def startHost (budget : Word) : Host where
  core := ⟨fun _ => 0, fun _ => 0, 2, 0x1f80⟩
  stack := []
  state _ :=
    { word := fun f => match f with
        | .cursor => 0x10000
        | .stop | .limit | .trigger => 0x10001
        | .remaining => budget
        | .validating => 1
        | _ => 0
      regs := fun _ => 0, flags := 2, xmm := fun _ => 0, mxcsr := 0x1f80, hostMxcsr := 0x1f80 }
  frames _ := ⟨0, 0, 0, 0, 0, [], []⟩
  mem _ := 0
  log := []

theorem fill_entry {p : Plan} (hp : decode tinyIsa true fillRecipe = .ok p) :
    ∃ d, p.instructions[0]? = some d ∧ d.pc ∈ p.starts := by
  have ha := decode_admitted fillRecipe_ok.1 hp
  have hsrc := ha.sources
  cases hi : p.instructions with
  | nil => rw [hi] at hsrc; cases hsrc
  | cons d ds =>
    rw [hi] at hsrc
    refine ⟨d, rfl, ?_⟩
    have hd : d.source = ⟨0x5000, 3, [0xc6, 0x07, 0x07] ++ List.replicate 12 0⟩ :=
      (List.cons.inj hsrc).1
    rw [ha.starts, Decoded.pc, hd]
    exact List.mem_cons_self

/-- One byte and the return, with a budget of two. -/
theorem compiled_replay_stops_fill : ∃ p, decode tinyIsa true fillRecipe = .ok p ∧
    ∃ e h' n, Compiler.call ⟨tinyIsa, p, true, fun _ => 0⟩ 3 (startHost 2) =
      some (e, h', n) ∧ n ≤ 2 := by
  obtain ⟨p, hp⟩ := exists_plan fillRecipe_ok.2
  obtain ⟨d, hi, hs⟩ := fill_entry hp
  obtain ⟨e, h', n, hrun, hn, -⟩ :=
    compiled_replay_stops fillRecipe_ok.1 hp true (fun _ => 0) (startHost 2) hi hs
  exact ⟨p, hp, e, h', n, hrun 3 (by decide), hn⟩

end Afterfree.Native.Budget
