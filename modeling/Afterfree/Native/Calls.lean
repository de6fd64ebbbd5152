import Afterfree.Native.Pieces

/-!
# Calls of the generated code

The code in front of the first piece takes the guest and the fields out of the `State` object behind
`RDI`, and the code behind the last piece puts the fields back.

* `enter_spec`, `exit_spec`: what both leave behind;
* `Reaches`: a run, piece after piece;
* `reaches_of_run`: what a run of the generated code went through.
-/

namespace Afterfree.Native.Calls

open Afterfree.Common Afterfree.Codec Afterfree.Encoding Afterfree.Native.X86
  Afterfree.Native.Decode
open Afterfree.Native.Reference Afterfree.Native.Compile Afterfree.Native.Pieces

variable {c : Compiler}

/-! ### Entry and exit -/

/-- The host in front of the first piece, with the `State` object it was called with. -/
structure Entered (c : Compiler) (h g : Host) : Prop where
  word : (view c.regs g).word = (h.state (h.core.gpr 7)).word
  pointer : (view c.regs g).pointer = h.core.gpr 7
  gpr : ∀ r ∈ c.regs.used, g.core.gpr r = (h.state (h.core.gpr 7)).regs (savedAt r)
  xmm : ∀ k ∈ c.plan.vectors, g.core.xmm k = (h.state (h.core.gpr 7)).xmm k
  flags : g.core.flags = (h.state (h.core.gpr 7)).flags
  mxcsr : g.core.mxcsr = (h.state (h.core.gpr 7)).mxcsr
  saved : (view c.regs g).saved =
    { h.state (h.core.gpr 7) with word := fun _ => 0, hostMxcsr := h.core.mxcsr }
  frames : g.frames = h.frames
  mem : g.mem = h.mem
  log : g.log = h.log

theorem find_hot (a : Allocation) {f : Field} {r : Fin 16} (hf : a.hot.lookup f = some r) :
    a.hot.find? (fun x : Field × Fin 16 => x.2 = r) = some (f, r) := by
  have hm := lookup_mem a hf
  have hinj := List.inj_on_of_nodup_map a.hot_registers
  cases hx : a.hot.find? fun x : Field × Fin 16 => x.2 = r with
  | none =>
    rw [List.find?_eq_none] at hx
    exact absurd (hx (f, r) hm) (by simp)
  | some x =>
    have hr : x.2 = r := by simpa using List.find?_some hx
    rw [hinj (List.mem_of_find?_eq_some hx) hm hr]

theorem find_hot_none (a : Allocation) {r : Fin 16}
    (hr : r = a.context ∨ r = a.scratch ∨ r ∈ a.used) :
    a.hot.find? (fun x : Field × Fin 16 => x.2 = r) = none := by
  rw [List.find?_eq_none]
  intro x hx
  obtain ⟨h1, h2, h3⟩ := a.hot_free x hx
  simp only [decide_eq_true_eq]
  rintro rfl
  rcases hr with h | h | h
  · exact h2 h
  · exact h3 h
  · exact h1 h

/-- **The code in front of the first piece.** -/
theorem enter_spec (h : Host) : Entered c h (c.enter h) := by
  unfold Compiler.enter
  dsimp only
  generalize hg1 : List.foldl _ h.pushf _ = g1
  have hcore : g1.core = h.core := by rw [← hg1]; rfl
  have hstate : g1.state = h.state := by rw [← hg1]; rfl
  have hframes : g1.frames = h.frames := by rw [← hg1]; rfl
  have hmem : g1.mem = h.mem := by rw [← hg1]; rfl
  have hlog : g1.log = h.log := by rw [← hg1]; rfl
  have hctx : Function.update h.core.gpr c.regs.context (h.core.gpr 7) c.regs.context =
    h.core.gpr 7 :=
    Function.update_self _ _ _
  have hnone := find_hot_none c.regs (r := c.regs.context) (.inl rfl)
  refine ⟨?_, ?_, ?_, ?_, ?_, ?_, ?_, ?_, ?_, ?_⟩
  · funext f
    change Host.get c.regs f _ = _
    unfold Host.get
    cases hf : c.regs.hot.lookup f with
    | none =>
      simp only [Host.context, Host.modify, Host.setContext, Host.setGpr, hcore,
        hstate, hnone, hctx, if_neg c.regs.context_free, Function.update_self]
    | some r =>
      simp only [Host.context, Host.modify, Host.setContext, Host.setGpr, hcore, hstate, hctx,
        if_neg (lookup_free c.regs hf).1, find_hot c.regs hf]
  · change (if c.regs.context ∈ c.regs.used then _ else _) = _
    simp only [Host.modify, Host.setContext, Host.setGpr, hcore, hnone, hctx,
      if_neg c.regs.context_free]
  · intro r hr
    simp only [Host.context, Host.setGpr, hcore, hstate, hctx, if_pos hr]
  · intro k hk
    simp only [Host.context, Host.setGpr, hcore, hstate, hctx, if_pos hk]
  · simp only [Host.context, Host.setGpr, hcore, hstate, hctx]
  · simp only [Host.context, Host.setGpr, hcore, hstate, hctx]
  · unfold view
    simp only [Host.context, Host.modify, Host.setContext, Host.setGpr, hcore, hstate, hnone, hctx,
      if_neg c.regs.context_free, Function.update_self]
  · exact hframes
  · exact hmem
  · exact hlog

/-- **The code behind the last piece.** -/
theorem exit_spec (h : Host) :
    (c.exit h).state = Function.update h.state (view c.regs h).pointer
      { (view c.regs h).saved with word := (view c.regs h).word } ∧
    (c.exit h).frames = h.frames ∧ (c.exit h).mem = h.mem ∧ (c.exit h).log = h.log := by
  exact ⟨rfl, rfl, rfl, rfl⟩

/-! ### Runs -/

/-- **A run** of `n` pieces. -/
inductive Reaches (c : Compiler) (position : ℕ) (h : Host) : ℕ → ℕ → Host → Prop
  | refl : Reaches c position h 0 position h
  | snoc {n i j : ℕ} {d : Decoded} {g g' : Host} (hr : Reaches c position h n i g)
    (hi : c.plan.instructions[i]? = some d) (hp : c.piece i d g = .next j g') :
    Reaches c position h (n + 1) j g'

theorem Reaches.cons {position i j n : ℕ} {h g g' : Host} {d : Decoded}
    (hi : c.plan.instructions[position]? = some d) (hp : c.piece position d h = .next i g)
    (hr : Reaches c i g n j g') : Reaches c position h (n + 1) j g' := by
  induction hr with
  | refl => exact .snoc .refl hi hp
  | snoc _ hi' hp' ih => exact .snoc ih hi' hp'

/-- The guest instructions that the last piece of a run executes. -/
def lastCount (e : Exit) : ℕ := if e = .returned ∨ e = .diverged then 1 else 0

/-- The end of a run: a piece that stops. -/
structure Stops (c : Compiler) (position : ℕ) (h : Host) (n : ℕ) (e : Exit) (h' : Host)
    (i : ℕ) (d : Decoded) (g : Host) : Prop where
  reaches : Reaches c position h n i g
  at' : c.plan.instructions[i]? = some d
  stop : c.piece i d g = .stop e h'

/-- **What a run of the generated code went through.** -/
theorem reaches_of_run : ∀ {fuel position : ℕ} {h h' : Host} {e : Exit} {count : ℕ},
    c.run fuel position h = some (e, h', count) →
    ∃ n i d g, Stops c position h n e h' i d g ∧ count = n + lastCount e
  | 0, _, _, _, _, _, hrun => by cases hrun
  | fuel + 1, position, h, h', e, count, hrun => by
    rw [Compiler.run] at hrun
    cases hi : c.plan.instructions[position]? with
    | none => rw [hi] at hrun; cases hrun
    | some d =>
      rw [hi] at hrun
      simp only at hrun
      cases hp : c.piece position d h with
      | stop e' g =>
        rw [hp] at hrun
        cases hrun
        exact ⟨0, position, d, h, ⟨.refl, hi, hp⟩, by simp [lastCount]⟩
      | next j g =>
        rw [hp] at hrun
        simp only [Option.map_eq_some_iff] at hrun
        obtain ⟨⟨e', g', k⟩, hrest, heq⟩ := hrun
        cases heq
        obtain ⟨n, i, d', g'', hs, rfl⟩ := reaches_of_run hrest
        exact ⟨n + 1, i, d', g'', ⟨.cons hi hp hs.reaches, hs.at', hs.stop⟩, by dsimp only; omega⟩

/-- **Such a run is one of the generated code**, with enough fuel. -/
theorem run_of_reaches :
    ∀ {n position : ℕ} {h h' : Host} {e : Exit} {i : ℕ} {d : Decoded} {g : Host},
    Stops c position h n e h' i d g → ∀ fuel, n < fuel →
    c.run fuel position h = some (e, h', n + lastCount e) := by
  intro n position h h' e i d g hs
  have hmain : ∀ k j g', Reaches c position h k j g' → ∀ fuel, c.run (fuel + k) position h =
      (c.run fuel j g').map fun x => (x.1, x.2.1, x.2.2 + k) := by
    intro k j g' hr
    induction hr with
    | refl =>
      intro fuel
      cases c.run fuel position h <;> rfl
    | @snoc n i j d g g' _ hi hp ih =>
      intro fuel
      have h1 : fuel + (n + 1) = fuel + 1 + n := by omega
      rw [h1, ih (fuel + 1), Compiler.run, hi]
      simp only [hp]
      cases c.run fuel j g' with
      | none => rfl
      | some x => simp only [Option.map_some, Option.some.injEq, Prod.mk.injEq, true_and]; omega
  intro fuel hfuel
  have hlast : c.run (fuel - n) i g = some (e, h', lastCount e) := by
    have hsucc : fuel - n = fuel - n - 1 + 1 := by omega
    rw [hsucc, Compiler.run, hs.at']
    simp only [hs.stop]
    rfl
  have hsplit : fuel = fuel - n + n := by omega
  rw [hsplit, hmain n i g hs.reaches (fuel - n), hlast]
  simp only [Option.map_some, Option.some.injEq, Prod.mk.injEq, true_and]
  omega

end Afterfree.Native.Calls
