import Mathlib.Tactic

/-!
# Deterministic machines

A step goes on with the next state, ends the run, or is not defined. A run takes steps until one of
them ends it, as far as its fuel allows, and counts them.

* `Steps.split`: a run passes every state of its own beginning;
* `run_iff`: the result of a run, by its steps;
* `run_rel`, `Steps.rel`: two machines whose steps match have matching runs, and pass matching
  states;
* `Steps.follow`: a machine that does the same up to where it stops.
-/

namespace Afterfree.Lib.Machine

variable {σ τ ε δ : Type*}

/-- A run with some fuel: how it ends, and after how many steps. -/
def run (step : σ → Option (σ ⊕ ε)) : ℕ → σ → Option (ε × ℕ)
  | 0, _ => none
  | fuel + 1, s =>
    match step s with
    | none => none
    | some (.inl t) => (run step fuel t).map fun x => (x.1, x.2 + 1)
    | some (.inr e) => some (e, 0)

/-- `n` steps lead from one state to another. -/
inductive Steps (step : σ → Option (σ ⊕ ε)) : ℕ → σ → σ → Prop
  | refl (s : σ) : Steps step 0 s s
  | cons {n : ℕ} {s t u : σ} (h : step s = some (.inl t)) (hr : Steps step n t u) :
    Steps step (n + 1) s u

/-- A run of `n` steps that ends. -/
def Ends (step : σ → Option (σ ⊕ ε)) (n : ℕ) (s t : σ) (e : ε) : Prop :=
  Steps step n s t ∧ step t = some (.inr e)

section
variable {step : σ → Option (σ ⊕ ε)}

theorem Steps.single {s t : σ} (h : step s = some (.inl t)) : Steps step 1 s t := .cons h (.refl t)

theorem Steps.trans {m n : ℕ} {s t u : σ} (h : Steps step m s t) (h' : Steps step n t u) :
    Steps step (m + n) s u := by
  induction h with
  | refl => rwa [Nat.zero_add]
  | @cons m _ _ _ hs _ ih =>
    have hsum : m + 1 + n = m + n + 1 := by omega
    rw [hsum]
    exact .cons hs (ih h')

/-- **A run passes every state of its beginning.** -/
theorem Steps.split {m n : ℕ} {s t u : σ} (h : Steps step m s t) (h' : Steps step n s u)
    (hle : m ≤ n) : Steps step (n - m) t u := by
  induction h generalizing n with
  | refl => exact h'
  | cons hs _ ih =>
    cases h' with
    | refl => omega
    | cons hs' hr =>
      rw [hs] at hs'
      obtain rfl := Sum.inl.inj (Option.some.inj hs')
      rw [Nat.add_sub_add_right]
      exact ih hr (by omega)

theorem Steps.det {n : ℕ} {s t u : σ} (h : Steps step n s t) (h' : Steps step n s u) : t = u := by
  have hs := h.split h' le_rfl
  rw [Nat.sub_self] at hs
  cases hs
  rfl

/-- What every step keeps is kept. -/
theorem Steps.keeps {P : σ → Prop} (hp : ∀ s t, P s → step s = some (.inl t) → P t) {n : ℕ}
    {s t : σ} (h : Steps step n s t) (hs : P s) : P t := by
  induction h with
  | refl => exact hs
  | cons h _ ih => exact ih (hp _ _ hs h)

/-- A state that ends a run has no steps. -/
theorem Steps.of_end {n : ℕ} {s t : σ} {e : ε} (h : Steps step n s t)
    (he : step s = some (.inr e)) :
    n = 0 ∧ t = s := by
  cases h with
  | refl => exact ⟨rfl, rfl⟩
  | cons hs _ =>
    rw [he] at hs
    cases hs

/-- A run that ends has no more steps than that. -/
theorem Ends.le {m n : ℕ} {s t u : σ} {e : ε} (h : Ends step n s t e) (h' : Steps step m s u) :
    m ≤ n := by
  by_contra hlt
  have hrest := h.1.split h' (by omega)
  have := (hrest.of_end h.2).1
  omega

/-- The end of a run, from one of its states on. -/
theorem Ends.split {m n : ℕ} {s t u : σ} {e : ε} (h : Ends step n s t e) (h' : Steps step m s u) :
    Ends step (n - m) u t e := ⟨h'.split h.1 (h.le h'), h.2⟩

theorem Ends.det {m n : ℕ} {s t u : σ} {e e' : ε} (h : Ends step m s t e)
    (h' : Ends step n s u e') :
    m = n ∧ t = u ∧ e = e' := by
  have hmn : m = n := le_antisymm (h'.le h.1) (h.le h'.1)
  subst hmn
  have htu := h.1.det h'.1
  subst htu
  exact ⟨rfl, rfl, Sum.inr.inj (Option.some.inj (h.2.symm.trans h'.2))⟩

/-- **The result of a run.** -/
theorem run_iff : ∀ {fuel n : ℕ} {s : σ} {e : ε},
    run step fuel s = some (e, n) ↔ n < fuel ∧ ∃ t, Ends step n s t e
  | 0, n, s, e => by simp [run]
  | fuel + 1, n, s, e => by
    rw [run]
    constructor
    · intro h
      split at h
      · cases h
      · next t hs =>
        obtain ⟨⟨e', k⟩, hrun, hx⟩ := Option.map_eq_some_iff.mp h
        obtain ⟨rfl, rfl⟩ := Prod.mk.inj hx
        obtain ⟨hlt, u, hu⟩ := run_iff.mp hrun
        exact ⟨by omega, u, .cons hs hu.1, hu.2⟩
      · next e' hs =>
        obtain ⟨rfl, rfl⟩ := Prod.mk.inj (Option.some.inj h)
        exact ⟨by omega, s, .refl s, hs⟩
    · rintro ⟨hlt, t, hsteps, hend⟩
      cases hsteps with
      | refl => rw [hend]
      | @cons n _ t _ hs hr =>
        rw [hs]
        simp only
        rw [run_iff.mpr ⟨by omega, _, hr, hend⟩]
        rfl

end

/-- **Matching machines** have matching runs: where the steps from related states go on to related
states or end in related ways, so do the runs. -/
theorem run_rel {step : σ → Option (σ ⊕ ε)} {step' : τ → Option (τ ⊕ δ)} {R : σ → τ → Prop}
    {E : ε → δ → Prop} (h : ∀ s t, R s t → Option.Rel (Sum.LiftRel R E) (step s) (step' t)) :
    ∀ (fuel : ℕ) {s : σ} {t : τ}, R s t →
      Option.Rel (fun x y => E x.1 y.1 ∧ x.2 = y.2) (run step fuel s) (run step' fuel t)
  | 0, _, _, _ => .none
  | fuel + 1, s, t, hr => by
    have hst := h s t hr
    rw [run, run]
    generalize step s = x at hst
    generalize step' t = y at hst
    cases hst with
    | none => exact .none
    | some hxy =>
      cases hxy with
      | inr he => exact .some ⟨he, rfl⟩
      | inl hr' =>
        have ih := run_rel h fuel hr'
        simp only
        revert ih
        generalize run step fuel _ = a
        generalize run step' fuel _ = b
        intro ih
        cases ih with
        | none => exact .none
        | some hab => exact .some ⟨hab.1, by simp [hab.2]⟩

/-- **Matching machines** pass matching states. -/
theorem Steps.rel {step : σ → Option (σ ⊕ ε)} {step' : τ → Option (τ ⊕ δ)} {R : σ → τ → Prop}
    {E : ε → δ → Prop} (h : ∀ s t, R s t → Option.Rel (Sum.LiftRel R E) (step s) (step' t)) {n : ℕ}
    {s u : σ} (hs : Steps step n s u) : ∀ {t : τ}, R s t → ∃ v, Steps step' n t v ∧ R u v := by
  induction hs with
  | refl => exact fun hr => ⟨_, .refl _, hr⟩
  | cons hstep _ ih =>
    intro t hr
    have hst := h _ t hr
    rw [hstep] at hst
    generalize hy : step' t = y at hst
    cases hst with
    | some hxy =>
      cases hxy with
      | inl hr' =>
        obtain ⟨v, hv, huv⟩ := ih hr'
        exact ⟨v, .cons hy hv, huv⟩

/-- **One machine follows another one**, state by state, up to the end of a run or to a state where
it may stop before. `I` is kept by the steps, `Q` holds of all states before one that it holds of,
and `S` is where it may stop. -/
theorem Steps.follow {step : σ → Option (σ ⊕ ε)} {step' : τ → Option (τ ⊕ δ)} {f : σ → τ}
    {I Q S : σ → Prop} (hkeep : ∀ s s', I s → step s = some (.inl s') → I s')
    (hback : ∀ s s', I s → step s = some (.inl s') → Q s' → Q s)
    (h : ∀ s s', I s → step s = some (.inl s') → Q s' → S s ∨ step' (f s) = some (.inl (f s')))
    {n : ℕ} {s u : σ} (hs : Steps step n s u) (hi : I s) (hu : Q u) :
    Q s ∧ (Steps step' n (f s) (f u) ∨
      ∃ m v, Steps step m s v ∧ Steps step' m (f s) (f v) ∧ S v ∧ Q v) := by
  induction hs with
  | refl => exact ⟨hu, .inl (.refl _)⟩
  | @cons n s t u hstep hrest ih =>
    obtain ⟨hq, hfollow⟩ := ih (hkeep s t hi hstep) hu
    have hqs := hback s t hi hstep hq
    refine ⟨hqs, ?_⟩
    rcases h s t hi hstep hq with hstop | hnext
    · exact .inr ⟨0, s, .refl s, .refl _, hstop, hqs⟩
    · rcases hfollow with hall | ⟨m, v, hv, hv', hstop, hqv⟩
      · exact .inl (.cons hnext hall)
      · exact .inr ⟨m + 1, v, .cons hstep hv, .cons hnext hv', hstop, hqv⟩

end Afterfree.Lib.Machine
