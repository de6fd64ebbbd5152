import Mathlib.Tactic

/-!
# Labelled runs with silent steps

For a relation whose steps carry a label or are silent, `Trace step a ls b` says that `b` is reached
from `a` by steps whose labels are `ls`, in this order. One party of a conversation moves along such
a relation; what it has sent and the other party has not read is the label list between the two.
-/

namespace Afterfree.Lib.Weak

variable {σ ℓ : Type*} {step : σ → Option ℓ → σ → Prop}

/-- `b` is reached from `a` with the labels `ls`. -/
inductive Trace (step : σ → Option ℓ → σ → Prop) : σ → List ℓ → σ → Prop
  | refl (a : σ) : Trace step a [] a
  | silent {a b c : σ} {ls : List ℓ} : step a none b → Trace step b ls c → Trace step a ls c
  | label {a b c : σ} {l : ℓ} {ls : List ℓ} : step a (some l) b → Trace step b ls c →
      Trace step a (l :: ls) c

namespace Trace

/-- A silent step at the end. -/
theorem snoc_silent {a b c : σ} {ls : List ℓ} (h : Trace step a ls b) (hs : step b none c) :
    Trace step a ls c := by
  induction h with
  | refl a => exact .silent hs (.refl c)
  | silent h1 _ ih => exact .silent h1 (ih hs)
  | label h1 _ ih => exact .label h1 (ih hs)

/-- A labelled step at the end. -/
theorem snoc {a b c : σ} {l : ℓ} {ls : List ℓ} (h : Trace step a ls b) (hs : step b (some l) c) :
    Trace step a (ls ++ [l]) c := by
  induction h with
  | refl a => exact .label hs (.refl c)
  | silent h1 _ ih => exact .silent h1 (ih hs)
  | label h1 _ ih => exact .label h1 (ih hs)

/-- The first label is that of a step, after silent ones. -/
theorem head {a c : σ} {l : ℓ} {ls : List ℓ} (h : Trace step a (l :: ls) c) :
    ∃ b b', Trace step a [] b ∧ step b (some l) b' ∧ Trace step b' ls c := by
  generalize hm : l :: ls = ms at h
  induction h with
  | refl a => cases hm
  | silent h1 _ ih =>
    obtain ⟨b, b', hb, hl, hr⟩ := ih hm
    exact ⟨b, b', .silent h1 hb, hl, hr⟩
  | label h1 h2 _ =>
    cases hm
    exact ⟨_, _, .refl _, h1, h2⟩

/-- Nothing is emitted from a state without steps. -/
theorem stuck {a c : σ} {ls : List ℓ} (h : Trace step a ls c) (hs : ∀ l b, ¬ step a l b) :
    ls = [] ∧ c = a := by
  cases h with
  | refl => exact ⟨rfl, rfl⟩
  | silent h1 _ => exact absurd h1 (hs _ _)
  | label h1 _ => exact absurd h1 (hs _ _)

end Trace

end Afterfree.Lib.Weak
