import Mathlib.Tactic

/-!
# Chaotic iteration of a data-flow equation

A node has a value, and the value stands for a finite set of facts. A sweep visits the nodes of a
list in order and replaces each value by what the equation makes of the current ones; sweeps are
repeated until one of them changes nothing.

* `iterate_solves`: the result of an iteration that ends solves the equation at every node;
* `iterate_terminates`: for a monotone equation, started from a value below what the equation makes
  of it, the iteration ends after at most as many sweeps as there are pairs of a node and a fact,
  and one.
-/

namespace Afterfree.Lib.Fixpoint

variable {ι α κ : Type*}

section Sweeps
variable [DecidableEq ι] [DecidableEq α]

/-- One node of a sweep. The flag says that a value has changed. -/
def visit (eqn : (ι → α) → ι → α) (s : (ι → α) × Bool) (i : ι) : (ι → α) × Bool :=
  if eqn s.1 i = s.1 i then s else (Function.update s.1 i (eqn s.1 i), true)

/-- All nodes, in order. -/
def sweep (eqn : (ι → α) → ι → α) (nodes : List ι) (f : ι → α) : (ι → α) × Bool :=
  nodes.foldl (visit eqn) (f, false)

/-- Sweeps until nothing changes. -/
def iterate (eqn : (ι → α) → ι → α) (nodes : List ι) : ℕ → (ι → α) → Option (ι → α)
  | 0, _ => none
  | fuel + 1, f =>
    let s := sweep eqn nodes f
    if s.2 then iterate eqn nodes fuel s.1 else some s.1

variable {eqn : (ι → α) → ι → α}

/-- A changed sweep stays changed. -/
theorem foldl_visit_changed : ∀ (nodes : List ι) (f : ι → α),
    (nodes.foldl (visit eqn) (f, true)).2 = true
  | [], _ => rfl
  | i :: nodes, f => by
    rw [List.foldl_cons, visit]
    split_ifs
    · exact foldl_visit_changed nodes f
    · exact foldl_visit_changed nodes _

/-- **A sweep that changes nothing** has found a solution. -/
theorem foldl_visit_unchanged : ∀ {nodes : List ι} {f : ι → α},
    (nodes.foldl (visit eqn) (f, false)).2 = false →
    (nodes.foldl (visit eqn) (f, false)).1 = f ∧ ∀ i ∈ nodes, eqn f i = f i
  | [], _, _ => ⟨rfl, by simp⟩
  | i :: nodes, f, h => by
    rw [List.foldl_cons, visit] at h ⊢
    split_ifs at h ⊢ with he
    · obtain ⟨h1, h2⟩ := foldl_visit_unchanged h
      refine ⟨h1, fun j hj => ?_⟩
      rcases List.mem_cons.mp hj with rfl | hj
      · exact he
      · exact h2 j hj
    · rw [foldl_visit_changed] at h
      cases h

/-- **The result solves the equation** at every node. -/
theorem iterate_solves {nodes : List ι} : ∀ {fuel : ℕ} {f g : ι → α},
    iterate eqn nodes fuel f = some g → ∀ i ∈ nodes, eqn g i = g i
  | 0, _, _, h => by cases h
  | fuel + 1, f, g, h => by
    simp only [iterate] at h
    split_ifs at h with hc
    · exact iterate_solves h
    · obtain ⟨h1, h2⟩ := foldl_visit_unchanged (Bool.eq_false_iff.mpr hc)
      obtain rfl := Option.some.inj h
      unfold sweep
      rwa [h1]

end Sweeps

section Weights
variable (facts : α → Finset κ)

/-- Every value has at most the facts of the other one. -/
def Below (f g : ι → α) : Prop := ∀ i, facts (f i) ⊆ facts (g i)

/-- The equation at most adds facts to the values of the nodes. -/
def Ascending (eqn : (ι → α) → ι → α) (nodes : List ι) (f : ι → α) : Prop :=
  ∀ i ∈ nodes, facts (f i) ⊆ facts (eqn f i)

/-- The number of facts at the nodes. -/
def weight (nodes : List ι) (f : ι → α) : ℕ := (nodes.map fun i => (facts (f i)).card).sum

theorem weight_le [Fintype κ] (nodes : List ι) (f : ι → α) :
    weight facts nodes f ≤ Fintype.card κ * nodes.length := by
  unfold weight
  induction nodes with
  | nil => simp
  | cons i nodes ih =>
    have hc : (facts (f i)).card ≤ Fintype.card κ := Finset.card_le_univ _
    rw [List.map_cons, List.sum_cons, List.length_cons, Nat.mul_succ]
    omega

variable {facts}

theorem weight_mono (nodes : List ι) {f g : ι → α} (h : Below facts f g) :
    weight facts nodes f ≤ weight facts nodes g := by
  unfold weight
  induction nodes with
  | nil => simp
  | cons i nodes ih =>
    have hc := Finset.card_le_card (h i)
    simp only [List.map_cons, List.sum_cons]
    omega

/-- More facts at one node. -/
theorem weight_lt {nodes : List ι} {f g : ι → α} (h : Below facts f g) {i : ι} (hi : i ∈ nodes)
    (hlt : facts (f i) ⊂ facts (g i)) : weight facts nodes f < weight facts nodes g := by
  unfold weight
  induction nodes with
  | nil => cases hi
  | cons j nodes ih =>
    have hc := Finset.card_le_card (h j)
    simp only [List.map_cons, List.sum_cons]
    rcases List.mem_cons.mp hi with rfl | hi
    · have hrest := weight_mono nodes h
      unfold weight at hrest
      have := Finset.card_lt_card hlt
      omega
    · have := ih hi
      omega

end Weights

section Terminates
variable [DecidableEq ι] {facts : α → Finset κ} {eqn : (ι → α) → ι → α}
  (hmono : ∀ f g : ι → α, Below facts f g → Below facts (eqn f) (eqn g))
include hmono

/-- **One visit** of a node whose value changes: the values ascend and can still ascend. -/
theorem visit_ascends {nodes : List ι} {f : ι → α} (ha : Ascending facts eqn nodes f) {i : ι}
    (hi : i ∈ nodes) : Below facts f (Function.update f i (eqn f i)) ∧
      Ascending facts eqn nodes (Function.update f i (eqn f i)) := by
  have hb : Below facts f (Function.update f i (eqn f i)) := by
    intro j
    by_cases hj : j = i
    · subst hj
      rw [Function.update_self]
      exact ha j hi
    · rw [Function.update_of_ne hj]
  refine ⟨hb, fun j hj => ?_⟩
  by_cases hji : j = i
  · subst hji
    rw [Function.update_self]
    exact hmono _ _ hb j
  · rw [Function.update_of_ne hji]
    exact (ha j hj).trans (hmono _ _ hb j)

variable [DecidableEq α] (hinj : Function.Injective facts)
include hinj

/-- **One sweep**: the values ascend, and strictly if the sweep reports a change. -/
theorem foldl_visit_ascends {nodes : List ι} : ∀ {l : List ι} {s : (ι → α) × Bool},
    (∀ i ∈ l, i ∈ nodes) → Ascending facts eqn nodes s.1 →
    Below facts s.1 (l.foldl (visit eqn) s).1 ∧
      Ascending facts eqn nodes (l.foldl (visit eqn) s).1 ∧
      ((l.foldl (visit eqn) s).2 = true → s.2 = true ∨
        weight facts nodes s.1 < weight facts nodes (l.foldl (visit eqn) s).1)
  | [], s, _, ha => ⟨fun _ => Finset.Subset.refl _, ha, Or.inl⟩
  | i :: l, s, hl, ha => by
    have hi : i ∈ nodes := hl i List.mem_cons_self
    have hrest : ∀ j ∈ l, j ∈ nodes := fun j hj => hl j (List.mem_cons_of_mem _ hj)
    rw [List.foldl_cons, visit]
    split_ifs with he
    · exact foldl_visit_ascends hrest ha
    · obtain ⟨hb, ha'⟩ := visit_ascends hmono ha hi
      have hlt : weight facts nodes s.1 <
          weight facts nodes (Function.update s.1 i (eqn s.1 i)) := by
        refine weight_lt hb hi ?_
        rw [Function.update_self]
        exact (ha i hi).ssubset_of_ne fun hc => he (hinj hc).symm
      have hnext : Ascending facts eqn nodes (Function.update s.1 i (eqn s.1 i), true).1 := ha'
      obtain ⟨hb2, ha2, -⟩ := foldl_visit_ascends hrest hnext
      exact ⟨fun j => (hb j).trans (hb2 j), ha2,
        fun _ => .inr (hlt.trans_le (weight_mono nodes hb2))⟩

/-- **The iteration ends** within its fuel. -/
theorem iterate_terminates [Fintype κ] {nodes : List ι} : ∀ {fuel : ℕ} {f : ι → α},
    Ascending facts eqn nodes f →
    Fintype.card κ * nodes.length < weight facts nodes f + fuel →
    ∃ g, iterate eqn nodes fuel f = some g
  | 0, f, _, h => by
    have := weight_le facts nodes f
    omega
  | fuel + 1, f, ha, h => by
    have ha' : Ascending facts eqn nodes (f, false).1 := ha
    obtain ⟨-, ha2, hlt⟩ := foldl_visit_ascends hmono hinj (fun i (hi : i ∈ nodes) => hi) ha'
    simp only [iterate]
    split_ifs with hc
    · refine iterate_terminates ha2 ?_
      rcases hlt hc with h1 | h1
      · cases h1
      · have h1 : weight facts nodes f < weight facts nodes (sweep eqn nodes f).1 := h1
        omega
    · exact ⟨_, rfl⟩

end Terminates

end Afterfree.Lib.Fixpoint
