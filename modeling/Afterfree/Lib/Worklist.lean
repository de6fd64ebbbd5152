import Mathlib.Data.Finset.Card
import Mathlib.Logic.Relation

/-!
# Worklists

A depth-first search that follows one path until it meets what it has visited, and keeps the other
ends on a stack. A visit may refuse, and then the search gives up. What the visits find is kept
along.

* `search_terminates`: a search whose visits refuse from some size on ends.
* `search_rule`: what every turn keeps holds of the result.
* `search_closed`: a search that ends has visited everything reachable.
-/

namespace Afterfree.Lib.Worklist

/-- Where a search stands: the path that it follows, the stack, the visited elements and what was
found. -/
structure State (α σ : Type) where
  current : Option α
  pending : List α
  visited : Finset α
  found : σ

/-- What a visit gives: what is found now, what goes on the stack, and where the path goes on. -/
structure Visit (α σ : Type) where
  found : σ
  pushed : List α
  next : Option α

variable {α σ : Type} [DecidableEq α] {visit : Finset α → σ → α → Option (Visit α σ)}

/-- The search: no result when the fuel runs out, no state when a visit refuses. -/
def search (visit : Finset α → σ → α → Option (Visit α σ)) :
    ℕ → State α σ → Option (Option (State α σ))
  | 0, _ => none
  | fuel + 1, s =>
    match s.current with
    | none =>
      match s.pending with
      | [] => some (some s)
      | a :: pending => search visit fuel { s with current := some a, pending := pending }
    | some a =>
      if a ∈ s.visited then search visit fuel { s with current := none }
      else
        match visit s.visited s.found a with
        | none => some none
        | some v => search visit fuel ⟨v.next, v.pushed ++ s.pending, insert a s.visited, v.found⟩

/-! ### It ends -/

/-- The turns that a search can still make, when it visits at most `bound` elements and each of them
puts at most `width` on the stack. -/
def weight (bound width : ℕ) (s : State α σ) : ℕ :=
  (2 * width + 1) * (bound - s.visited.card) + 2 * s.pending.length +
    (if s.current.isSome then 1 else 0)

/-- A visit takes more off the weight than it puts on the stack. -/
theorem weight_visit {bound width : ℕ} {s : State α σ} {a : α} {v : Visit α σ}
    (hcurrent : s.current = some a) (ha : a ∉ s.visited) (hlt : s.visited.card < bound)
    (hwidth : v.pushed.length ≤ width) :
    weight bound width ⟨v.next, v.pushed ++ s.pending, insert a s.visited, v.found⟩ <
      weight bound width s := by
  have hcard : (insert a s.visited).card = s.visited.card + 1 := Finset.card_insert_of_notMem ha
  obtain ⟨n, hn⟩ : ∃ n, bound - s.visited.card = n + 1 := ⟨bound - s.visited.card - 1, by omega⟩
  have hn' : bound - (s.visited.card + 1) = n := by omega
  have hnext : (if v.next.isSome then 1 else 0) ≤ 1 := by split_ifs <;> omega
  simp only [weight, hcard, hn, hn', hcurrent, List.length_append, Option.isSome_some, if_true,
    Nat.mul_add, Nat.mul_one]
  omega

theorem search_terminates {bound width : ℕ}
    (hbound : ∀ V f a, bound ≤ V.card → visit V f a = none)
    (hwidth : ∀ V f a v, visit V f a = some v → v.pushed.length ≤ width)
    {fuel : ℕ} {s : State α σ} (h : weight bound width s < fuel) :
    ∃ r, search visit fuel s = some r := by
  induction fuel generalizing s with
  | zero => omega
  | succ fuel ih =>
    unfold search
    cases hcurrent : s.current with
    | none =>
      cases hpending : s.pending with
      | nil => exact ⟨_, rfl⟩
      | cons a pending =>
        refine ih ?_
        simp only [weight, hcurrent, hpending, List.length_cons, Option.isSome_some,
          Option.isSome_none, if_true] at h ⊢
        simp only [Bool.false_eq_true, if_false] at h
        omega
    | some a =>
      by_cases ha : a ∈ s.visited
      · simp only [if_pos ha]
        refine ih ?_
        simp only [weight, hcurrent, Option.isSome_some, Option.isSome_none, if_true] at h ⊢
        simp only [Bool.false_eq_true, if_false]
        omega
      · simp only [if_neg ha]
        cases hv : visit s.visited s.found a with
        | none => exact ⟨_, rfl⟩
        | some v =>
          have hlt : s.visited.card < bound := by
            by_contra hge
            rw [hbound _ _ _ (by omega)] at hv
            exact absurd hv (by simp)
          have hless := weight_visit hcurrent ha hlt (hwidth _ _ _ _ hv)
          exact ih (by omega)

/-- More fuel changes nothing. -/
theorem search_mono {fuel fuel' : ℕ} {s : State α σ} {r : Option (State α σ)}
    (h : search visit fuel s = some r) (hle : fuel ≤ fuel') : search visit fuel' s = some r := by
  induction fuel generalizing s fuel' with
  | zero => exact absurd h (by simp [search])
  | succ fuel ih =>
    obtain ⟨fuel', rfl⟩ : ∃ n, fuel' = n + 1 := ⟨fuel' - 1, by omega⟩
    unfold search at h ⊢
    cases hcurrent : s.current with
    | none =>
      cases hpending : s.pending with
      | nil => simpa only [hcurrent, hpending] using h
      | cons a pending =>
        simp only [hcurrent, hpending] at h
        exact ih h (by omega)
    | some a =>
      simp only [hcurrent] at h
      by_cases ha : a ∈ s.visited
      · rw [if_pos ha] at h
        simp only [if_pos ha]
        exact ih h (by omega)
      · rw [if_neg ha] at h
        simp only [if_neg ha]
        cases hv : visit s.visited s.found a with
        | none => simpa only [hv] using h
        | some v =>
          simp only [hv] at h
          exact ih h (by omega)

/-! ### What it keeps -/

/-- What each turn keeps holds of the result. -/
theorem search_rule {P : State α σ → Prop}
    (hpop : ∀ s a pending, s.current = none → s.pending = a :: pending → P s →
      P { s with current := some a, pending := pending })
    (hskip : ∀ s a, s.current = some a → a ∈ s.visited → P s → P { s with current := none })
    (hvisit : ∀ s a v, s.current = some a → a ∉ s.visited → visit s.visited s.found a =
      some v → P s →
      P ⟨v.next, v.pushed ++ s.pending, insert a s.visited, v.found⟩)
    {fuel : ℕ} {s t : State α σ} (hs : P s) (h : search visit fuel s = some (some t)) :
    P t ∧ t.current = none ∧ t.pending = [] := by
  induction fuel generalizing s with
  | zero => exact absurd h (by simp [search])
  | succ fuel ih =>
    unfold search at h
    cases hcurrent : s.current with
    | none =>
      cases hpending : s.pending with
      | nil =>
        simp only [hcurrent, hpending, Option.some.injEq] at h
        rw [← h]
        exact ⟨hs, hcurrent, hpending⟩
      | cons a pending =>
        simp only [hcurrent, hpending] at h
        exact ih (hpop s a pending hcurrent hpending hs) h
    | some a =>
      simp only [hcurrent] at h
      by_cases ha : a ∈ s.visited
      · rw [if_pos ha] at h
        exact ih (hskip s a hcurrent ha hs) h
      · rw [if_neg ha] at h
        cases hv : visit s.visited s.found a with
        | none => simp [hv] at h
        | some v =>
          simp only [hv] at h
          exact ih (hvisit s a v hcurrent ha hv hs) h

/-- The element is visited or will be. -/
def State.Covers (s : State α σ) (a : α) : Prop :=
  a ∈ s.visited ∨ a ∈ s.pending ∨ s.current = some a

section Covers

variable {s : State α σ} {a b : α}

omit [DecidableEq α] in
theorem State.Covers.pop {pending : List α} (hcurrent : s.current = none)
    (hpending : s.pending = a :: pending) (hb : s.Covers b) :
    State.Covers { s with current := some a, pending := pending } b := by
  rcases hb with hb | hb | hb
  · exact .inl hb
  · rw [hpending, List.mem_cons] at hb
    rcases hb with rfl | hb
    · exact .inr (.inr rfl)
    · exact .inr (.inl hb)
  · simp [hcurrent] at hb

omit [DecidableEq α] in
theorem State.Covers.skip (hcurrent : s.current = some a) (ha : a ∈ s.visited) (hb : s.Covers b) :
    State.Covers { s with current := none } b := by
  rcases hb with hb | hb | hb
  · exact .inl hb
  · exact .inr (.inl hb)
  · rw [hcurrent, Option.some.injEq] at hb
    exact .inl (hb ▸ ha)

theorem State.Covers.follow (hcurrent : s.current = some a) (v : Visit α σ) (hb : s.Covers b) :
    State.Covers ⟨v.next, v.pushed ++ s.pending, insert a s.visited, v.found⟩ b := by
  rcases hb with hb | hb | hb
  · exact .inl (Finset.mem_insert_of_mem hb)
  · exact .inr (.inl (List.mem_append_right _ hb))
  · rw [hcurrent, Option.some.injEq] at hb
    exact .inl (hb ▸ Finset.mem_insert_self a s.visited)

end Covers

/-- The start and the successors of everything visited are visited or will be. -/
structure Covering (edge : α → α → Prop) (start : α) (s : State α σ) : Prop where
  start : s.Covers start
  successors : ∀ a ∈ s.visited, ∀ b, edge a b → s.Covers b

/-- The search starts at one element. -/
def begin (start : α) (found : σ) : State α σ := ⟨none, [start], ∅, found⟩

omit [DecidableEq α] in
theorem covering_begin (edge : α → α → Prop) (start : α) (found : σ) :
    Covering edge start (begin start found) :=
  ⟨.inr (.inl (List.mem_singleton_self start)), fun _ ha => absurd ha (Finset.notMem_empty _)⟩

omit [DecidableEq α] in
/-- A turn that visits nothing only has to keep what is covered. -/
theorem Covering.move {edge : α → α → Prop} {start : α} {s t : State α σ}
    (h : Covering edge start s) (hvisited : t.visited = s.visited)
    (hmove : ∀ b, s.Covers b → t.Covers b) : Covering edge start t :=
  ⟨hmove _ h.start, fun a ha b hb => hmove b (h.successors a (hvisited ▸ ha) b hb)⟩

theorem Covering.follow {edge : α → α → Prop} {start : α} {s : State α σ} {a : α} {v : Visit α σ}
    (h : Covering edge start s) (hcurrent : s.current = some a)
    (hedge : ∀ b, edge a b → b ∈ v.pushed ∨ v.next = some b) :
    Covering edge start ⟨v.next, v.pushed ++ s.pending, insert a s.visited, v.found⟩ := by
  refine ⟨h.start.follow hcurrent v, fun x hx b hb => ?_⟩
  rcases Finset.mem_insert.mp hx with rfl | hx
  · rcases hedge b hb with hb | hb
    · exact .inr (.inl (List.mem_append_left _ hb))
    · exact .inr (.inr hb)
  · exact (h.successors x hx b hb).follow hcurrent v

/-- **Closure.** When every visit accounts for all successors, a search that ends has visited what
is reachable, and what its visits keep holds of what it found. -/
theorem search_closed {edge : α → α → Prop} {Inv : Finset α → σ → Prop}
    (hedge : ∀ V f a v, visit V f a = some v → ∀ b, edge a b → b ∈ v.pushed ∨ v.next = some b)
    (hinv : ∀ V f a v, Inv V f → visit V f a = some v → Inv (insert a V) v.found)
    {start : α} {found : σ} (h0 : Inv ∅ found) {fuel : ℕ} {t : State α σ}
    (h : search visit fuel (begin start found) = some (some t)) :
    Inv t.visited t.found ∧ ∀ a, Relation.ReflTransGen edge start a → a ∈ t.visited := by
  obtain ⟨⟨hkept, hcover⟩, hcurrent, hpending⟩ :=
    search_rule (P := fun s => Inv s.visited s.found ∧ Covering edge start s)
      (fun s a pending hcurrent hpending hs =>
        ⟨hs.1, hs.2.move rfl fun b hb => hb.pop hcurrent hpending⟩)
      (fun s a hcurrent ha hs => ⟨hs.1, hs.2.move rfl fun b hb => hb.skip hcurrent ha⟩)
      (fun s a v hcurrent ha hv hs =>
        ⟨hinv _ _ _ _ hs.1 hv, hs.2.follow hcurrent (hedge _ _ _ _ hv)⟩)
      ⟨h0, covering_begin edge start found⟩ h
  have hall : ∀ b, t.Covers b → b ∈ t.visited := by
    rintro b (hb | hb | hb)
    · exact hb
    · simp [hpending] at hb
    · simp [hcurrent] at hb
  refine ⟨hkept, fun a ha => ?_⟩
  induction ha with
  | refl => exact hall start hcover.start
  | tail _ hstep ih => exact hall _ (hcover.successors _ ih _ hstep)

end Afterfree.Lib.Worklist
