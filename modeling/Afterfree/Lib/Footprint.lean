import Mathlib.Tactic

/-!
# Footprints of access sequences

A sequence of accesses reads and writes cells of a memory. The cells whose first access is a read
(`FirstRead`) are what the sequence depends on: a memory that agrees with the original one there
gives every read of the sequence the same values (`after_eq_of_read`).
-/

namespace Afterfree.Lib.Footprint

variable {α β : Type*}

/-- One access: a set of cells that is read, or one that is written with given values. -/
inductive Access (α β : Type*)
  | read (cells : Set α)
  | write (cells : Set α) (value : α → β)

namespace Access

/-- The cells an access reads. -/
def reads : Access α β → Set α
  | .read s => s
  | .write _ _ => ∅

/-- The cells an access writes. -/
def writes : Access α β → Set α
  | .read _ => ∅
  | .write s _ => s

open Classical in
/-- The memory after an access. -/
noncomputable def apply (m : α → β) : Access α β → α → β
  | .read _ => m
  | .write s v => fun a => if a ∈ s then v a else m a

theorem apply_write_mem (m : α → β) {s : Set α} {v : α → β} {a : α} (h : a ∈ s) :
    (write s v).apply m a = v a := if_pos h

theorem apply_write_not_mem (m : α → β) {s : Set α} {v : α → β} {a : α} (h : a ∉ s) :
    (write s v).apply m a = m a := if_neg h

end Access

/-- The memory after a sequence. -/
noncomputable def after (m : α → β) (es : List (Access α β)) : α → β := es.foldl Access.apply m

/-- Some access writes the cell. -/
def Written (es : List (Access α β)) (a : α) : Prop := ∃ e ∈ es, a ∈ e.writes

/-- Some access reads or writes the cell. -/
def Touched (es : List (Access α β)) (a : α) : Prop := ∃ e ∈ es, a ∈ e.reads ∨ a ∈ e.writes

/-- The first access to the cell is a read. -/
def FirstRead : List (Access α β) → α → Prop
  | [], _ => False
  | e :: es, a => a ∈ e.reads ∨ (a ∉ e.writes ∧ FirstRead es a)

section Snoc

variable {es : List (Access α β)} {e : Access α β} {a : α}

theorem written_snoc : Written (es ++ [e]) a ↔ Written es a ∨ a ∈ e.writes := by
  simp [Written, or_and_right, exists_or]

theorem touched_snoc :
    Touched (es ++ [e]) a ↔ Touched es a ∨ a ∈ e.reads ∨ a ∈ e.writes := by
  simp [Touched, or_and_right, exists_or]

/-- A later read is the first access only to a cell that was not accessed before. -/
theorem firstRead_snoc :
    FirstRead (es ++ [e]) a ↔ FirstRead es a ∨ (¬ Written es a ∧ a ∈ e.reads) := by
  induction es with
  | nil => simp [FirstRead, Written]
  | cons f es ih =>
    have hw : Written (f :: es) a ↔ a ∈ f.writes ∨ Written es a := by simp [Written]
    rw [List.cons_append, FirstRead, FirstRead, ih, hw]
    tauto

theorem after_snoc (m : α → β) : after m (es ++ [e]) = e.apply (after m es) := by
  unfold after
  rw [List.foldl_append]
  rfl

end Snoc

/-- A cell that is touched is read first or written. -/
theorem Touched.cases {es : List (Access α β)} {a : α} (h : Touched es a) :
    FirstRead es a ∨ Written es a := by
  induction es with
  | nil =>
    obtain ⟨e, he, -⟩ := h
    cases he
  | cons f es ih =>
    obtain ⟨e, he, hr⟩ := h
    by_cases hf : a ∈ f.writes
    · exact Or.inr ⟨f, List.mem_cons_self, hf⟩
    rcases List.mem_cons.mp he with rfl | he
    · exact Or.inl (Or.inl (hr.resolve_right hf))
    · rcases ih ⟨e, he, hr⟩ with h1 | ⟨e', he', hw⟩
      · exact Or.inl (Or.inr ⟨hf, h1⟩)
      · exact Or.inr ⟨e', List.mem_cons_of_mem _ he', hw⟩

/-- A cell that is read first is touched. -/
theorem FirstRead.touched {es : List (Access α β)} {a : α} (h : FirstRead es a) : Touched es a := by
  induction es with
  | nil => exact h.elim
  | cons e es ih =>
    rcases h with h | ⟨-, h⟩
    · exact ⟨e, List.mem_cons_self, Or.inl h⟩
    · obtain ⟨e', he', ha⟩ := ih h
      exact ⟨e', List.mem_cons_of_mem _ he', ha⟩

theorem FirstRead.append {es : List (Access α β)} {a : α} (h : FirstRead es a)
    (fs : List (Access α β)) : FirstRead (es ++ fs) a := by
  induction es with
  | nil => exact h.elim
  | cons e es ih =>
    rcases h with h | ⟨hw, h⟩
    · exact Or.inl h
    · exact Or.inr ⟨hw, ih h⟩

/-- A cell that is not written keeps its value. -/
theorem after_of_not_written (m : α → β) {es : List (Access α β)} {a : α} (h : ¬ Written es a) :
    after m es a = m a := by
  induction es using List.reverseRecOn with
  | nil => rfl
  | append_singleton es e ih =>
    rw [written_snoc, not_or] at h
    rw [after_snoc]
    cases e with
    | read s => exact ih h.1
    | write s v =>
      have hs : a ∉ s := h.2
      rw [Access.apply_write_not_mem _ hs]
      exact ih h.1

/-- A cell that is written has the value of its last write, whatever the memory was. -/
theorem after_of_written (m m' : α → β) {es : List (Access α β)} {a : α} (h : Written es a) :
    after m es a = after m' es a := by
  induction es using List.reverseRecOn with
  | nil =>
    obtain ⟨e, he, -⟩ := h
    cases he
  | append_singleton es e ih =>
    rw [after_snoc, after_snoc]
    rw [written_snoc] at h
    cases e with
    | read s => exact ih (h.resolve_right id)
    | write s v =>
      by_cases ha : a ∈ s
      · rw [Access.apply_write_mem _ ha, Access.apply_write_mem _ ha]
      · rw [Access.apply_write_not_mem _ ha, Access.apply_write_not_mem _ ha]
        exact ih (h.resolve_right ha)

/-- **What a sequence depends on.** If two memories agree on the cells whose first access is a read,
every read of the sequence sees the same values in both. -/
theorem after_eq_of_read {m m' : α → β} {es fs : List (Access α β)} {e : Access α β}
    (h : ∀ a, FirstRead (es ++ e :: fs) a → m a = m' a) {a : α} (ha : a ∈ e.reads) :
    after m es a = after m' es a := by
  by_cases hw : Written es a
  · exact after_of_written m m' hw
  · rw [after_of_not_written m hw, after_of_not_written m' hw]
    refine h a ?_
    have hf : FirstRead (es ++ [e]) a := firstRead_snoc.mpr (Or.inr ⟨hw, ha⟩)
    have := hf.append fs
    rwa [List.append_assoc] at this

end Afterfree.Lib.Footprint
