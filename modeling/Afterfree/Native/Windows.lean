import Afterfree.Native.Interpreter

/-!
# Windows of a run

A call whose limit is in the output goes along the run of the whole program, up to a block start at
its limit. In a run with a checkpoint for every page there is such a block start at every page of
the output, and each checkpoint is a point of the run.

* `step_follow`: one instruction with a nearer limit, or with a farther one;
* `Checkpointed`: what the checkpoints of a run are;
* `range_filled`: a call along a run, to the end of the output or to one of its pages.
-/

namespace Afterfree.Native.Windows

open Afterfree.Common Afterfree.Codec Afterfree.Encoding Afterfree.Native.X86
  Afterfree.Native.Decode
open Afterfree.Native.Reference Afterfree.Native.Compile Afterfree.Native.Pieces
  Afterfree.Native.Calls
open Afterfree.Native.Interpreter Afterfree.Native.Arenas Afterfree.Lib.Machine

section
variable (c : Compiler)

/-- The extent of the whole program. -/
def whole : Extent := ⟨stop c, true⟩

/-- The program before its first instruction. -/
def beginning : Point where
  guest := initialGuest c.recipe
  cursor := BitVec.ofNat 64 c.recipe.h.output
  remaining := BitVec.ofNat 64 c.recipe.h.steps

/-- The ledger in front of a collection: the first checkpoint has been taken. -/
def opening (base : Word) : Ledger where
  collecting := 1
  nextPage := BitVec.ofNat 64 (c.recipe.h.output + PAGE)
  nextFrame := base + BitVec.ofNat 64 c.frameSize
  frames := Function.update (fun _ => none) base (some (beginning c))

/-- The guest is at the start of a block. -/
def AtStart (p : Point) : Prop :=
  ∃ d, find c.plan.instructions p.guest.pc = some d ∧ c.starts d = true

/-- A call ends at a point, at its limit. -/
def Yielding (q : Extent) (p : Point) : Prop :=
  AtStart c p ∧ q.validating = false ∧ p.cursor = q.limit

end

section
variable {c : Compiler}

/-! ### One step -/

/-- **A step that goes on**, for any extent. -/
theorem step_inl {q : Extent} {s s' : Point × Ledger}
    (h : Interpreter.step c q s = some (.inl s')) :
    ∃ d, find c.plan.instructions s.1.guest.pc = some d ∧
      ¬ (c.starts d = true ∧ q.validating = false ∧ s.1.cursor = q.limit) ∧
      ¬ (c.starts d = true ∧ s.1.remaining < BitVec.ofNat 64 (c.blockCount d)) ∧
      body c q.limit d (spend c d s.1) = .inl s'.1 ∧ s'.2 = crossed c d s.1 s.2 := by
  obtain ⟨d, hd, hx⟩ := Option.map_eq_some_iff.mp h
  split_ifs at hx with h1 h2
  cases hb : body c q.limit d (spend c d s.1) with
  | inr x => rw [hb] at hx; cases hx
  | inl p =>
    rw [hb] at hx
    obtain rfl := Sum.inl.inj hx
    exact ⟨d, hd, h1, h2, hb, rfl⟩

theorem body_inr {limit : Word} {d : Decoded} {p : Point} {x : Exit × Point}
    (h : body c limit d p = .inr x) :
    x.2 = p ∧ x.1 ≠ .yielded ∧ (x.1 = .returned → d.returns = true ∧ Complete c p) := by
  unfold body at h
  cases hr : d.returns with
  | true =>
    rw [hr, if_pos rfl] at h
    obtain rfl := Sum.inr.inj h
    by_cases hc : Complete c p
    · simp [hc]
    · simp [hc]
  | false =>
    rw [hr] at h
    simp only [Bool.false_eq_true, if_false] at h
    split at h
    · cases h
    · split at h
      · obtain rfl := Sum.inr.inj h
        simp
      · split_ifs at h
        · obtain rfl := Sum.inr.inj h
          simp

/-- **A step that ends a run** with a return. -/
theorem step_returned {q : Extent} {s x : Point × Ledger}
    (h : Interpreter.step c q s = some (.inr (.returned, x))) :
    ∃ d, find c.plan.instructions s.1.guest.pc = some d ∧
      ¬ (c.starts d = true ∧ q.validating = false ∧ s.1.cursor = q.limit) ∧
      ¬ (c.starts d = true ∧ s.1.remaining < BitVec.ofNat 64 (c.blockCount d)) ∧ d.returns = true ∧
      Complete c (spend c d s.1) ∧ x = (spend c d s.1, crossed c d s.1 s.2) := by
  obtain ⟨d, hd, hx⟩ := Option.map_eq_some_iff.mp h
  by_cases h1 : c.starts d = true ∧ q.validating = false ∧ s.1.cursor = q.limit
  · rw [if_pos h1] at hx
    cases hx
  by_cases h2 : c.starts d = true ∧ s.1.remaining < BitVec.ofNat 64 (c.blockCount d)
  · rw [if_neg h1, if_pos h2] at hx
    cases hx
  rw [if_neg h1, if_neg h2] at hx
  cases hb : body c q.limit d (spend c d s.1) with
  | inl p => rw [hb] at hx; cases hx
  | inr y =>
    rw [hb] at hx
    obtain ⟨he, rfl⟩ := Prod.mk.inj (Sum.inr.inj hx)
    obtain ⟨hp, -, hret⟩ := body_inr hb
    obtain ⟨hr, hc⟩ := hret he
    exact ⟨d, hd, h1, h2, hr, hc, by rw [hp]⟩

theorem step_yielded {q : Extent} {s x : Point × Ledger}
    (h : Interpreter.step c q s = some (.inr (.yielded, x))) : Yielding c q s.1 ∧ x = s := by
  obtain ⟨d, hd, hx⟩ := Option.map_eq_some_iff.mp h
  by_cases h1 : c.starts d = true ∧ q.validating = false ∧ s.1.cursor = q.limit
  · rw [if_pos h1] at hx
    obtain ⟨-, rfl⟩ := Prod.mk.inj (Sum.inr.inj hx)
    exact ⟨⟨⟨d, hd, h1.1⟩, h1.2⟩, rfl⟩
  by_cases h2 : c.starts d = true ∧ s.1.remaining < BitVec.ofNat 64 (c.blockCount d)
  · rw [if_neg h1, if_pos h2] at hx
    cases hx
  rw [if_neg h1, if_neg h2] at hx
  cases hb : body c q.limit d (spend c d s.1) with
  | inl p => rw [hb] at hx; cases hx
  | inr y =>
    rw [hb] at hx
    exact absurd (Prod.mk.inj (Sum.inr.inj hx)).1 (body_inr hb).2.1

theorem step_inr {q : Extent} {s : Point × Ledger} {x : Exit × Point × Ledger}
    (h : Interpreter.step c q s = some (.inr x)) :
    x.2.1.guest = s.1.guest ∧ x.2.1.cursor = s.1.cursor ∧
      (x.2.2 = s.2 ∨ ∃ d, x.2.2 = crossed c d s.1 s.2) := by
  obtain ⟨d, hd, hx⟩ := Option.map_eq_some_iff.mp h
  by_cases h1 : c.starts d = true ∧ q.validating = false ∧ s.1.cursor = q.limit
  · rw [if_pos h1] at hx
    obtain rfl := Sum.inr.inj hx
    exact ⟨rfl, rfl, .inl rfl⟩
  by_cases h2 : c.starts d = true ∧ s.1.remaining < BitVec.ofNat 64 (c.blockCount d)
  · rw [if_neg h1, if_pos h2] at hx
    obtain rfl := Sum.inr.inj hx
    exact ⟨spend_guest c d s.1, spend_cursor c d s.1, .inr ⟨d, rfl⟩⟩
  rw [if_neg h1, if_neg h2] at hx
  cases hb : body c q.limit d (spend c d s.1) with
  | inl p => rw [hb] at hx; cases hx
  | inr y =>
    rw [hb] at hx
    obtain rfl := Sum.inr.inj hx
    obtain ⟨hp, -⟩ := body_inr hb
    simp only
    rw [hp]
    exact ⟨spend_guest c d s.1, spend_cursor c d s.1, .inr ⟨d, rfl⟩⟩

/-- **A call yields** at a block start at its limit. -/
theorem step_of_yielding {q : Extent} {s : Point × Ledger} (h : Yielding c q s.1) :
    Interpreter.step c q s = some (.inr (.yielded, s)) := by
  obtain ⟨⟨d, hd, hs⟩, hq⟩ := h
  rw [Interpreter.step, hd, Option.map_some, if_pos ⟨hs, hq⟩]

/-- **The limit of an instruction** matters for what it stores only. -/
theorem body_limit {limit limit' : Word} {d : Decoded} {p p' : Point}
    (h : body c limit d p = .inl p') (hle : p'.cursor.toNat ≤ limit'.toNat) :
    body c limit' d p = .inl p' := by
  unfold body at h ⊢
  split_ifs at h ⊢ with hr
  split at h
  · exact h
  · next m hm =>
    simp only at h ⊢
    generalize operandOf c d m p.guest.core = a at h ⊢
    have hserved : ∀ x, served c d m (p.fields limit) a = some x →
        (m.action = .write → (a + BitVec.ofNat 64 (m.size / 8)).toNat ≤ limit'.toNat) →
        served c d m (p.fields limit') a = some x := by
      intro x hx hw
      unfold served at hx ⊢
      by_cases h1 : d.inst.mnemonic.unaligned.isSome = true ∧ a &&& 15 ≠ 0
      · rw [if_pos h1] at hx
        cases hx
      rw [if_neg h1] at hx ⊢
      by_cases h2 : m.action = .write
      · rw [if_pos h2] at hx ⊢
        split_ifs at hx with h3
        have hroom : Writable (m.size / 8) (p.fields limit') a := by
          refine ⟨h3.1, h3.2.1, ?_⟩
          rw [BitVec.lt_def]
          exact Nat.not_lt.mpr (hw h2)
        rw [if_pos hroom]
        exact hx
      · rw [if_neg h2] at hx ⊢
        exact hx
    split at h
    · cases h
    · next x hx =>
      split_ifs at h with h1 h2
      · obtain rfl := Sum.inl.inj h
        rw [hserved x hx fun _ => hle]
        simp only [if_neg h1, if_pos h2]
      · obtain rfl := Sum.inl.inj h
        rw [hserved x hx fun hc => absurd hc h2]
        simp only [if_neg h1, if_neg h2]

variable {r : Recipe} (hw : WellFormed r) (ha : Admitted c.isa r c.plan)

include ha in
/-- **A step keeps the output in order**: it extends it, and leaves what is there. -/
theorem step_taken {q : Extent} (hq : q.limit.toNat ≤ c.recipe.h.output + c.recipe.h.length)
    {s s' : Point × Ledger} (hs : Sound c s.1) (h : Interpreter.step c q s = some (.inl s')) :
    Sound c s'.1 ∧ s.1.cursor.toNat ≤ s'.1.cursor.toNat ∧
      ∀ a : Word, a.toNat < s.1.cursor.toNat → s'.1.guest.mem a = s.1.guest.mem a := by
  obtain ⟨d, hd, -, -, hb, -⟩ := step_inl h
  have hmem : d ∈ c.plan.instructions := List.mem_of_find?_eq_some hd
  have hspent : Sound c (spend c d s.1) :=
    ⟨by simpa using hs.low, by simpa using hs.high, by simpa using hs.outside⟩
  obtain ⟨-, -, -, ht⟩ := body_taken ha hmem hb
  have hcur := ht.cursor.1
  rw [spend_cursor] at hcur
  refine ⟨ht.sound hspent hq, by omega, fun a hlt => ?_⟩
  rw [ht.below (by rwa [spend_cursor]), spend_guest]

include ha in
/-- **A run keeps the output in order.** -/
theorem steps_taken {q : Extent} (hq : q.limit.toNat ≤ c.recipe.h.output + c.recipe.h.length)
    {n : ℕ} {s u : Point × Ledger} (h : Steps (Interpreter.step c q) n s u) (hs : Sound c s.1) :
    Sound c u.1 ∧ s.1.cursor.toNat ≤ u.1.cursor.toNat ∧
      ∀ a : Word, a.toNat < s.1.cursor.toNat → u.1.guest.mem a = s.1.guest.mem a := by
  induction h with
  | refl => exact ⟨hs, le_rfl, fun _ _ => rfl⟩
  | cons hstep _ ih =>
    obtain ⟨ht, hle, hkeep⟩ := step_taken ha hq hs hstep
    obtain ⟨hu, hle', hkeep'⟩ := ih ht
    exact ⟨hu, hle.trans hle', fun a hlt => (hkeep' a (by omega)).trans (hkeep a hlt)⟩

include ha in
/-- **A call does not go beyond its limit.** -/
theorem ends_limit {q : Extent} {n : ℕ} {s t : Point × Ledger} {x : Exit × Point × Ledger}
    (h : Ends (Interpreter.step c q) n s t x) (hs : s.1.cursor.toNat ≤ q.limit.toNat) :
    x.2.1.cursor.toNat ≤ q.limit.toNat := by
  have ht := h.1.keeps (P := fun s => s.1.cursor.toNat ≤ q.limit.toNat) (fun s s' hs hstep => ?_) hs
  · rw [(step_inr h.2).2.1]
    exact ht
  · obtain ⟨d, hd, -, -, hb, -⟩ := step_inl hstep
    obtain ⟨-, -, -, htaken⟩ := body_taken ha (List.mem_of_find?_eq_some hd) hb
    obtain ⟨hcur, hlim⟩ := htaken.cursor
    rw [spend_cursor] at hcur
    by_cases hnil : (advance c.isa c.recipe.h d (spend c d s.1).guest).2 = []
    · rw [hnil, List.length_nil] at hcur
      omega
    · exact hlim hnil

omit r in
/-- **A call that does not collect** leaves the ledger as it is. -/
theorem ends_off {q : Extent} {n : ℕ} {s t : Point × Ledger} {x : Exit × Point × Ledger}
    (h : Ends (Interpreter.step c q) n s t x) (hs : s.2.collecting = 0) : x.2.2 = s.2 := by
  have hoff : ∀ d p, crossed c d p s.2 = s.2 := by
    intro d p
    unfold crossed Ledger.pass
    split_ifs with h1 h2
    · exact absurd hs h2.1
    · exact absurd hs h2.1
    · rfl
    · rfl
  have ht := h.1.keeps (P := fun u => u.2 = s.2) (fun u u' hu hstep => ?_) rfl
  · rcases (step_inr h.2).2.2 with hx | ⟨d, hx⟩
    · rw [hx, ht]
    · rw [hx, ht, hoff]
  · obtain ⟨d, -, -, -, -, hled⟩ := step_inl hstep
    rw [hled, hu, hoff]

/-! ### Another limit -/

omit r in
/-- What a call keeps of the ledger of another one: all of it, or nothing when it does not collect.
-/
def Respects (c : Compiler) (f : Ledger → Ledger) : Prop :=
  ∀ p b, f (b.pass c p) = (f b).pass c p

theorem respects_id (c : Compiler) : Respects c id := fun _ _ => rfl

theorem respects_off (c : Compiler) {b : Ledger} (h : b.collecting = 0) :
    Respects c fun _ => b := by
  intro p b'
  exact (if_neg fun hd => hd.1 h).symm

theorem Respects.crossed {f : Ledger → Ledger} (hf : Respects c f) (d : Decoded) (p : Point)
    (b : Ledger) :
    f (crossed c d p b) = Interpreter.crossed c d p (f b) := by
  unfold Interpreter.crossed
  split_ifs
  · exact hf p b
  · rfl

/-- **One instruction with another limit** does the same, unless the call ends in front of it. -/
theorem step_follow {q q' : Extent} {f : Ledger → Ledger} (hf : Respects c f)
    {s s' : Point × Ledger} (h : Interpreter.step c q s = some (.inl s'))
    (hle : s'.1.cursor.toNat ≤ q'.limit.toNat) :
    Yielding c q' s.1 ∨ Interpreter.step c q' (s.1, f s.2) = some (.inl (s'.1, f s'.2)) := by
  obtain ⟨d, hd, -, haff, hb, hled⟩ := step_inl h
  by_cases hy : Yielding c q' s.1
  · exact .inl hy
  · right
    have hno : ¬ (c.starts d = true ∧ q'.validating = false ∧ s.1.cursor = q'.limit) := fun hc =>
      hy ⟨⟨d, hd, hc.1⟩, hc.2⟩
    rw [Interpreter.step, hd, Option.map_some, if_neg hno, if_neg haff, body_limit hb hle,
      hled, hf.crossed]
    rfl

/-- **A return with another limit.** -/
theorem step_follow_returned {q : Extent} (q' : Extent) {f : Ledger → Ledger} (hf : Respects c f)
    {s x : Point × Ledger} (h : Interpreter.step c q s = some (.inr (.returned, x))) :
    Yielding c q' s.1 ∨ Interpreter.step c q' (s.1, f s.2) =
      some (.inr (.returned, x.1, f x.2)) := by
  obtain ⟨d, hd, -, haff, hr, hc, rfl⟩ := step_returned h
  by_cases hy : Yielding c q' s.1
  · exact .inl hy
  · right
    have hno : ¬ (c.starts d = true ∧ q'.validating = false ∧ s.1.cursor = q'.limit) := fun hc =>
      hy ⟨⟨d, hd, hc.1⟩, hc.2⟩
    have hbody : body c q'.limit d (spend c d s.1) = .inr (.returned, spend c d s.1) := by
      rw [body, hr, if_pos rfl, if_pos hc]
    rw [Interpreter.step, hd, Option.map_some, if_neg hno, if_neg haff, hbody, hf.crossed]
    rfl

include ha

/-- **A run with another limit** goes along, at least up to where the call yields. -/
theorem steps_follow {q : Extent} (q' : Extent)
    (hq : q.limit.toNat ≤ c.recipe.h.output + c.recipe.h.length) {f : Ledger → Ledger}
    (hf : Respects c f) {n : ℕ} {s u : Point × Ledger} (hs : Sound c s.1)
    (h : Steps (Interpreter.step c q) n s u) (hle : u.1.cursor.toNat ≤ q'.limit.toNat) :
    Steps (Interpreter.step c q') n (s.1, f s.2) (u.1, f u.2) ∨
      ∃ m v, Steps (Interpreter.step c q) m s v ∧
        Steps (Interpreter.step c q') m (s.1, f s.2) (v.1, f v.2) ∧ Yielding c q' v.1 := by
  have hfollow :=
    Steps.follow (f := fun s : Point × Ledger => (s.1, f s.2)) (I := fun s => Sound c s.1)
    (Q := fun s => s.1.cursor.toNat ≤ q'.limit.toNat) (S := fun s => Yielding c q' s.1)
    (fun s s' hs hstep => (step_taken ha hq hs hstep).1)
    (fun s s' hs hstep hle => (step_taken ha hq hs hstep).2.1.trans hle)
    (fun s s' hs hstep hle => step_follow hf hstep hle) h hs hle
  rcases hfollow.2 with hall | ⟨m, v, hv, hv', hy, -⟩
  · exact .inl hall
  · exact .inr ⟨m, v, hv, hv', hy⟩

/-- **A call along a run** that comes to a block start at its limit yields. -/
theorem yields_along {q q' : Extent} (hq : q.limit.toNat ≤ c.recipe.h.output + c.recipe.h.length)
    {f : Ledger → Ledger} (hf : Respects c f) {n : ℕ} {s u : Point × Ledger} (hs : Sound c s.1)
    (h : Steps (Interpreter.step c q) n s u) (hy : Yielding c q' u.1) :
    ∃ m v, Steps (Interpreter.step c q) m s v ∧ Yielding c q' v.1 ∧
      Ends (Interpreter.step c q') m (s.1, f s.2) (v.1, f v.2) (.yielded, v.1, f v.2) := by
  have hle : u.1.cursor.toNat ≤ q'.limit.toNat := by rw [hy.2.2]
  rcases steps_follow ha q' hq hf hs h hle with hall | ⟨m, v, hv, hv', hyv⟩
  · exact ⟨n, u, h, hy, hall, step_of_yielding hy⟩
  · exact ⟨m, v, hv, hyv, hv', step_of_yielding hyv⟩

/-- **A call along a run that returns**, up to the end of the output. -/
theorem ends_along {q : Extent} (q' : Extent)
    (hq : q.limit.toNat ≤ c.recipe.h.output + c.recipe.h.length) {f : Ledger → Ledger}
    (hf : Respects c f) {n : ℕ} {s t x : Point × Ledger} (hs : Sound c s.1)
    (h : Ends (Interpreter.step c q) n s t (.returned, x))
    (hle : t.1.cursor.toNat ≤ q'.limit.toNat) :
    (∃ m v, Steps (Interpreter.step c q) m s v ∧ Yielding c q' v.1 ∧
      Ends (Interpreter.step c q') m (s.1, f s.2) (v.1, f v.2) (.yielded, v.1, f v.2)) ∨
    Ends (Interpreter.step c q') n (s.1, f s.2) (t.1, f t.2) (.returned, x.1, f x.2) := by
  rcases steps_follow ha q' hq hf hs h.1 hle with hall | ⟨m, v, hv, hv', hyv⟩
  · rcases step_follow_returned q' hf h.2 with hy | hret
    · exact .inl ⟨n, t, h.1, hy, hall, step_of_yielding hy⟩
    · exact .inr ⟨hall, hret⟩
  · exact .inl ⟨m, v, hv, hyv, hv', step_of_yielding hyv⟩

end

/-! ### Checkpoints -/

/-- **A point of the run** of the program that a page of the output begins with. -/
def Passes (c : Compiler) (base : Word) (k : ℕ) (p : Point) : Prop :=
  AtStart c p ∧ p.cursor = BitVec.ofNat 64 (c.recipe.h.output + k * PAGE) ∧
    ∃ m b, Steps (Interpreter.step c (whole c)) m (beginning c, opening c base) (p, b)

/-- **The checkpoints of a run**: the first `k` frames hold points at the first `k` pages. -/
def Checkpointed (c : Compiler) (base : Word) (b : Ledger) : Prop :=
  ∃ k, 0 < k ∧ (k - 1) * PAGE < c.recipe.h.length ∧
    b.nextPage = BitVec.ofNat 64 (c.recipe.h.output + k * PAGE) ∧
    b.nextFrame = base + BitVec.ofNat 64 (k * c.frameSize) ∧
    ∀ j < k, ∃ p, b.frames (base + BitVec.ofNat 64 (j * c.frameSize)) = some p ∧ Passes c base j p

theorem vectors_nodup {isa : Isa} {cache : Bool} {r : Recipe} {p : Plan}
    (h : decode isa cache r = .ok p) :
    p.vectors.Nodup := by
  unfold Decode.decode at h
  split_ifs at h with hsub
  cases hr : readSnapshot r (r.h.regs.getD 15 0) 8 with
  | none => rw [hr] at h; cases h
  | some returned =>
    rw [hr] at h
    simp only at h
    split_ifs at h with hstop
    obtain ⟨⟨ds, u⟩, -, h⟩ := bind_ok h
    simp only at h
    split_ifs at h with hentry
    split at h
    · cases h
    · split at h
      · cases h
      · obtain rfl := Except.ok.inj h
        exact List.Nodup.filter (fun k => k ∈ u.xmm) (List.nodup_finRange 16)

section
variable {c : Compiler} {r : Recipe} (hw : WellFormed r) (ha : Admitted c.isa r c.plan)
  (hv : c.plan.vectors.Nodup) {base : Word}

omit r in
include hv in
theorem frameSize_bounds : 40 ≤ c.frameSize ∧ c.frameSize ≤ 424 := by
  have hgprs : c.gprs.length ≤ 16 := (List.length_filter_le _ _).trans (by simp)
  have hvectors : c.plan.vectors.length ≤ 16 := by
    have := hv.length_le_card
    rwa [Fintype.card_fin] at this
  unfold Compiler.frameSize
  omega

include hw ha hv in
/-- **Frames of different pages** are at different addresses. -/
theorem frame_ne (base : Word) {j k : ℕ} (hjk : j < k) (hk : (k - 1) * PAGE < c.recipe.h.length) :
    base + BitVec.ofNat 64 (j * c.frameSize) ≠ base + BitVec.ofNat 64 (k * c.frameSize) := by
  obtain ⟨hpos, hle⟩ := frameSize_bounds hv
  obtain ⟨-, hfit, -⟩ := output_fits hw ha.recipe
  obtain ⟨hpage, -⟩ := page_bounds hk
  have hk1 : (k - 1 + 1) * PAGE = k * 4096 := by
    rw [Nat.sub_add_cancel (by omega)]
    rfl
  rw [hk1] at hpage
  have hmul : j * c.frameSize < k * c.frameSize := Nat.mul_lt_mul_of_pos_right hjk (by omega)
  have hsmall : k * c.frameSize ≤ k * 424 := Nat.mul_le_mul_left k hle
  intro hc
  have hto := congrArg BitVec.toNat ((BitVec.add_right_inj base).mp hc)
  rw [toNat_small (by omega), toNat_small (by omega)] at hto
  omega

include hw ha in
theorem beginning_cursor : (beginning c).cursor.toNat = c.recipe.h.output := by
  obtain ⟨-, -, hfit⟩ := output_fits hw ha.recipe
  exact toNat_small (by omega)

include hw ha in
theorem beginning_sound : Sound c (beginning c) := by
  have hto := beginning_cursor hw ha
  exact ⟨hto.ge, by omega, fun _ _ => rfl⟩

include hw ha in
theorem whole_limit : (whole c).limit.toNat = c.recipe.h.output + c.recipe.h.length := by
  obtain ⟨-, -, hfit⟩ := output_fits hw ha.recipe
  exact toNat_small hfit

include ha in
theorem beginning_start : AtStart c (beginning c) := by
  have hentry : present c.plan.instructions c.recipe.h.entry = true := by
    rw [Compiler.recipe, ha.recipe]
    exact ha.entry
  obtain ⟨d, hd⟩ := Option.isSome_iff_exists.mp hentry
  have hpc : d.pc = c.recipe.h.entry := by simpa using List.find?_some hd
  refine ⟨d, hd, decide_eq_true ?_⟩
  rw [ha.starts, hpc, Compiler.recipe, ha.recipe]
  exact List.mem_cons_self

include ha in
theorem opening_kept (hw : WellFormed r) : Checkpointed c base (opening c base) := by
  obtain ⟨hpos, -⟩ := output_fits hw ha.recipe
  refine ⟨1, Nat.one_pos, by
    simpa using hpos, by rw [Nat.one_mul]; rfl, by rw [Nat.one_mul]; rfl, ?_⟩
  intro j hj
  obtain rfl : j = 0 := by omega
  have hzero : base + BitVec.ofNat 64 (0 * c.frameSize) = base := by simp
  refine ⟨beginning c, ?_, beginning_start ha, by simp [beginning], 0, opening c base, .refl _⟩
  rw [hzero]
  simp [opening]

include hw ha hv in
/-- **A block start keeps the checkpoints.** -/
theorem crossed_kept {m : ℕ} {p : Point} {b : Ledger} {d : Decoded}
    (hsteps : Steps (Interpreter.step c (whole c)) m (beginning c, opening c base) (p, b))
    (hk : Checkpointed c base b) (hd : find c.plan.instructions p.guest.pc = some d) :
    Checkpointed c base (crossed c d p b) := by
  unfold crossed
  by_cases hs : c.starts d = true
  · rw [if_pos hs, Ledger.pass]
    by_cases hdue : b.Due c p
    · rw [if_pos hdue]
      obtain ⟨k, hpos, hlt, hpage, hframe, hall⟩ := hk
      by_cases hat : p.cursor = b.nextPage
      · rw [if_pos hat]
        obtain ⟨-, hfit, -⟩ := output_fits hw ha.recipe
        obtain ⟨hroom, -⟩ := page_bounds hlt
        rw [Nat.sub_add_cancel hpos] at hroom
        -- the page is not the end of the output
        have hnext : k * PAGE < c.recipe.h.length := by
          have hsound := (steps_taken ha (whole_limit hw ha).le hsteps (beginning_sound hw ha)).1
          have hhigh := hsound.high
          have hto : p.cursor.toNat = c.recipe.h.output + k * PAGE := by
            rw [hat, hpage, toNat_small (by omega)]
          have hne : p.cursor.toNat ≠ c.recipe.h.output + c.recipe.h.length := fun hc =>
            hdue.2.1 (by rw [stop, ← hc, BitVec.ofNat_toNat, BitVec.setWidth_eq])
          simp only at hhigh
          omega
        refine ⟨k + 1, Nat.succ_pos k, hnext, ?_, ?_, fun j hj => ?_⟩
        · rw [hpage, ← BitVec.ofNat_add, Nat.succ_mul, Nat.add_assoc]
        · rw [hframe, BitVec.add_assoc, ← BitVec.ofNat_add, Nat.succ_mul]
        · by_cases hjk : j = k
          · subst hjk
            refine ⟨p, ?_, ⟨d, hd, hs⟩, hat.trans hpage, m, b, hsteps⟩
            rw [← hframe]
            exact Function.update_self b.nextFrame _ _
          · obtain ⟨p', hp', hpass⟩ := hall j (by omega)
            refine ⟨p', ?_, hpass⟩
            have hne := frame_ne hw ha hv base (j := j) (k := k) (by omega) hlt
            rw [← hframe] at hne
            exact (Function.update_of_ne hne _ _).trans hp'
      · rw [if_neg hat]
        exact ⟨k, hpos, hlt, hpage, hframe, hall⟩
    · rw [if_neg hdue]
      exact hk
  · rw [if_neg hs]
    exact hk

include hw ha hv in
/-- **A run keeps the checkpoints.** -/
theorem steps_kept {m : ℕ} {s : Point × Ledger}
    (hsteps : Steps (Interpreter.step c (whole c)) m (beginning c, opening c base) s) :
    Checkpointed c base s.2 := by
  refine (hsteps.keeps (P := fun s => (∃ m, Steps (Interpreter.step c (whole c)) m
    (beginning c, opening c base) s) ∧ Checkpointed c base s.2) (fun s t hk hstep => ?_)
    ⟨⟨0, .refl _⟩, opening_kept ha hw⟩).2
  obtain ⟨⟨m, hm⟩, hk⟩ := hk
  obtain ⟨d, hd, -, -, -, hled⟩ := step_inl hstep
  refine ⟨⟨m + 1, hm.trans (.single hstep)⟩, ?_⟩
  rw [hled]
  exact crossed_kept hw ha hv hm hk hd

omit r in
/-- The checkpoints of a ledger are in the frames of pages. -/
def Framed (c : Compiler) (base : Word) (b : Ledger) : Prop :=
  ∀ a p, b.frames a = some p →
    ∃ k, k * PAGE < c.recipe.h.length ∧ a = base + BitVec.ofNat 64 (k * c.frameSize)

omit r in
/-- A block start takes a checkpoint in the next frame, if it takes one. -/
theorem crossed_framed {d : Decoded} {p : Point} {b : Ledger} (hf : Framed c base b)
    (hk : Checkpointed c base (crossed c d p b)) : Framed c base (crossed c d p b) := by
  intro a p' ha'
  unfold crossed Ledger.pass at hk ha'
  by_cases hs : c.starts d = true
  · rw [if_pos hs] at hk ha'
    by_cases hdue : b.Due c p
    · rw [if_pos hdue] at hk ha'
      by_cases hat : p.cursor = b.nextPage
      · rw [if_pos hat] at hk ha'
        by_cases hx : a = b.nextFrame
        · obtain ⟨k, hpos, hlt, -, hframe, -⟩ := hk
          refine ⟨k - 1, hlt, ?_⟩
          obtain ⟨k, rfl⟩ : ∃ j, k = j + 1 := ⟨k - 1, by omega⟩
          rw [Nat.add_mul, Nat.one_mul, BitVec.ofNat_add, ← BitVec.add_assoc] at hframe
          rw [hx, Nat.add_sub_cancel]
          exact (BitVec.add_left_inj _).mp hframe
        · exact hf a p' ((Function.update_of_ne hx _ _).symm.trans ha')
      · rw [if_neg hat] at ha'
        exact hf a p' ha'
    · rw [if_neg hdue] at ha'
      exact hf a p' ha'
  · rw [if_neg hs] at ha'
    exact hf a p' ha'

include hw ha hv in
/-- **All checkpoints of a run** are in the frames of pages. -/
theorem ends_framed {n : ℕ} {t x : Point × Ledger}
    (h : Ends (Interpreter.step c (whole c)) n (beginning c, opening c base) t (.returned, x)) :
    Framed c base x.2 := by
  have hopen : Framed c base (opening c base) := by
    intro a p hp
    have hp' : Function.update (fun _ => none) base (some (beginning c)) a = some p := hp
    by_cases hx : a = base
    · obtain ⟨hpos, -⟩ := output_fits hw ha.recipe
      exact ⟨0, by simpa using hpos, by simp [hx]⟩
    · rw [Function.update_of_ne hx] at hp'
      cases hp'
  have hsteps := h.1.keeps (P := fun s => (∃ m, Steps (Interpreter.step c (whole c)) m
    (beginning c, opening c base) s) ∧ Framed c base s.2) (fun s t hk hstep => ?_)
    ⟨⟨0, .refl _⟩, hopen⟩
  · obtain ⟨d, hd, -, -, -, -, hx⟩ := step_returned h.2
    rw [hx]
    exact crossed_framed hsteps.2 (crossed_kept hw ha hv h.1 (steps_kept hw ha hv h.1) hd)
  · obtain ⟨⟨m, hm⟩, hk⟩ := hk
    obtain ⟨d, hd, -, -, -, hled⟩ := step_inl hstep
    refine ⟨⟨m + 1, hm.trans (.single hstep)⟩, ?_⟩
    rw [hled]
    exact crossed_framed hk (crossed_kept hw ha hv hm (steps_kept hw ha hv hm) hd)

/-- **A run that ends with all its pages.** -/
structure Paged (c : Compiler) (base : Word) (n : ℕ) (t x : Point × Ledger) : Prop where
  ends : Ends (Interpreter.step c (whole c)) n (beginning c, opening c base) t (.returned, x)
  pages : stop c ≤ x.2.nextPage

include hw ha hv in
/-- **Every page has its checkpoint**, and it is a point of the run. -/
theorem Paged.frame {n : ℕ} {t x : Point × Ledger} (h : Paged c base n t x) {k : ℕ}
    (hk : k * PAGE < c.recipe.h.length) :
    ∃ p, x.2.frames (base + BitVec.ofNat 64 (k * c.frameSize)) = some p ∧ Passes c base k p := by
  obtain ⟨d, hd, -, -, -, -, hx⟩ := step_returned h.ends.2
  have hkept : Checkpointed c base x.2 := by
    rw [hx]
    exact crossed_kept hw ha hv h.ends.1 (steps_kept hw ha hv h.ends.1) hd
  obtain ⟨k', hpos, hlt, hpage, -, hall⟩ := hkept
  refine hall k ?_
  obtain ⟨-, hfit, hfit'⟩ := output_fits hw ha.recipe
  obtain ⟨hroom, -⟩ := page_bounds hlt
  rw [Nat.sub_add_cancel hpos] at hroom
  have hle := h.pages
  rw [hpage, stop, BitVec.le_def, toNat_small hfit', toNat_small (by omega)] at hle
  by_contra hc
  have := Nat.mul_le_mul_right PAGE (Nat.not_lt.mp hc)
  omega

include hw ha hv in
/-- **The run comes to every page** that it has not come to before. -/
theorem Paged.reaches {n : ℕ} {t x : Point × Ledger} (h : Paged c base n t x) {k m : ℕ}
    (hk : k * PAGE < c.recipe.h.length) {s : Point × Ledger}
    (hs : Steps (Interpreter.step c (whole c)) m (beginning c, opening c base) s)
    (hlt : s.1.cursor.toNat < c.recipe.h.output + k * PAGE) :
    ∃ m' u, Steps (Interpreter.step c (whole c)) m' s u ∧ AtStart c u.1 ∧
      u.1.cursor = BitVec.ofNat 64 (c.recipe.h.output + k * PAGE) := by
  obtain ⟨p, -, hat, hcur, m', b, hu⟩ := h.frame hw ha hv hk
  obtain ⟨-, -, hfit⟩ := output_fits hw ha.recipe
  have hto : p.cursor.toNat = c.recipe.h.output + k * PAGE := by rw [hcur, toNat_small (by omega)]
  have hlim := (whole_limit hw ha).le
  by_cases hle : m ≤ m'
  · exact ⟨m' - m, (p, b), hs.split hu hle, hat, hcur⟩
  · -- the cursor does not go back
    have hback := hu.split hs (by omega)
    have hsound := (steps_taken ha hlim hu (beginning_sound hw ha)).1
    have := (steps_taken ha hlim hback hsound).2.1
    simp only at this
    omega

include hw ha in
/-- **What a run leaves of the output** that is already there. -/
theorem run_keeps {m n : ℕ} {s v t x : Point × Ledger} (hs : Sound c s.1)
    (h : Ends (Interpreter.step c (whole c)) n s t (.returned, x))
    (hv : Steps (Interpreter.step c (whole c)) m s v) :
    ∀ a : Word, a.toNat < v.1.cursor.toNat → x.1.guest.mem a = v.1.guest.mem a := by
  have hlim := (whole_limit hw ha).le
  have hsound := (steps_taken ha hlim hv hs).1
  obtain ⟨d, -, -, -, -, -, rfl⟩ := step_returned h.2
  intro a hlt
  rw [spend_guest]
  exact (steps_taken ha hlim (h.split hv).1 hsound).2.2 a hlt

/-- How a call ends that has reconstructed the output up to its limit. -/
structure Filled (c : Compiler) (q : Extent) (mem : Memory) (e : Exit × Point × Ledger) : Prop where
  exit : e.1 = .yielded ∨ e.1 = .returned
  cursor : e.2.1.cursor = q.limit
  mem : ∀ a : Word, a.toNat < q.limit.toNat → e.2.1.guest.mem a = mem a

include hw ha hv in
/-- **A call for a range** to the end of the output, or of whole pages of a run that ends with all
its pages, from a point at its first page on: it ends at its limit, with the output of the whole run
up to there. -/
theorem range_filled {n : ℕ} {t x : Point × Ledger}
    (h : Ends (Interpreter.step c (whole c)) n (beginning c, opening c base) t (.returned, x))
    {k size : ℕ} {p : Point} (hp : Passes c base k p) {q : Extent} (hpos : 0 < size)
    (hle : k * PAGE + size ≤ c.recipe.h.length)
    (hlimit : q.limit = BitVec.ofNat 64 (c.recipe.h.output + k * PAGE + size))
    (hend : k * PAGE + size = c.recipe.h.length ∨
      stop c ≤ x.2.nextPage ∧ size % PAGE = 0 ∧ q.validating = false)
    {b : Ledger} (hb : b.collecting = 0) :
    ∃ m v e, Ends (Interpreter.step c q) m (p, b) v e ∧ Filled c q x.1.guest.mem e ∧ e.2.2 = b := by
  obtain ⟨-, -, hfit⟩ := output_fits hw ha.recipe
  obtain ⟨-, hcur, m, b', hs⟩ := hp
  have hlim := (whole_limit hw ha).le
  have hsound := (steps_taken ha hlim hs (beginning_sound hw ha)).1
  have hrest := h.split hs
  have hoff := respects_off c hb
  have hq : q.limit.toNat = c.recipe.h.output + k * PAGE + size := by
    rw [hlimit, toNat_small (by omega)]
  have hyield : (∃ m v, Steps (Interpreter.step c (whole c)) m (p, b') v ∧ Yielding c q v.1 ∧
      Ends (Interpreter.step c q) m (p, b) (v.1, b) (.yielded, v.1, b)) →
      ∃ m v e, Ends (Interpreter.step c q) m (p, b) v e ∧ Filled c q x.1.guest.mem e ∧
        e.2.2 = b := by
    rintro ⟨m', v, hv', hy, hends⟩
    refine ⟨m', (v.1, b), _, hends, ⟨.inl rfl, hy.2.2, fun a hlt => ?_⟩, rfl⟩
    exact (run_keeps hw ha hsound hrest hv' a (by rw [hy.2.2]; exact hlt)).symm
  by_cases hall : k * PAGE + size = c.recipe.h.length
  · -- the call may yield at the end of the output, or it returns
    have hstop : q.limit = stop c := by rw [hlimit, Nat.add_assoc, hall]; rfl
    have htend := (steps_taken ha hlim hrest.1 hsound).1.high
    rcases ends_along ha q hlim hoff hsound hrest (by omega) with hy | hret
    · exact hyield hy
    · obtain ⟨d, -, -, -, -, hc, hx⟩ := step_returned h.2
      refine ⟨_, _, _, hret, ⟨.inr rfl, ?_, fun a _ => rfl⟩, rfl⟩
      rw [hstop, ← hc.1, hx]
  · -- the next page has its checkpoint, and the run comes to it
    obtain ⟨hall, hmod, hval⟩ := hend.resolve_left hall
    have hpaged : Paged c base n t x := ⟨h, hall⟩
    have hpages : (k + size / PAGE) * PAGE = k * PAGE + size := by
      rw [Nat.add_mul, Nat.div_mul_cancel (Nat.dvd_of_mod_eq_zero hmod)]
    have hto : p.cursor.toNat = c.recipe.h.output + k * PAGE := by rw [hcur, toNat_small (by omega)]
    obtain ⟨m', u, hu, hat, hucur⟩ := hpaged.reaches hw ha hv (k := k + size / PAGE) (by omega) hs
      (by simp only; omega)
    have hy : Yielding c q u.1 := ⟨hat, hval, by rw [hucur, hlimit, hpages, Nat.add_assoc]⟩
    exact hyield (yields_along ha hlim hoff hsound hu hy)

/-! ### Streams -/

include hw ha in
/-- **A window of the run** is a part of the whole run. -/
theorem window_whole {q : Extent} (hq : q.limit.toNat ≤ c.recipe.h.output + c.recipe.h.length)
    {n : ℕ} {s u : Point × Ledger} (hs : Sound c s.1) (h : Steps (Interpreter.step c q) n s u) :
    Steps (Interpreter.step c (whole c)) n s u := by
  have hu := (steps_taken ha hq h hs).1.high
  rcases steps_follow ha (whole c) hq (respects_id c) hs h
    (by rw [whole_limit hw ha]; exact hu) with
    hall | ⟨m, v, -, -, hy⟩
  · exact hall
  · exact absurd hy.2.1 (by simp [whole])

include hw ha in
/-- **The last window** ends as the whole run does. -/
theorem window_returned {q : Extent} (hq : q.limit.toNat ≤ c.recipe.h.output + c.recipe.h.length)
    {n : ℕ} {s t x : Point × Ledger} (hs : Sound c s.1)
    (h : Ends (Interpreter.step c q) n s t (.returned, x)) :
    Ends (Interpreter.step c (whole c)) n s t (.returned, x) := by
  refine ⟨window_whole hw ha hq hs h.1, ?_⟩
  rcases step_follow_returned (whole c) (respects_id c) h.2 with hy | hret
  · exact absurd hy.2.1 (by simp [whole])
  · exact hret

end

end Afterfree.Native.Windows
