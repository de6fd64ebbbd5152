import Afterfree.Recording.Counting
import Afterfree.Encoding

/-!
# What the recorder bounds

`rule` and `block` bound the instructions and the steps of a capture (`Bounded`), the noted pages
are those of its accesses (`Observed`), the header has fields of the right sizes (`Headed`), and
`finish` adds only pages of the output and of the code (`finish_kept`).
-/

namespace Afterfree.Recording.Bounds

open Afterfree.Common Afterfree.Codec Afterfree.Encoding
open Afterfree.Recording.Capture Afterfree.Recording.Capture.Recorder Afterfree.Recording.Finish
open Afterfree.Recording.Runs Afterfree.Recording.Regions Afterfree.Recording.Counting
open Afterfree.Lib.Footprint

/-! ### Steps that only note pages -/

/-- The recorder may have noted the pages of `V`; plans, code and what counts blocks are the same.
-/
structure Notes (V : Set ℕ) (r r' : Recorder) : Prop where
  plans : r'.plans = r.plans
  code : r'.code = r.code
  counts : r'.blockCounts = r.blockCounts
  steps : r'.steps = r.steps
  pages : ∀ p ∈ r'.pages, p ∈ r.pages ∨ p ∈ V

section Notes

variable {V V' : Set ℕ} {r r' r'' : Recorder}

theorem Notes.refl : Notes V r r := ⟨rfl, rfl, rfl, rfl, fun _ hp => Or.inl hp⟩

theorem Notes.trans (h : Notes V r r') (h' : Notes V r' r'') : Notes V r r'' where
  plans := h'.plans.trans h.plans
  code := h'.code.trans h.code
  counts := h'.counts.trans h.counts
  steps := h'.steps.trans h.steps
  pages := fun p hp => (h'.pages p hp).elim (h.pages p) Or.inr

theorem Notes.mono (h : Notes V r r') (hv : V ⊆ V') : Notes V' r r' :=
  { h with pages := fun p hp => (h.pages p hp).imp_right fun hin => hv hin }

theorem Notes.page {addr : ℕ} (hv : base addr ∈ V) (h : r.page addr = .ok r') : Notes V r r' := by
  unfold Recorder.page at h
  split_ifs at h
  · cases h
    exact Notes.refl
  · cases h
    refine ⟨rfl, rfl, rfl, rfl, fun p hp => ?_⟩
    rw [Std.TreeMap.mem_insertIfNew, Nat.compare_eq_eq] at hp
    rcases hp with rfl | hp
    · exact Or.inr hv
    · exact Or.inl hp

theorem Notes.setPage {addr : ℕ} (hv : base addr ∈ V) (p : ObservedPage) :
    Notes V r (r.setPage addr p) := by
  refine ⟨rfl, rfl, rfl, rfl, fun q hq => ?_⟩
  rcases (mem_setPage r addr p).mp hq with rfl | hq
  · exact Or.inr hv
  · exact Or.inl hq

/-- The pages of a span of addresses. -/
def pagesOf (addr n : ℕ) : Set ℕ := {p | ∃ a, addr ≤ a ∧ a < addr + n ∧ base a = p}

theorem base_mem_pagesOf {addr n : ℕ} (h : n ≠ 0) : base addr ∈ pagesOf addr n :=
  ⟨addr, le_rfl, by omega, rfl⟩

theorem pagesOf_rest {addr n count : ℕ} (h : count ≤ n) :
    pagesOf (addr + count) (n - count) ⊆ pagesOf addr n := by
  rintro p ⟨a, h1, h2, rfl⟩
  exact ⟨a, by omega, by omega, rfl⟩

theorem Notes.readWord {m : ℕ → UInt8} {addr count : ℕ} (hv : base addr ∈ V)
    (h : r.readWord m addr count = some r') : Notes V r r' := by
  unfold Recorder.readWord copyWord at h
  dsimp only at h
  split_ifs at h
  · cases h
    exact Notes.refl
  · cases h
    obtain ⟨-, -, -, -, hp⟩ := Notes.setPage (r := r) hv _
    exact ⟨rfl, rfl, rfl, rfl, hp⟩

/-- **The loop of `read`** notes the pages of the span. -/
theorem Notes.readLoop {m : ℕ → UInt8} : ∀ {fuel : ℕ} {r : Recorder} {addr n : ℕ},
    r.readLoop m fuel addr n = .ok r' → r'.rejection = none → Notes (pagesOf addr n) r r' := by
  intro fuel
  induction fuel with
  | zero =>
    intro r addr n h _
    rw [readLoop_zero] at h
    cases h
    exact Notes.refl
  | succ fuel ih =>
    intro r addr n h hrej
    rw [readLoop_succ] at h
    split_ifs at h with h0
    · cases h
      exact Notes.refl
    obtain ⟨r₁, hp, h⟩ := bind_ok h
    have hbase : base addr ∈ pagesOf addr n := base_mem_pagesOf h0
    cases hword : r₁.readWord m addr (min n (64 - addr % PAGE % 64)) with
    | none =>
      rw [hword] at h
      cases h
      exact absurd hrej (reject_rejection _ _)
    | some r₂ =>
      rw [hword] at h
      have hrest := (ih h hrej).mono (pagesOf_rest (Nat.min_le_left n (64 - addr % PAGE % 64)))
      exact ((Notes.page hbase hp).trans (Notes.readWord hbase hword)).trans hrest

/-- **The loop of `write`** notes the pages of the span. -/
theorem Notes.writeLoop : ∀ {fuel : ℕ} {r : Recorder} {addr n : ℕ},
    r.writeLoop fuel addr n = .ok r' → Notes (pagesOf addr n) r r' := by
  intro fuel
  induction fuel with
  | zero =>
    intro r addr n h
    cases h
    exact Notes.refl
  | succ fuel ih =>
    intro r addr n h
    rw [Recorder.writeLoop] at h
    split_ifs at h with h0
    · cases h
      exact Notes.refl
    obtain ⟨r₁, hp, h⟩ := bind_ok h
    have hbase : base addr ∈ pagesOf addr n := base_mem_pagesOf h0
    have hrest := (ih h).mono (pagesOf_rest (Nat.min_le_left n (PAGE - addr % PAGE)))
    exact ((Notes.page hbase hp).trans (Notes.setPage hbase _)).trans hrest

theorem each_invariant {α : Type} {P : Recorder → Prop} {f : Recorder → α → Result} :
    ∀ {xs : List α} {r : Recorder}, (∀ x ∈ xs, ∀ s s', f s x = .ok s' → P s → P s') →
      each f r xs = .ok r' → P r → P r'
  | [], r, _, h, hr => by
    cases h
    exact hr
  | x :: xs, r, hf, h, hr => by
    obtain ⟨r₁, h₁, h⟩ := bind_ok h
    exact each_invariant (fun y hy => hf y (List.mem_cons_of_mem _ hy)) h
      (hf x List.mem_cons_self r r₁ h₁ hr)

theorem size_le_length {r : Recorder} {ps : List ℕ} (h : ∀ p ∈ r.pages, p ∈ ps) :
    r.pages.size ≤ ps.length := by
  have hsub : r.pages.keys ⊆ ps := fun p hp => h p (Std.TreeMap.mem_keys.mp hp)
  rw [← Std.TreeMap.length_keys]
  exact ((Std.TreeMap.nodup_keys (t := r.pages)).subperm hsub).length_le

theorem page_succeeds {r : Recorder} (h : r.pages.size ≤ 262144) (addr : ℕ) :
    ∃ ps c, r.page addr = .ok { r with pages := ps, cachedBase := c } := by
  unfold Recorder.page
  split_ifs with hc hsize
  · exact ⟨r.pages, r.cachedBase, rfl⟩
  · omega
  · exact ⟨_, _, rfl⟩

end Notes

/-! ### The limits of the recorder -/

/-- What the limits of `rule` and `block` keep. -/
structure Bounded (r : Recorder) : Prop where
  plans : r.plans.size ≤ 1000000
  planned : ∀ (k : ℕ) (p : Plan), r.plans[k]? = some p →
    p.instruction.address = k ∧ InstructionOk p.instruction
  code : ∀ (k : ℕ) (c : Instruction), r.code[k]? = some c →
    k ∈ r.plans ∧ c.address = k ∧ InstructionOk c
  steps : r.steps ≤ 500000000

section Bounded

variable {m : ℕ → UInt8} {r r' : Recorder}

theorem Bounded.congr (h : Bounded r) (hplans : r'.plans = r.plans) (hcode : r'.code = r.code)
    (hsteps : r'.steps ≤ 500000000) : Bounded r' := by
  refine ⟨?_, ?_, ?_, hsteps⟩
  · rw [hplans]
    exact h.plans
  · rw [hplans]
    exact h.planned
  · rw [hplans, hcode]
    exact h.code

theorem Bounded.notes {V : Set ℕ} (h : Bounded r) (hn : Notes V r r') : Bounded r' :=
  h.congr hn.plans hn.code (hn.steps.trans_le h.steps)

theorem Bounded.planAt_bytes (h : Bounded r) (k : ℕ) :
    (r.planAt k).instruction.bytes.length = 15 := by
  unfold Recorder.planAt
  cases hk : r.plans[k]? with
  | none => rfl
  | some p => exact (h.planned k p hk).2.bytes

/-- **`rule`** below its limit. -/
theorem Bounded.rule (h : Bounded r) {a : Analysis} (hrej : (r.rule m a).rejection = none) :
    Bounded (r.rule m a) := by
  unfold Recorder.rule at hrej ⊢
  split_ifs at hrej ⊢ with hlimit
  · exact absurd hrej (reject_rejection _ _)
  · refine ⟨?_, fun k p hk => ?_, fun k c hk => ?_, h.steps⟩
    · exact (Std.TreeMap.size_insert_le).trans (by omega)
    · replace hk : (r.plans.insert a.address _)[k]? = some p := hk
      rw [Std.TreeMap.getElem?_insert] at hk
      split_ifs at hk with he
      · cases hk
        refine ⟨Nat.compare_eq_eq.mp he, a.pos, a.short, a.fits, ?_⟩
        have hshort := a.short
        unfold Recorder.plan
        rw [List.length_append, List.length_map, List.length_range, List.length_drop,
          h.planAt_bytes]
        omega
      · exact h.planned k p hk
    · obtain ⟨hk, hc⟩ := h.code k c hk
      exact ⟨Std.TreeMap.mem_insert.mpr (Or.inr hk), hc⟩

theorem notePlan_fields (r : Recorder) (p : Plan) :
    (r.notePlan p).plans = r.plans ∧
      (r.notePlan p).code = r.code.insertIfNew p.instruction.address p.instruction ∧
      (r.notePlan p).steps = r.steps := by
  unfold Recorder.notePlan
  cases p.rejection <;> exact ⟨rfl, rfl, rfl⟩

theorem Bounded.notePlan (h : Bounded r) {k : ℕ} {p : Plan} (hk : r.plans[k]? = some p) :
    Bounded (r.notePlan p) := by
  obtain ⟨rfl, hok⟩ := h.planned k p hk
  have hmem : p.instruction.address ∈ r.plans := by
    rw [Std.TreeMap.mem_iff_isSome_getElem?, hk]
    rfl
  obtain ⟨hplans, hcode, hsteps⟩ := notePlan_fields r p
  refine ⟨?_, ?_, fun j c hj => ?_, hsteps.trans_le h.steps⟩
  · rw [hplans]
    exact h.plans
  · rw [hplans]
    exact h.planned
  · rw [hplans]
    rw [hcode, Std.TreeMap.getElem?_insertIfNew] at hj
    split_ifs at hj with he
    · cases hj
      obtain rfl : p.instruction.address = j := Nat.compare_eq_eq.mp he.1
      exact ⟨hmem, rfl, hok⟩
    · exact h.code j c hj

theorem Bounded.foldl_notePlan : ∀ {ps : List Plan} {r : Recorder}, Bounded r →
    (∀ p ∈ ps, ∃ k : ℕ, r.plans[k]? = some p) → Bounded (ps.foldl Recorder.notePlan r)
  | [], _, h, _ => h
  | p :: ps, r, h, hps => by
    obtain ⟨k, hk⟩ := hps p List.mem_cons_self
    refine @Bounded.foldl_notePlan ps _ (h.notePlan hk) fun q hq => ?_
    rw [(notePlan_fields r p).1]
    exact hps q (List.mem_cons_of_mem _ hq)

/-- **`block`** below its limit. -/
theorem Bounded.block (h : Bounded r) {start stop : ℕ}
    (hrej : (r.block start stop).rejection = none) : Bounded (r.block start stop) := by
  have hfold : Bounded ((r.planned start stop).foldl Recorder.notePlan r) := by
    refine h.foldl_notePlan fun p hp => ?_
    obtain ⟨k, -, -, hk⟩ := mem_planned hp
    exact ⟨k, hk⟩
  unfold Recorder.block at hrej ⊢
  cases hcount : r.blockCounts start stop with
  | some count =>
    rw [hcount] at hrej
    dsimp only at hrej ⊢
    split_ifs at hrej ⊢ with hlimit
    · exact absurd hrej (reject_rejection _ _)
    · exact h.congr rfl rfl (Nat.not_lt.mp hlimit)
  | none =>
    rw [hcount] at hrej
    dsimp only at hrej ⊢
    split_ifs at hrej ⊢ with h0 hlimit hlimit
    · exact absurd hrej (reject_rejection _ _)
    · exact absurd hrej (reject_rejection _ _)
    · exact absurd hrej (reject_rejection _ _)
    · exact hfold.congr rfl rfl (Nat.not_lt.mp hlimit)

/-- **`write`** notes at most the pages of its span. -/
theorem Notes.write {addr n : ℕ} (h : r.write addr n = .ok r') : Notes (pagesOf addr n) r r' := by
  unfold Recorder.write at h
  dsimp only at h
  split_ifs at h
  · cases h
    exact ⟨rfl, rfl, rfl, rfl, fun p hp => Or.inl hp⟩
  · cases h
    exact ⟨rfl, rfl, rfl, rfl, fun p hp => Or.inl hp⟩
  · obtain ⟨h1, h2, h3, h4, h5⟩ := Notes.writeLoop h
    exact ⟨h1, h2, h3, h4, h5⟩

theorem Notes.access {e : Event} (hrej : (e.note m r).rejection = none) :
    match e with
    | .read addr n => Notes (pagesOf addr n) r (e.note m r)
    | .write addr bytes => Notes (pagesOf addr bytes.length) r (e.note m r)
    | _ => (e.note m r).pages = r.pages := by
  have hr := note_rejection hrej
  cases e with
  | begin regs xmm mxcsr =>
    simp only [Event.note, Recorder.begin]
    split_ifs <;> rfl
  | rule a =>
    simp only [Event.note, Recorder.rule]
    split_ifs <;> rfl
  | block start stop =>
    obtain ⟨hp, -⟩ := foldl_notePlan_inputs (r.planned start stop) r
    simp only [Event.note, Recorder.block]
    cases r.blockCounts start stop with
    | some count =>
      dsimp only
      split_ifs <;> rfl
    | none =>
      dsimp only
      split_ifs <;> exact hp
  | read addr n =>
    simp only [Event.note, readAccess, hr, Option.isSome_none, Bool.false_eq_true, if_false]
      at hrej ⊢
    obtain ⟨r', hx, hc, hn⟩ := caught_none hrej
    rw [hc]
    unfold Recorder.read at hx
    split_ifs at hx
    · cases hx
      exact absurd hn (reject_rejection _ _)
    · exact Notes.readLoop hx hn
  | write addr bytes =>
    simp only [Event.note, writeAccess, hr, Option.isSome_none, Bool.false_eq_true, if_false]
      at hrej ⊢
    obtain ⟨r', hx, hc, hn⟩ := caught_none hrej
    rw [hc]
    exact Notes.write hx

/-- **One event** that does not reject. -/
theorem Bounded.note (h : Bounded r) {e : Event} (hrej : (e.note m r).rejection = none) :
    Bounded (e.note m r) := by
  have hn := Notes.access hrej
  cases e with
  | begin regs xmm mxcsr =>
    simp only [Event.note, Recorder.begin]
    split_ifs
    · exact h
    · exact h.congr rfl rfl h.steps
  | rule a => exact h.rule hrej
  | block start stop => exact h.block hrej
  | read addr n => exact h.notes hn
  | write addr bytes => exact h.notes hn

/-- **A whole capture** that ends without a rejection. -/
theorem Bounded.capture : ∀ {es : List Event} {m : ℕ → UInt8} {r : Recorder}, Bounded r →
    (capture m r es).2.rejection = none → Bounded (Capture.capture m r es).2
  | [], _, _, h, _ => h
  | e :: es, m, r, h, hrej => by
    rw [Capture.capture] at hrej ⊢
    exact Bounded.capture (h.note (capture_rejection hrej)) hrej

theorem Bounded.make (t : Target) (fsBase gsBase : ℕ) :
    Bounded (Recorder.make t fsBase gsBase) := by
  refine ⟨Nat.zero_le _, fun k p hk => ?_, fun k c hk => ?_, Nat.zero_le _⟩
  · replace hk : (∅ : Std.TreeMap ℕ Plan)[k]? = some p := hk
    rw [Std.TreeMap.getElem?_emptyc] at hk
    cases hk
  · replace hk : (∅ : Std.TreeMap ℕ Instruction)[k]? = some c := hk
    rw [Std.TreeMap.getElem?_emptyc] at hk
    cases hk

theorem Bounded.length_instructions (h : Bounded r) : r.instructions.length ≤ 1000000 := by
  have hsub : r.code.keys ⊆ r.plans.keys := by
    intro k hk
    have hk' := Std.TreeMap.mem_keys.mp hk
    rw [Std.TreeMap.mem_iff_isSome_getElem?] at hk'
    obtain ⟨c, hc⟩ := Option.isSome_iff_exists.mp hk'
    exact Std.TreeMap.mem_keys.mpr (h.code k c hc).1
  have hle := (Std.TreeMap.nodup_keys (t := r.code)).subperm hsub
  have hlen : r.instructions.length = r.code.keys.length := by
    unfold Recorder.instructions
    rw [List.length_map, Std.TreeMap.length_toList, Std.TreeMap.length_keys]
  rw [hlen]
  exact hle.length_le.trans (Std.TreeMap.length_keys.trans_le h.plans)

theorem Bounded.instructionOk (h : Bounded r) {c : Instruction} (hc : c ∈ r.instructions) :
    InstructionOk c := by
  obtain ⟨⟨k, c'⟩, hx, rfl⟩ := List.mem_map.mp hc
  exact (h.code k c' (Std.TreeMap.mem_toList_iff_getElem?_eq_some.mp hx)).2.2

end Bounded

/-! ### The pages that are noted -/

/-- Every noted page is the page of an access. -/
def Observed (acc : List (Access ℕ UInt8)) (r : Recorder) : Prop :=
  ∀ p ∈ r.pages, ∃ a, Touched acc a ∧ base a = p

theorem Observed.note {m : ℕ → UInt8} {acc : List (Access ℕ UInt8)} {r : Recorder} {e : Event}
    (h : Observed acc r) (hrej : (e.note m r).rejection = none) :
    Observed (acc ++ Event.access e) (e.note m r) := by
  have hn := Notes.access hrej
  cases e with
  | begin regs xmm mxcsr | rule a | block start stop =>
    rw [Event.access, List.append_nil]
    unfold Observed
    rw [hn]
    exact h
  | read addr n =>
    intro p hp
    rcases hn.pages p hp with hp | ⟨a, h1, h2, rfl⟩
    · obtain ⟨a, ha, rfl⟩ := h p hp
      exact ⟨a, touched_snoc.mpr (Or.inl ha), rfl⟩
    · exact ⟨a, touched_snoc.mpr (Or.inr (Or.inl ⟨h1, h2⟩)), rfl⟩
  | write addr bytes =>
    intro p hp
    rcases hn.pages p hp with hp | ⟨a, h1, h2, rfl⟩
    · obtain ⟨a, ha, rfl⟩ := h p hp
      exact ⟨a, touched_snoc.mpr (Or.inl ha), rfl⟩
    · exact ⟨a, touched_snoc.mpr (Or.inr (Or.inr ⟨h1, h2⟩)), rfl⟩

theorem Observed.capture : ∀ {es : List Event} {acc : List (Access ℕ UInt8)} {m : ℕ → UInt8}
    {r : Recorder}, Observed acc r → (capture m r es).2.rejection = none →
    Observed (acc ++ accesses es) (Capture.capture m r es).2
  | [], acc, _, r, h, _ => by
    rw [accesses, List.flatMap_nil, List.append_nil]
    exact h
  | e :: es, acc, m, r, h, hrej => by
    rw [Capture.capture] at hrej ⊢
    rw [accesses, List.flatMap_cons, ← List.append_assoc]
    exact Observed.capture (h.note (capture_rejection hrej)) hrej

theorem Observed.make (t : Target) (fsBase gsBase : ℕ) :
    Observed [] (Recorder.make t fsBase gsBase) := fun _ hp =>
  absurd hp Std.TreeMap.not_mem_emptyc

/-! ### The header -/

/-- The registers have the sizes of their types, and `mxcsr` has no reserved bits. -/
def RegistersOk : Event → Prop
  | .begin regs xmm mxcsr => regs.length = 18 ∧ (∀ v ∈ regs, v < 256 ^ 8) ∧ xmm.length = 16 ∧
      (∀ x ∈ xmm, x.length = 16) ∧ mxcsr ≤ 0xffff
  | .rule _ | .block _ _ | .read _ _ | .write _ _ => True

/-- The header of a recorder during a capture. -/
structure Headed (t : Target) (r : Recorder) : Prop where
  fits : HeaderFits r.h
  magic : r.h.magic = MAGIC
  version : r.h.version = 1
  output : r.h.output = t.output
  length : r.h.length = t.length
  mxcsr : r.h.mxcsr ≤ 0xffff

section Header

variable {t : Target} {m : ℕ → UInt8} {r : Recorder}

theorem Headed.congr {r' : Recorder} (h : Headed t r) (hh : r'.h = r.h) : Headed t r' :=
  ⟨hh ▸ h.fits, hh ▸ h.magic, hh ▸ h.version, hh ▸ h.output, hh ▸ h.length, hh ▸ h.mxcsr⟩

/-- **`begin`** copies registers of the right sizes. -/
theorem Headed.begin (h : Headed t r) {regs : List ℕ} {xmm : List (List UInt8)} {mxcsr : ℕ}
    (hr : RegistersOk (.begin regs xmm mxcsr)) : Headed t (r.begin m regs xmm mxcsr) := by
  obtain ⟨h1, h2, h3, h4, h5⟩ := hr
  unfold Recorder.begin
  split_ifs
  · exact h
  · have hentry : regs.getD 16 0 < 256 ^ 8 := by
      rw [List.getD_eq_getElem?_getD, List.getElem?_eq_getElem (by omega)]
      exact h2 _ (List.getElem_mem _)
    have hstop : leNat ((List.range 8).map fun i => m (regs.getD 15 0 + i)) < 256 ^ 8 := by
      have hlt := leNat_lt ((List.range 8).map fun i => m (regs.getD 15 0 + i))
      rwa [List.length_map, List.length_range] at hlt
    have hwords := h.fits.words
    have hhalves := h.fits.halves
    simp only [List.forall_mem_cons] at hwords hhalves
    obtain ⟨w1, w2, -, -, w5⟩ := hwords
    obtain ⟨-, w6⟩ := hhalves
    have hmx : mxcsr < 256 ^ 4 := by omega
    refine ⟨⟨?_, ?_, h1, h2, h3, h4, h.fits.digest⟩, h.magic, h.version, h.output, h.length, h5⟩
    · simp only [List.forall_mem_cons]
      exact ⟨w1, w2, hentry, hstop, w5⟩
    · simp only [List.forall_mem_cons]
      exact ⟨hmx, w6⟩

theorem Headed.note (h : Headed t r) {e : Event} (he : RegistersOk e) : Headed t (e.note m r) := by
  have hh := note_header m r e
  cases e with
  | begin regs xmm mxcsr => exact h.begin he
  | rule a | block start stop | read addr n | write addr bytes => exact h.congr hh

theorem Headed.capture : ∀ {es : List Event} {m : ℕ → UInt8} {r : Recorder}, Headed t r →
    (∀ e ∈ es, RegistersOk e) → Headed t (Capture.capture m r es).2
  | [], _, _, h, _ => h
  | e :: es, m, r, h, hes => by
    rw [Capture.capture]
    exact Headed.capture (h.note (hes e List.mem_cons_self)) fun x hx =>
      hes x (List.mem_cons_of_mem _ hx)

theorem Headed.make (t : Target) {fsBase gsBase : ℕ} (hfs : fsBase < 256 ^ 8)
    (hgs : gsBase < 256 ^ 8) : Headed t (Recorder.make t fsBase gsBase) := by
  have hfit := t.fits
  have hround := le_rounded t.length
  refine ⟨⟨fun v hv => ?_, fun v hv => ?_, rfl, fun v hv => ?_, rfl, fun x hx => ?_, rfl⟩, rfl, rfl,
    rfl, rfl, Nat.zero_le _⟩
  · simp only [Recorder.make, Header.blank, List.mem_cons, List.not_mem_nil, or_false] at hv
    unfold UINT64_MAX MAGIC at *
    omega
  · simp only [Recorder.make, Header.blank, List.mem_cons, List.not_mem_nil, or_false,
      or_self] at hv
    omega
  · have hv' : v ∈ List.replicate 18 0 := hv
    rw [List.eq_of_mem_replicate hv']
    decide
  · have hx' : x ∈ List.replicate 16 (List.replicate 16 (0 : UInt8)) := hx
    rw [List.eq_of_mem_replicate hx']
    rfl

end Header

/-! ### What `finish` keeps -/

/-- The pages of the output of a recorder. -/
def outputPages (h : Header) : Set ℕ := {p | h.output ≤ p ∧ p < h.output + rounded h.length}

/-- The pages of the instructions of a recorder. -/
def codePages (r : Recorder) : Set ℕ :=
  {p | ∃ c ∈ r.instructions, ∃ i < c.size, base (c.address + i) = p}

section Finish

variable {m₀ : ℕ → UInt8} {W F T : Set ℕ} {r r' : Recorder}

theorem Notes.codeCheck {c : Instruction} {V : Set ℕ}
    (hv : ∀ i < c.size, base (c.address + i) ∈ V) (h : r.codeCheck c = .ok r') : Notes V r r' := by
  refine each_invariant (P := Notes V r) (fun a ha s s' hs hn => ?_) h Notes.refl
  obtain ⟨i, hi, rfl⟩ := List.mem_map.mp ha
  unfold codeByte at hs
  obtain ⟨s₁, hp, hs⟩ := bind_ok hs
  split_ifs at hs
  cases hs
  exact hn.trans <| Notes.page (hv i (List.mem_range.mp hi)) hp

theorem Notes.markFrontier {V : Set ℕ} {start : ℕ} (hv : base start ∈ V) :
    Notes V r (r.markFrontier start) := Notes.setPage hv _

/-- **Choosing the region** notes pages of the output and changes its bounds. -/
theorem region_kept {regions : Bool} (h : Faithful m₀ W F T r) (hr : r.region regions = .ok r') :
    Notes (outputPages r.h) r r' ∧ ∃ output length,
      r'.h = { r.h with output, length } ∧ r.h.output ≤ output ∧
        output + length ≤ r.h.output + r.h.length ∧ output % PAGE = 0 ∧
        (0 < r.h.length → 0 < length) := by
  have hwhole : ∃ output length, r.h = { r.h with output, length } ∧ r.h.output ≤ output ∧
      output + length ≤ r.h.output + r.h.length ∧ output % PAGE = 0 ∧
      (0 < r.h.length → 0 < length) :=
    ⟨r.h.output, r.h.length, rfl, le_rfl, le_rfl, h.aligned, id⟩
  unfold region at hr
  split_ifs at hr
  · obtain ⟨hstart, -, hfit⟩ := scan_spec r
    unfold narrow at hr
    dsimp only at hr
    split_ifs at hr with hsel
    · obtain ⟨r₂, hloop, hr⟩ := bind_ok hr
      cases hr
      have hn : Notes (outputPages r.h) { r with h := { r.h with
          output := r.h.output + r.scan.bestStart, length := r.scan.bestLength } } r₂ := by
        refine each_invariant (P := Notes (outputPages r.h) _) (fun a ha s s' hs hn => ?_) hloop
          Notes.refl
        -- the pages from the start of the output to the frontier
        have hin : base a ∈ outputPages r.h := by
          obtain ⟨o, ho, rfl⟩ := List.mem_map.mp ha
          obtain ⟨hmod, hlt⟩ := mem_pageOffsets.mp ho
          have halign := h.aligned
          have hhigh := h.high
          have hround := le_rounded r.h.length
          rw [base_of_mod (by unfold PAGE at *; omega)]
          exact ⟨by omega, by omega⟩
        unfold keepOutside at hs
        split_ifs at hs
        · obtain ⟨s₁, hp, hs⟩ := bind_ok hs
          cases hs
          exact hn.trans ((Notes.page hin hp).trans (Notes.markFrontier hin))
        · cases hs
          exact hn
      have hh := each_keeps Recorder.h (fun _ _ _ => keepOutside_h) hloop
      refine ⟨⟨hn.plans, hn.code, hn.counts, hn.steps, hn.pages⟩, _, _, hh,
        Nat.le_add_right _ _, by omega, ?_,
        fun _ => ?_⟩
      · have halign := h.aligned
        unfold PAGE at *
        omega
      · have hle := (le_max_left 65536 (rounded (r.h.length / 2))).trans hsel.2
        omega
    · cases hr
      exact ⟨Notes.refl, hwhole⟩
  · cases hr
    exact ⟨Notes.refl, hwhole⟩

/-- **The coverage check** notes pages of the output. -/
theorem cover_kept (hmod : r.h.output % PAGE = 0) (hr : r.cover = .ok r') :
    Notes (outputPages r.h) r r' ∧ r'.h = r.h := by
  unfold cover at hr
  split_ifs at hr
  · refine each_invariant (P := fun s => Notes (outputPages r.h) r s ∧ s.h = r.h)
      (fun i hi s s' hs hn => ?_) hr ⟨Notes.refl, rfl⟩
    obtain ⟨hn, hh⟩ := hn
    have hin : base (s.h.output + i) ∈ outputPages r.h := by
      obtain ⟨himod, hlt⟩ := mem_pageOffsets.mp hi
      have hround := le_rounded r.h.length
      rw [hh, base_of_mod (by unfold PAGE at *; omega)]
      exact ⟨by omega, by omega⟩
    refine ⟨hn.trans ?_, (coverPage_all hs).1.trans hh⟩
    unfold coverPage at hs
    obtain ⟨s₁, hp, hs⟩ := bind_ok hs
    have hin₁ : base (s₁.h.output + i) ∈ outputPages r.h := by
      rw [page_h hp]
      exact hin
    dsimp only at hs
    split_ifs at hs
    · cases hs
      exact (Notes.page hin hp).trans (Notes.markFrontier hin₁)
    · cases hs
      exact Notes.page hin hp
  · cases hr
    exact ⟨Notes.refl, rfl⟩

/-- **What a recipe takes over** from the recorder: the instructions, the pages (with those of the
instructions), and the header with the bounds of the region and the counters. -/
theorem finish_kept {result : ℕ} {regions : Bool} {recipe : Recipe} (h : Faithful m₀ W F T r)
    (hr : r.finish result regions = .ok recipe) :
    recipe.code = r.instructions ∧
      (∀ p ∈ recipe.pages, p ∈ r.pages ∨ p ∈ outputPages r.h ∨ p ∈ codePages r) ∧
      ∃ output length, recipe.h = { r.h with
          output, length, result, steps := r.steps, inputBytes := r.liveBytes } ∧
        r.h.output ≤ output ∧ output + length ≤ r.h.output + r.h.length ∧ output % PAGE = 0 ∧
        (0 < r.h.length → 0 < length) := by
  unfold finish at hr
  cases hrej : r.rejection with
  | some why =>
    rw [hrej] at hr
    cases hr
  | none =>
    rw [hrej] at hr
    dsimp only at hr
    split_ifs at hr with hb
    cases hbody : r.prepare result regions with
    | error x =>
      rw [hbody] at hr
      cases hr
    | ok r' =>
      rw [hbody] at hr
      dsimp only at hr
      split_ifs at hr with hscratch
      cases hr
      unfold prepare at hbody
      obtain ⟨r₁, h₁, hbody⟩ := bind_ok hbody
      obtain ⟨r₂, h₂, hbody⟩ := bind_ok hbody
      obtain ⟨hn₁, output, length, hh₁, hlow, hhigh, hmod, hpos⟩ := region_kept h h₁
      obtain ⟨hsteps, hlive⟩ := region_counters h₁
      have hmod₁ : r₁.h.output % PAGE = 0 := by
        rw [hh₁]
        exact hmod
      obtain ⟨hn₂, hh₂⟩ := cover_kept (by exact hmod₁) h₂
      -- the pages of the region are pages of the output
      have hsub : outputPages { r₁.h with result, steps := r₁.steps, inputBytes := r₁.liveBytes } ⊆
          outputPages r.h ∪ codePages r := by
        rintro p ⟨h1, h2⟩
        left
        dsimp only at h1 h2
        rw [hh₁] at h1 h2
        dsimp only at h1 h2
        have halign := h.aligned
        refine ⟨hlow.trans h1, ?_⟩
        have hle : output + rounded length ≤ r.h.output + rounded r.h.length := by
          rw [← rounded_add hmod, ← rounded_add halign]
          exact rounded_mono hhigh
        omega
      have hn₂' : Notes (outputPages r.h ∪ codePages r) r r₂ :=
        (hn₁.mono Set.subset_union_left).trans
          ⟨hn₂.plans, hn₂.code, hn₂.counts, hn₂.steps, fun p hp =>
            (hn₂.pages p hp).imp_right fun hin => hsub hin⟩
      have hcode : r₂.instructions = r.instructions := by
        unfold Recorder.instructions
        rw [hn₂'.code]
      have hn₃ : Notes (outputPages r.h ∪ codePages r) r r' := by
        refine each_invariant (fun c hc s s' hs hn => ?_) hbody hn₂'
        refine hn.trans (Notes.codeCheck (fun i hi => Or.inr ⟨c, ?_, i, hi, rfl⟩) hs)
        rwa [← hcode]
      have hh₃ : r'.h = r₂.h := each_keeps Recorder.h (fun _ _ _ => codeCheck_h) hbody
      refine ⟨?_, fun p hp => ?_, output, length, ?_, hlow, hhigh, hmod, hpos⟩
      · show r'.instructions = _
        unfold Recorder.instructions
        rw [hn₃.code]
      · exact hn₃.pages p (Std.TreeMap.mem_keys.mp (List.mem_filter.mp hp).1)
      · show r'.h = _
        rw [hh₃, hh₂, hsteps, hlive, hh₁]

end Finish

end Afterfree.Recording.Bounds
