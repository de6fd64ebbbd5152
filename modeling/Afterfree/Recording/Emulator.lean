import Afterfree.Recording.Finish

/-!
# The strict replay

`emulator.hpp`: the replay that checks every access. `Replay::run` maps the pages of a recipe, seeds
memory and the `initialized` masks from the inputs and the code, and the hook `Replay::memory` then
stops at the first access to an unknown page and at the first read of a byte that is neither seeded
nor written. The emulator itself is only its memory here: the accesses of a run are given from
outside.
-/

namespace Afterfree.Recording.Emulator

open Afterfree.Common Afterfree.Codec Afterfree.Recording.Masks Afterfree.Recording.Capture
open Afterfree.Recording.Capture.Recorder Afterfree.Recording.Finish Afterfree.Recording.Runs
open Afterfree.Lib.Footprint

/-- `Replay`, with the memory of the emulator. Mapped pages start out zeroed. -/
structure Replay where
  mem : ℕ → UInt8
  initialized : ℕ → Option ByteMask
  outputAddress : ℕ
  length : ℕ
  outputWritten : ℕ → ByteMask
  error : Option String

namespace Replay

/-- `fail`: the first error stays. -/
def fail (s : Replay) (why : String) : Replay := { s with error := some (s.error.getD why) }

/-- Replace the mask of a page. -/
def setKnown (s : Replay) (p : ℕ) (m : ByteMask) : Replay :=
  { s with initialized := Function.update s.initialized p (some m) }

/-- What a write to part of a page notes: the page's mask, and `output_written` in the output. -/
def noteWrite (s : Replay) (addr count : ℕ) (m : ByteMask) : Replay :=
  let s := s.setKnown (base addr) (m.mark (addr % PAGE) count)
  if s.outputAddress ≤ addr ∧ addr < s.outputAddress + s.length then
    let index := (addr - s.outputAddress) / PAGE
    let part := min count (s.outputAddress + s.length - addr)
    let marked := (s.outputWritten index).mark (addr % PAGE) part
    { s with outputWritten := Function.update s.outputWritten index marked }
  else s

/-- The loop of the hook `memory`. -/
def memoryLoop (write : Bool) : ℕ → Replay → ℕ → ℕ → Replay
  | 0, s, _, _ => s
  | fuel + 1, s, addr, size =>
    if size = 0 then s
    else
      match s.initialized (base addr) with
      | none => s.fail "replay touched an unobserved page"
      | some m =>
        let count := min size (PAGE - addr % PAGE)
        if !write && !m.all (addr % PAGE) count then s.fail "replay read a missing input byte"
        else
          let s := if write then s.noteWrite addr count m else s
          memoryLoop write fuel s (addr + count) (size - count)

/-- The hook `memory` while `checking`. -/
def memory (s : Replay) (write : Bool) (addr size : ℕ) : Replay :=
  if size = 0 then s
  else if UINT64_MAX - size < addr then s.fail "replay address overflow"
  else memoryLoop write size s addr size

/-- One access of the emulated code: the hook, and then the access unless the hook stopped the
emulator. The value is what a read sees. -/
def perform (s : Replay) : Event → Replay × List (List UInt8)
  | .read addr n =>
    let s := s.memory false addr n
    (s, if s.error.isSome then [] else [(List.range n).map fun i => s.mem (addr + i)])
  | .write addr bytes =>
    let s := s.memory true addr bytes.length
    (if s.error.isSome then s else { s with mem := store s.mem addr bytes }, [])
  | .begin _ _ _ | .rule _ | .block _ _ => (s, [])

/-- A sequence of accesses, with the values of the reads. -/
def performAll (s : Replay) : List Event → Replay × List (List UInt8)
  | [] => (s, [])
  | e :: es =>
    let (s₁, vs) := s.perform e
    let (s₂, ws) := performAll s₁ es
    (s₂, vs ++ ws)

/-! ### `run`, up to the start of the emulator -/

/-- `all`: every page that is mapped. -/
def mappedPages (r : Recipe) : Finset ℕ :=
  r.pages.toFinset ∪ ((pageOffsets (rounded r.h.length)).map (r.h.output + ·)).toFinset ∪
    (r.code.flatMap fun c => [base c.address, base (c.address + c.size - 1)]).toFinset

/-- Set the bits of a span, one byte after the other. -/
def seedBits (message : String) : Replay → List ℕ → Except String Replay
  | s, [] => .ok s
  | s, a :: rest =>
    match s.initialized (base a) with
    | none => .error message
    | some m => seedBits message (s.setKnown (base a) (m.set (a % PAGE))) rest

/-- `uc_mem_write` and the loop after it. The emulator refuses to write a page that is not mapped.
-/
def seed (message : String) (s : Replay) (address : ℕ) (bytes : List UInt8) :
    Except String Replay :=
  let span := (List.range bytes.length).map (address + ·)
  if span.any fun a => (s.initialized (base a)).isNone then
    .error "Invalid memory write (UC_ERR_WRITE_UNMAPPED)"
  else seedBits message { s with mem := store s.mem address bytes } span

/-- The inputs. -/
def seedInputs : Replay → List Segment → Except String Replay
  | s, [] => .ok s
  | s, g :: rest => do
    let s ← s.seed "input outside mapped pages" g.address g.bytes
    seedInputs s rest

/-- An instruction overlaps the mapped output. -/
def overlaps (h : Header) (c : Instruction) : Bool :=
  decide (c.address < h.output + rounded h.length ∧ h.output < c.address + c.size)

/-- The code. -/
def seedCode (h : Header) : Replay → List Instruction → Except String Replay
  | s, [] => .ok s
  | s, c :: rest =>
    if overlaps h c then .error "output overlaps code"
    else do
      let s ← s.seed "unordered_map::at" c.address (c.bytes.take c.size)
      seedCode h s rest

/-- `run` up to the start of the emulator. -/
def setup (r : Recipe) : Except String Replay :=
  let all := mappedPages r
  if r.pages.toFinset.card ≠ r.pages.length then .error "duplicate recipe page"
  else if ¬ (r.code.map Instruction.address).Nodup then .error "duplicate instruction"
  else if rounded r.h.length + r.h.length / 4 + 4 * 2 ^ 20 < all.card * PAGE then
    .error "replay scratch exceeds the group budget"
  else do
    let s : Replay :=
      { mem := fun _ => 0
        initialized := fun p => if p ∈ all then some ByteMask.empty else none
        outputAddress := r.h.output
        length := r.h.length
        outputWritten := fun _ => ByteMask.empty
        error := none }
    let s ← seedInputs s r.inputs
    seedCode r.h s r.code

end Replay

/-! ### Views -/

namespace Replay

/-- The bit of a byte that may be read. -/
def known (s : Replay) (a : ℕ) : Bool :=
  match s.initialized (base a) with
  | none => false
  | some m => m.test (a % PAGE)

/-- The page of an address is mapped. -/
def maps (s : Replay) (a : ℕ) : Prop := (s.initialized (base a)).isSome = true

theorem known_maps {s : Replay} {a : ℕ} (h : s.known a = true) : s.maps a := by
  unfold known at h
  unfold maps
  cases hp : s.initialized (base a) with
  | none =>
    rw [hp] at h
    cases h
  | some m => rfl

theorem known_setKnown (s : Replay) (addr : ℕ) (m : ByteMask) (a : ℕ) :
    (s.setKnown (base addr) m).known a =
      if base a = base addr then m.test (a % PAGE) else s.known a := by
  unfold known setKnown
  dsimp only
  by_cases h : base a = base addr
  · rw [h, Function.update_self, if_pos rfl]
  · rw [Function.update_of_ne h, if_neg h]

theorem maps_setKnown (s : Replay) {addr : ℕ} (m : ByteMask) (hm : s.maps addr) (a : ℕ) :
    (s.setKnown (base addr) m).maps a ↔ s.maps a := by
  unfold maps setKnown at *
  dsimp only
  by_cases h : base a = base addr
  · rw [h, Function.update_self, hm]
    exact Iff.rfl
  · rw [Function.update_of_ne h]

/-! ### The hook -/

theorem base_add {p i : ℕ} (hp : p % PAGE = 0) (hi : i < PAGE) :
    base (p + i) = p ∧ (p + i) % PAGE = i := by
  unfold base PAGE at *
  omega

/-- **A read of known bytes** passes the hook. -/
theorem memoryLoop_read : ∀ {fuel : ℕ} {s : Replay} {addr n : ℕ}, n ≤ fuel →
    (∀ a ∈ Set.Ico addr (addr + n), s.known a = true) → s.memoryLoop false fuel addr n = s
  | 0, s, addr, n, _, _ => rfl
  | fuel + 1, s, addr, n, hn, h => by
    rw [memoryLoop]
    by_cases h0 : n = 0
    · rw [if_pos h0]
    rw [if_neg h0]
    have hfirst := h addr ⟨le_rfl, by omega⟩
    have hmaps := known_maps hfirst
    unfold maps at hmaps
    obtain ⟨m, hm⟩ := Option.isSome_iff_exists.mp hmaps
    have hlt : addr % PAGE < PAGE := Nat.mod_lt _ PAGE_pos
    have hall : m.all (addr % PAGE) (min n (PAGE - addr % PAGE)) = true := by
      refine (ByteMask.all_iff _ _ _).mpr fun i h1 h2 => ?_
      have hk := h (base addr + i) ⟨by have := base_add_mod addr; omega,
        by have := base_add_mod addr; omega⟩
      obtain ⟨hb, hi⟩ := base_add (base_mod addr) (show i < PAGE by omega)
      unfold known at hk
      rw [hb, hm, hi] at hk
      exact hk
    rw [hm]
    dsimp only
    rw [hall]
    exact (@memoryLoop_read fuel) (by omega) fun a ha => h a
        ⟨by have := ha.1; omega, by have := ha.2; omega⟩

/-- What a run of the hook for a write leaves. -/
structure Marks (S : Set ℕ) (s s' : Replay) : Prop where
  mem : s'.mem = s.mem
  error : s'.error = s.error
  maps : ∀ a, s'.maps a ↔ s.maps a
  known : ∀ a, s'.known a = true ↔ s.known a = true ∨ a ∈ S

theorem noteWrite_marks {s : Replay} {addr count : ℕ} {m : ByteMask}
    (hm : s.initialized (base addr) = some m) (hfit : addr % PAGE + count ≤ PAGE) :
    Marks (Set.Ico addr (addr + count)) s (s.noteWrite addr count m) := by
  have hmaps : s.maps addr := by
    unfold Replay.maps
    rw [hm]
    rfl
  have hone : Marks (Set.Ico addr (addr + count)) s
      (s.setKnown (base addr) (m.mark (addr % PAGE) count)) := by
    refine ⟨rfl, rfl, maps_setKnown s _ hmaps, fun a => ?_⟩
    rw [known_setKnown, mem_span_iff hfit]
    by_cases ha : base a = base addr
    · have hk : s.known a = m.test (a % PAGE) := by
        unfold Replay.known
        rw [ha, hm]
      rw [if_pos ha, ByteMask.test_mark, Bool.or_eq_true, decide_eq_true_iff, hk,
        and_iff_right ha]
    · rw [if_neg ha]
      exact (or_iff_left fun hin => ha hin.1).symm
  unfold noteWrite
  dsimp only
  split_ifs
  · exact ⟨hone.mem, hone.error, hone.maps, hone.known⟩
  · exact hone

/-- **A write to mapped pages** passes the hook and makes its bytes known. -/
theorem memoryLoop_write : ∀ {fuel : ℕ} {s : Replay} {addr n : ℕ}, n ≤ fuel →
    (∀ a ∈ Set.Ico addr (addr + n), s.maps a) →
    Marks (Set.Ico addr (addr + n)) s (s.memoryLoop true fuel addr n)
  | 0, s, addr, n, hn, _ => by
    obtain rfl : n = 0 := by omega
    exact ⟨rfl, rfl, fun a => Iff.rfl, fun a => by simp [memoryLoop]⟩
  | fuel + 1, s, addr, n, hn, h => by
    rw [memoryLoop]
    by_cases h0 : n = 0
    · rw [if_pos h0]
      subst h0
      exact ⟨rfl, rfl, fun a => Iff.rfl, fun a => by simp⟩
    rw [if_neg h0]
    have hmaps := h addr ⟨le_rfl, by omega⟩
    obtain ⟨m, hm⟩ := Option.isSome_iff_exists.mp hmaps
    rw [hm]
    have hlt : addr % PAGE < PAGE := Nat.mod_lt _ PAGE_pos
    have hs' := noteWrite_marks hm (show addr % PAGE + min n (PAGE - addr % PAGE) ≤ PAGE by omega)
    have hloop := (@memoryLoop_write fuel (s.noteWrite addr (min n (PAGE - addr % PAGE)) m)
        (addr + min n (PAGE - addr % PAGE)) (n - min n (PAGE - addr % PAGE))) (by omega)
      fun a ha => (hs'.maps a).mpr (h a ⟨by have := ha.1; omega, by have := ha.2; omega⟩)
    refine ⟨hloop.mem.trans hs'.mem, hloop.error.trans hs'.error,
      fun a => (hloop.maps a).trans (hs'.maps a), fun a => ?_⟩
    refine (hloop.known a).trans ?_
    rw [hs'.known a, or_assoc, ← Set.mem_union, Ico_split (Nat.min_le_left n (PAGE - addr % PAGE))]

/-! ### Seeding -/

/-- **Seeding** a span of mapped pages. -/
theorem seedBits_ok (message : String) : ∀ {span : List ℕ} {s : Replay}, (∀ a ∈ span, s.maps a) →
    ∃ s', s.seedBits message span = .ok s' ∧ Marks {a | a ∈ span} s s'
  | [], s, _ => ⟨s, rfl, rfl, rfl, fun a => Iff.rfl, fun a => by simp⟩
  | b :: rest, s, h => by
    have hmaps := h b List.mem_cons_self
    obtain ⟨m, hm⟩ := Option.isSome_iff_exists.mp hmaps
    have hset := maps_setKnown s (m.set (b % PAGE)) hmaps
    obtain ⟨s', hs', hk⟩ := (@seedBits_ok message rest (s.setKnown (base b) (m.set (b % PAGE))))
      fun a ha => (hset a).mpr (h a (List.mem_cons_of_mem _ ha))
    refine ⟨s', ?_, hk.mem, hk.error, fun a => (hk.maps a).trans (hset a), fun a => ?_⟩
    · rw [seedBits, hm]
      exact hs'
    · rw [hk.known a, known_setKnown]
      by_cases ha : base a = base b
      · have hkn : s.known a = m.test (a % PAGE) := by
          unfold Replay.known
          rw [ha, hm]
        have he : a % PAGE = b % PAGE ↔ a = b := by
          have h1 := base_add_mod a
          have h2 := base_add_mod b
          omega
        rw [if_pos ha, ByteMask.test_set, Bool.or_eq_true, decide_eq_true_iff, hkn, he]
        simp only [Set.mem_ofPred_eq, List.mem_cons]
        tauto
      · have hne : a ≠ b := fun he => ha (by rw [he])
        rw [if_neg ha]
        simp only [Set.mem_ofPred_eq, List.mem_cons, hne, false_or]

/-- Every known byte has its value of `m₀`, and the mapped pages are those of `P`. -/
structure Agrees (m₀ : ℕ → UInt8) (P K : Set ℕ) (s : Replay) : Prop where
  error : s.error = none
  maps : ∀ a, s.maps a ↔ base a ∈ P
  known : ∀ a, s.known a = true ↔ a ∈ K
  value : ∀ a ∈ K, s.mem a = m₀ a

section Seeding

variable {m₀ : ℕ → UInt8} {P K : Set ℕ} {s : Replay}

theorem Agrees.seed (h : Agrees m₀ P K s) (message : String) {address : ℕ} {bytes : List UInt8}
    (hpage : ∀ i < bytes.length, base (address + i) ∈ P)
    (hval : ∀ i < bytes.length, bytes.getD i 0 = m₀ (address + i)) :
    ∃ s', s.seed message address bytes = .ok s' ∧
      Agrees m₀ P (K ∪ Set.Ico address (address + bytes.length)) s' := by
  have hspan : ∀ a, a ∈ (List.range bytes.length).map (address + ·) ↔
      a ∈ Set.Ico address (address + bytes.length) := by
    intro a
    rw [List.mem_map, Set.mem_Ico]
    constructor
    · rintro ⟨i, hi, rfl⟩
      have := List.mem_range.mp hi
      omega
    · rintro ⟨h1, h2⟩
      exact ⟨a - address, List.mem_range.mpr (by omega), by omega⟩
  have hmaps : ∀ a ∈ (List.range bytes.length).map (address + ·), s.maps a := by
    intro a ha
    have hin := (hspan a).mp ha
    rw [h.maps a, show a = address + (a - address) by have := hin.1; omega]
    exact hpage _ (by have := hin.1; have := hin.2; omega)
  obtain ⟨s', hs', hk⟩ := seedBits_ok message
    (s := { s with mem := store s.mem address bytes }) hmaps
  refine ⟨s', ?_, hk.error.trans h.error, fun a => (hk.maps a).trans (h.maps a), fun a => ?_,
    fun a ha => ?_⟩
  · unfold Replay.seed
    dsimp only
    rw [if_neg, hs']
    intro hany
    obtain ⟨a, ha, hnone⟩ := List.any_eq_true.mp hany
    have := hmaps a ha
    unfold Replay.maps at this
    rw [Option.isNone_iff_eq_none.mp hnone] at this
    cases this
  · rw [hk.known a, Set.mem_union, ← h.known a, ← hspan a]
    rfl
  · rw [hk.mem]
    show store s.mem address bytes a = m₀ a
    unfold store
    by_cases hin : address ≤ a ∧ a < address + bytes.length
    · rw [if_pos hin, hval _ (by omega), show address + (a - address) = a by omega]
    · rw [if_neg hin]
      exact h.value a (ha.resolve_right hin)

/-- **The inputs.** -/
theorem Agrees.seedInputs : ∀ {gs : List Segment} {K : Set ℕ} {s : Replay}, Agrees m₀ P K s →
    (∀ g ∈ gs, ∀ i < g.bytes.length, base (g.address + i) ∈ P) →
    (∀ a v, HasInput gs a v → v = m₀ a) →
    ∃ s' K', s.seedInputs gs = .ok s' ∧ Agrees m₀ P K' s' ∧ K ⊆ K' ∧
      ∀ a v, HasInput gs a v → a ∈ K'
  | [], K, s, h, _, _ => ⟨s, K, rfl, h, subset_rfl, fun a v hv => by
      obtain ⟨g, hg, -⟩ := hv
      cases hg⟩
  | g :: gs, K, s, h, hpage, hval => by
    obtain ⟨s₁, h₁, ha₁⟩ := h.seed "input outside mapped pages" (hpage g List.mem_cons_self) (by
      intro i hi
      refine hval _ _ (hasInput_cons.mpr (Or.inl ⟨Nat.le_add_right _ _, ?_⟩))
      rw [Nat.add_sub_cancel_left, List.getElem?_eq_getElem hi, List.getD_eq_getElem?_getD,
        List.getElem?_eq_getElem hi, Option.getD_some])
    obtain ⟨s₂, K₂, h₂, ha₂, hsub, hall⟩ := @Agrees.seedInputs gs _ _ ha₁
      (fun g' hg' => hpage g' (List.mem_cons_of_mem _ hg'))
      fun a v hv => hval a v (hasInput_cons.mpr (Or.inr hv))
    refine ⟨s₂, K₂, ?_, ha₂, Set.subset_union_left.trans hsub, fun a v hv => ?_⟩
    · rw [Replay.seedInputs, h₁]
      exact h₂
    · rcases hasInput_cons.mp hv with ⟨hle, hget⟩ | hv
      · obtain ⟨hlt, -⟩ := List.getElem?_eq_some_iff.mp hget
        exact hsub (Or.inr ⟨hle, by omega⟩)
      · exact hall a v hv

/-- **The code**, when none of it is in the output. -/
theorem Agrees.seedCode {hd : Header} : ∀ {cs : List Instruction} {K : Set ℕ} {s : Replay},
    Agrees m₀ P K s → (∀ c ∈ cs, overlaps hd c = false) →
    (∀ c ∈ cs, ∀ i < c.size, base (c.address + i) ∈ P ∧ c.bytes.getD i 0 = m₀ (c.address + i)) →
    ∃ s' K', s.seedCode hd cs = .ok s' ∧ Agrees m₀ P K' s' ∧ K ⊆ K'
  | [], K, s, h, _, _ => ⟨s, K, rfl, h, subset_rfl⟩
  | c :: cs, K, s, h, hover, hc => by
    have hlen : (c.bytes.take c.size).length ≤ c.size := by
      rw [List.length_take]
      exact Nat.min_le_left _ _
    obtain ⟨s₁, h₁, ha₁⟩ :=
      @Agrees.seed _ _ _ _ h "unordered_map::at" c.address (c.bytes.take c.size)
      (fun i hi => (hc c List.mem_cons_self i (hi.trans_le hlen)).1) (by
        intro i hi
        have hlt := hi.trans_le hlen
        rw [← (hc c List.mem_cons_self i hlt).2, List.getD_eq_getElem?_getD,
          List.getElem?_take_of_lt hlt, List.getD_eq_getElem?_getD])
    obtain ⟨s₂, K₂, h₂, ha₂, hsub⟩ := @Agrees.seedCode _ cs _ _ ha₁
      (fun c' hc' => hover c' (List.mem_cons_of_mem _ hc'))
      (fun c' hc' => hc c' (List.mem_cons_of_mem _ hc'))
    refine ⟨s₂, K₂, ?_, ha₂, Set.subset_union_left.trans hsub⟩
    rw [Replay.seedCode, hover c List.mem_cons_self, h₁]
    exact h₂

end Seeding

end Replay

/-! ### Seeding a recipe -/

section Recipe

variable {m₀ : ℕ → UInt8} {W F T : Set ℕ} {r : Recorder}

theorem noted_cases (h : Harvest m₀ W F T r) {p : ℕ} (hp : p ∈ r.pages) :
    p ∈ r.recipe.pages ∨
      p ∈ (pageOffsets (rounded r.recipe.h.length)).map (r.recipe.h.output + ·) := by
  have hmod := h.faithful.sane.keys p hp
  have halign := h.faithful.aligned
  show p ∈ r.pages.keys.filter (outside r.h) ∨
    p ∈ (pageOffsets (rounded r.h.length)).map (r.h.output + ·)
  by_cases hout : p < r.h.output ∨ r.h.output + rounded r.h.length ≤ p
  · exact Or.inl (List.mem_filter.mpr ⟨Std.TreeMap.mem_keys.mpr hp, decide_eq_true hout⟩)
  · refine Or.inr (List.mem_map.mpr ⟨p - r.h.output, mem_pageOffsets.mpr ⟨?_, by omega⟩, by omega⟩)
    unfold PAGE at *
    omega

theorem mapped_of_noted (h : Harvest m₀ W F T r) {p : ℕ} (hp : p ∈ r.pages) :
    p ∈ Replay.mappedPages r.recipe := by
  unfold Replay.mappedPages
  rw [Finset.mem_union, Finset.mem_union, List.mem_toFinset, List.mem_toFinset]
  exact Or.inl (noted_cases h hp)

theorem mapped_of_touched (h : Harvest m₀ W F T r) {a : ℕ} (ha : a ∈ T) :
    base a ∈ Replay.mappedPages r.recipe := by
  have halign := h.faithful.aligned
  rcases h.touched ha with hp | hout
  · exact mapped_of_noted h (Std.TreeMap.mem_keys.mp (List.mem_filter.mp hp).1)
  · unfold Replay.mappedPages
    rw [Finset.mem_union, Finset.mem_union, List.mem_toFinset, List.mem_toFinset]
    refine Or.inl (Or.inr
      (List.mem_map.mpr ⟨base a - r.h.output, mem_pageOffsets.mpr ⟨?_, ?_⟩, ?_⟩))
    · have := base_mod a
      unfold PAGE at *
      omega
    · have : r.h.output ≤ base a ∧ base a < r.h.output + rounded r.h.length := hout
      show base a - r.h.output < rounded r.h.length
      omega
    · have : r.h.output ≤ base a := hout.1
      show r.h.output + (base a - r.h.output) = base a
      omega

theorem mem_instructions (h : Harvest m₀ W F T r) {c : Instruction} (hc : c ∈ r.instructions) :
    Sampled m₀ W c.address c := by
  obtain ⟨⟨k, c'⟩, hx, rfl⟩ := List.mem_map.mp hc
  have hs := h.faithful.code k c' (Std.TreeMap.mem_toList_iff_getElem?_eq_some.mp hx)
  dsimp only
  rwa [hs.address]

theorem code_byte (h : Harvest m₀ W F T r) {c : Instruction} (hc : c ∈ r.instructions)
    (hover : Replay.overlaps r.h c = false) {i : ℕ} (hi : i < c.size) :
    c.bytes.getD i 0 = m₀ (c.address + i) := by
  refine (mem_instructions h hc).bytes i hi fun hw => ?_
  rcases (h.faithful.written _).mpr hw with hb | hbit
  · have h1 := hb.1
    have h2 := hb.2
    have hhigh := h.faithful.high
    have hr := le_rounded r.h.length
    have hov : Replay.overlaps r.h c = true := decide_eq_true ⟨by omega, by omega⟩
    rw [hover] at hov
    cases hov
  · rw [(h.pristine c hc i hi).2 _ rfl] at hbit
    cases hbit

/-- **The mapped pages** fit the budget the emulator checks. -/
theorem mapped_card (h : Harvest m₀ W F T r) :
    (Replay.mappedPages r.recipe).card * PAGE ≤
      rounded r.h.length + r.h.length / 4 + 4 * 2 ^ 20 := by
  have hcode : (r.recipe.code.flatMap
      fun c => [base c.address, base (c.address + c.size - 1)]).toFinset ⊆
      r.recipe.pages.toFinset ∪
        ((pageOffsets (rounded r.recipe.h.length)).map (r.recipe.h.output + ·)).toFinset := by
    intro p hp
    obtain ⟨c, hc, hp⟩ := List.mem_flatMap.mp (List.mem_toFinset.mp hp)
    have hpos := (mem_instructions h hc).pos
    have hpage : p ∈ r.pages := by
      rcases List.mem_cons.mp hp with rfl | hp
      · exact (h.pristine c hc 0 hpos).1
      · rw [List.mem_singleton.mp hp, show c.address + c.size - 1 = c.address +
          (c.size - 1) by omega]
        exact (h.pristine c hc (c.size - 1) (by omega)).1
    rw [Finset.mem_union, List.mem_toFinset, List.mem_toFinset]
    exact noted_cases h hpage
  have hle : (Replay.mappedPages r.recipe).card ≤
      (r.pages.keys.filter (outside r.h)).length + rounded r.h.length / PAGE := by
    unfold Replay.mappedPages
    rw [Finset.union_eq_left.mpr hcode]
    refine (Finset.card_union_le _ _).trans (Nat.add_le_add (List.toFinset_card_le _) ?_)
    refine (List.toFinset_card_le _).trans ?_
    unfold pageOffsets
    rw [List.length_map, List.length_map, List.length_range,
      rounded_of_mod (rounded_mod r.recipe.h.length)]
    exact le_rfl
  have hscratch := h.scratch
  have hround : rounded r.h.length / PAGE * PAGE = rounded r.h.length :=
    Nat.div_mul_cancel (Nat.dvd_of_mod_eq_zero (rounded_mod _))
  calc (Replay.mappedPages r.recipe).card * PAGE
      ≤ ((r.pages.keys.filter (outside r.h)).length + rounded r.h.length / PAGE) * PAGE :=
        Nat.mul_le_mul_right _ hle
    _ = (r.pages.keys.filter (outside r.h)).length * PAGE + rounded r.h.length := by
        rw [Nat.add_mul, hround]
    _ ≤ rounded r.h.length + r.h.length / 4 + 4 * 2 ^ 20 := by omega

theorem noted_of_input (h : Harvest m₀ W F T r) {a : ℕ} (ha : a ∈ F) : base a ∈ r.pages := by
  have hbit := (h.faithful.input a).mpr ha
  rw [Std.TreeMap.mem_iff_isSome_getElem?]
  cases hk : r.pages[base a]? with
  | some p => rfl
  | none =>
    unfold inputBit pageAt at hbit
    rw [hk] at hbit
    exact absurd hbit (Bool.eq_false_iff.mp (ByteMask.test_empty _))

/-- `setup` up to the code: nothing is refused. -/
theorem setup_eq (h : Harvest m₀ W F T r) :
    ∃ s K, Replay.setup r.recipe = Replay.seedCode r.h s r.instructions ∧ F ⊆ K ∧
      Replay.Agrees m₀ {p | p ∈ Replay.mappedPages r.recipe} K s := by
  have hpages : r.recipe.pages.toFinset.card = r.recipe.pages.length :=
    List.toFinset_card_of_nodup (Std.TreeMap.nodup_keys.filter _)
  have hcode : (r.recipe.code.map Instruction.address).Nodup := by
    have heq : r.recipe.code.map Instruction.address = r.code.keys := by
      show (r.code.toList.map Prod.snd).map Instruction.address = _
      rw [List.map_map, ← Std.TreeMap.map_fst_toList_eq_keys]
      refine List.map_congr_left fun x hx => ?_
      exact (h.faithful.code x.1 x.2 (Std.TreeMap.mem_toList_iff_getElem?_eq_some.mp hx)).address
    rw [heq]
    exact Std.TreeMap.nodup_keys
  have hcard : (Replay.mappedPages r.recipe).card * PAGE ≤
      rounded r.recipe.h.length + r.recipe.h.length / 4 + 4 * 2 ^ 20 := mapped_card h
  -- before anything is seeded, the mapped pages are known and no byte is
  have hinit : Replay.Agrees m₀ {p | p ∈ Replay.mappedPages r.recipe} ∅
      { mem := fun _ => 0
        initialized := fun p =>
          if p ∈ Replay.mappedPages r.recipe then some ByteMask.empty else none
        outputAddress := r.recipe.h.output
        length := r.recipe.h.length
        outputWritten := fun _ => ByteMask.empty
        error := none } := by
    refine ⟨rfl, fun a => ?_, fun a => ?_, fun a ha => ha.elim⟩
    · unfold Replay.maps
      show (if base a ∈ Replay.mappedPages r.recipe then some ByteMask.empty else none).isSome =
        true ↔
        base a ∈ Replay.mappedPages r.recipe
      split_ifs with hm <;> simp [hm]
    · unfold Replay.known
      dsimp only
      split_ifs with hm
      · simp [ByteMask.test_empty]
      · simp
  obtain ⟨s, K, hs, hag, -, hK⟩ := @Replay.Agrees.seedInputs _ _ r.recipe.inputs _ _ hinit
    (by
      intro g hg i hi
      have hin : HasInput r.recipe.inputs (g.address + i) (g.bytes.get ⟨i, hi⟩) :=
        ⟨g, hg, Nat.le_add_right _ _, by
          rw [Nat.add_sub_cancel_left, List.getElem?_eq_getElem hi]
          rfl⟩
      exact mapped_of_noted h (noted_of_input h (h.hasInput_iff.mp hin).1))
    fun a v hv => (h.hasInput_iff.mp hv).2
  refine ⟨s, K, ?_, fun a ha => hK a (m₀ a) (h.hasInput_iff.mpr ⟨ha, rfl⟩), hag⟩
  unfold Replay.setup
  dsimp only
  rw [if_neg (not_not.mpr hpages), if_neg (not_not.mpr hcode), if_neg (Nat.not_lt.mpr hcard), hs]
  rfl

theorem code_seed (h : Harvest m₀ W F T r) {c : Instruction} (hc : c ∈ r.instructions)
    (hover : Replay.overlaps r.h c = false) :
    ∀ i < c.size, base (c.address + i) ∈ {p | p ∈ Replay.mappedPages r.recipe} ∧
      c.bytes.getD i 0 = m₀ (c.address + i) := fun i hi =>
  ⟨mapped_of_noted h (h.pristine c hc i hi).1, code_byte h hc hover hi⟩

/-- **Seeding succeeds** unless an instruction overlaps the output. -/
theorem setup_ok (h : Harvest m₀ W F T r)
    (hover : ∀ c ∈ r.instructions, Replay.overlaps r.h c = false) :
    ∃ s K, Replay.setup r.recipe = .ok s ∧ F ⊆ K ∧
      Replay.Agrees m₀ {p | p ∈ Replay.mappedPages r.recipe} K s := by
  obtain ⟨s, K, hs, hF, hag⟩ := setup_eq h
  obtain ⟨s', K', hs', hag', hsub⟩ := hag.seedCode hover fun c hc => code_seed h hc (hover c hc)
  exact ⟨s', K', hs.trans hs', hF.trans hsub, hag'⟩

theorem seedCode_overlap {hd : Header} {P : Set ℕ} : ∀ {cs : List Instruction} {K : Set ℕ}
    {s : Replay}, Replay.Agrees m₀ P K s →
    (∀ c ∈ cs, Replay.overlaps hd c = false → ∀ i < c.size,
      base (c.address + i) ∈ P ∧ c.bytes.getD i 0 = m₀ (c.address + i)) →
    (∃ c ∈ cs, Replay.overlaps hd c = true) → s.seedCode hd cs = .error "output overlaps code"
  | [], K, s, _, _, hex => by
    obtain ⟨c, hc, -⟩ := hex
    cases hc
  | c :: cs, K, s, hag, hseed, hex => by
    rw [Replay.seedCode]
    cases hov : Replay.overlaps hd c with
    | true => rfl
    | false =>
      have hlen : (c.bytes.take c.size).length ≤ c.size := by
        rw [List.length_take]
        exact Nat.min_le_left _ _
      have hone := hseed c List.mem_cons_self hov
      obtain ⟨s₁, h₁, hag₁⟩ := @Replay.Agrees.seed _ _ _ _ hag "unordered_map::at" c.address
        (c.bytes.take c.size) (fun i hi => (hone i (hi.trans_le hlen)).1) (by
          intro i hi
          have hlt := hi.trans_le hlen
          rw [← (hone i hlt).2, List.getD_eq_getElem?_getD, List.getElem?_take_of_lt hlt,
            List.getD_eq_getElem?_getD])
      have hrest : ∃ c' ∈ cs, Replay.overlaps hd c' = true := by
        obtain ⟨c', hc', ho⟩ := hex
        rcases List.mem_cons.mp hc' with rfl | hc'
        · rw [hov] at ho
          cases ho
        · exact ⟨c', hc', ho⟩
      rw [h₁]
      exact seedCode_overlap hag₁ (fun c' hc' => hseed c' (List.mem_cons_of_mem _ hc')) hrest

end Recipe

/-! ### Replaying a capture -/

/-- What the reads of a capture saw. -/
def observed (m : ℕ → UInt8) : List Event → List (List UInt8)
  | [] => []
  | .read addr n :: es => ((List.range n).map fun i => m (addr + i)) :: observed m es
  | .write addr bytes :: es => observed (store m addr bytes) es
  | .begin _ _ _ :: es | .rule _ :: es | .block _ _ :: es => observed m es

/-- The replay after some accesses of a capture with footprint `total`. -/
structure Follows (m₁ : ℕ → UInt8) (total acc : List (Access ℕ UInt8)) (s : Replay) : Prop where
  error : s.error = none
  mem : s.mem = after m₁ acc
  maps : ∀ a, Touched total a → s.maps a
  known : ∀ a, FirstRead total a ∨ Written acc a → s.known a = true

section Following

variable {m₀ m₁ : ℕ → UInt8} {acc rest : List (Access ℕ UInt8)} {s : Replay}

/-- **A read of the capture** passes the hook and sees what the capture saw. -/
theorem Follows.read {addr n : ℕ} (hb : addr + n ≤ UINT64_MAX)
    (h : Follows m₁ (acc ++ .read (Set.Ico addr (addr + n)) :: rest) acc s)
    (hm : ∀ a, FirstRead (acc ++ .read (Set.Ico addr (addr + n)) :: rest) a → m₁ a = m₀ a) :
    s.perform (.read addr n) = (s, [(List.range n).map fun i => after m₀ acc (addr + i)]) := by
  have hknown : ∀ a ∈ Set.Ico addr (addr + n), s.known a = true := by
    intro a ha
    refine h.known a ?_
    by_cases hw : Written acc a
    · exact Or.inr hw
    · left
      have hf : FirstRead (acc ++ [Access.read (β := UInt8) (Set.Ico addr (addr + n))]) a :=
        firstRead_snoc.mpr (Or.inr ⟨hw, ha⟩)
      have := hf.append rest
      rwa [List.append_assoc] at this
  have hhook : s.memory false addr n = s := by
    unfold Replay.memory
    by_cases h0 : n = 0
    · rw [if_pos h0]
    · rw [if_neg h0, if_neg (by unfold UINT64_MAX at *; omega)]
      exact Replay.memoryLoop_read le_rfl hknown
  have hval : ((List.range n).map fun i => s.mem (addr + i)) =
      (List.range n).map fun i => after m₀ acc (addr + i) := by
    refine List.map_congr_left fun i hi => ?_
    rw [h.mem]
    exact after_eq_of_read hm (Set.mem_Ico.mpr ⟨by omega, by have := List.mem_range.mp hi; omega⟩)
  unfold Replay.perform
  dsimp only
  rw [hhook, h.error, hval]
  rfl

/-- **A write of the capture** passes the hook. -/
theorem Follows.write {addr : ℕ} {bytes : List UInt8} (hb : addr + bytes.length ≤ UINT64_MAX)
    (h : Follows m₁ (acc ++ Event.access (.write addr bytes) ++ rest) acc s) :
    (s.perform (.write addr bytes)).2 = [] ∧
      Follows m₁ (acc ++ Event.access (.write addr bytes) ++ rest)
        (acc ++ Event.access (.write addr bytes)) (s.perform (.write addr bytes)).1 := by
  refine ⟨rfl, ?_⟩
  have hmaps : ∀ a ∈ Set.Ico addr (addr + bytes.length), s.maps a := by
    intro a ha
    refine h.maps a ⟨_, List.mem_append_left _ (List.mem_append_right _ List.mem_cons_self), ?_⟩
    exact Or.inr ha
  have hhook : Replay.Marks (Set.Ico addr (addr + bytes.length)) s
      (s.memory true addr bytes.length) := by
    unfold Replay.memory
    by_cases h0 : bytes.length = 0
    · rw [if_pos h0, h0]
      exact ⟨rfl, rfl, fun a => Iff.rfl, fun a => by simp⟩
    · rw [if_neg h0, if_neg (by unfold UINT64_MAX at *; omega)]
      exact Replay.memoryLoop_write le_rfl hmaps
  have herr : (s.memory true addr bytes.length).error = none := hhook.error.trans h.error
  have hperf : (s.perform (.write addr bytes)).1 =
      { s.memory true addr bytes.length with
        mem := store (s.memory true addr bytes.length).mem addr bytes } := by
    unfold Replay.perform
    dsimp only
    rw [herr]
    rfl
  rw [hperf]
  refine ⟨herr, ?_, fun a ha => (hhook.maps a).mpr (h.maps a ha), fun a ha => ?_⟩
  · show store (s.memory true addr bytes.length).mem addr bytes = _
    rw [hhook.mem, h.mem]
    exact update_eq_after m₁ acc (.write addr bytes)
  · refine (hhook.known a).mpr ?_
    rcases ha with ha | ha
    · exact Or.inl (h.known a (Or.inl ha))
    · rcases written_snoc.mp ha with ha | ha
      · exact Or.inl (h.known a (Or.inr ha))
      · exact Or.inr ha

/-- **The whole capture**, by induction over its events. -/
theorem Follows.performAll : ∀ {es : List Event} {acc : List (Access ℕ UInt8)} {s : Replay},
    (∀ e ∈ es, InBounds e) →
    (∀ a, FirstRead (acc ++ accesses es) a → m₁ a = m₀ a) →
    Follows m₁ (acc ++ accesses es) acc s →
    (s.performAll es).1.error = none ∧ (s.performAll es).2 = observed (after m₀ acc) es
  | [], acc, s, _, _, h => ⟨h.error, rfl⟩
  | e :: es, acc, s, hb, hm, h => by
    have hbs : ∀ e' ∈ es, InBounds e' := fun e' he' => hb e' (List.mem_cons_of_mem _ he')
    have hbe := hb e List.mem_cons_self
    have hsplit : acc ++ accesses (e :: es) = acc ++ Event.access e ++ accesses es := by
      unfold accesses
      rw [List.flatMap_cons, List.append_assoc]
    rw [hsplit] at hm h
    cases e with
    | read addr n =>
      have happ : acc ++ Event.access (.read addr n) ++ accesses es =
          acc ++ Access.read (Set.Ico addr (addr + n)) :: accesses es := by
        rw [Event.access, List.append_assoc]
        rfl
      have hperf := Follows.read hbe (happ ▸ h) (happ ▸ hm)
      have hnext : Follows m₁ (acc ++ Event.access (.read addr n) ++ accesses es)
          (acc ++ Event.access (.read addr n)) s := by
        refine ⟨h.error, ?_, h.maps, fun a ha => h.known a (ha.imp_right fun hw => ?_)⟩
        · rw [h.mem]
          exact update_eq_after m₁ acc (.read addr n)
        · exact (written_snoc.mp hw).resolve_right id
      obtain ⟨h1, h2⟩ := Follows.performAll hbs hm hnext
      rw [Replay.performAll, hperf, observed]
      refine ⟨h1, ?_⟩
      show _ :: (s.performAll es).2 = _
      rw [h2, ← update_eq_after]
      rfl
    | write addr bytes =>
      obtain ⟨hv, hnext⟩ := Follows.write hbe h
      obtain ⟨h1, h2⟩ := Follows.performAll hbs hm hnext
      rw [Replay.performAll, observed]
      refine ⟨h1, ?_⟩
      show (s.perform (.write addr bytes)).2 ++ _ = _
      rw [hv, List.nil_append, h2, ← update_eq_after]
      rfl
    | begin regs xmm mxcsr =>
      rw [Event.access, List.append_nil] at hm h
      have hrest := Follows.performAll hbs hm h
      exact hrest
    | rule a =>
      rw [Event.access, List.append_nil] at hm h
      have hrest := Follows.performAll hbs hm h
      exact hrest
    | block start stop =>
      rw [Event.access, List.append_nil] at hm h
      have hrest := Follows.performAll hbs hm h
      exact hrest

end Following

/-- **Dependency capture is complete and exact.** For every sequence of events that `finish` turns
into a recipe, with or without regions: the inputs are the bytes that are read before they are
written, with their first values; every touched page is listed or part of the output; and the strict
replay, unless it refuses the recipe because code overlaps the output, lets every access of the
sequence pass and gives every read the recorded value. -/
theorem capture_complete (m₀ : ℕ → UInt8) (t : Target) (fsBase gsBase result : ℕ) (regions : Bool)
    (es : List Event) (recipe : Recipe)
    (hfinish : (capture m₀ (Recorder.make t fsBase gsBase) es).2.finish result regions =
      .ok recipe) :
    (∀ a v, HasInput recipe.inputs a v ↔ FirstRead (accesses es) a ∧ v = m₀ a) ∧
    (∀ a, Touched (accesses es) a → base a ∈ recipe.pages ∨
      (recipe.h.output ≤ base a ∧ base a < recipe.h.output + rounded recipe.h.length)) ∧
    if ∃ c ∈ recipe.code, Replay.overlaps recipe.h c = true then
      Replay.setup recipe = .error "output overlaps code"
    else
      ∃ s, Replay.setup recipe = .ok s ∧ (s.performAll es).1.error = none ∧
        (s.performAll es).2 = observed m₀ es := by
  have hrej : (capture m₀ (Recorder.make t fsBase gsBase) es).2.rejection = none := by
    unfold finish at hfinish
    cases hr : (capture m₀ (Recorder.make t fsBase gsBase) es).2.rejection with
    | none => rfl
    | some why =>
      rw [hr] at hfinish
      cases hfinish
  obtain ⟨hb, hknown⟩ := (Known.make m₀ t fsBase gsBase).capture hrej
  rw [List.nil_append] at hknown
  obtain ⟨r, hr, rfl⟩ := finish_ok hknown hfinish
  refine ⟨fun a v => hr.hasInput_iff, fun a ha => hr.touched ha, ?_⟩
  split_ifs with hover
  · obtain ⟨s, K, hs, -, hag⟩ := setup_eq hr
    rw [hs]
    exact seedCode_overlap hag (fun c hc => code_seed hr hc) hover
  · have hnone : ∀ c ∈ r.instructions, Replay.overlaps r.h c = false := fun c hc =>
      Bool.eq_false_iff.mpr fun ho => hover ⟨c, hc, ho⟩
    obtain ⟨s, K, hs, hF, hag⟩ := setup_ok hr hnone
    have hfollow : Follows s.mem ([] ++ accesses es) [] s := by
      refine ⟨hag.error, rfl, fun a ha => (hag.maps a).mpr (mapped_of_touched hr ha),
        fun a ha => ?_⟩
      rcases ha with ha | ⟨e, he, -⟩
      · exact (hag.known a).mpr (hF ha)
      · cases he
    have hvalue : ∀ a, FirstRead ([] ++ accesses es) a → s.mem a = m₀ a := fun a ha =>
      hag.value a (hF ha)
    exact ⟨s, hs, hfollow.performAll hb hvalue⟩

/-- A two-byte output filled out of order, with a read across a page boundary. -/
def sampleEvents : List Event :=
  [.rule ⟨0x5000, 3, by decide, by decide, by decide, none⟩, .begin [] [] 0, .block 0x5000 0x5003,
    .read 0x2ffe 3, .write 0x10001 [8], .read 0x10001 1, .write 0x10000 [7], .read 0x2fff 1]

theorem capture_complete_sample :
    ∃ recipe, (capture (fun a => UInt8.ofNat (a % 251))
        (Recorder.make ⟨0x10000, 2, by decide, by decide, by decide⟩ 0 0) sampleEvents).2.finish 5
          true =
          .ok recipe ∧
      (∀ a v, HasInput recipe.inputs a v ↔
        FirstRead (accesses sampleEvents) a ∧ v = UInt8.ofNat (a % 251)) := by
  have hok : ((capture (fun a => UInt8.ofNat (a % 251))
      (Recorder.make ⟨0x10000, 2, by decide, by decide, by decide⟩ 0 0) sampleEvents).2.finish 5
        true).toBool = true := by decide +kernel
  cases h : (capture (fun a => UInt8.ofNat (a % 251))
      (Recorder.make ⟨0x10000, 2, by decide, by decide, by decide⟩ 0 0) sampleEvents).2.finish 5
        true with
  | error e =>
    rw [h] at hok
    cases hok
  | ok recipe => exact ⟨recipe, rfl, (capture_complete _ _ 0 0 5 true sampleEvents recipe h).1⟩

end Afterfree.Recording.Emulator
