import Afterfree.Recording.Capture

/-!
# What the recorder knows

The recorder against three sets of addresses: those written so far, those that were read before they
were written, and those that were touched at all. `Faithful` says that the frontier and the masks
together stand for the first set, the input bits for the second, and that every touched page is
noted or behind the frontier. Reads and writes keep it, word by word and page by page.
-/

namespace Afterfree.Recording.Capture.Recorder

open Afterfree.Common Afterfree.Codec Afterfree.Recording.Masks

/-! ### Views of a recorder -/

/-- The mask bit of a byte that was written past the frontier. -/
def writtenBit (r : Recorder) (a : ℕ) : Bool := (r.pageAt a).written.test (a % PAGE)

/-- The mask bit of an input. -/
def inputBit (r : Recorder) (a : ℕ) : Bool := (r.pageAt a).input.test (a % PAGE)

/-- The value kept for an input. -/
def dataAt (r : Recorder) (a : ℕ) : UInt8 := (r.pageAt a).data (a % PAGE)

/-- The byte is behind the frontier. -/
def behind (r : Recorder) (a : ℕ) : Prop := r.h.output ≤ a ∧ a < r.outputFrontier

/-- The page cache points into the map, whose keys are pages. -/
structure Sane (r : Recorder) : Prop where
  cached : r.cachedBase = UINT64_MAX ∨ r.cachedBase ∈ r.pages
  keys : ∀ p ∈ r.pages, p % PAGE = 0

theorem base_mod (a : ℕ) : base a % PAGE = 0 := by
  unfold base
  exact Nat.mul_mod_left _ _

theorem base_of_mod {p : ℕ} (h : p % PAGE = 0) : base p = p := by
  unfold base PAGE at *
  omega

theorem base_add_mod (a : ℕ) : base a + a % PAGE = a := by
  unfold base
  exact Nat.div_add_mod' a PAGE

theorem pageAt_setPage (r : Recorder) (addr : ℕ) (p : ObservedPage) (a : ℕ) :
    (r.setPage addr p).pageAt a = if base a = base addr then p else r.pageAt a := by
  unfold pageAt setPage
  simp only [Std.TreeMap.getElem?_insert, Nat.compare_eq_eq]
  by_cases h : base a = base addr
  · rw [if_pos h.symm, if_pos h]
    rfl
  · rw [if_neg (Ne.symm h), if_neg h]

theorem mem_setPage (r : Recorder) (addr : ℕ) (p : ObservedPage) {q : ℕ} :
    q ∈ (r.setPage addr p).pages ↔ q = base addr ∨ q ∈ r.pages := by
  unfold setPage
  rw [Std.TreeMap.mem_insert, Nat.compare_eq_eq]
  exact or_congr_left eq_comm

theorem Sane.setPage {r : Recorder} (h : Sane r) (addr : ℕ) (p : ObservedPage) :
    Sane (r.setPage addr p) where
  cached := h.cached.imp_right fun hc => (mem_setPage r addr p).mpr (Or.inr hc)
  keys := by
    intro q hq
    rcases (mem_setPage r addr p).mp hq with rfl | hq
    · exact base_mod addr
    · exact h.keys q hq

/-! ### Filling in -/

/-- The second recorder has at least the pages of the first, and of the masks only bytes of `W` were
marked. -/
structure Fills (W : Set ℕ) (r r' : Recorder) : Prop where
  same : ∃ ps c, r' = { r with pages := ps, cachedBase := c }
  sane : Sane r'
  noted : ∀ p ∈ r.pages, p ∈ r'.pages
  input : ∀ a, r'.inputBit a = r.inputBit a
  data : ∀ a, r'.dataAt a = r.dataAt a
  grow : ∀ a, r.writtenBit a = true → r'.writtenBit a = true
  only : ∀ a, r'.writtenBit a = true → r.writtenBit a = true ∨ a ∈ W

theorem Fills.refl {W : Set ℕ} {r : Recorder} (h : Sane r) : Fills W r r where
  same := ⟨_, _, rfl⟩
  sane := h
  noted := fun _ hp => hp
  input := fun _ => rfl
  data := fun _ => rfl
  grow := fun _ ha => ha
  only := fun _ ha => Or.inl ha

theorem Fills.trans {W : Set ℕ} {r₁ r₂ r₃ : Recorder} (h : Fills W r₁ r₂) (h' : Fills W r₂ r₃) :
    Fills W r₁ r₃ where
  same := by
    obtain ⟨ps, c, rfl⟩ := h.same
    obtain ⟨ps', c', rfl⟩ := h'.same
    exact ⟨ps', c', rfl⟩
  sane := h'.sane
  noted := fun p hp => h'.noted p (h.noted p hp)
  input := fun a => (h'.input a).trans (h.input a)
  data := fun a => (h'.data a).trans (h.data a)
  grow := fun a ha => h'.grow a (h.grow a ha)
  only := by
    intro a ha
    rcases h'.only a ha with ha | ha
    · exact h.only a ha
    · exact Or.inr ha

/-- Nothing is marked: the masks are the same. -/
theorem Fills.written_eq {r r' : Recorder} (h : Fills ∅ r r') (a : ℕ) :
    r'.writtenBit a = r.writtenBit a := by
  rw [Bool.eq_iff_iff]
  exact ⟨fun ha => (h.only a ha).resolve_right id, h.grow a⟩

theorem Fills.mono {V W : Set ℕ} {r r' : Recorder} (h : Fills V r r') (hv : V ⊆ W) : Fills W r r' :=
  { h with only := fun a ha => (h.only a ha).imp_right fun hw => hv hw }

/-- **`page`** notes a page and changes nothing else. -/
theorem page_ok {r r' : Recorder} {addr : ℕ} (hs : Sane r) (h : r.page addr = .ok r') :
    Fills ∅ r r' ∧ base addr ∈ r'.pages := by
  unfold page at h
  split_ifs at h with hc
  · cases h
    refine ⟨Fills.refl hs, ?_⟩
    rcases hs.cached with hu | hm
    · -- no page has the address of the empty cache
      have := base_mod addr
      rw [hc, hu] at this
      exact absurd this (by decide)
    · rwa [hc]
  · cases h
    have hmem : ∀ p, p ∈ r.pages.insertIfNew (base addr) ObservedPage.fresh ↔
        p = base addr ∨ p ∈ r.pages := by
      intro p
      rw [Std.TreeMap.mem_insertIfNew, Nat.compare_eq_eq]
      exact or_congr_left eq_comm
    have hat : ∀ a, ({ r with
          cachedBase := base addr
          pages := r.pages.insertIfNew (base addr) ObservedPage.fresh } : Recorder).pageAt a =
        r.pageAt a := by
      intro a
      unfold pageAt
      simp only [Std.TreeMap.getElem?_insertIfNew, Nat.compare_eq_eq]
      by_cases hn : base addr = base a ∧ base addr ∉ r.pages
      · rw [if_pos hn]
        have hnone : r.pages[base a]? = none := by
          rw [← hn.1]
          exact Std.TreeMap.getElem?_eq_none hn.2
        rw [hnone]
        rfl
      · rw [if_neg hn]
    refine ⟨⟨⟨_, _, rfl⟩, ⟨Or.inr ((hmem _).mpr (Or.inl rfl)), ?_⟩,
      fun p hp => (hmem p).mpr (Or.inr hp), ?_, ?_, ?_, ?_⟩, (hmem _).mpr (Or.inl rfl)⟩
    · intro p hp
      rcases (hmem p).mp hp with rfl | hp
      · exact base_mod addr
      · exact hs.keys p hp
    · intro a
      unfold inputBit
      rw [hat]
    · intro a
      unfold dataAt
      rw [hat]
    · intro a ha
      unfold writtenBit at ha ⊢
      rwa [hat]
    · intro a ha
      unfold writtenBit at ha ⊢
      rw [hat] at ha
      exact Or.inl ha

theorem fills_mark {W : Set ℕ} {r : Recorder} {addr offset count : ℕ} (hs : Sane r)
    (hw : ∀ a, base a = base addr → offset ≤ a % PAGE → a % PAGE < offset + count → a ∈ W) :
    Fills W r (r.setPage addr
      { r.pageAt addr with written := (r.pageAt addr).written.mark offset count }) ∧
    ∀ a, base a = base addr → offset ≤ a % PAGE → a % PAGE < offset + count →
      (r.setPage addr
        { r.pageAt addr with written := (r.pageAt addr).written.mark offset count }).writtenBit a =
        true := by
  have hsame : ∀ a, base a = base addr → r.pageAt a = r.pageAt addr := by
    intro a ha
    unfold pageAt
    rw [ha]
  refine ⟨⟨⟨_, _, rfl⟩, hs.setPage _ _, fun p hp => (mem_setPage ..).mpr (Or.inr hp), ?_, ?_, ?_,
    ?_⟩, ?_⟩
  · intro a
    unfold inputBit
    rw [pageAt_setPage]
    split_ifs with ha
    · rw [hsame a ha]
    · rfl
  · intro a
    unfold dataAt
    rw [pageAt_setPage]
    split_ifs with ha
    · rw [hsame a ha]
    · rfl
  · intro a ht
    unfold writtenBit at ht ⊢
    rw [pageAt_setPage]
    split_ifs with ha
    · rw [hsame a ha] at ht
      show ((r.pageAt addr).written.mark offset count).test (a % PAGE) = true
      rw [ByteMask.test_mark, ht, Bool.true_or]
    · exact ht
  · intro a ht
    unfold writtenBit at ht ⊢
    rw [pageAt_setPage] at ht
    split_ifs at ht with ha
    · replace ht : ((r.pageAt addr).written.mark offset count).test (a % PAGE) = true := ht
      rw [ByteMask.test_mark, Bool.or_eq_true, decide_eq_true_iff] at ht
      rw [hsame a ha]
      exact ht.imp_right fun hin => hw a ha hin.1 hin.2
    · exact Or.inl ht
  · intro a ha h1 h2
    unfold writtenBit
    rw [pageAt_setPage, if_pos ha]
    show ((r.pageAt addr).written.mark offset count).test (a % PAGE) = true
    rw [ByteMask.test_mark, decide_eq_true ⟨h1, h2⟩, Bool.or_true]

/-! ### The invariant -/

/-- A copy of instruction bytes, taken when the bytes outside `W` had the values of `m₀`. -/
structure Sampled (m₀ : ℕ → UInt8) (W : Set ℕ) (key : ℕ) (c : Instruction) : Prop where
  address : c.address = key
  pos : 0 < c.size
  short : c.size ≤ 15
  bytes : ∀ i < c.size, key + i ∉ W → c.bytes.getD i 0 = m₀ (key + i)

theorem Sampled.mono {m₀ : ℕ → UInt8} {W W' : Set ℕ} {key : ℕ} {c : Instruction}
    (h : Sampled m₀ W key c) (hw : W ⊆ W') : Sampled m₀ W' key c :=
  { h with bytes := fun i hi hn => h.bytes i hi fun hin => hn (hw hin) }

/-- **The invariant**: `W` has been written, `F` was read first, `T` was touched, and `m₀` is the
memory before the first event. -/
structure Faithful (m₀ : ℕ → UInt8) (W F T : Set ℕ) (r : Recorder) : Prop where
  sane : Sane r
  aligned : r.h.output % PAGE = 0
  low : r.h.output ≤ r.outputFrontier
  high : r.outputFrontier ≤ r.h.output + r.h.length
  written : ∀ a, r.behind a ∨ r.writtenBit a = true ↔ a ∈ W
  input : ∀ a, r.inputBit a = true ↔ a ∈ F
  data : ∀ a ∈ F, r.dataAt a = m₀ a
  noted : ∀ a ∈ T, base a ∈ r.pages ∨ r.behind a
  plans : ∀ k p, r.plans[k]? = some p → Sampled m₀ W k p.instruction
  code : ∀ k c, r.code[k]? = some c → Sampled m₀ W k c

section Preservation

variable {m₀ m : ℕ → UInt8} {W F T : Set ℕ} {r r' : Recorder}

theorem Faithful.fills (h : Faithful m₀ W F T r) (hf : Fills W r r') : Faithful m₀ W F T r' := by
  have hw : ∀ a, r'.behind a ∨ r'.writtenBit a = true ↔ a ∈ W := by
    intro a
    have hb : r'.behind a ↔ r.behind a := by
      obtain ⟨ps, c, rfl⟩ := hf.same
      exact Iff.rfl
    rw [hb, ← h.written a]
    constructor
    · rintro (hb | hw)
      · exact Or.inl hb
      · rcases hf.only a hw with hw | hw
        · exact Or.inr hw
        · exact (h.written a).mpr hw
    · exact Or.imp_right (hf.grow a)
  have hn : ∀ a ∈ T, base a ∈ r'.pages ∨ r.behind a := fun a ha =>
    (h.noted a ha).imp_left (hf.noted _)
  have hi : ∀ a, r'.inputBit a = true ↔ a ∈ F := fun a => by rw [hf.input a, h.input a]
  have hd : ∀ a ∈ F, r'.dataAt a = m₀ a := fun a ha => by rw [hf.data a, h.data a ha]
  have hs := hf.sane
  obtain ⟨ps, c, rfl⟩ := hf.same
  exact ⟨hs, h.aligned, h.low, h.high, hw, hi, hd, hn, h.plans, h.code⟩

/-! ### Reads -/

theorem same_word {addr a : ℕ} (h : a / 64 = addr / 64) :
    base a = base addr ∧ a % PAGE / 64 = addr % PAGE / 64 ∧ a % PAGE % 64 = a % 64 := by
  unfold base PAGE
  omega

/-- **What `read` has to copy**: the bytes of the span that were not written, not behind the
frontier and not copied before. -/
theorem needed_iff (r : Recorder) {addr count a : ℕ} (hfit : addr % 64 + count ≤ 64)
    (ha : a / 64 = addr / 64) :
    (r.needed addr count).getLsbD (a % 64) = true ↔
      (addr ≤ a ∧ a < addr + count) ∧ r.writtenBit a = false ∧ r.inputBit a = false ∧
        ¬ r.behind a := by
  obtain ⟨hbase, hword, hbit⟩ := same_word ha
  have hlt : a % 64 < 64 := Nat.mod_lt _ (by decide)
  have hpage : r.pageAt a = r.pageAt addr := by
    unfold pageAt
    rw [hbase]
  have hoff : addr % PAGE % 64 = addr % 64 := (same_word rfl).2.2
  -- the two masks of the word at the bit of `a`
  have hspan : (mask (addr % PAGE % 64) count).getLsbD (a % 64) = true ↔
      addr ≤ a ∧ a < addr + count := by
    rw [getLsbD_mask (by omega) hlt, decide_eq_true_iff, hoff]
    omega
  have hw : ((r.pageAt addr).written.words (addr % PAGE / 64)).getLsbD (a % 64) =
    r.writtenBit a := by
    unfold writtenBit ByteMask.test
    rw [hpage, hword, hbit]
  have hin : ((r.pageAt addr).input.words (addr % PAGE / 64)).getLsbD (a % 64) = r.inputBit a := by
    unfold inputBit ByteMask.test
    rw [hpage, hword, hbit]
  have hbits : (mask (addr % PAGE % 64) count &&& ~~~((r.pageAt addr).written.words
    (addr % PAGE / 64)
      ||| (r.pageAt addr).input.words (addr % PAGE / 64))).getLsbD (a % 64) = true ↔
      (addr ≤ a ∧ a < addr + count) ∧ r.writtenBit a = false ∧ r.inputBit a = false := by
    rw [BitVec.getLsbD_and, BitVec.getLsbD_not, BitVec.getLsbD_or, hw, hin, decide_eq_true hlt,
      Bool.true_and, Bool.and_eq_true, hspan, Bool.not_eq_true', Bool.or_eq_false_iff]
  rw [needed_eq]
  unfold behind
  by_cases hlow : max addr r.h.output < min (addr + count) r.outputFrontier
  · -- the span meets the frontier
    have hfront : (mask (max addr r.h.output % 64)
        (min (addr + count) r.outputFrontier - max addr r.h.output)).getLsbD (a % 64) = false ↔
        ¬ (max addr r.h.output ≤ a ∧ a < min (addr + count) r.outputFrontier) := by
      rw [getLsbD_mask (by omega) hlt, decide_eq_false_iff_not]
      omega
    rw [if_pos hlow, BitVec.getLsbD_and, BitVec.getLsbD_not, decide_eq_true hlt, Bool.true_and,
      Bool.and_eq_true, hbits, Bool.not_eq_true', hfront]
    constructor
    · rintro ⟨⟨h1, h2, h3⟩, h4⟩
      exact ⟨h1, h2, h3, by omega⟩
    · rintro ⟨h1, h2, h3, h4⟩
      exact ⟨⟨h1, h2, h3⟩, by omega⟩
  · rw [if_neg hlow, hbits]
    constructor
    · rintro ⟨h1, h2, h3⟩
      exact ⟨h1, h2, h3, by omega⟩
    · rintro ⟨h1, h2, h3, -⟩
      exact ⟨h1, h2, h3⟩

theorem foldl_update_apply (g : ℕ → UInt8) (k : ℕ) : ∀ (bits : List ℕ) (d : ℕ → UInt8) (i : ℕ),
    bits.foldl (fun d bit => Function.update d (k + bit) (g (k + bit))) d i =
      if ∃ b ∈ bits, i = k + b then g i else d i
  | [], d, i => by simp
  | b :: bits, d, i => by
    rw [List.foldl_cons, foldl_update_apply g k bits]
    by_cases h : ∃ b ∈ bits, i = k + b
    · have h' : ∃ c ∈ b :: bits, i = k + c := by
        obtain ⟨c, hc, he⟩ := h
        exact ⟨c, List.mem_cons_of_mem _ hc, he⟩
      rw [if_pos h, if_pos h']
    · rw [if_neg h]
      by_cases hb : i = k + b
      · subst hb
        rw [Function.update_self, if_pos ⟨b, List.mem_cons_self, rfl⟩]
      · have h' : ¬ ∃ c ∈ b :: bits, i = k + c := by
          rintro ⟨c, hc, he⟩
          rcases List.mem_cons.mp hc with rfl | hc
          · exact hb he
          · exact h ⟨c, hc, he⟩
        rw [Function.update_of_ne hb, if_neg h']

theorem readWord_cases {addr count : ℕ} (hfit : addr % 64 + count ≤ 64)
    (h : r.readWord m addr count = some r') :
    ∃ ps live, r' = { r with pages := ps, liveBytes := live } ∧
      (∀ p, p ∈ r.pages → p ∈ ps) ∧ (∀ p, p ∈ ps → p ∈ r.pages ∨ p = base addr) ∧
      (∀ a, r'.writtenBit a = r.writtenBit a) ∧
      ∀ a, let new := (addr ≤ a ∧ a < addr + count) ∧ r.writtenBit a = false ∧
          r.inputBit a = false ∧ ¬ r.behind a
        (r'.inputBit a = true ↔ r.inputBit a = true ∨ new) ∧
        (new → r'.dataAt a = m a) ∧ (¬ new → r'.dataAt a = r.dataAt a) := by
  unfold readWord copyWord at h
  dsimp only at h
  have hspan : ∀ a, addr ≤ a → a < addr + count → a / 64 = addr / 64 := by
    intro a h1 h2
    omega
  split_ifs at h with hz hl
  · cases h
    refine ⟨_, _, rfl, fun p hp => hp, fun p hp => Or.inl hp, fun a => rfl, fun a => ?_⟩
    -- no bit is set, so no byte of the span is new
    have hno : ¬ ((addr ≤ a ∧ a < addr + count) ∧ r.writtenBit a = false ∧ r.inputBit a = false ∧
        ¬ r.behind a) := by
      intro hnew
      have hbit := (needed_iff r hfit (hspan a hnew.1.1 hnew.1.2)).mpr hnew
      rw [hz] at hbit
      simp at hbit
    exact ⟨by simp only [hno, or_false], fun hnew => absurd hnew hno, fun _ => rfl⟩
  · cases h
    refine ⟨_, _, rfl, fun p hp => ?_, fun p hp => ?_, fun a => ?_, fun a => ?_⟩
    · exact (mem_setPage ..).mpr (Or.inr hp)
    · exact ((mem_setPage ..).mp hp).symm
    · unfold writtenBit
      rw [pageAt_setPage]
      split_ifs with ha
      · show (r.pageAt addr).written.test _ = _
        unfold pageAt
        rw [ha]
      · rfl
    · have hbits : ∀ b, b ∈ bitsOf (r.needed addr count) ↔
          b < 64 ∧ (r.needed addr count).getLsbD b = true := by
        intro b
        unfold bitsOf
        rw [List.mem_filter, List.mem_range]
      unfold inputBit dataAt
      rw [pageAt_setPage]
      by_cases ha : base a = base addr
      · have hpage : r.pageAt a = r.pageAt addr := by
          unfold pageAt
          rw [ha]
        rw [if_pos ha]
        dsimp only
        rw [ByteMask.test_orWord, foldl_update_apply (fun i => m (base addr + i)), hpage]
        have hnew : (decide (a % PAGE / 64 = addr % PAGE / 64) &&
            (r.needed addr count).getLsbD (a % PAGE % 64)) = true ↔
            (addr ≤ a ∧ a < addr + count) ∧ r.writtenBit a = false ∧ r.inputBit a = false ∧
              ¬ r.behind a := by
          have h64 : a % PAGE % 64 = a % 64 := (same_word rfl).2.2
          rw [Bool.and_eq_true, decide_eq_true_iff, h64]
          constructor
          · rintro ⟨hw, hb⟩
            have hword : a / 64 = addr / 64 := by
              unfold base PAGE at *
              omega
            exact (needed_iff r hfit hword).mp hb
          · intro hnew
            have hword := hspan a hnew.1.1 hnew.1.2
            exact ⟨(same_word hword).2.1, (needed_iff r hfit hword).mpr hnew⟩
        have hex : (∃ b ∈ bitsOf (r.needed addr count), a % PAGE = addr % PAGE / 64 * 64 + b) ↔
            (decide (a % PAGE / 64 = addr % PAGE / 64) &&
              (r.needed addr count).getLsbD (a % PAGE % 64)) = true := by
          rw [Bool.and_eq_true, decide_eq_true_iff]
          constructor
          · rintro ⟨b, hb, he⟩
            obtain ⟨hlt, hset⟩ := (hbits b).mp hb
            have hmod : a % PAGE % 64 = b := by omega
            exact ⟨by omega, by rwa [hmod]⟩
          · rintro ⟨hw, hset⟩
            refine ⟨a % PAGE % 64, (hbits _).mpr ⟨Nat.mod_lt _ (by decide), hset⟩, ?_⟩
            omega
        have hinput : r.inputBit a = (r.pageAt addr).input.test (a % PAGE) := by
          unfold inputBit
          rw [hpage]
        refine ⟨?_, fun hn => ?_, fun hn => ?_⟩
        · rw [Bool.or_eq_true, hnew, hinput]
        · rw [← hinput] at hn
          rw [if_pos (hex.mpr (hnew.mpr hn)), ← ha, base_add_mod]
        · rw [← hinput] at hn
          rw [if_neg fun he => hn (hnew.mp (hex.mp he))]
      · rw [if_neg ha]
        have hno : ¬ (addr ≤ a ∧ a < addr + count) := by
          rintro ⟨h1, h2⟩
          exact ha (same_word (hspan a h1 h2)).1
        refine ⟨?_, fun hn => absurd hn.1 hno, fun _ => rfl⟩
        simp only [hno, false_and, or_false]
        rfl

theorem Faithful.readWord (h : Faithful m₀ W F T r) (hm : ∀ a, a ∉ W → m a = m₀ a) {addr count : ℕ}
    (hfit : addr % 64 + count ≤ 64) (hpage : base addr ∈ r.pages)
    (hr : r.readWord m addr count = some r') :
    Faithful m₀ W (F ∪ Set.Ico addr (addr + count) \ W) (T ∪ Set.Ico addr (addr + count)) r' := by
  obtain ⟨ps, live, he, hkeep, honly, hw, hbyte⟩ := readWord_cases hfit hr
  -- a byte is new when it is in the span and neither in `W` nor in `F`
  have hnew : ∀ a, ((addr ≤ a ∧ a < addr + count) ∧ r.writtenBit a = false ∧
      r.inputBit a = false ∧ ¬ r.behind a) ↔ a ∈ Set.Ico addr (addr + count) \ W ∧ a ∉ F := by
    intro a
    rw [← h.input a, Set.mem_sdiff, Set.mem_Ico, ← h.written a, not_or, Bool.not_eq_true,
      Bool.not_eq_true]
    tauto
  have hinput : ∀ a, r'.inputBit a = true ↔ a ∈ F ∪ Set.Ico addr (addr + count) \ W := by
    intro a
    rw [(hbyte a).1, hnew a, h.input a, Set.mem_union]
    tauto
  have hdata : ∀ a ∈ F ∪ Set.Ico addr (addr + count) \ W, r'.dataAt a = m₀ a := by
    intro a ha
    by_cases hn : a ∈ Set.Ico addr (addr + count) \ W ∧ a ∉ F
    · rw [(hbyte a).2.1 ((hnew a).mpr hn), hm a hn.1.2]
    · have hF : a ∈ F := by
        rcases ha with ha | ha
        · exact ha
        · exact not_not.mp fun hf => hn ⟨ha, hf⟩
      rw [(hbyte a).2.2 fun hb => hn ((hnew a).mp hb), h.data a hF]
  have hwritten : ∀ a, r.behind a ∨ r'.writtenBit a = true ↔ a ∈ W := by
    intro a
    rw [hw a, h.written a]
  subst he
  refine ⟨⟨?_, ?_⟩, h.aligned, h.low, h.high, hwritten, hinput, hdata, ?_, h.plans, h.code⟩
  · exact h.sane.cached.imp_right (hkeep _)
  · intro p hp
    rcases honly p hp with hp | rfl
    · exact h.sane.keys p hp
    · exact base_mod addr
  · rintro a (ha | ha)
    · exact (h.noted a ha).imp_left (hkeep _)
    · have hword : a / 64 = addr / 64 := by
        have := ha.1
        have := ha.2
        omega
      refine Or.inl (hkeep _ ?_)
      rwa [(same_word hword).1]

theorem Ico_split {addr count n : ℕ} (h : count ≤ n) :
    Set.Ico addr (addr + count) ∪ Set.Ico (addr + count) (addr + count + (n - count)) =
      Set.Ico addr (addr + n) := by
  rw [Set.Ico_union_Ico_eq_Ico (by omega) (by omega), show addr + count + (n - count) = addr + n by
    omega]

/-- **The loop of `read`**, by induction over the words of the span. -/
theorem Faithful.readLoop (hm : ∀ a, a ∉ W → m a = m₀ a) :
    ∀ {fuel : ℕ} {F T : Set ℕ} {r : Recorder} {addr n : ℕ}, n ≤ fuel → Faithful m₀ W F T r →
      r.readLoop m fuel addr n = .ok r' → r'.rejection = none →
      Faithful m₀ W (F ∪ Set.Ico addr (addr + n) \ W) (T ∪ Set.Ico addr (addr + n)) r' := by
  intro fuel
  induction fuel with
  | zero =>
    intro F T r addr n hn h hr _
    obtain rfl : n = 0 := by omega
    cases hr
    simpa using h
  | succ fuel ih =>
    intro F T r addr n hn h hr hrej
    rw [readLoop_succ] at hr
    split_ifs at hr with h0
    · cases hr
      subst h0
      simpa using h
    obtain ⟨r₁, hp, hr⟩ := bind_ok hr
    obtain ⟨hfill, hpage⟩ := page_ok h.sane hp
    have h₁ := h.fills (hfill.mono (Set.empty_subset W))
    have hfit : addr % 64 + min n (64 - addr % PAGE % 64) ≤ 64 := by
      have := (same_word (rfl : addr / 64 = addr / 64)).2.2
      omega
    cases hword : r₁.readWord m addr (min n (64 - addr % PAGE % 64)) with
    | none =>
      rw [hword] at hr
      cases hr
      cases hrej
    | some r₂ =>
      rw [hword] at hr
      have hcount : 0 < min n (64 - addr % PAGE % 64) := by omega
      have h₂ := ih (by omega) (h₁.readWord hm hfit hpage hword) hr hrej
      have hsplit := (@Ico_split addr) (Nat.min_le_left n (64 - addr % PAGE % 64))
      rw [Set.union_assoc, ← Set.union_sdiff_distrib, Set.union_assoc, hsplit] at h₂
      exact h₂

/-- **`read`** that does not reject. -/
theorem Faithful.read (h : Faithful m₀ W F T r) (hm : ∀ a, a ∉ W → m a = m₀ a) {addr n : ℕ}
    (hr : r.read m addr n = .ok r') (hrej : r'.rejection = none) :
    addr + n ≤ UINT64_MAX ∧
      Faithful m₀ W (F ∪ Set.Ico addr (addr + n) \ W) (T ∪ Set.Ico addr (addr + n)) r' := by
  unfold Recorder.read at hr
  split_ifs at hr with hbad
  · cases hr
    cases hrej
  · refine ⟨?_, h.readLoop hm le_rfl hr hrej⟩
    unfold UINT64_MAX PAGE at *
    omega

/-! ### Writes -/

theorem Faithful.mark {S : Set ℕ} (h : Faithful m₀ W F T r) (hf : Fills S r r')
    (hall : ∀ a ∈ S, r'.writtenBit a = true) (hpages : ∀ a ∈ S, base a ∈ r'.pages) :
    Faithful m₀ (W ∪ S) F (T ∪ S) r' := by
  have hw : ∀ a, r.behind a ∨ r'.writtenBit a = true ↔ a ∈ W ∪ S := by
    intro a
    rw [Set.mem_union, ← h.written a]
    constructor
    · rintro (hb | hw)
      · exact Or.inl (Or.inl hb)
      · exact (hf.only a hw).imp_left Or.inr
    · rintro ((hb | hw) | hs)
      · exact Or.inl hb
      · exact Or.inr (hf.grow a hw)
      · exact Or.inr (hall a hs)
  have hn : ∀ a ∈ T ∪ S, base a ∈ r'.pages ∨ r.behind a := by
    rintro a (ha | ha)
    · exact (h.noted a ha).imp_left (hf.noted _)
    · exact Or.inl (hpages a ha)
  have hi : ∀ a, r'.inputBit a = true ↔ a ∈ F := fun a => by rw [hf.input a, h.input a]
  have hd : ∀ a ∈ F, r'.dataAt a = m₀ a := fun a ha => by rw [hf.data a, h.data a ha]
  have hs := hf.sane
  obtain ⟨ps, c, rfl⟩ := hf.same
  exact ⟨hs, h.aligned, h.low, h.high, hw, hi, hd, hn,
    fun k p hk => (h.plans k p hk).mono Set.subset_union_left,
    fun k c hk => (h.code k c hk).mono Set.subset_union_left⟩

theorem mem_span_iff {addr count a : ℕ} (h : addr % PAGE + count ≤ PAGE) :
    a ∈ Set.Ico addr (addr + count) ↔
      base a = base addr ∧ addr % PAGE ≤ a % PAGE ∧ a % PAGE < addr % PAGE + count := by
  unfold base PAGE at *
  rw [Set.mem_Ico]
  omega

/-- **The loop of `write`**, by induction over the pages of the span. -/
theorem Faithful.writeLoop : ∀ {fuel : ℕ} {W T : Set ℕ} {r : Recorder} {addr n : ℕ}, n ≤ fuel →
    Faithful m₀ W F T r → r.writeLoop fuel addr n = .ok r' →
    Faithful m₀ (W ∪ Set.Ico addr (addr + n)) F (T ∪ Set.Ico addr (addr + n)) r' := by
  intro fuel
  induction fuel with
  | zero =>
    intro W T r addr n hn h hr
    obtain rfl : n = 0 := by omega
    cases hr
    simpa using h
  | succ fuel ih =>
    intro W T r addr n hn h hr
    rw [Recorder.writeLoop] at hr
    split_ifs at hr with h0
    · cases hr
      subst h0
      simpa using h
    obtain ⟨r₁, hp, hr⟩ := bind_ok hr
    obtain ⟨hfill, hpage⟩ := page_ok h.sane hp
    have h₁ := h.fills (hfill.mono (Set.empty_subset W))
    have hlt : addr % PAGE < PAGE := Nat.mod_lt _ PAGE_pos
    have hin : addr % PAGE + min n (PAGE - addr % PAGE) ≤ PAGE := by omega
    have hspan := fun a => mem_span_iff (a := a) hin
    obtain ⟨hmark, hall⟩ := (@fills_mark (Set.Ico addr (addr + min n (PAGE - addr % PAGE))) _ addr
        (addr % PAGE) (min n (PAGE - addr % PAGE))) h₁.sane
      fun a h1 h2 h3 => (hspan a).mpr ⟨h1, h2, h3⟩
    have h₂ := h₁.mark hmark
      (fun a ha => hall a ((hspan a).mp ha).1 ((hspan a).mp ha).2.1 ((hspan a).mp ha).2.2)
      (fun a ha => by
        rw [((hspan a).mp ha).1]
        exact hmark.noted _ hpage)
    have h₃ := ih (by omega) h₂ hr
    have hsplit := (@Ico_split addr) (Nat.min_le_left n (PAGE - addr % PAGE))
    rw [Set.union_assoc, Set.union_assoc, hsplit] at h₃
    exact h₃

/-- **`write`** that does not reject: at the frontier the span moves it, elsewhere it is marked. -/
theorem Faithful.write (h : Faithful m₀ W F T r) {addr n : ℕ} (hr : r.write addr n = .ok r')
    (hrej : r'.rejection = none) :
    addr + n ≤ UINT64_MAX ∧
      Faithful m₀ (W ∪ Set.Ico addr (addr + n)) F (T ∪ Set.Ico addr (addr + n)) r' := by
  unfold Recorder.write at hr
  dsimp only at hr
  split_ifs at hr with hbad hfront
  · cases hr
    cases hrej
  · refine ⟨by unfold UINT64_MAX PAGE at *; omega, ?_⟩
    obtain ⟨h1, h2, h3⟩ := hfront
    have hlow := h.low
    have hhigh := h.high
    -- the new frontier covers the old one and the span, which starts behind it
    have hb : ∀ a, (r.h.output ≤ a ∧ a < max r.outputFrontier (addr + n)) ↔
        r.behind a ∨ a ∈ Set.Ico addr (addr + n) := by
      intro a
      unfold behind
      rw [Set.mem_Ico]
      omega
    cases hr
    refine ⟨⟨h.sane.cached, h.sane.keys⟩, h.aligned, le_max_of_le_left hlow, max_le hhigh h3,
      fun a => ?_, h.input, h.data, ?_, fun k p hk => (h.plans k p hk).mono Set.subset_union_left,
      fun k c hk => (h.code k c hk).mono Set.subset_union_left⟩
    · have hw := h.written a
      have hba := hb a
      show (r.h.output ≤ a ∧ a < max r.outputFrontier (addr + n)) ∨ r.writtenBit a = true ↔ _
      rw [hba, Set.mem_union, ← hw]
      tauto
    · rintro a (ha | ha)
      · exact (h.noted a ha).imp_right fun hbe => (hb a).mpr (Or.inl hbe)
      · exact Or.inr ((hb a).mpr (Or.inr ha))
  · refine ⟨by unfold UINT64_MAX PAGE at *; omega, ?_⟩
    have h' : Faithful m₀ W F T { r with lastStoreEnd := addr + n } :=
      ⟨⟨h.sane.cached, h.sane.keys⟩, h.aligned, h.low, h.high, h.written, h.input, h.data, h.noted,
        h.plans, h.code⟩
    exact h'.writeLoop le_rfl hr

end Preservation

end Afterfree.Recording.Capture.Recorder
