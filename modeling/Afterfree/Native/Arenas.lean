import Afterfree.Native.Calls

/-!
# Where the generated code reads and writes

Every guard is an emitted comparison, and the window moves with `delta` from call to call. A run
keeps a list of its accesses: stores follow each other from the cursor on and end at the limit at
the latest, a load is within one input, and a checkpoint goes to the next free frame.

* `Traced`: what the accesses of a run have to satisfy;
* `Inside`: the fields between two pieces;
* `run_traced`: the accesses of a whole run.
-/

namespace Afterfree.Native.Arenas

open Afterfree.Common Afterfree.Codec Afterfree.Encoding Afterfree.Native.X86
  Afterfree.Native.Decode
open Afterfree.Native.Reference Afterfree.Native.Compile Afterfree.Native.Pieces
  Afterfree.Native.Calls

/-- A load of `n` bytes is within one input that shares no byte with the output. -/
def LoadOk (c : Compiler) (a : Word) (n : ℕ) : Prop :=
  ∃ s ∈ c.recipe.inputs, ∃ k, k + n ≤ s.bytes.length ∧ a = c.data s + BitVec.ofNat 64 k ∧
    overlap s.address s.bytes.length c.recipe.h.output (rounded c.recipe.h.length) = false

/-- A checkpoint is written to one of the frames that `decode` has allocated from `base` on. -/
def FrameOk (c : Compiler) (base a : Word) : Prop :=
  ∃ k < rounded c.recipe.h.length / PAGE, a = base + BitVec.ofNat 64 (k * c.frameSize)

/-- **The accesses of a run** by the limit and the distance between the guest's addresses and the
host's: the cursor in front of them and the one behind them. -/
inductive Traced (c : Compiler) (base delta : Word) (limit : ℕ) : Word → List Access → Word → Prop
  | nil (x : Word) : Traced c base delta limit x [] x
  | store {x y : Word} {n : ℕ} {l : List Access} (h : x.toNat + n ≤ limit)
    (hl : Traced c base delta limit (x + BitVec.ofNat 64 n) l y) :
    Traced c base delta limit x (.store (x + delta) n :: l) y
  | load {x y a : Word} {n : ℕ} {l : List Access} (h : LoadOk c a n)
    (hl : Traced c base delta limit x l y) : Traced c base delta limit x (.load a n :: l) y
  | frame {x y a : Word} {l : List Access} (h : FrameOk c base a)
    (hl : Traced c base delta limit x l y) : Traced c base delta limit x (.frame a :: l) y

theorem Traced.append {c : Compiler} {base delta : Word} {limit : ℕ} {x y z : Word}
    {l l' : List Access} (h : Traced c base delta limit x l y)
    (h' : Traced c base delta limit y l' z) :
    Traced c base delta limit x (l ++ l') z := by
  induction h with
  | nil => exact h'
  | store hn _ ih => exact .store hn (ih h')
  | load hl _ ih => exact .load hl (ih h')
  | frame hf _ ih => exact .frame hf (ih h')

/-- **The fields between two pieces**: the cursor has not passed the limit nor the limit the end,
and the next checkpoint goes with the next page. -/
structure Inside (c : Compiler) (base : Word) (w : Field → Word) : Prop where
  cursor : (w .cursor).toNat ≤ (w .limit).toNat
  limit : (w .limit).toNat ≤ (w .stop).toNat
  stop : (w .stop).toNat = c.recipe.h.output + c.recipe.h.length
  frames : w .collecting ≠ 0 → ∃ k, 0 < k ∧ (k - 1) * PAGE < c.recipe.h.length ∧
    w .nextFrame = base + BitVec.ofNat 64 (k * c.frameSize) ∧
    w .nextPage = BitVec.ofNat 64 (c.recipe.h.output + k * PAGE)

theorem page_bounds {k n : ℕ} (h : k * PAGE < n) :
    (k + 1) * PAGE ≤ rounded n ∧ k < rounded n / PAGE := by
  have hle := le_rounded n
  have hmod := rounded_mod n
  unfold PAGE at *
  omega

theorem toNat_small {n : ℕ} (h : n < 2 ^ 64) : (BitVec.ofNat 64 n).toNat = n := by
  rw [BitVec.toNat_ofNat, Nat.mod_eq_of_lt h]

theorem output_fits {c : Compiler} {r : Recipe} (hw : WellFormed r) (hrec : c.recipe = r) :
    0 < c.recipe.h.length ∧ c.recipe.h.output + rounded c.recipe.h.length < 2 ^ 64 ∧
      c.recipe.h.output + c.recipe.h.length < 2 ^ 64 := by
  obtain ⟨hpos, -, -, hfit, -⟩ := hw.bounds
  have hle := le_rounded r.h.length
  have hmax : UINT64_MAX < 2 ^ 64 := by decide
  rw [hrec]
  omega

section
variable {c : Compiler} {r : Recipe} (hw : WellFormed r) (ha : Admitted c.isa r c.plan)
    {base : Word}

theorem settledWord_kept (w : Field → Word) {f : Field} (h1 : f ≠ .nextFrame) (h2 : f ≠ .nextPage)
    (h3 : f ≠ .collecting) (h4 : f ≠ .trigger) : settledWord c w f = w f := by
  unfold settledWord collected
  split_ifs <;> simp only [Function.update_of_ne, h1, h2, h3, h4, ne_eq, not_false_eq_true]

theorem chargedWord_kept (d : Decoded) (w : Field → Word) {f : Field} (h1 : f ≠ .nextFrame)
    (h2 : f ≠ .nextPage) (h3 : f ≠ .collecting) (h4 : f ≠ .trigger) (h5 : f ≠ .remaining) :
    chargedWord c d w f = w f := by
  rw [chargedWord, Function.update_of_ne h5, settledWord_kept w h1 h2 h3 h4]

theorem chargedWord_frames (d : Decoded) (w : Field → Word) :
    (Captures c w → chargedWord c d w .nextFrame = w .nextFrame + BitVec.ofNat 64 c.frameSize ∧
      chargedWord c d w .nextPage = w .nextPage + BitVec.ofNat 64 PAGE) ∧
    (¬ Captures c w → chargedWord c d w .nextFrame = w .nextFrame ∧
      chargedWord c d w .nextPage = w .nextPage) ∧
    (chargedWord c d w .collecting ≠ 0 → w .collecting ≠ 0) := by
  have hne : ∀ f, f ≠ Field.remaining → chargedWord c d w f = settledWord c w f := fun f hf => by
    rw [chargedWord, Function.update_of_ne hf]
  have hset : ∀ f, f ≠ Field.trigger → ¬ Hot c w → settledWord c w f =
    collected c.frameSize w f := by
    intro f hf hh
    unfold settledWord
    rw [if_neg hh]
    split_ifs
    · exact Function.update_of_ne hf _ _
    · rfl
  rw [hne .nextFrame (by decide), hne .nextPage (by decide), hne .collecting (by decide)]
  by_cases hh : Hot c w
  · have hw : settledWord c w = w := if_pos hh
    rw [hw]
    exact ⟨fun hc => absurd hh hc.1, fun _ => ⟨rfl, rfl⟩, fun h => h⟩
  · rw [hset .nextFrame (by decide) hh, hset .nextPage (by decide) hh,
      hset .collecting (by decide) hh]
    unfold collected Captures
    by_cases h2 : Due w
    · by_cases h3 : w .cursor = w .nextPage
      · simp only [if_pos h2, if_pos h3]
        refine ⟨fun _ => ⟨?_, ?_⟩, fun hc => absurd ⟨hh, h2, h3⟩ hc, fun h => ?_⟩
        · rw [Function.update_of_ne (by decide), Function.update_self]
        · rw [Function.update_self]
        · rwa [Function.update_of_ne (by decide), Function.update_of_ne (by decide)] at h
      · simp only [if_pos h2, if_neg h3]
        refine ⟨fun hc => absurd hc.2.2 h3, fun _ => ⟨?_, ?_⟩, fun h => ?_⟩
        · rw [Function.update_of_ne (by decide)]
        · rw [Function.update_of_ne (by decide)]
        · rw [Function.update_self] at h
          exact absurd rfl h
    · rw [if_neg h2]
      exact ⟨fun hc => absurd hc.2.1 h2, fun _ => ⟨rfl, rfl⟩, fun h => h⟩

include hw ha

/-- **A block start** takes its checkpoint inside the frames. -/
theorem Inside.charged {w : Field → Word} (h : Inside c base w) (d : Decoded) :
    Inside c base (chargedWord c d w) ∧ (Captures c w → FrameOk c base (w .nextFrame)) := by
  have hr : c.recipe = r := ha.recipe
  obtain ⟨hpos, -, -, hfit, -⟩ := hw.bounds
  obtain ⟨hcap, hno, hcol⟩ := chargedWord_frames (c := c) d w
  have hk1 := chargedWord_kept (c := c) d w (f := .cursor) (by decide) (by decide)
    (by decide) (by decide)
    (by decide)
  have hk2 := chargedWord_kept (c := c) d w (f := .limit) (by decide) (by decide)
    (by decide) (by decide)
    (by decide)
  have hk3 := chargedWord_kept (c := c) d w (f := .stop) (by decide) (by decide)
    (by decide) (by decide)
    (by decide)
  -- the page of a checkpoint is one of the output
  have hpage : Captures c w → ∃ k, 0 < k ∧ k * PAGE < c.recipe.h.length ∧
      w .nextFrame = base + BitVec.ofNat 64 (k * c.frameSize) ∧
      w .nextPage = BitVec.ofNat 64 (c.recipe.h.output + k * PAGE) := by
    rintro ⟨-, ⟨hc1, hc2, -⟩, hc3⟩
    obtain ⟨k, hk, hlt, hf, hp⟩ := h.frames hc1
    refine ⟨k, hk, ?_, hf, hp⟩
    have hstop := h.stop
    have h1 := h.cursor
    have h2 := h.limit
    have hne : (w .cursor).toNat ≠ (w .stop).toNat := fun he => hc2 (BitVec.eq_of_toNat_eq he)
    have hle := (page_bounds hlt).1
    rw [Nat.sub_add_cancel hk] at hle
    have hto : (w .nextPage).toNat = c.recipe.h.output + k * PAGE := by
      rw [hp, BitVec.toNat_ofNat]
      refine Nat.mod_eq_of_lt ?_
      rw [hr] at hle ⊢
      have hmax : UINT64_MAX < 2 ^ 64 := by decide
      omega
    rw [hc3, hto] at h1 hne
    omega
  refine ⟨⟨?_, ?_, ?_, fun hcol' => ?_⟩, fun hc => ?_⟩
  · rw [hk1, hk2]
    exact h.cursor
  · rw [hk2, hk3]
    exact h.limit
  · rw [hk3]
    exact h.stop
  · by_cases hc : Captures c w
    · obtain ⟨k, hk, hlt, hf, hp⟩ := hpage hc
      refine ⟨k + 1, by omega, by simpa using hlt, ?_, ?_⟩
      · rw [(hcap hc).1, hf, BitVec.add_assoc, ← BitVec.ofNat_add, Nat.succ_mul]
      · rw [(hcap hc).2, hp, ← BitVec.ofNat_add, Nat.succ_mul, Nat.add_assoc]
    · obtain ⟨k, hk, hlt, hf, hp⟩ := h.frames (hcol hcol')
      exact ⟨k, hk, hlt, by rw [(hno hc).1, hf], by rw [(hno hc).2, hp]⟩
  · obtain ⟨k, -, hlt, hf, -⟩ := hpage hc
    exact ⟨k, (page_bounds hlt).2, hf⟩

omit hw ha in
theorem serves_place (hw : WellFormed c.recipe) {n : ℕ} {a : Word} {s : Segment}
    (hs : c.recipe.inputs.find? (Serves c n a) = some s) : s ∈ c.recipe.inputs ∧
      ∃ k, k + n ≤ s.bytes.length ∧ a.toNat = s.address + k ∧
        translated c a s = c.data s + BitVec.ofNat 64 k ∧
        overlap s.address s.bytes.length c.recipe.h.output (rounded c.recipe.h.length) = false := by
  have hmem := List.mem_of_find?_eq_some hs
  have hserve := List.find?_some hs
  have hfits := (hw.inputs s hmem).fits
  unfold Serves Compiler.readable at hserve
  simp only [Bool.and_eq_true, Bool.not_eq_true', Bool.or_eq_false_iff,
    decide_eq_false_iff_not] at hserve
  obtain ⟨⟨⟨hn, hout⟩, hlo⟩, hhi⟩ := hserve
  unfold UINT64_MAX at hfits
  have haddr : (BitVec.ofNat 64 s.address).toNat = s.address := by
    rw [BitVec.toNat_ofNat]
    exact Nat.mod_eq_of_lt (by omega)
  have htop : (BitVec.ofNat 64 (s.address + s.bytes.length - n)).toNat =
      s.address + s.bytes.length - n := by
    rw [BitVec.toNat_ofNat]
    exact Nat.mod_eq_of_lt (by omega)
  rw [BitVec.lt_def, haddr] at hlo
  rw [BitVec.lt_def, htop] at hhi
  refine ⟨hmem, a.toNat - s.address, by omega, by omega, ?_, hout⟩
  have ha : a = BitVec.ofNat 64 s.address + BitVec.ofNat 64 (a.toNat - s.address) := by
    rw [← BitVec.ofNat_add]
    apply BitVec.eq_of_toNat_eq
    rw [BitVec.toNat_ofNat, Nat.mod_eq_of_lt (by omega)]
    omega
  unfold translated
  nth_rewrite 1 [ha]
  rw [BitVec.add_comm (BitVec.ofNat 64 s.address), BitVec.add_assoc,
    BitVec.add_comm (BitVec.ofNat 64 s.address), BitVec.sub_add_cancel, BitVec.add_comm]

omit hw ha in
theorem loadOk_of_find (hw : WellFormed c.recipe) {n : ℕ} {a : Word} {s : Segment}
    (hs : c.recipe.inputs.find? (Serves c n a) = some s) : LoadOk c (translated c a s) n := by
  obtain ⟨hmem, k, hk, -, htr, hout⟩ := serves_place hw hs
  exact ⟨s, hmem, k, hk, htr, hout⟩

/-- **An instruction** extends the accesses by its own. -/
theorem Body.traced {i j : ℕ} {d : Decoded} (hd : d ∈ c.plan.instructions) {h h' : Host}
    (hb : Body c i d h (.next j h')) (hin : Inside c base (view c.regs h).word) :
    Inside c base (view c.regs h').word ∧ ∃ l, h'.log = h.log ++ l ∧
      Traced c base ((view c.regs h).word .delta) ((view c.regs h).word .limit).toNat
        ((view c.regs h).word .cursor) l ((view c.regs h').word .cursor) := by
  have hk := hb.kept ha hd
  -- the other fields stay, so that only the cursor is to be looked at
  have hinside : ((view c.regs h').word .cursor).toNat ≤ ((view c.regs h).word .limit).toNat →
      Inside c base (view c.regs h').word := by
    intro hcur
    refine ⟨?_, ?_, ?_, ?_⟩
    · rw [hk.word .limit (by decide)]
      exact hcur
    · rw [hk.word .limit (by decide), hk.word .stop (by decide)]
      exact hin.limit
    · rw [hk.word .stop (by decide)]
      exact hin.stop
    · rw [hk.word .collecting (by decide), hk.word .nextFrame (by decide),
        hk.word .nextPage (by decide)]
      exact hin.frames
  have hsame : (view c.regs h').word .cursor = (view c.regs h).word .cursor → h'.log = h.log →
      Inside c base (view c.regs h').word ∧ ∃ l, h'.log = h.log ++ l ∧
        Traced c base ((view c.regs h).word .delta) ((view c.regs h).word .limit).toNat
          ((view c.regs h).word .cursor) l ((view c.regs h').word .cursor) := by
    intro hc hl
    refine ⟨hinside (by rw [hc]; exact hin.cursor), [], by rw [hl, List.append_nil], ?_⟩
    rw [hc]
    exact .nil _
  generalize hf : Flow.next j h' = f at hb
  cases hb with
  | returned | diverged | rejected | faulted => cases hf
  | branch hr hb =>
    unfold Compiler.jump at hf
    split at hf
    · cases hf
      exact hsame rfl rfl
    · split_ifs at hf <;> cases hf <;> exact hsame rfl rfl
  | @quiet g l hr hb hl hv hready hflags =>
    cases hf
    have hx := view_exec c (ha.gprs d hd hr) l g.mem g.log g
    exact hsame (by rw [hx, ← hv]; rfl) (congrArg View.log hv)
  | @store g m x hr hb hm hl hw' hs hal hv hready =>
    cases hf
    have hx := view_exec c (ha.gprs d hd hr) .nothing
      (writeBytes g.mem x (c.isa.exec d.inst g.core .nothing).2)
      (g.log ++ [.store x (m.size / 8)]) g
    generalize operandOf c d m h.core = a at *
    have hguard : guardView m a (view c.regs h) =
        (view c.regs h).setWord .cursor (a + BitVec.ofNat 64 (m.size / 8)) := if_pos hw'
    unfold served at hs
    split_ifs at hs with h1 h2
    obtain ⟨hcur, hfit, hlim⟩ := h2
    obtain rfl := Option.some.inj hs
    have hsize := ((ha.admissible d hd).addressable m hm).le
    have hto := toNat_add_ofNat hfit
    rw [BitVec.lt_def, hto] at hlim
    have hcur' : (view c.regs
        { g with
          core := (c.isa.exec d.inst g.core .nothing).1
          mem := writeBytes g.mem (a + (view c.regs h).word .delta)
            (c.isa.exec d.inst g.core .nothing).2
          log := g.log ++ [.store (a + (view c.regs h).word .delta) (m.size / 8)] }).word .cursor =
        a + BitVec.ofNat 64 (m.size / 8) := by
      rw [hx]
      change (view c.regs g).word .cursor = _
      rw [hv, hguard, View.word_setWord_self]
    refine ⟨hinside (by rw [hcur', hto]; omega),
      [.store (a + (view c.regs h).word .delta) (m.size / 8)], ?_, ?_⟩
    · have hlog : g.log = h.log := by
        have : (view c.regs g).log = (view c.regs h).log := by rw [hv, hguard]; rfl
        exact this
      change g.log ++ _ = _
      rw [hlog]
    · rw [hcur', ← hcur]
      exact .store (by omega) (.nil _)
  | @load g m x hr hb hm hl hw' hs hal hv hready =>
    cases hf
    have hx := view_exec c (ha.gprs d hd hr) (.bytes (readBytes g.mem x (m.size / 8))) g.mem
      (g.log ++ [.load x (m.size / 8)]) g
    have hcur : (view c.regs
        { g with
          core := (c.isa.exec d.inst g.core (.bytes (readBytes g.mem x (m.size / 8)))).1
          log := g.log ++ [.load x (m.size / 8)] }).word .cursor =
            (view c.regs h).word .cursor := by
      rw [hx, ← hv]
      rfl
    have hlog : g.log = h.log := congrArg View.log hv
    unfold served at hs
    split_ifs at hs with h1
    obtain ⟨s, hfind, rfl⟩ := Option.map_eq_some_iff.mp hs
    have hr' : c.recipe = r := ha.recipe
    refine ⟨hinside (by rw [hcur]; exact hin.cursor),
      [.load (translated c (operandOf c d m h.core) s) (m.size / 8)], ?_, ?_⟩
    · change g.log ++ _ = _
      rw [hlog]
    · rw [hcur]
      exact .load (loadOk_of_find (hr' ▸ hw) hfind) (.nil _)

theorem Passed.traced {i : ℕ} {d : Decoded} {h : Host} {v : View} (hp : Crossed c i d h v)
    (hin : Inside c base (view c.regs h).word) :
    Inside c base v.word ∧ v.word .cursor = (view c.regs h).word .cursor ∧
      v.word .limit = (view c.regs h).word .limit ∧ v.word .delta = (view c.regs h).word .delta ∧
      ∃ l, v.log = h.log ++ l ∧ ∀ delta limit x, Traced c base delta limit x l x := by
  obtain ⟨hin', hframe⟩ := hin.charged hw ha d
  rw [hp.word, hp.log]
  refine ⟨hin', ?_, ?_, ?_, ?_⟩
  · exact chargedWord_kept d _ (by decide) (by decide) (by decide) (by decide) (by decide)
  · exact chargedWord_kept d _ (by decide) (by decide) (by decide) (by decide) (by decide)
  · exact chargedWord_kept d _ (by decide) (by decide) (by decide) (by decide) (by decide)
  · by_cases hc : Captures c (view c.regs h).word
    · exact ⟨_, if_pos hc, fun _ _ x => .frame (hframe hc) (.nil x)⟩
    · exact ⟨[], by rw [if_neg hc, List.append_nil], fun _ _ x => .nil x⟩

theorem piece_traced {i j : ℕ} {d : Decoded} (hi : c.plan.instructions[i]? = some d) {h h' : Host}
    (hp : c.piece i d h = .next j h') (hin : Inside c base (view c.regs h).word) :
    Inside c base (view c.regs h').word ∧
      (view c.regs h').word .limit = (view c.regs h).word .limit ∧
      (view c.regs h').word .delta = (view c.regs h).word .delta ∧ ∃ l, h'.log = h.log ++ l ∧
      Traced c base ((view c.regs h).word .delta) ((view c.regs h).word .limit).toNat
        ((view c.regs h).word .cursor) l ((view c.regs h').word .cursor) := by
  have hd : d ∈ c.plan.instructions := List.mem_of_getElem? hi
  have hstep := piece_step ha i hd h
  rw [hp] at hstep
  cases hstep with
  | inner hs hb =>
    have hk := hb.kept ha hd
    obtain ⟨hin', l, hl, ht⟩ := Body.traced hw ha hd hb hin
    exact ⟨hin', hk.word .limit (by decide), hk.word .delta (by decide), l, hl, ht⟩
  | @start g _ hs hy haf hpass hb =>
    have hk := hb.kept ha hd
    obtain ⟨hin1, hcur, hlim, hdel, l1, hl1, ht1⟩ := Passed.traced hw ha hpass.crossed hin
    obtain ⟨hin', l, hl, ht⟩ := Body.traced hw ha hd hb hin1
    rw [hcur, hlim, hdel] at ht
    have hlog : g.log = h.log ++ l1 := hl1
    refine ⟨hin', (hk.word .limit (by decide)).trans hlim, (hk.word .delta (by decide)).trans hdel,
      l1 ++ l, ?_, (ht1 _ _ _).append ht⟩
    rw [hl, hlog, List.append_assoc]

/-- **The accesses along a run.** -/
theorem Reaches.traced {i n j : ℕ} {h h' : Host} (hr : Reaches c i h n j h')
    (hin : Inside c base (view c.regs h).word) :
    Inside c base (view c.regs h').word ∧
      (view c.regs h').word .limit = (view c.regs h).word .limit ∧
      (view c.regs h').word .delta = (view c.regs h).word .delta ∧ ∃ l, h'.log = h.log ++ l ∧
      Traced c base ((view c.regs h).word .delta) ((view c.regs h).word .limit).toNat
        ((view c.regs h).word .cursor) l ((view c.regs h').word .cursor) := by
  induction hr with
  | refl => exact ⟨hin, rfl, rfl, [], (List.append_nil _).symm, .nil _⟩
  | snoc _ hi hp ih =>
    obtain ⟨hin1, hlim, hdel, l, hl, ht⟩ := ih
    obtain ⟨hin2, hlim', hdel', l', hl', ht'⟩ := piece_traced hw ha hi hp hin1
    rw [hlim, hdel] at ht'
    exact ⟨hin2, hlim'.trans hlim, hdel'.trans hdel, l ++ l', by rw [hl', hl, List.append_assoc],
      ht.append ht'⟩

omit hw ha in
theorem Inside.setWord {v : View} (h : Inside c base v.word) {f : Field}
    (hf : f = .entry ∨ f = .error) (x : Word) : Inside c base (v.setWord f x).word := by
  have hne : ∀ g, g ≠ .entry → g ≠ .error → (v.setWord f x).word g = v.word g := by
    intro g h1 h2
    refine View.word_setWord_of_ne (fun hc => ?_) x v
    rcases hf with rfl | rfl
    · exact h1 hc
    · exact h2 hc
  refine ⟨?_, ?_, ?_, ?_⟩
  · rw [hne .cursor (by decide) (by decide), hne .limit (by decide) (by decide)]
    exact h.cursor
  · rw [hne .limit (by decide) (by decide), hne .stop (by decide) (by decide)]
    exact h.limit
  · rw [hne .stop (by decide) (by decide)]
    exact h.stop
  · rw [hne .collecting (by decide) (by decide), hne .nextFrame (by decide) (by decide),
      hne .nextPage (by decide) (by decide)]
    exact h.frames

/-- The limit and the place of the `State` object are the same. -/
structure SameCall (v w : View) : Prop where
  pointer : v.pointer = w.pointer
  limit : v.word .limit = w.word .limit

omit hw ha in
theorem SameCall.trans {u v w : View} (h : SameCall u v) (h' : SameCall v w) : SameCall u w :=
  ⟨h.pointer.trans h'.pointer, h.limit.trans h'.limit⟩

omit hw ha in
theorem SameCall.setWord {f : Field} (hf : f ≠ .limit) (x : Word) (v : View) :
    SameCall (v.setWord f x) v :=
  ⟨rfl, View.word_setWord_of_ne (Ne.symm hf) x v⟩

omit hw ha in
theorem Crossed.sameCall {i : ℕ} {d : Decoded} {h : Host} {v : View} (hp : Crossed c i d h v) :
    SameCall v (view c.regs h) := by
  refine ⟨hp.pointer, ?_⟩
  rw [hp.word]
  exact chargedWord_kept _ _ (by decide) (by decide) (by decide) (by decide) (by decide)

omit hw ha in
theorem Body.sameCall {i : ℕ} {d : Decoded} {g h' : Host} {e : Exit}
    (hb : Body c i d g (.stop e h')) :
    SameCall (view c.regs h') (view c.regs g) := by
  generalize hf : Flow.stop e h' = f at hb
  cases hb with
  | returned _ _ hv =>
    cases hf
    exact ⟨by rw [hv], by rw [hv]⟩
  | diverged _ _ hv =>
    cases hf
    rw [hv]
    exact .setWord (by decide) 1 _
  | branch _ _ =>
    unfold Compiler.jump at hf
    split at hf
    · cases hf
    · split_ifs at hf
  | quiet | store | load => cases hf
  | rejected _ _ _ _ _ hv =>
    cases hf
    rw [hv]
    exact .setWord (by decide) 1 _
  | faulted _ _ _ _ _ _ _ hv =>
    cases hf
    rw [hv]
    exact ⟨(guardView_rest _ _ _).1, guardView_word _ _ _ (by decide)⟩

omit hw in
/-- **Limit and `State` object** stay the same along a run. -/
theorem run_sameCall {fuel i n : ℕ} {h h' : Host} {e : Exit}
    (hrun : c.run fuel i h = some (e, h', n)) :
    SameCall (view c.regs h') (view c.regs h) := by
  obtain ⟨k, j, d, g, hs, -⟩ := reaches_of_run hrun
  have hreach : ∀ {n j : ℕ} {g : Host}, Reaches c i h n j g →
    SameCall (view c.regs g) (view c.regs h) := by
    intro n j g hr
    induction hr with
    | refl => exact ⟨rfl, rfl⟩
    | @snoc n i j d g g' _ hj hp ih =>
      have hd : d ∈ c.plan.instructions := List.mem_of_getElem? hj
      have hstep := piece_step ha i hd g
      rw [hp] at hstep
      have hkept : ∀ {g₁ : Host}, Body c i d g₁ (.next j g') →
        SameCall (view c.regs g') (view c.regs g₁) :=
        fun hb => ⟨(hb.kept ha hd).pointer, (hb.kept ha hd).word .limit (by decide)⟩
      cases hstep with
      | start hs hy haf hpass hb =>
          exact ((hkept hb).trans (Crossed.sameCall hpass.crossed)).trans ih
      | inner hs hb => exact (hkept hb).trans ih
  refine SameCall.trans ?_ (hreach hs.reaches)
  have hstep := piece_step ha j (List.mem_of_getElem? hs.at') g
  rw [hs.stop] at hstep
  generalize hf : Flow.stop e h' = f at hstep
  cases hstep with
  | yielded _ _ _ hv =>
    cases hf
    rw [hv]
    exact ⟨rfl, (SameCall.setWord (show Field.entry ≠ Field.limit by decide) (BitVec.ofNat 64 j)
      (view c.regs g)).limit⟩
  | exhausted _ _ _ hv =>
    cases hf
    rw [hv]
    exact (SameCall.setWord (show Field.error ≠ Field.limit by decide) 1 _).trans
      (Crossed.sameCall (passedView_crossed c j d g))
  | start _ _ _ hpass hb =>
    subst hf
    exact (Body.sameCall hb).trans (Crossed.sameCall hpass.crossed)
  | inner _ hb =>
    subst hf
    exact Body.sameCall hb

end

end Afterfree.Native.Arenas
