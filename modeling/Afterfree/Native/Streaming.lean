import Afterfree.Native.Validation

/-!
# Streamed validation

`validate_stream` reconstructs the output in windows of one buffer. At the end of each window the
generated code saves its state and returns, and the checkpoint of that page is taken when it has
been entered again. All of its windows together are one run of the recorded program.

* `Waiting`: what there is between two windows;
* `windowLoop_whole`, `windowLoop_of_whole`: the windows and the whole run;
* `stream_validated`, `stream_of_ends`: a stream that validates, and the run of the interpreter.
-/

namespace Afterfree.Native.Streaming

open Afterfree.Common Afterfree.Codec Afterfree.Encoding Afterfree.Native.X86
  Afterfree.Native.Decode
open Afterfree.Native.Reference Afterfree.Native.Compile Afterfree.Native.Pieces
  Afterfree.Native.Calls
open Afterfree.Native.Interpreter Afterfree.Native.Simulation Afterfree.Native.Arenas
open Afterfree.Native.Replay Afterfree.Native.Windows Afterfree.Native.Entry
  Afterfree.Native.Validation
open Afterfree.Worker.Checked Afterfree.Lib.Machine

/-- **Between two windows**: the `State` object holds a point of the whole run, at the page where
the next window begins, and its fields go with the ledger of that run. -/
structure Waiting (c : Compiler) (base : Word) (offset : ℕ) (s : State) (h : Host) (p : Point)
    (b : Ledger) :
    Prop where
  reached : ∃ m, Steps (Interpreter.step c (whole c)) m (beginning c, opening c base) (p, b)
  holds : Holds c s p
  start : AtStart c p
  cursor : p.cursor = BitVec.ofNat 64 (c.recipe.h.output + offset)
  ledger : s.word .collecting = b.collecting ∧ s.word .nextPage = b.nextPage ∧
    s.word .nextFrame = b.nextFrame
  stop : s.word .stop = Interpreter.stop c
  error : s.word .error = 0
  frames : ∀ a p', b.frames a = some p' → Marked c p' (h.frames a)
  placed : Placed c h.mem

/-- The extent of a window. -/
def windowExtent (c : Compiler) (offset size : ℕ) : Extent :=
  ⟨BitVec.ofNat 64 (c.recipe.h.output + offset + size), decide (offset + size = c.recipe.h.length)⟩

theorem outputOf_append (c : Compiler) (mem : Memory) (offset m n : ℕ) :
    outputOf c mem offset m ++ outputOf c mem (offset + m) n = outputOf c mem offset (m + n) := by
  unfold outputOf content
  rw [List.range_add, List.map_append, List.map_map]
  congr 1
  refine List.map_congr_left fun j _ => ?_
  simp only [Function.comp_apply]
  congr 2
  omega

theorem outputOf_congr {c : Compiler} {mem mem' : Memory} {offset size : ℕ}
    (h : ∀ j < size, mem (BitVec.ofNat 64 (c.recipe.h.output + offset + j)) =
      mem' (BitVec.ofNat 64 (c.recipe.h.output + offset + j))) :
    outputOf c mem offset size = outputOf c mem' offset size :=
  List.map_congr_left fun j hj => h j (List.mem_range.mp hj)

theorem outputOf_length (c : Compiler) (mem : Memory) (offset size : ℕ) :
    (outputOf c mem offset size).length = size := content_length _ size

section
variable {c : Compiler} {r : Recipe} (hw : WellFormed r) (ha : Admitted c.isa r c.plan)
    {store : Storage}
include hw ha

theorem windowExtent_limit {offset size : ℕ} (hle : offset + size ≤ c.recipe.h.length) :
    (windowExtent c offset size).limit.toNat = c.recipe.h.output + offset + size := by
  obtain ⟨-, -, hfit⟩ := output_fits hw ha.recipe
  exact toNat_small (by omega)

theorem Waiting.sound {base : Word} {offset : ℕ} {s : State} {h : Host} {p : Point} {b : Ledger}
    (hs : Waiting c base offset s h p b) : Sound c p := by
  obtain ⟨m, hm⟩ := hs.reached
  exact (steps_taken ha (whole_limit hw ha).le hm (beginning_sound hw ha)).1

theorem Waiting.toNat {base : Word} {offset : ℕ} {s : State} {h : Host} {p : Point} {b : Ledger}
    (hs : Waiting c base offset s h p b) (hle : offset ≤ c.recipe.h.length) :
    p.cursor.toNat = c.recipe.h.output + offset := by
  obtain ⟨-, -, hfit⟩ := output_fits hw ha.recipe
  rw [hs.cursor, toNat_small (by omega)]

/-- **In front of a window.** -/
theorem Waiting.poised {base : Word} {offset size : ℕ} {s : State} {h : Host} {p : Point}
    {b : Ledger} (hs : Waiting c base offset s h p b) (hle : offset + size ≤ c.recipe.h.length)
    {window : Word} (hapart : Apart c window size) :
    Poised c (windowAt window p.cursor h) (windowExtent c offset size)
      (advanceWindow c window offset size s) h p b := by
  have hword : s.word .cursor = p.cursor := hs.holds.cursor
  have hkept : ∀ f, f ≠ .limit → f ≠ .delta → f ≠ .validating → f ≠ .trigger →
      (advanceWindow c window offset size s).word f = s.word f := by
    intro f h1 h2 h3 h4
    unfold advanceWindow
    simp only
    rw [withTrigger_of_ne h4, set_of_ne h3, set_of_ne h2, set_of_ne h1]
  refine Entry.poised hw ha.recipe (k := offset)
    ⟨?_, ?_, ?_, hs.holds.same, hs.holds.flags⟩ hs.start (hs.sound hw ha) ⟨?_, ?_, ?_⟩ ?_ ?_ rfl ?_
    (withTrigger_eq _) ?_ hs.frames hs.placed hapart hs.cursor rfl hle
  · exact (hkept .entry (by decide) (by decide) (by decide) (by decide)).trans hs.holds.entry
  · exact (hkept .cursor (by decide) (by decide) (by decide) (by decide)).trans hs.holds.cursor
  · exact (hkept .remaining (by decide) (by decide) (by decide) (by decide)).trans
      hs.holds.remaining
  · exact (hkept .collecting (by decide) (by decide) (by decide) (by decide)).trans hs.ledger.1
  · exact (hkept .nextPage (by decide) (by decide) (by decide) (by decide)).trans hs.ledger.2.1
  · exact (hkept .nextFrame (by decide) (by decide) (by decide) (by decide)).trans hs.ledger.2.2
  · exact (hkept .stop (by decide) (by decide) (by decide) (by decide)).trans hs.stop
  · exact (hkept .error (by decide) (by decide) (by decide) (by decide)).trans hs.error
  · -- the last window validates
    obtain ⟨-, -, hfit⟩ := output_fits hw ha.recipe
    have hiff : BitVec.ofNat 64 (c.recipe.h.output + offset + size) = s.word .stop ↔
        offset + size = c.recipe.h.length := by
      rw [hs.stop, Interpreter.stop]
      constructor
      · intro hx
        have hx' := congrArg BitVec.toNat hx
        rw [toNat_small (by omega), toNat_small (by omega)] at hx'
        omega
      · intro hx
        rw [Nat.add_assoc, hx]
    have hval : (advanceWindow c window offset size s).word .validating =
        if BitVec.ofNat 64 (c.recipe.h.output + offset + size) = s.word .stop then 1 else 0 := rfl
    rw [hval]
    unfold windowExtent
    simp only [decide_eq_false_iff_not]
    by_cases hx : offset + size = c.recipe.h.length
    · rw [if_pos (hiff.mpr hx)]
      simp [hx]
    · rw [if_neg fun hc => hx (hiff.mp hc)]
      simp [hx]
  · change window - s.word .cursor = window - p.cursor
    rw [hword]

theorem Waiting.next {base : Word} {offset size : ℕ} {s s' : State} {h h' : Host} {p : Point}
    {b : Ledger} (hs : Waiting c base offset s h p b) (hle : offset + size ≤ c.recipe.h.length)
    {window : Word} (hapart : Apart c window size) {n : ℕ} {v : Point × Ledger}
    (hends : Ends (Interpreter.step c (windowExtent c offset size)) n (p, b) v (.yielded, v))
    (hleft : Left c (windowAt window p.cursor h) s' (.yielded, h') (.yielded, v)) :
    Waiting c base (offset + size) s' h' v.1 v.2 := by
  obtain ⟨m, hm⟩ := hs.reached
  have hlimit := windowExtent_limit hw ha hle
  have hwhole := window_whole hw ha (by omega) (hs.sound hw ha) hends.1
  obtain ⟨hy, -⟩ := step_yielded hends.2
  have hcur : v.1.cursor = BitVec.ofNat 64 (c.recipe.h.output + (offset + size)) := by
    rw [hy.2.2, ← Nat.add_assoc]
    rfl
  refine ⟨⟨m + n, hm.trans hwhole⟩, hleft.yields rfl, hy.1, hcur,
    ⟨hleft.collecting, hleft.nextPage, hleft.nextFrame⟩, hleft.stop, hleft.error,
    left_marked (e := (.yielded, v)) hleft, ?_⟩
  refine report_placed (e := (.yielded, v)) hleft hs.placed hapart ?_
  simp only
  rw [hy.2.2, hlimit, hs.toNat hw ha (by omega)]

theorem Waiting.keeps {base : Word} {offset n : ℕ} {s : State} {h : Host} {p : Point} {b : Ledger}
    (hs : Waiting c base offset s h p b) (hle : offset ≤ c.recipe.h.length) {v : Point × Ledger}
    (hsteps : Steps (Interpreter.step c (whole c)) n (p, b) v) :
    outputOf c v.1.guest.mem 0 offset = outputOf c p.guest.mem 0 offset := by
  obtain ⟨-, -, hfit⟩ := output_fits hw ha.recipe
  have hto := hs.toNat hw ha hle
  refine outputOf_congr fun j hj => ?_
  refine (steps_taken ha (whole_limit hw ha).le hsteps (hs.sound hw ha)).2.2 _ ?_
  rw [toNat_small (by omega)]
  simp only
  omega

/-- **A window in front of others.** -/
theorem window_done {base : Word} {offset size : ℕ} {s s' : State} {h h' : Host} {p : Point}
    {b : Ledger} (hs : Waiting c base offset s h p b) (hlt : offset + size < c.recipe.h.length)
    {window : Word} (hapart : Apart c window size)
    (hx : invoke c store (advanceWindow c window offset size s) h = some (s', h'))
    (hc : (report window s' h').completed = true) :
    ∃ p' b', Waiting c base (offset + size) s' h' p' b' ∧
      outputOf c p.guest.mem 0 offset ++ content (report window s' h').written size =
        outputOf c p'.guest.mem 0 (offset + size) := by
  have hle : offset + size ≤ c.recipe.h.length := hlt.le
  have hp := hs.poised hw ha hle hapart
  obtain ⟨n, t, ⟨e, v⟩, hends, hleft, hexit, hcur, -⟩ := invoke_completed hw ha hp hx hc
  have hlimit := windowExtent_limit hw ha hle
  -- it does not return, since that is at the end of the output
  obtain rfl : e = .yielded := by
    rcases hexit with he | he
    · exact he
    · simp only at he
      subst he
      obtain ⟨hcomplete, -⟩ := returned_complete hends
      have hto := congrArg BitVec.toNat (hcur.symm.trans hcomplete.1)
      have hstop : (Interpreter.stop c).toNat = c.recipe.h.output + c.recipe.h.length :=
        whole_limit hw ha
      omega
  obtain ⟨-, rfl⟩ := step_yielded hends.2
  refine ⟨v.1, v.2, hs.next hw ha hle hapart hends hleft, ?_⟩
  have hwhole := window_whole hw ha (by omega) (hs.sound hw ha) hends.1
  have hto := hs.toNat hw ha (by omega)
  rw [report_content hleft hcur hs.cursor (by omega), ← hs.keeps hw ha (by omega) hwhole,
    ← outputOf_append, Nat.zero_add]

/-- **The last window.** -/
theorem window_last {base : Word} {offset size : ℕ} {s s' : State} {h h' : Host} {p : Point}
    {b : Ledger} (hs : Waiting c base offset s h p b) (hall : offset + size = c.recipe.h.length)
    {window : Word} (hapart : Apart c window size)
    (hx : invoke c store (advanceWindow c window offset size s) h = some (s', h'))
    (hc : (report window s' h').completed = true) :
    ∃ k x, Validated c base k x h' ∧ Replay.collected s' = pagesOf c x.2 ∧
      outputOf c p.guest.mem 0 offset ++ content (report window s' h').written size =
        outputOf c x.1.guest.mem 0 c.recipe.h.length := by
  have hp := hs.poised hw ha hall.le hapart
  obtain ⟨n, t, ⟨e, x⟩, hends, hleft, hexit, hcur, -⟩ := invoke_completed hw ha hp hx hc
  have hlimit := windowExtent_limit hw ha hall.le
  obtain rfl : e = .returned := by
    rcases hexit with he | he
    · simp only at he
      subst he
      exact absurd (step_yielded hends.2).1.2.1 (by simp [windowExtent, hall])
    · exact he
  have hwhole := window_returned hw ha (by omega) (hs.sound hw ha) hends
  obtain ⟨-, hguest, -⟩ := returned_complete hends
  have hto := hs.toNat hw ha (by omega)
  obtain ⟨m, hm⟩ := hs.reached
  refine ⟨m + n, x, ⟨⟨t, hm.trans hwhole.1, hwhole.2⟩, left_marked hleft, ?_⟩, ?_, ?_⟩
  · refine report_placed hleft hs.placed hapart ?_
    simp only at hcur ⊢
    rw [hcur, hlimit, hto]
  · unfold Replay.collected pagesOf
    rw [hleft.collecting, hleft.stop, hleft.nextPage]
  · have hkeep := hs.keeps hw ha (by omega) hwhole.1
    rw [report_content hleft hcur hs.cursor (by omega), ← hkeep, ← hguest, ← hall,
      ← outputOf_append, Nat.zero_add]

/-! ### The loop -/

omit hw ha in
theorem windowLoop_end {sha256 : List UInt8 → List UInt8} {window : Word} {capacity : ℕ}
    {sink : List UInt8 → Bool} {offset : ℕ} (hle : c.recipe.h.length ≤ offset) (s : State)
    (h : Host) (done : List UInt8) (digests : List (List UInt8)) : ∀ fuel,
    windowLoop c store sha256 window capacity sink fuel offset s h done digests =
      some (.ok (s, done, digests), h)
  | 0 => rfl
  | fuel + 1 => by rw [Replay.windowLoop, if_neg (Nat.not_lt.mpr hle)]

omit hw ha in
/-- **One turn of the loop.** -/
theorem windowLoop_turn (sha256 : List UInt8 → List UInt8) {window : Word} {capacity : ℕ}
    {sink : List UInt8 → Bool} (fuel : ℕ) {offset : ℕ} (done : List UInt8)
    (digests : List (List UInt8))
    (hlt : offset < c.recipe.h.length) {s s' : State} {h h' : Host}
    (hx : invoke c store
      (advanceWindow c window offset (min capacity (c.recipe.h.length - offset)) s) h =
      some (s', h')) (hc : (report window s' h').completed = true)
    (hsink : sink (content (report window s' h').written
      (min capacity (c.recipe.h.length - offset))) = true) :
    windowLoop c store sha256 window capacity sink (fuel + 1) offset s h done digests =
      windowLoop c store sha256 window capacity sink fuel
        (offset + min capacity (c.recipe.h.length - offset)) s' h'
        (done ++ content (report window s' h').written (min capacity (c.recipe.h.length - offset)))
        (digests ++ pageDigests sha256
          (content (report window s' h').written (min capacity (c.recipe.h.length - offset)))) := by
  rw [Replay.windowLoop, if_pos hlt]
  simp only [hx, hc, hsink, Bool.not_true, Bool.false_eq_true, if_false]

omit hw ha in
theorem windowLoop_ok {sha256 : List UInt8 → List UInt8} {window : Word} {capacity : ℕ}
    {sink : List UInt8 → Bool} {fuel offset : ℕ} (hlt : offset < c.recipe.h.length) {s : State}
    {h g : Host} {done : List UInt8} {digests : List (List UInt8)}
    {y : State × List UInt8 × List (List UInt8)}
    (hx : windowLoop c store sha256 window capacity sink (fuel + 1) offset s h done digests =
      some (.ok y, g)) :
    ∃ s' h', invoke c store
      (advanceWindow c window offset (min capacity (c.recipe.h.length - offset)) s) h =
        some (s', h') ∧ (report window s' h').completed = true ∧
      sink (content (report window s' h').written (min capacity (c.recipe.h.length - offset))) =
        true := by
  rw [Replay.windowLoop, if_pos hlt] at hx
  simp only at hx
  cases hinv : invoke c store
    (advanceWindow c window offset (min capacity (c.recipe.h.length - offset)) s) h with
  | none => rw [hinv] at hx; cases hx
  | some z =>
    rw [hinv] at hx
    simp only at hx
    refine ⟨z.1, z.2, rfl, ?_⟩
    by_cases h1 : (report window z.1 z.2).completed = true
    · refine ⟨h1, ?_⟩
      by_contra h2
      rw [Bool.not_eq_true] at h2
      simp only [h1, h2, Bool.not_true, Bool.not_false, Bool.false_eq_true, if_false, if_true] at hx
      cases hx
    · rw [Bool.not_eq_true] at h1
      simp only [h1, Bool.not_false, if_true] at hx
      cases hx

/-- What a loop has to have done when it is at an offset. -/
structure Done (c : Compiler) (sha256 : List UInt8 → List UInt8) (mem : Memory) (offset : ℕ)
    (done : List UInt8) (digests : List (List UInt8)) : Prop where
  bytes : done = outputOf c mem 0 offset
  digests : digests = pageDigests sha256 done

omit hw ha in
/-- **The digests** of whole pages and of what comes behind them. -/
theorem Done.append {sha256 : List UInt8 → List UInt8} {mem mem' : Memory} {offset size : ℕ}
    {done bytes : List UInt8} {digests : List (List UInt8)}
    (h : Done c sha256 mem offset done digests) (hal : offset % PAGE = 0)
    (hb : outputOf c mem 0 offset ++ bytes = outputOf c mem' 0 (offset + size)) :
    Done c sha256 mem' (offset + size) (done ++ bytes) (digests ++ pageDigests sha256 bytes) := by
  have hlen : done.length = offset := by rw [h.bytes, outputOf_length]
  exact ⟨by rw [h.bytes, hb], by rw [h.digests, pageDigests_append (by rw [hlen]; exact hal)]⟩

omit hw ha in
theorem done_nothing (sha256 : List UInt8 → List UInt8) (mem : Memory) :
    Done c sha256 mem 0 [] [] :=
  ⟨rfl, rfl⟩

/-- **All windows** of a loop that succeeds are one run of the whole program. -/
theorem windowLoop_whole {base : Word} {sha256 : List UInt8 → List UInt8} {window : Word}
    {capacity : ℕ} {sink : List UInt8 → Bool} (hpos : 0 < capacity) (hpage : capacity % PAGE = 0)
    (hapart : Apart c window capacity) :
    ∀ (fuel : ℕ) {offset : ℕ} {s : State} {h g : Host} {p : Point}
      {b : Ledger} {done : List UInt8} {digests : List (List UInt8)}
      {y : State × List UInt8 × List (List UInt8)},
    Waiting c base offset s h p b → offset < c.recipe.h.length → c.recipe.h.length - offset ≤ fuel →
    offset % PAGE = 0 → Done c sha256 p.guest.mem offset done digests →
    windowLoop c store sha256 window capacity sink fuel offset s h done digests = some (.ok y, g) →
    ∃ k x, Validated c base k x g ∧ Replay.collected y.1 = pagesOf c x.2 ∧
      Done c sha256 x.1.guest.mem c.recipe.h.length y.2.1 y.2.2
  | 0, offset, s, h, g, p, b, done, digests, y, _, hlt, hfuel, _, _, _ => by omega
  | fuel + 1, offset, s, h, g, p, b, done, digests, y, hs, hlt, hfuel, hal, hdone, hx => by
    obtain ⟨s', h', hinv, hc, hsink⟩ := windowLoop_ok hlt hx
    rw [windowLoop_turn _ _ _ _ hlt hinv hc hsink] at hx
    have hap := hapart.le (m := min capacity (c.recipe.h.length - offset)) (by omega)
    by_cases hall : offset + min capacity (c.recipe.h.length - offset) = c.recipe.h.length
    · obtain ⟨k, x, hv, hcol, hbytes⟩ := window_last hw ha hs hall hap hinv hc
      rw [windowLoop_end (by omega)] at hx
      obtain ⟨hy, rfl⟩ := Prod.mk.inj (Option.some.inj hx)
      obtain rfl := Except.ok.inj hy
      refine ⟨k, x, hv, hcol, ?_⟩
      have happ := hdone.append hal (hbytes.trans (by rw [hall]))
      rw [hall] at happ
      exact happ
    · obtain ⟨p', b', hs', hbytes⟩ := window_done hw ha hs (by omega) hap hinv hc
      have hmin : min capacity (c.recipe.h.length - offset) = capacity := by omega
      have hal' : (offset + min capacity (c.recipe.h.length - offset)) % PAGE = 0 := by
        rw [hmin, Nat.add_mod, hal, hpage]
        rfl
      exact windowLoop_whole hpos hpage hapart fuel hs' (by omega) (by omega) hal'
        (hdone.append hal hbytes) hx

variable (store) in
/-- **A run with all its pages**, or one in a single window, makes every window of a loop complete.
-/
theorem windowLoop_of_whole (hv : c.plan.vectors.Nodup) {base : Word} {n : ℕ} {t x : Point × Ledger}
    (hends : Ends (Interpreter.step c (whole c)) n (beginning c, opening c base) t (.returned, x))
    (sha256 : List UInt8 → List UInt8) {window : Word} {capacity : ℕ} {sink : List UInt8 → Bool}
    (hpages : Interpreter.stop c ≤ x.2.nextPage ∨ c.recipe.h.length ≤ capacity)
    (hsink : ∀ bytes, sink bytes = true) (hpos : 0 < capacity) (hpage : capacity % PAGE = 0)
    (hapart : Apart c window capacity) :
    ∀ (fuel : ℕ) {offset : ℕ} {s : State} {h : Host} {p : Point} {b : Ledger} {done : List UInt8}
      {digests : List (List UInt8)},
    Waiting c base offset s h p b → offset < c.recipe.h.length → c.recipe.h.length - offset ≤ fuel →
    offset % PAGE = 0 → Done c sha256 p.guest.mem offset done digests →
    ∃ y g, windowLoop c store sha256 window capacity sink fuel offset s h done digests =
      some (.ok y, g) ∧
      Validated c base n x g ∧ Replay.collected y.1 = pagesOf c x.2 ∧
      Done c sha256 x.1.guest.mem c.recipe.h.length y.2.1 y.2.2
  | 0, offset, s, h, p, b, done, digests, _, hlt, hfuel, _, _ => by omega
  | fuel + 1, offset, s, h, p, b, done, digests, hs, hlt, hfuel, hal, hdone => by
    have hap := hapart.le (m := min capacity (c.recipe.h.length - offset)) (by omega)
    generalize hsize : min capacity (c.recipe.h.length - offset) = size at hap
    have hle : offset + size ≤ c.recipe.h.length := by omega
    have hp := hs.poised hw ha hle hap
    have hlimit := windowExtent_limit hw ha hle
    have hlim := (whole_limit hw ha).le
    obtain ⟨m, hm⟩ := hs.reached
    by_cases hall : offset + size = c.recipe.h.length
    · -- the last window comes to the return
      have hrest := hends.split hm
      have hhigh := (steps_taken ha hlim hrest.1 (hs.sound hw ha)).1.high
      have hlast : Ends (Interpreter.step c (windowExtent c offset size)) (n - m) (p, b) t
        (.returned, x) := by
        rcases ends_along ha (windowExtent c offset size) hlim (respects_id c)
          (hs.sound hw ha) hrest
          (by omega) with ⟨-, v, -, hy, -⟩ | hret
        · exact absurd hy.2.1 (by simp [windowExtent, hall])
        · exact hret
      have hcur : x.1.cursor = (windowExtent c offset size).limit := by
        rw [(returned_complete hlast).1.1, Interpreter.stop, ← hall, ← Nat.add_assoc]
        rfl
      obtain ⟨s', h', hinv, -, hc⟩ := invoke_complete hw ha store hp hlast (.inr rfl) hcur window
      obtain ⟨k, x', hv', hcol, hbytes⟩ := window_last hw ha hs hall hap hinv hc
      obtain ⟨t', ht'⟩ := hv'.run
      obtain ⟨rfl, -, hxx⟩ := ht'.det hends
      obtain rfl := (Prod.mk.inj hxx).2
      have happ := hdone.append hal (hbytes.trans (by rw [hall]))
      subst hsize
      have hturn := (windowLoop_turn sha256 fuel done digests hlt hinv hc (hsink _)).trans
        (windowLoop_end (by omega) s' h' _ _ fuel)
      rw [hall] at happ
      exact ⟨_, _, hturn, hv', hcol, happ⟩
    · -- the run comes to the page behind the window
      have hmin : size = capacity := by omega
      have hal' : (offset + size) % PAGE = 0 := by
        rw [hmin, Nat.add_mod, hal, hpage]
        rfl
      have hmul : (offset + size) / PAGE * PAGE = offset + size :=
        Nat.div_mul_cancel (Nat.dvd_of_mod_eq_zero hal')
      have hpaged : Paged c base n t x := ⟨hends, hpages.resolve_right (by omega)⟩
      obtain ⟨m', u, hu, hat, hucur⟩ :=
        hpaged.reaches hw ha hv (k := (offset + size) / PAGE) (by omega) hm
        (by rw [hs.toNat hw ha (by omega)]; omega)
      have hy : Yielding c (windowExtent c offset size) u.1 := by
        refine ⟨hat, by simp [windowExtent, hall], ?_⟩
        rw [hucur, hmul, ← Nat.add_assoc]
        rfl
      obtain ⟨k, v, -, hyv, hwindow⟩ := yields_along ha hlim (respects_id c) (hs.sound hw ha) hu hy
      obtain ⟨s', h', hinv, -, hc⟩ :=
        invoke_complete hw ha store hp hwindow (.inl rfl) hyv.2.2 window
      obtain ⟨p', b', hs', hbytes⟩ := window_done hw ha hs (by omega) hap hinv hc
      subst hsize
      rw [windowLoop_turn _ _ _ _ hlt hinv hc (hsink _)]
      exact windowLoop_of_whole hv hends sha256 hpages hsink hpos hpage hapart fuel hs' (by omega)
        (by omega) hal'
        (hdone.append hal hbytes)

/-! ### Streams -/

omit hw in
/-- **In front of the first window.** -/
theorem collect_waiting {h : Host} (hplaced : Placed c h.mem) :
    Waiting c store.frames 0 (collect c store (initial c) h).1
      (collect c store (initial c) h).2 (beginning c)
      (opening c store.frames) := by
  have hbegin := initial_holds (c := c)
  refine ⟨⟨0, .refl _⟩, ⟨rfl, rfl, rfl, hbegin.same, hbegin.flags⟩, beginning_start ha, rfl,
    ⟨rfl, rfl, rfl⟩,
    rfl, rfl, opening_marked (s := initial c) ?_ ?_, hplaced⟩
  · exact saveInitial_marked hbegin rfl rfl rfl rfl
  · exact Function.update_self store.frames _ h.frames

omit hw ha in
theorem validateStream_ok {sha256 : List UInt8 → List UInt8} {window : Word} {capacity : ℕ}
    {sink : List UInt8 → Bool} (hpos : 0 < capacity) (hpage : capacity % PAGE = 0) {h g : Host}
    {n : Native} {bytes : List UInt8} :
    Replay.validateStream c store sha256 window capacity sink h = some (.ok (n, bytes), g) ↔
      ∃ s digests, Replay.windowLoop c store sha256 window capacity sink c.recipe.h.length 0
          (collect c store (initial c) h).1 (collect c store (initial c) h).2 [] [] =
            some (.ok (s, bytes, digests), g) ∧
        sha256 bytes = c.recipe.h.digest ∧
        n = if Replay.collected s then ⟨true, digests⟩ else ⟨false, []⟩ := by
  unfold Replay.validateStream
  rw [if_neg (by simp [hpage]; omega)]
  simp only
  rw [Option.map_eq_some_iff]
  constructor
  · rintro ⟨⟨y, g'⟩, hloop, hy⟩
    cases y with
    | error f => cases hy
    | ok y =>
      obtain ⟨s, out, digests⟩ := y
      simp only at hy
      by_cases hs : sha256 out = c.recipe.h.digest
      · rw [if_neg (not_not.mpr hs)] at hy
        by_cases hc : Replay.collected s = true
        · rw [if_pos hc] at hy
          cases hy
          exact ⟨s, digests, hloop, hs, by rw [if_pos hc]⟩
        · rw [if_neg hc] at hy
          cases hy
          exact ⟨s, digests, hloop, hs, by rw [if_neg hc]⟩
      · rw [if_pos hs] at hy
        cases hy
  · rintro ⟨s, digests, hloop, hs, rfl⟩
    refine ⟨_, hloop, ?_⟩
    simp only
    rw [if_neg (not_not.mpr hs)]
    split_ifs <;> rfl

/-- **A stream that validates.** -/
theorem stream_validated {sha256 : List UInt8 → List UInt8} {window : Word} {capacity : ℕ}
    {sink : List UInt8 → Bool} {h g : Host} {n : Native} {bytes : List UInt8}
    (hplaced : Placed c h.mem) (hapart : Apart c window capacity)
    (hx : Replay.validateStream c store sha256 window capacity sink h = some (.ok (n, bytes), g)) :
    ∃ k x, Validated c store.frames k x g ∧ bytes = outputOf c x.1.guest.mem 0 c.recipe.h.length ∧
      sha256 bytes = c.recipe.h.digest ∧ n = kept sha256 (pagesOf c x.2) bytes := by
  have hcap : 0 < capacity ∧ capacity % PAGE = 0 := by
    by_contra hc
    unfold Replay.validateStream at hx
    rw [if_pos (by omega)] at hx
    cases hx
  obtain ⟨hpos, hpage⟩ := hcap
  obtain ⟨s, digests, hloop, hs, rfl⟩ := (validateStream_ok hpos hpage).mp hx
  obtain ⟨hlen, -⟩ := output_fits hw ha.recipe
  obtain ⟨k, x, hv, hcol, hdone⟩ := windowLoop_whole hw ha hpos hpage hapart c.recipe.h.length
    (collect_waiting ha hplaced) hlen (by omega) rfl (done_nothing sha256 _) hloop
  refine ⟨k, x, hv, hdone.bytes, hs, ?_⟩
  have hdig : digests = pageDigests sha256 bytes := hdone.digests
  simp only at hcol
  rw [hcol, hdig]
  rfl

/-- **A run of the whole program** with the recorded digest makes a stream validate, if it has all
its pages or the stream has a single window. -/
theorem stream_of_ends (hv : c.plan.vectors.Nodup) {sha256 : List UInt8 → List UInt8}
    {window : Word}
    {capacity : ℕ} {sink : List UInt8 → Bool} (hsink : ∀ bytes, sink bytes = true)
    (hpos : 0 < capacity)
    (hpage : capacity % PAGE = 0) {h : Host} (hplaced : Placed c h.mem)
    (hapart : Apart c window capacity)
    {k : ℕ} {t x : Point × Ledger}
    (hends : Ends (Interpreter.step c (whole c)) k (beginning c, opening c store.frames) t
      (.returned, x))
    (hpages : pagesOf c x.2 = true ∨ c.recipe.h.length ≤ capacity)
    (hdigest : sha256 (outputOf c x.1.guest.mem 0 c.recipe.h.length) = c.recipe.h.digest) :
    ∃ g, Replay.validateStream c store sha256 window capacity sink h = some (.ok
      (kept sha256 (pagesOf c x.2) (outputOf c x.1.guest.mem 0 c.recipe.h.length),
        outputOf c x.1.guest.mem 0 c.recipe.h.length), g) ∧ Validated c store.frames k x g := by
  have hall : Interpreter.stop c ≤ x.2.nextPage ∨ c.recipe.h.length ≤ capacity := by
    refine hpages.imp_left fun hx => ?_
    unfold pagesOf at hx
    rw [Bool.and_eq_true] at hx
    exact of_decide_eq_true hx.2
  obtain ⟨hlen, -⟩ := output_fits hw ha.recipe
  obtain ⟨y, g, hloop, hval, hcol, hdone⟩ :=
    windowLoop_of_whole hw ha store hv hends sha256 hall hsink
    hpos hpage hapart c.recipe.h.length (collect_waiting ha hplaced) hlen (by omega) rfl
    (done_nothing sha256 _)
  obtain ⟨s, out, digests⟩ := y
  have hout : out = outputOf c x.1.guest.mem 0 c.recipe.h.length := hdone.bytes
  have hdig : digests = pageDigests sha256 out := hdone.digests
  refine ⟨g, (validateStream_ok hpos hpage).mpr ⟨s, digests, ?_, hdigest, ?_⟩, hval⟩
  · rw [hloop, hout]
  · simp only at hcol
    rw [hcol, hdig, hout]
    rfl

end

end Afterfree.Native.Streaming
