import Afterfree.Native.Ranges
import Afterfree.Runtime.Availability
import Afterfree.Worker.Verified

/-!
# What stands behind a stored recipe

A stored recipe was validated by the emulator or by compiled code. Replays of it later on are
emulations like the first one, or calls of the compiled code in a host that the validation has left.
They grant every proper request: it passes the range checks of the worker and of
`NativeReplay::run`, and is answered with the bytes it asks for (`Entry.Valid.granted`).
-/

namespace Afterfree.Worker.Backing

open Afterfree.Common Afterfree.Codec Afterfree.Encoding Afterfree.Runtime.Availability
open Afterfree.Native.Compile Afterfree.Native.Entry
open Afterfree.Native.Replay (Storage attempt refused)
open Afterfree.Native.Ranges Afterfree.Worker.Checked Afterfree.Worker.Server
open Afterfree.Worker.Verified

/-! ### Entries -/

/-- What has validated a recipe: the emulator, by one emulation, or compiled code, which has left a
host. -/
inductive Backend
  | emulator (e : Emulation)
  | compiled (c : Compiler) (cache : Bool) (store : Storage) (h : Native.Compile.Host)

/-- A stored recipe, its validated output, and what has validated it. -/
structure Entry where
  stored : Stored
  out : List UInt8
  backend : Backend

/-- The recipe can be asked for ranges of pages. -/
def pageable (st : Stored) : Bool := st.native.any Checked.Native.pages

variable (sha256 : List UInt8 → List UInt8)

/-- The output is what the validation has let through. -/
def Backs (st : Stored) (out : List UInt8) : Backend → Prop
  | .emulator e => st.native = none ∧ emulate sha256 st.recipe.h e = .ok out
  | .compiled c cache store h =>
    Native.Decode.decode c.isa cache st.recipe = .ok c.plan ∧
      ∃ n, st.native = some n ∧ Validates c store sha256 n out h

/-- **A stored recipe that has been validated.** -/
structure Entry.Valid (x : Entry) : Prop where
  wellFormed : WellFormed x.stored.recipe
  backs : Backs sha256 x.stored x.out x.backend

/-- **A replay for a request.** An emulation is deterministic and within its time limit: it ends as
the one that has validated the recipe. A call of compiled code is one in a host that the validation
has left, whatever was replayed since then, to a buffer apart from the inputs. -/
def Entry.Replays (x : Entry) (q : Request) (e : RestoreEnv) : Prop :=
  match x.backend with
  | .emulator e₀ => e.emulation.failure = e₀.failure ∧ e.emulation.hashed = e₀.hashed ∧
      ∀ i < x.stored.recipe.h.length, e.emulation.written i = e₀.written i
  | .compiled c _ store h => ∃ n g g' output, x.stored.native = some n ∧
      Served c store sha256 n h g ∧ Apart c output (rangeOf x.stored q).2 ∧
      attempt c store n output (rangeOf x.stored q).1 (rangeOf x.stored q).2 false g =
        some (e.call, g')

/-- **A request that is granted.** It asks for `length` bytes at `offset`, passes the range checks
of the worker and of `NativeReplay::run`, no call of compiled code for it dies, and whatever replay
it is answered by, the answer is status 0 with these bytes of the output. -/
structure Granted (arena : Option Arena) (x : Entry) (q : Request) (offset length : ℕ) : Prop where
  range : rangeOf x.stored q = (offset, length)
  valid : invalidRange arena x.stored (q.command ≠ .restore) (q.command = .restoreShared) offset
    length = false
  accepted : ∀ c cache store h n, x.backend = .compiled c cache store h →
    x.stored.native = some n → refused c n offset length false = false
  returns : ∀ c cache store h n g output, x.backend = .compiled c cache store h →
    x.stored.native = some n → Served c store sha256 n h g → Apart c output length →
    ∃ call g', attempt c store n output offset length false g = some (call, g')
  restored : ∀ e s, e.sent = true → x.Replays sha256 q e → s.recipes q.id = some x.stored →
    restore sha256 arena e s q = (s, .restored q.id offset ((x.out.drop offset).take length))
  size : ((x.out.drop offset).take length).length = length

variable {sha256} {arena : Option Arena} {x : Entry} {q : Request}

/-! ### The output -/

theorem emulate_congr {h : Header} {e e' : Emulation} (hf : e.failure = e'.failure)
    (hh : e.hashed = e'.hashed) (hw : ∀ i < h.length, e.written i = e'.written i) :
    emulate sha256 h e = emulate sha256 h e' := by
  have hc : content e.written h.length = content e'.written h.length :=
    List.map_congr_left fun i hi => hw i (List.mem_range.mp hi)
  unfold emulate
  rw [hf, hh, hc]

theorem Entry.Valid.length_eq (hx : x.Valid sha256) :
    x.out.length = x.stored.recipe.h.length := by
  obtain ⟨hw, hb⟩ := hx
  cases hback : x.backend with
  | emulator e =>
    rw [hback] at hb
    exact (emulate_validated hb.2).length_eq
  | compiled c cache store h =>
    rw [hback] at hb
    obtain ⟨hp, n, -, hval⟩ := hb
    have ha := Native.Decode.decode_admitted hw hp
    obtain ⟨k, y, -, hbytes, -⟩ := hval.validated hw ha
    rw [hbytes, Native.Streaming.outputOf_length, Compiler.recipe, ha.recipe]

/-! ### Proper requests -/

theorem rangeOf_eq (st : Stored) (q : Request) : rangeOf st q = spanOf st.recipe.h.length q := rfl

/-- **A proper request passes the range checks** of the worker. -/
theorem proper_valid {st : Stored} (h : Proper arena (pageable st) st.recipe.h.length q) :
    invalidRange arena st (q.command ≠ .restore) (q.command = .restoreShared)
      (rangeOf st q).1 (rangeOf st q).2 = false := by
  rw [rangeOf_eq]
  obtain ⟨-, hcmd, hpos, hfits, hal, hend⟩ := h
  generalize spanOf st.recipe.h.length q = s at *
  have hbase : s.2 ≠ 0 ∧ ¬ st.recipe.h.length < s.1 ∧ ¬ st.recipe.h.length - s.1 < s.2 := by
    omega
  have hlast : s.2 % PAGE = 0 ∨ s.1 + s.2 = st.recipe.h.length := hend
  unfold invalidRange
  rcases hcmd with ⟨hc, -⟩ | ⟨hc, hp⟩ | ⟨hc, hp, a, rfl, hcap⟩
  · simp [hc, hbase]
  all_goals
    obtain ⟨n, hn, hn'⟩ := Option.any_eq_true _ _ |>.mp hp
    simp [hc, hn, hn', hbase, hal]
    omega

/-- What a proper request asks for: pages of a recipe that can be sliced, or its whole output. -/
theorem proper_slice {st : Stored} (h : Proper arena (pageable st) st.recipe.h.length q) :
    pageable st = true ∨ rangeOf st q = (0, st.recipe.h.length) := by
  rcases h.command with ⟨hc, -⟩ | ⟨-, hp⟩ | ⟨-, hp, -⟩
  · exact .inr (if_pos hc)
  · exact .inl hp
  · exact .inl hp

/-- **A call of compiled code for a proper request** comes back, and what it has computed passes
the checks behind it. -/
theorem Entry.Valid.replayed (hx : x.Valid sha256)
    (hq : Proper arena (pageable x.stored) x.stored.recipe.h.length q) {c : Compiler} {cache : Bool}
    {store : Storage} {h g : Native.Compile.Host} {n : Checked.Native} {output : Native.X86.Word}
    (hback : x.backend = .compiled c cache store h) (hn : x.stored.native = some n)
    (hs : Served c store sha256 n h g) (hapart : Apart c output (rangeOf x.stored q).2) :
    ∃ call g', attempt c store n output (rangeOf x.stored q).1 (rangeOf x.stored q).2 false g =
        some (call, g') ∧
      n.run sha256 x.stored.recipe.h (rangeOf x.stored q).1 (rangeOf x.stored q).2 false call =
        .ok (n, (x.out.drop (rangeOf x.stored q).1).take (rangeOf x.stored q).2) := by
  have hb := hx.backs
  rw [hback] at hb
  obtain ⟨hp, n', hn', hval⟩ := hb
  obtain rfl : n' = n := Option.some.inj (hn'.symm.trans hn)
  have hslice : n'.pages = true ∨
      (rangeOf x.stored q).1 = 0 ∧ (rangeOf x.stored q).2 = x.stored.recipe.h.length := by
    rcases proper_slice hq with hp | hwhole
    · unfold pageable at hp
      rw [hn] at hp
      exact .inl hp
    · exact .inr ⟨congrArg Prod.fst hwhole, congrArg Prod.snd hwhole⟩
  obtain ⟨-, -, hpos, hfits, hal, hend⟩ := hq
  obtain ⟨y, g', hattempt, -, -, hrun⟩ := served_reproduces hx.wellFormed hp c.fastBoundary c.data
    store sha256 hval hs hapart hslice hpos hal hfits hend
  exact ⟨y, g', hattempt, hrun⟩

/-- **Every proper request is granted.** -/
theorem Entry.Valid.granted (hx : x.Valid sha256)
    (hq : Proper arena (pageable x.stored) x.stored.recipe.h.length q) :
    Granted sha256 arena x q (rangeOf x.stored q).1 (rangeOf x.stored q).2 := by
  have hvalid := proper_valid hq
  have hpos : 0 < (rangeOf x.stored q).2 := hq.pos
  have hfits : (rangeOf x.stored q).1 + (rangeOf x.stored q).2 ≤ x.stored.recipe.h.length := hq.fits
  refine ⟨rfl, hvalid, fun c cache store h n hback hn => ?_, fun c cache store h n g output hback hn
    hs hapart => ?_, fun e s hsent hr hid => ?_, ?_⟩
  · have hb := hx.backs
    rw [hback] at hb
    have ha := Native.Decode.decode_admitted hx.wellFormed hb.1
    have hrec : c.recipe = x.stored.recipe := ha.recipe
    have hal : (rangeOf x.stored q).1 % PAGE = 0 := hq.aligned
    have hpages : pageable x.stored = n.pages := by
      unfold pageable
      rw [hn]
      rfl
    unfold refused
    rw [hrec]
    rcases proper_slice hq with hp | hwhole
    · rw [hpages] at hp
      simp [hp, hal]
      omega
    · rw [hwhole] at hpos ⊢
      simp
      omega
  · obtain ⟨call, g', hattempt, -⟩ := hx.replayed hq hback hn hs hapart
    exact ⟨call, g', hattempt⟩
  · have hrec : reconstruct sha256 arena e x.stored q =
        .ok ((x.out.drop (rangeOf x.stored q).1).take (rangeOf x.stored q).2) := by
      unfold reconstruct
      simp only
      rw [if_neg (by rw [hvalid]; exact Bool.false_ne_true)]
      unfold Entry.Replays at hr
      cases hback : x.backend with
      | emulator e₀ =>
        have hb := hx.backs
        rw [hback] at hr hb
        obtain ⟨hnone, hok⟩ := hb
        obtain ⟨hf, hh, hw⟩ := hr
        rw [hnone]
        simp only
        rw [emulate_congr hf hh hw, hok]
        have hwhole := (proper_slice hq).resolve_left
          (by rw [pageable, hnone]; exact Bool.false_ne_true)
        rw [hwhole, List.drop_zero, ← hx.length_eq, List.take_length]
      | compiled c cache store h =>
        rw [hback] at hr
        obtain ⟨n, g, g', output, hn, hs, hapart, hattempt⟩ := hr
        obtain ⟨call, g'', hattempt', hrun⟩ := hx.replayed hq hback hn hs hapart
        obtain ⟨rfl, -⟩ := Prod.mk.inj (Option.some.inj (hattempt.symm.trans hattempt'))
        rw [hn]
        simp only
        rw [hrun]
        rfl
    unfold restore
    rw [hid, hsent]
    simp only [Bool.not_true, Bool.false_eq_true, if_false, hrec]
  · rw [List.length_take, List.length_drop, hx.length_eq]
    omega

end Afterfree.Worker.Backing
