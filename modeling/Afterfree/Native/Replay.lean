import Afterfree.Native.Arenas
import Afterfree.Worker.Checked

/-!
# Replays

`NativeReplay::run` and `NativeReplay::validate_stream`: they set a `State` object up, enter the
generated code and look at what it has left. What they let through is `Native.run` of
`Worker.Checked`, applied to the call that was made. `none` stands for a call that does not come
back.

* `front`, `Begins`: what the two of them enter the generated code with;
* `call_arena`: one call, however it ends;
* `run_in_arenas`: where the two of them read and write.
-/

namespace Afterfree.Native.Replay

open Afterfree.Common Afterfree.Codec Afterfree.Encoding Afterfree.Native.X86
  Afterfree.Native.Decode
open Afterfree.Native.Reference Afterfree.Native.Compile Afterfree.Native.Pieces
  Afterfree.Native.Calls
open Afterfree.Native.Arenas Afterfree.Worker.Checked

/-- A field of a `State` object set to a value. -/
def State.set (f : Field) (v : Word) (s : State) : State :=
  { s with word := Function.update s.word f v }

/-- Where a replay keeps its `State` object and its checkpoints: `storage.data()` and
`frames.data()`. -/
structure Storage where
  state : Word
  frames : Word

section
variable (c : Compiler) (store : Storage)

/-- `initial`. -/
def initial : State where
  word
    | .entry => BitVec.ofNat 64 (c.label c.recipe.h.entry)
    | .remaining => BitVec.ofNat 64 c.recipe.h.steps
    | .cursor => BitVec.ofNat 64 c.recipe.h.output
    | .stop => BitVec.ofNat 64 (c.recipe.h.output + c.recipe.h.length)
    | _ => 0
  regs i := BitVec.ofNat 64 (c.recipe.h.regs.getD i 0)
  flags := BitVec.ofNat 64 (c.recipe.h.regs.getD 17 0)
  xmm k := BitVec.ofNat 128 (leNat (c.recipe.h.xmm.getD k []))
  mxcsr := BitVec.ofNat 32 c.recipe.h.mxcsr
  hostMxcsr := 0

/-- `save_initial`: the first checkpoint. -/
def saveInitial (s : State) : Frame where
  entry := s.word .entry
  cursor := s.word .cursor
  remaining := s.word .remaining
  flags := s.flags
  mxcsr := s.mxcsr
  gprs := c.gprs.map s.regs
  vectors := c.plan.vectors.map s.xmm

/-- `collect`. -/
def collect (s : State) (h : Host) : State × Host :=
  let s := State.set .collecting 1 s
  let s := State.set .nextPage (BitVec.ofNat 64 (c.recipe.h.output + PAGE)) s
  let s := State.set .nextFrame (store.frames + BitVec.ofNat 64 c.frameSize) s
  (s, { h with frames := Function.update h.frames store.frames (saveInitial c s) })

/-- `pages` of `finish_collection`. -/
def collected (s : State) : Bool := s.word .collecting ≠ 0 && s.word .stop ≤ s.word .nextPage

/-- The checkpoint of an offset. -/
def frameAddress (offset : ℕ) : Word := store.frames + BitVec.ofNat 64 (offset / PAGE * c.frameSize)

/-- A checkpoint is copied into a `State` object. -/
def restore (f : Frame) (s : State) : State :=
  let s := State.set .entry f.entry s
  let s := State.set .cursor f.cursor s
  let s := State.set .remaining f.remaining s
  { s with
    flags := f.flags
    mxcsr := f.mxcsr
    regs := fun i => ((c.gprs.zip f.gprs).lookup i).getD (s.regs i)
    xmm := fun k => ((c.plan.vectors.zip f.vectors).lookup k).getD (s.xmm k) }

/-- The check of a restored checkpoint. -/
def validCheckpoint (offset : ℕ) (s : State) : Bool :=
  s.word .cursor = BitVec.ofNat 64 (c.recipe.h.output + offset) &&
    (s.word .entry).toNat < c.plan.instructions.length

/-- The trigger that goes with the other fields. -/
def withTrigger (s : State) : State :=
  State.set .trigger
    (if s.word .collecting ≠ 0 ∧ s.word .nextPage < s.word .limit then s.word .nextPage
    else s.word .limit) s

/-- The host when the generated code is entered with a `State` object. -/
def argued (s : State) (h : Host) : Host :=
  { h with
    core := { h.core with gpr := Function.update h.core.gpr 7 store.state }
    state := Function.update h.state store.state s }

/-- The generated code is entered with the `State` object. An alignment exception does not come
back. -/
def invoke (s : State) (h : Host) : Option (State × Host) :=
  match c.call ((s.word .remaining).toNat + 1) (argued store s h) with
  | none => none
  | some x => if x.1 = .faulted then none else some (x.2.1.state store.state, x.2.1)

/-- The range is refused. -/
def refused (n : Native) (offset length : ℕ) (validate : Bool) : Bool :=
  length = 0 || c.recipe.h.length < offset || c.recipe.h.length - offset < length ||
    (offset ≠ 0 && (!n.pages || offset % PAGE ≠ 0)) ||
    (!validate && length ≠ c.recipe.h.length && !n.pages)

/-- The fields of a call for a range. -/
def aim (output : Word) (offset length : ℕ) (validate : Bool) : State :=
  let s := initial c
  let s := State.set .cursor (BitVec.ofNat 64 (c.recipe.h.output + offset)) s
  let s := State.set .stop (BitVec.ofNat 64 (c.recipe.h.output + c.recipe.h.length)) s
  let s := State.set .limit (s.word .cursor + BitVec.ofNat 64 length) s
  let s := State.set .delta (output - s.word .cursor) s
  State.set .validating
    (if validate = true ∨ (offset = 0 ∧ length = c.recipe.h.length) then 1 else 0) s

/-- A call that is not made. -/
def idle (checkpoint : Bool) : Call := ⟨checkpoint, false, fun _ => 0, false, true, true, true⟩

/-- What a call has left, for the checks behind it. -/
def report (output : Word) (s : State) (h : Host) : Call where
  checkpoint := true
  completed := s.word .error = 0 && s.word .cursor = s.word .limit
  written j := h.mem (output + BitVec.ofNat 64 j)
  collected := collected s
  updated := true
  hashed := true
  paged := true

/-- What `run` does in front of the generated code: the `State` object and the host that it is
entered with, or what is left to be checked if it is not entered. -/
def front (n : Native) (output : Word) (offset length : ℕ) (validate : Bool) (h : Host) :
    Except Call (State × Host) :=
  if refused c n offset length validate then .error (idle true)
  else
    let s := aim c output offset length validate
    if validate then
      let x := collect c store s h
      .ok (withTrigger x.1, x.2)
    else if offset ≠ 0 then
      let s := restore c (h.frames (frameAddress c store offset)) s
      if validCheckpoint c offset s then .ok (withTrigger s, h) else .error (idle false)
    else .ok (withTrigger s, h)

/-- The call of the generated code that `run` makes. -/
def attempt (n : Native) (output : Word) (offset length : ℕ) (validate : Bool) (h : Host) :
    Option (Call × Host) :=
  match front c store n output offset length validate h with
  | .error x => some (x, h)
  | .ok (s, h) => (invoke c store s h).map fun x => (report output x.1 x.2, x.2)

/-- **`NativeReplay::run`**: what it lets through, and the memory after it. -/
def run (sha256 : List UInt8 → List UInt8) (n : Native) (output : Word) (offset length : ℕ)
    (validate : Bool) (h : Host) : Option (Except String (Native × List UInt8) × Host) :=
  (attempt c store n output offset length validate h).map fun x =>
    (Native.run sha256 n c.recipe.h offset length validate x.1, x.2)

/-! ### Windows -/

/-- The fields of a window. -/
def advanceWindow (window : Word) (offset size : ℕ) (s : State) : State :=
  let s := State.set .limit (BitVec.ofNat 64 (c.recipe.h.output + offset + size)) s
  let s := State.set .delta (window - s.word .cursor) s
  let s := State.set .validating (if s.word .limit = s.word .stop then 1 else 0) s
  withTrigger s

/-- The loop of `validate_stream`; `sink` says whether the window is acknowledged. -/
def windowLoop (sha256 : List UInt8 → List UInt8) (window : Word) (capacity : ℕ)
    (sink : List UInt8 → Bool) : ℕ → ℕ → State → Host → List UInt8 → List (List UInt8) →
      Option (Except Failure (State × List UInt8 × List (List UInt8)) × Host)
  | 0, _, s, h, done, digests => some (.ok (s, done, digests), h)
  | fuel + 1, offset, s, h, done, digests =>
    if offset < c.recipe.h.length then
      let size := min capacity (c.recipe.h.length - offset)
      match invoke c store (advanceWindow c window offset size s) h with
      | none => none
      | some (s, h) =>
        let x := report window s h
        if !x.completed then
          some (.error (.other "native validation cannot yield at the requested boundary"), h)
        else
          let bytes := content x.written size
          if !sink bytes then
            some (.error (.protocol "validation window acknowledgement failed"), h)
          else windowLoop sha256 window capacity sink fuel (offset + size) s h (done ++ bytes)
            (digests ++ pageDigests sha256 bytes)
    else some (.ok (s, done, digests), h)

/-- **`NativeReplay::validate_stream`.** -/
def validateStream (sha256 : List UInt8 → List UInt8) (window : Word) (capacity : ℕ)
    (sink : List UInt8 → Bool) (h : Host) : Option (Except Failure (Native × List UInt8) × Host) :=
  if capacity = 0 ∨ capacity % PAGE ≠ 0 then some (.error (.other "invalid validation window"), h)
  else
    let x := collect c store (initial c) h
    (windowLoop c store sha256 window capacity sink c.recipe.h.length 0 x.1 x.2 [] []).map fun y =>
      match y.1 with
      | .error f => (.error f, y.2)
      | .ok (s, out, digests) =>
        if sha256 out ≠ c.recipe.h.digest then
          (.error (.other "native replay digest mismatch"), y.2)
        else if collected s then (.ok (⟨true, digests⟩, out), y.2)
        else (.ok (⟨false, []⟩, out), y.2)

/-! ### Fields of calls -/

@[simp] theorem set_self (f : Field) (v : Word) (s : State) : (State.set f v s).word f = v :=
  Function.update_self ..

theorem set_of_ne {f g : Field} (h : g ≠ f) (v : Word) (s : State) :
    (State.set f v s).word g = s.word g :=
  Function.update_of_ne h ..

theorem withTrigger_of_ne {f : Field} (h : f ≠ .trigger) (s : State) :
    (withTrigger s).word f = s.word f := set_of_ne h _ s

theorem withTrigger_eq (s : State) :
    (withTrigger s).word .trigger = triggerOf (withTrigger s).word := by
  have hself : (withTrigger s).word .trigger = if s.word .collecting ≠ 0 ∧
      s.word .nextPage < s.word .limit then s.word .nextPage else s.word .limit := set_self ..
  rw [hself, triggerOf, withTrigger_of_ne (f := .collecting) (by decide),
    withTrigger_of_ne (f := .limit) (by decide), withTrigger_of_ne (f := .nextPage) (by decide)]
  by_cases h1 : s.word .collecting = 0
  · simp [h1]
  · by_cases h2 : s.word .limit ≤ s.word .nextPage
    · rw [if_neg fun hc => ?_, if_pos (.inr h2)]
      have hlt := hc.2
      rw [BitVec.le_def] at h2
      rw [BitVec.lt_def] at hlt
      omega
    · have hlt : s.word .nextPage < s.word .limit := by
        rw [BitVec.le_def] at h2
        rw [BitVec.lt_def]
        omega
      rw [if_pos ⟨h1, hlt⟩, if_neg (not_or.mpr ⟨h1, h2⟩)]

/-! ### Arenas -/

/-- **The accesses of a call** to a window of `size` bytes: a store goes to where the one before it
has ended and ends in the window, a load is within one input, and a checkpoint goes to an allocated
frame. -/
inductive Arena (window : Word) (size : ℕ) : ℕ → List Access → ℕ → Prop
  | nil (k : ℕ) : Arena window size k [] k
  | store {k k' n : ℕ} {l : List Access} (h : k + n ≤ size) (hl : Arena window size (k + n) l k') :
    Arena window size k (.store (window + BitVec.ofNat 64 k) n :: l) k'
  | load {k k' n : ℕ} {a : Word} {l : List Access} (h : LoadOk c a n)
      (hl : Arena window size k l k') :
    Arena window size k (.load a n :: l) k'
  | frame {k k' : ℕ} {a : Word} {l : List Access} (h : FrameOk c store.frames a)
    (hl : Arena window size k l k') : Arena window size k (.frame a :: l) k'

variable {c store}

theorem Arena.le {window : Word} {size k k' : ℕ} {l : List Access}
    (h : Arena c store window size k l k') :
    k ≤ k' ∧ (k ≤ size → k' ≤ size) := by
  induction h with
  | nil k => exact ⟨le_rfl, id⟩
  | store hn _ ih => exact ⟨by omega, fun _ => ih.2 hn⟩
  | load _ _ ih => exact ih
  | frame _ _ ih => exact ih

section
variable {r : Recipe} (hw : WellFormed r) (ha : Admitted c.isa r c.plan)
include hw ha

omit hw ha in
@[simp] theorem argued_pointer (s : State) (h : Host) :
    (argued store s h).core.gpr 7 = store.state := by
  simp [argued]

omit hw ha in
@[simp] theorem argued_state (s : State) (h : Host) : (argued store s h).state store.state = s := by
  simp [argued]

omit hw in
/-- **A call that comes back** is a run of the generated code that takes no exception: the object it
has been entered with is written back, with its limit as it was. -/
theorem invoke_run {s s' : State} {h h' : Host} (hx : invoke c store s h = some (s', h')) :
    ∃ e g n, c.run ((s.word .remaining).toNat + 1)
      ((c.enter (argued store s h)).get c.regs .entry).toNat
        (c.enter (argued store s h)) = some (e, g, n) ∧ e ≠ .faulted ∧
      s'.word = (view c.regs g).word ∧ h'.log = g.log ∧ s'.word .limit = s.word .limit := by
  unfold invoke Compiler.call at hx
  dsimp only at hx
  cases hrun : c.run ((s.word .remaining).toNat + 1)
    ((c.enter (argued store s h)).get c.regs .entry).toNat
      (c.enter (argued store s h)) with
  | none => rw [hrun] at hx; cases hx
  | some x =>
    rw [hrun] at hx
    simp only [Option.map_some] at hx
    split_ifs at hx with hf
    obtain ⟨rfl, rfl⟩ := Prod.mk.inj (Option.some.inj hx)
    have he := enter_spec (c := c) (argued store s h)
    have hsame := run_sameCall ha hrun
    obtain ⟨hexit, -, -, hlog⟩ := exit_spec (c := c) x.2.1
    have hpointer : (view c.regs x.2.1).pointer = store.state :=
      (hsame.pointer.trans he.pointer).trans (argued_pointer s h)
    rw [hpointer] at hexit
    have hword : ((c.exit x.2.1).state store.state).word = (view c.regs x.2.1).word := by
      rw [hexit, Function.update_self]
    refine ⟨x.1, x.2.1, x.2.2, rfl, hf, hword, hlog, ?_⟩
    rw [hword, hsame.limit, he.word, argued_pointer, argued_state]

theorem inside_of_fields {w : Field → Word} {offset length : ℕ}
    (hle : offset + length ≤ c.recipe.h.length)
    (hcur : w .cursor = BitVec.ofNat 64 (c.recipe.h.output + offset))
    (hlim : w .limit = BitVec.ofNat 64 (c.recipe.h.output + offset + length))
    (hstop : w .stop = BitVec.ofNat 64 (c.recipe.h.output + c.recipe.h.length))
    (hframes : w .collecting ≠ 0 → ∃ k, 0 < k ∧ (k - 1) * PAGE < c.recipe.h.length ∧
      w .nextFrame = store.frames + BitVec.ofNat 64 (k * c.frameSize) ∧
      w .nextPage = BitVec.ofNat 64 (c.recipe.h.output + k * PAGE)) :
    Inside c store.frames w ∧ (w .limit).toNat = (w .cursor).toNat + length := by
  obtain ⟨-, -, hfit⟩ := output_fits hw ha.recipe
  have h1 : (w .cursor).toNat = c.recipe.h.output + offset := by rw [hcur, toNat_small (by omega)]
  have h2 : (w .limit).toNat = c.recipe.h.output + offset + length := by
    rw [hlim, toNat_small (by omega)]
  have h3 : (w .stop).toNat = c.recipe.h.output + c.recipe.h.length := by
    rw [hstop, toNat_small (by omega)]
  exact ⟨⟨by omega, by omega, h3, hframes⟩, by omega⟩

omit hw ha in
theorem not_refused {n : Native} {offset length : ℕ} {validate : Bool}
    (h : ¬ refused c n offset length validate = true) : 0 < length ∧
      offset + length ≤ c.recipe.h.length ∧ (offset ≠ 0 → n.pages = true ∧ offset % PAGE = 0) ∧
      (validate = false → length ≠ c.recipe.h.length → n.pages = true) := by
  unfold refused at h
  simp only [Bool.or_eq_true, Bool.and_eq_true, decide_eq_true_eq, Bool.not_eq_true',
    not_or, not_and, Bool.not_eq_false] at h
  obtain ⟨⟨⟨⟨h1, h2⟩, h3⟩, h4⟩, h5⟩ := h
  refine ⟨by omega, by omega, fun ho => ?_, fun hv hl => h5 ⟨hv, hl⟩⟩
  have := h4 ho
  exact ⟨this.1, by simpa using this.2⟩

omit hw ha in
theorem attempt_refused {n : Native} {output : Word} {offset length : ℕ} {validate : Bool}
    {h : Host} (href : refused c n offset length validate = true) :
    attempt c store n output offset length validate h = some (idle true, h) := by
  unfold attempt front
  rw [if_pos href]

omit hw ha in
theorem attempt_entered {n : Native} {output : Word} {offset length : ℕ} {validate : Bool}
    {h g : Host} {s : State} (hx : front c store n output offset length validate h = .ok (s, g)) :
    attempt c store n output offset length validate h =
      (invoke c store s g).map fun x => (report output x.1 x.2, x.2) := by
  unfold attempt
  rw [hx]

/-- The fields between two windows. -/
structure Between (c : Compiler) (store : Storage) (offset : ℕ) (w : Field → Word) : Prop where
  cursor : w .cursor = BitVec.ofNat 64 (c.recipe.h.output + offset)
  stop : w .stop = BitVec.ofNat 64 (c.recipe.h.output + c.recipe.h.length)
  frames : w .collecting ≠ 0 → ∃ k, 0 < k ∧ (k - 1) * PAGE < c.recipe.h.length ∧
    w .nextFrame = store.frames + BitVec.ofNat 64 (k * c.frameSize) ∧
    w .nextPage = BitVec.ofNat 64 (c.recipe.h.output + k * PAGE)

/-- **In front of a window.** -/
theorem Between.inside {offset size : ℕ} {s : State} (hs : Between c store offset s.word)
    (window : Word) (hle : offset + size ≤ c.recipe.h.length) :
    Inside c store.frames (advanceWindow c window offset size s).word ∧
      (advanceWindow c window offset size s).word .delta =
        window - (advanceWindow c window offset size s).word .cursor ∧
      ((advanceWindow c window offset size s).word .limit).toNat =
        ((advanceWindow c window offset size s).word .cursor).toNat + size := by
  have hcur : (advanceWindow c window offset size s).word .cursor =
      BitVec.ofNat 64 (c.recipe.h.output + offset) := hs.cursor
  obtain ⟨hin, hlimit⟩ :=
    inside_of_fields hw ha (w := (advanceWindow c window offset size s).word) hle hcur
    rfl hs.stop hs.frames
  exact ⟨hin, rfl, hlimit⟩

end

end

/-! ### Both callers -/

/-- The compiler of the recipe for one byte, with the eight bytes of the return address at
`0x20000`. -/
def fillCompiler : Option Compiler :=
  (decode tinyIsa true fillRecipe).toOption.map fun p => ⟨tinyIsa, p, true, fun _ => 0x20000⟩

/-- A host in which nothing has been called. -/
def freshHost : Host where
  core := ⟨fun _ => 0, fun _ => 0, 2, 0x1f80⟩
  stack := []
  state _ := ⟨fun _ => 0, fun _ => 0, 0, fun _ => 0, 0, 0⟩
  frames _ := ⟨0, 0, 0, 0, 0, [], []⟩
  mem a := if a = 0x20001 then 0x90 else 0
  log := []

end Afterfree.Native.Replay
