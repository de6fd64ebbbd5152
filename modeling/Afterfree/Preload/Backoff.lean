import Afterfree.Recording.Templates

/-!
# Capture backoff

`preload.cpp`: a candidate call is captured, and a capture that was rejected at whatever stage is
not tried again for some sightings. What `retry` keeps is found by the entry and a size;
`enter_candidate` looks with the size of the allocation, `finish` with the length of the region that
was selected.

`Lawful` says what backoff is. `backoff_lawful`: the runs in which no capture is booked under
another size are lawful. `backoff_not_lawful`: a capture that is rejected after its region was
narrowed is tried again at once.
-/

namespace Afterfree.Preload.Backoff

open Afterfree.Codec Afterfree.Encoding
open Afterfree.Recording.Capture Afterfree.Recording.Regions Afterfree.Recording.Templates

/-! ### The table -/

/-- `Retry`. -/
structure Retry where
  entry : ℕ
  size : ℕ
  failures : ℕ
  remaining : ℕ
deriving DecidableEq

/-- `retries`. -/
abbrev Retries : Type := Fin 256 → Retry

instance slots_ne : NeZero 256 := ⟨by decide⟩

/-- The slot of a key. -/
def slot (entry size : ℕ) : Fin 256 := Fin.ofNat 256 (entry >>> 4 ^^^ size ^^^ size >>> 12)

/-- `retry`: the record of a key, a new one when its slot has another key. -/
def retry (t : Retries) (entry size : ℕ) : Retry :=
  let r := t (slot entry size)
  if r.entry ≠ entry ∨ r.size ≠ size then ⟨entry, size, 0, 0⟩ else r

/-- `backoff.remaining--`. -/
def Retry.skip (r : Retry) : Retry := { r with remaining := r.remaining - 1 }

/-- One more failure, at most six, and the sightings to skip. -/
def Retry.fail (r : Retry) : Retry :=
  let failures := min (r.failures + 1) 6
  { r with failures, remaining := 2 ^ failures - 1 }

/-- The table after the record of a key was written. -/
def book (t : Retries) (entry size : ℕ) (r : Retry) : Retries :=
  Function.update t (slot entry size) r

/-! ### Calls -/

/-- A template that is tried for a call, with what the call has. -/
structure Reuse where
  template : RecipeTemplate
  process : Process
  regs : List ℕ
  xmm : List (List UInt8)
  mxcsr : ℕ

/-- A call that discovery sees: its target, whether it is a candidate (it returns behind the call
instruction, and its target is instrumented), and its arguments, where they are allocations that
`af_size` knows and that are in state 0. -/
structure Call where
  rip : ℕ
  candidate : Bool
  args : List (Option Target)
  fsBase : ℕ
  gsBase : ℕ
  reuse : Option Reuse

/-- `capture`, with the recipe of the template when `template_reuse` is set. -/
structure Attempt where
  entryTarget : ℕ
  target : Target
  record : Recorder
  reused : Option Recipe

/-- What the producer and the later stages do with a capture: the memory and the events until the
call returns, whether the recorder rejected a call that reuses a template, `af_size` of the output,
the result, the environment, and the answers of `SHA256`, `af_submit_region` and `af_manage`. -/
structure Finishing where
  memory : ℕ → UInt8
  events : List Recording.Capture.Event
  rejection : Option String
  size : ℕ
  result : ℕ
  regions : Bool
  sha256 : Recipe → Option (List UInt8)
  submit : List UInt8 → Bool
  manage : Bool

inductive Event
  | call (c : Call)
  | finish (f : Finishing)

/-! ### What is seen of a key -/

/-- What happens to a key: a sighting is skipped or captured, a capture is rejected or accepted. -/
inductive Seen
  | skipped
  | captured
  | rejected
  | accepted
deriving DecidableEq

/-- What happened to a key, an entry with the size of an allocation, and the size that `retry` was
called with. -/
structure Note where
  entry : ℕ
  size : ℕ
  seen : Seen
  looked : ℕ
deriving DecidableEq

/-- The table, the capture, and what has happened, the newest first. -/
structure State where
  retries : Retries
  capture : Option Attempt
  log : List Note

/-- The state at the start of the program. -/
def start : State := ⟨fun _ => ⟨0, 0, 0, 0⟩, none, []⟩

/-! ### Entry and return of a call -/

/-- What the template gives for a call. -/
def instantiated (c : Call) (t : Target) : Option (Recipe × Recorder) :=
  c.reuse.bind fun u =>
    u.template.instantiate u.process (Recorder.make t c.fsBase c.gsBase) u.regs u.xmm u.mxcsr

/-- The capture of an allocation. -/
def attempt (c : Call) (t : Target) : Attempt :=
  match instantiated c t with
  | some (recipe, record) => ⟨c.rip, t, record, some recipe⟩
  | none => ⟨c.rip, t, Recorder.make t c.fsBase c.gsBase, none⟩

/-- The loop of `enter_candidate` over the arguments. -/
def sight (c : Call) : List (Option Target) → State → State
  | [], s => s
  | none :: rest, s => sight c rest s
  | some t :: rest, s =>
    let backoff := retry s.retries c.rip t.length
    if backoff.remaining ≠ 0 then
      sight c rest
        { s with
          retries := book s.retries c.rip t.length backoff.skip
          log := ⟨c.rip, t.length, .skipped, t.length⟩ :: s.log }
    else
      ⟨book s.retries c.rip t.length backoff, some (attempt c t),
        ⟨c.rip, t.length, .captured, t.length⟩ :: s.log⟩

/-- `enter_candidate`. -/
def enterCandidate (s : State) (c : Call) : State :=
  if s.capture.isSome ∨ !c.candidate then s else sight c c.args s

/-- `capture->recipe.h.length`. -/
def Attempt.length (a : Attempt) : ℕ :=
  match a.reused with
  | some recipe => recipe.h.length
  | none => a.record.h.length

/-- The recipe of a capture, when the recorder has one. -/
def recorded (a : Attempt) (f : Finishing) : Except String Recipe :=
  match a.reused with
  | some recipe =>
    match f.rejection with
    | some why => .error why
    | none => .ok { recipe with h := { recipe.h with result := f.result } }
  | none => (capture f.memory a.record f.events).2.finish f.result f.regions

/-- The stages behind the recorder: the digest, the encoding, the submission, the management. -/
def delivered (recipe : Recipe) (f : Finishing) : Bool :=
  match f.sha256 recipe with
  | none => false
  | some digest =>
    match encode { recipe with h := { recipe.h with digest } } with
    | .error _ => false
    | .ok blob => f.submit blob && f.manage

/-- The `try` of `finish`: the value of `size` at its end, and whether it was left by an exception.
-/
def concluded (a : Attempt) (f : Finishing) : ℕ × Bool :=
  if f.size ≠ a.length then (a.length, false)
  else
    match recorded a f with
    | .error _ => (a.length, false)
    | .ok recipe => (recipe.h.length, delivered recipe f)

/-- The end of `finish`: the table is told, and the capture is over. -/
def settle (s : State) (a : Attempt) (size : ℕ) (accepted : Bool) : State :=
  if accepted then
    ⟨book s.retries a.entryTarget size ⟨a.entryTarget, size, 0, 0⟩, none,
      ⟨a.entryTarget, a.target.length, .accepted, size⟩ :: s.log⟩
  else
    ⟨book s.retries a.entryTarget size (retry s.retries a.entryTarget size).fail, none,
      ⟨a.entryTarget, a.target.length, .rejected, size⟩ :: s.log⟩

/-- `finish`. -/
def finish (s : State) (f : Finishing) : State :=
  match s.capture with
  | none => s
  | some a => settle s a (concluded a f).1 (concluded a f).2

/-- One event. -/
def step (s : State) : Event → State
  | .call c => enterCandidate s c
  | .finish f => finish s f

/-- The states of the runs whose steps meet a condition. -/
inductive Reached (ok : State → Event → Prop) : State → Prop
  | start : Reached ok start
  | step {s : State} (e : Event) (hs : Reached ok s) (he : ok s e) : Reached ok (step s e)

/-! ### Backoff

What was seen of a key, the newest first. -/

/-- How many captures were rejected since one was accepted. -/
def failures : List Seen → ℕ
  | [] => 0
  | .skipped :: t => failures t
  | .captured :: t => failures t
  | .rejected :: t => failures t + 1
  | .accepted :: _ => 0

/-- How many sightings were skipped since a capture was decided. -/
def skips : List Seen → ℕ
  | [] => 0
  | .skipped :: t => skips t + 1
  | .captured :: t => skips t
  | .rejected :: _ => 0
  | .accepted :: _ => 0

/-- How many sightings are to be skipped before the next capture. -/
def due (t : List Seen) : ℕ := 2 ^ min (failures t) 6 - 1

/-- **Backoff.** Sightings are skipped until as many were skipped as are due; the following one is
captured. -/
def Lawful : List Seen → Prop
  | [] => True
  | .skipped :: t => skips t < due t ∧ Lawful t
  | .captured :: t => skips t = due t ∧ Lawful t
  | .rejected :: t => Lawful t
  | .accepted :: t => Lawful t

/-- What was seen of a key. -/
def trace (entry size : ℕ) (log : List Note) : List Seen :=
  (log.filter fun n => n.entry = entry ∧ n.size = size).map Note.seen

/-- No other key was looked up in the slot of this one. -/
def Alone (entry size : ℕ) (log : List Note) : Prop :=
  ∀ n ∈ log, n.entry ≠ entry ∨ n.looked ≠ size → slot n.entry n.looked ≠ slot entry size

/-- The recorder selects a region of an allocation of the entry, where the allocation or the region
has the size of the key, only when all later stages accept the capture and no rejection counts. -/
def Clean (entry size : ℕ) (s : State) (e : Event) : Prop :=
  ∀ f a recipe, e = .finish f → s.capture = some a → a.entryTarget = entry →
    f.size = a.target.length → recorded a f = .ok recipe → recipe.h.length ≠ a.target.length →
    a.target.length = size ∨ recipe.h.length = size →
      delivered recipe f = true ∧ failures (trace entry size s.log) = 0

/-! ### The records of the table -/

section Table

variable {t : Retries} {entry size : ℕ}

theorem retry_key (t : Retries) (entry size : ℕ) :
    (retry t entry size).entry = entry ∧ (retry t entry size).size = size := by
  dsimp only [retry]
  split_ifs with h
  · exact ⟨rfl, rfl⟩
  · push Not at h
    exact h

theorem retry_start (entry size : ℕ) : retry start.retries entry size = ⟨entry, size, 0, 0⟩ := by
  by_cases h : (⟨0, 0, 0, 0⟩ : Retry).entry ≠ entry ∨ (⟨0, 0, 0, 0⟩ : Retry).size ≠ size
  · exact if_pos h
  · obtain ⟨rfl, rfl⟩ : 0 = entry ∧ 0 = size := by simpa [not_or] using h
    rfl

theorem retry_book {r : Retry} (hentry : r.entry = entry) (hsize : r.size = size) :
    retry (book t entry size r) entry size = r := by
  simp [retry, book, hentry, hsize]

theorem retry_book_new :
    retry (book t entry size ⟨entry, size, 0, 0⟩) entry size = ⟨entry, size, 0, 0⟩ :=
  retry_book rfl rfl

theorem retry_book_of_ne {entry' size' : ℕ} (h : slot entry' size' ≠ slot entry size) (r : Retry) :
    retry (book t entry' size' r) entry size = retry t entry size := by
  simp only [retry, book, Function.update_of_ne (Ne.symm h)]

end Table

theorem trace_cons (entry size : ℕ) (n : Note) (log : List Note) :
    trace entry size (n :: log) =
      if n.entry = entry ∧ n.size = size then n.seen :: trace entry size log
      else trace entry size log := by
  unfold trace
  by_cases h : n.entry = entry ∧ n.size = size
  · rw [if_pos h, List.filter_cons_of_pos (by simpa using h), List.map_cons]
  · rw [if_neg h, List.filter_cons_of_neg (by simpa using h)]

theorem Alone.tail {entry size : ℕ} {n : Note} {log : List Note} (h : Alone entry size (n :: log)) :
    Alone entry size log := fun x hx => h x (List.mem_cons_of_mem n hx)

/-! ### The invariant -/

/-- The record of a key knows how many rejections count and how many sightings are still skipped. -/
structure Kept (entry size : ℕ) (t : Retries) (log : List Note) : Prop where
  lawful : Lawful (trace entry size log)
  failures : (retry t entry size).failures = min (failures (trace entry size log)) 6
  remaining : skips (trace entry size log) + (retry t entry size).remaining =
    due (trace entry size log)

theorem kept_start (entry size : ℕ) : Kept entry size start.retries start.log := by
  refine ⟨trivial, ?_, ?_⟩
  · rw [retry_start]
    rfl
  · rw [retry_start]
    rfl

theorem Kept.other {entry size : ℕ} {t : Retries} {log : List Note} (h : Kept entry size t log)
    {n : Note} {r : Retry} (hn : ¬ (n.entry = entry ∧ n.size = size))
    (hslot : slot n.entry n.looked ≠ slot entry size) :
    Kept entry size (book t n.entry n.looked r) (n :: log) := by
  have htrace := trace_cons entry size n log
  rw [if_neg hn] at htrace
  exact ⟨htrace ▸ h.lawful, by rw [retry_book_of_ne hslot, htrace, h.failures],
    by rw [retry_book_of_ne hslot, htrace, h.remaining]⟩

section Key

variable {entry size : ℕ} {t : Retries} {log : List Note}

theorem trace_key (seen : Seen) (looked : ℕ) :
    trace entry size (⟨entry, size, seen, looked⟩ :: log) = seen :: trace entry size log := by
  rw [trace_cons, if_pos ⟨rfl, rfl⟩]

theorem Kept.skipped (h : Kept entry size t log) (hr : (retry t entry size).remaining ≠ 0) :
    Kept entry size (book t entry size (retry t entry size).skip)
      (⟨entry, size, .skipped, size⟩ :: log) := by
  obtain ⟨hentry, hsize⟩ := retry_key t entry size
  have hbook : retry (book t entry size (retry t entry size).skip) entry size =
      (retry t entry size).skip := retry_book hentry hsize
  have hremaining := h.remaining
  refine ⟨?_, ?_, ?_⟩
  · rw [trace_key]
    exact ⟨by omega, h.lawful⟩
  · rw [trace_key, hbook]
    exact h.failures
  · rw [trace_key, hbook]
    simp only [skips, due, Backoff.failures, Retry.skip] at hremaining ⊢
    omega

theorem Kept.captured (h : Kept entry size t log) (hr : (retry t entry size).remaining = 0) :
    Kept entry size (book t entry size (retry t entry size))
      (⟨entry, size, .captured, size⟩ :: log) := by
  obtain ⟨hentry, hsize⟩ := retry_key t entry size
  have hremaining := h.remaining
  refine ⟨?_, ?_, ?_⟩
  · rw [trace_key]
    exact ⟨by omega, h.lawful⟩
  · rw [trace_key, retry_book hentry hsize]
    exact h.failures
  · rw [trace_key, retry_book hentry hsize]
    exact hremaining

theorem Kept.rejected (h : Kept entry size t log) :
    Kept entry size (book t entry size (retry t entry size).fail)
      (⟨entry, size, .rejected, size⟩ :: log) := by
  obtain ⟨hentry, hsize⟩ := retry_key t entry size
  have hbook : retry (book t entry size (retry t entry size).fail) entry size =
      (retry t entry size).fail := retry_book hentry hsize
  have hfailures := h.failures
  have hcount : min ((retry t entry size).failures + 1) 6 =
      min (Backoff.failures (trace entry size log) + 1) 6 := by omega
  refine ⟨?_, ?_, ?_⟩
  · rw [trace_key]
    exact h.lawful
  · rw [trace_key, hbook]
    exact hcount
  · rw [trace_key, hbook]
    simp only [skips, due, Backoff.failures, Retry.fail, hcount]
    omega

theorem Kept.accepted (h : Kept entry size t log) :
    Kept entry size (book t entry size ⟨entry, size, 0, 0⟩)
      (⟨entry, size, .accepted, size⟩ :: log) := by
  refine ⟨?_, ?_, ?_⟩
  · rw [trace_key]
    exact h.lawful
  · rw [trace_key, retry_book_new]
    rfl
  · rw [trace_key, retry_book_new]
    rfl

theorem Kept.accepted_elsewhere (h : Kept entry size t log) {looked : ℕ} (r : Retry)
    (hslot : slot entry looked ≠ slot entry size)
    (hnone : Backoff.failures (trace entry size log) = 0) :
    Kept entry size (book t entry looked r) (⟨entry, size, .accepted, looked⟩ :: log) := by
  have hfailures := h.failures
  have hremaining := h.remaining
  rw [due, hnone] at hremaining
  rw [hnone] at hfailures
  refine ⟨?_, ?_, ?_⟩
  · rw [trace_key]
    exact h.lawful
  · rw [trace_key, retry_book_of_ne hslot]
    simpa [Backoff.failures] using hfailures
  · rw [trace_key, retry_book_of_ne hslot]
    simp only [skips, due, Backoff.failures]
    simp only [Nat.zero_min, pow_zero, Nat.sub_self] at hremaining ⊢
    omega

theorem Kept.accepted_here (h : Kept entry size t log) {n : Note}
    (hn : ¬ (n.entry = entry ∧ n.size = size))
    (hnone : Backoff.failures (trace entry size log) = 0) :
    Kept entry size (book t entry size ⟨entry, size, 0, 0⟩) (n :: log) := by
  have htrace := trace_cons entry size n log
  rw [if_neg hn] at htrace
  have hremaining := h.remaining
  rw [due, hnone] at hremaining
  refine ⟨?_, ?_, ?_⟩
  · rw [htrace]
    exact h.lawful
  · rw [htrace, retry_book_new, hnone]
    rfl
  · rw [htrace, retry_book_new, due, hnone]
    simp only [Nat.zero_min, pow_zero, Nat.sub_self] at hremaining ⊢
    omega

end Key

/-! ### The steps -/

/-- The length of a capture is that of its allocation. -/
def Whole (s : State) : Prop := ∀ a, s.capture = some a → a.length = a.target.length

theorem attempt_length (c : Call) (t : Target) :
    (attempt c t).length = (attempt c t).target.length := by
  unfold attempt
  cases h : instantiated c t with
  | none => rfl
  | some x =>
    obtain ⟨u, -, hu⟩ := Option.bind_eq_some_iff.mp h
    obtain ⟨hlength, -, hrecipe, -⟩ := RecipeTemplate.instantiate_ok hu
    exact hrecipe.trans hlength.symm

theorem sight_log (c : Call) (args : List (Option Target)) (s : State) :
    ∀ n ∈ s.log, n ∈ (sight c args s).log := by
  induction args generalizing s with
  | nil => exact fun n hn => hn
  | cons arg rest ih =>
    intro n hn
    cases arg with
    | none => exact ih s n hn
    | some t =>
      unfold sight
      by_cases hr : (retry s.retries c.rip t.length).remaining ≠ 0
      · simp only [if_pos hr]
        exact ih _ n (List.mem_cons_of_mem _ hn)
      · simp only [if_neg hr]
        exact List.mem_cons_of_mem _ hn

theorem settle_log (s : State) (a : Attempt) (size : ℕ) (accepted : Bool) :
    ∃ seen, (settle s a size accepted).log =
      ⟨a.entryTarget, a.target.length, seen, size⟩ :: s.log := by
  cases accepted with
  | true => exact ⟨.accepted, rfl⟩
  | false => exact ⟨.rejected, rfl⟩

theorem step_log (s : State) (e : Event) : ∀ n ∈ s.log, n ∈ (step s e).log := by
  intro n hn
  cases e with
  | call c =>
    simp only [step, enterCandidate]
    by_cases h : s.capture.isSome ∨ !c.candidate
    · rw [if_pos h]
      exact hn
    · rw [if_neg h]
      exact sight_log c c.args s n hn
  | finish f =>
    simp only [step, finish]
    cases s.capture with
    | none => exact hn
    | some a =>
      obtain ⟨seen, hlog⟩ := settle_log s a (concluded a f).1 (concluded a f).2
      rw [hlog]
      exact List.mem_cons_of_mem _ hn

/-- Everything a run keeps of a key. -/
structure Inv (entry size : ℕ) (s : State) : Prop where
  kept : Kept entry size s.retries s.log
  whole : ∀ a, s.capture = some a → a.length = a.target.length

variable {entry size : ℕ}

theorem Inv.sight {c : Call} {args : List (Option Target)} {s : State} (h : Inv entry size s)
    (halone : Alone entry size (sight c args s).log) : Inv entry size (sight c args s) := by
  induction args generalizing s with
  | nil => exact h
  | cons arg rest ih =>
    cases arg with
    | none => exact ih h halone
    | some t =>
      unfold Backoff.sight at halone ⊢
      -- the first note of the argument is in the log at the end
      by_cases hr : (retry s.retries c.rip t.length).remaining ≠ 0
      · simp only [if_pos hr] at halone ⊢
        refine ih ⟨?_, h.whole⟩ halone
        have hnote := halone ⟨c.rip, t.length, .skipped, t.length⟩ (sight_log _ _ _ _ (by simp))
        by_cases hkey : c.rip = entry ∧ t.length = size
        · obtain ⟨rfl, rfl⟩ := hkey
          exact h.kept.skipped hr
        · exact h.kept.other (n := ⟨c.rip, t.length, .skipped, t.length⟩) hkey
            (hnote (by rwa [not_and_or] at hkey))
      · simp only [if_neg hr] at halone ⊢
        refine ⟨?_, fun a ha => ?_⟩
        · have hnote := halone ⟨c.rip, t.length, .captured, t.length⟩ (by simp)
          by_cases hkey : c.rip = entry ∧ t.length = size
          · obtain ⟨rfl, rfl⟩ := hkey
            exact h.kept.captured (not_not.mp hr)
          · exact h.kept.other (n := ⟨c.rip, t.length, .captured, t.length⟩) hkey
              (hnote (by rwa [not_and_or] at hkey))
        · cases ha
          exact attempt_length c t

theorem concluded_cases (a : Attempt) (f : Finishing) :
    (concluded a f).1 = a.length ∨
      (f.size = a.length ∧ ∃ recipe, recorded a f = .ok recipe ∧
        concluded a f = (recipe.h.length, delivered recipe f)) := by
  unfold concluded
  by_cases hsize : f.size ≠ a.length
  · rw [if_pos hsize]
    exact .inl rfl
  · rw [if_neg hsize]
    cases hrecorded : recorded a f with
    | error why => exact .inl rfl
    | ok recipe => exact .inr ⟨not_not.mp hsize, recipe, rfl, rfl⟩

theorem Inv.settle_own {s : State} {a : Attempt} (h : Inv a.entryTarget a.target.length s)
    (accepted : Bool) :
    Inv a.entryTarget a.target.length (settle s a a.target.length accepted) := by
  cases accepted with
  | true => exact ⟨h.kept.accepted, fun _ hnone => absurd hnone (by simp [settle])⟩
  | false => exact ⟨h.kept.rejected, fun _ hnone => absurd hnone (by simp [settle])⟩

theorem Inv.settle_other {s : State} {a : Attempt} {looked : ℕ} (h : Inv entry size s)
    (hkey : ¬ (a.entryTarget = entry ∧ a.target.length = size))
    (hslot : slot a.entryTarget looked ≠ slot entry size) (accepted : Bool) :
    Inv entry size (settle s a looked accepted) := by
  cases accepted with
  | true =>
    exact ⟨h.kept.other (n := ⟨_, _, .accepted, looked⟩) hkey hslot,
      fun _ hnone => absurd hnone (by simp [settle])⟩
  | false =>
    exact ⟨h.kept.other (n := ⟨_, _, .rejected, looked⟩) hkey hslot,
      fun _ hnone => absurd hnone (by simp [settle])⟩

theorem Inv.settle_region {s : State} {a : Attempt} {looked : ℕ} (h : Inv a.entryTarget size s)
    (hrelated : a.target.length = size ∨ looked = size)
    (hslot : looked ≠ size → slot a.entryTarget looked ≠ slot a.entryTarget size)
    (hlooked : looked ≠ a.target.length)
    (hnone : failures (trace a.entryTarget size s.log) = 0) :
    Inv a.entryTarget size (settle s a looked true) := by
  refine ⟨?_, fun _ hsome => absurd hsome (by simp [settle])⟩
  by_cases hkey : a.target.length = size
  · subst hkey
    exact h.kept.accepted_elsewhere _ (hslot hlooked) hnone
  · obtain rfl : looked = size := hrelated.resolve_left hkey
    exact h.kept.accepted_here (fun hn => hkey hn.2) hnone

theorem Inv.finish {s : State} {f : Finishing} (h : Inv entry size s)
    (hclean : Clean entry size s (.finish f)) (halone : Alone entry size (finish s f).log) :
    Inv entry size (finish s f) := by
  unfold Backoff.finish at halone ⊢
  cases hcapture : s.capture with
  | none =>
    simp only
    exact h
  | some a =>
    simp only [hcapture] at halone ⊢
    have hwhole := h.whole a hcapture
    have hcases := concluded_cases a f
    -- the slot that is written is looked up for this key or is another one
    have hslot : a.entryTarget ≠ entry ∨ (concluded a f).1 ≠ size →
        slot a.entryTarget (concluded a f).1 ≠ slot entry size := by
      obtain ⟨seen, hlog⟩ := settle_log s a (concluded a f).1 (concluded a f).2
      exact halone ⟨a.entryTarget, a.target.length, seen, (concluded a f).1⟩
        (hlog ▸ List.mem_cons_self ..)
    by_cases hbooked : (concluded a f).1 = a.target.length
    · rw [hbooked] at hslot ⊢
      by_cases hkey : a.entryTarget = entry ∧ a.target.length = size
      · obtain ⟨rfl, rfl⟩ := hkey
        exact h.settle_own _
      · exact h.settle_other hkey (hslot (by rwa [not_and_or] at hkey)) _
    · obtain hlooked | ⟨hsize, recipe, hrecorded, hx⟩ := hcases
      · exact absurd (hlooked.trans hwhole) hbooked
      · rw [hx] at hslot hbooked ⊢
        rw [hwhole] at hsize
        by_cases hrelated :
          a.entryTarget = entry ∧ (a.target.length = size ∨ recipe.h.length = size)
        · obtain ⟨rfl, hrelated⟩ := hrelated
          obtain ⟨hdelivered, hnone⟩ :=
            hclean f a recipe rfl hcapture rfl hsize hrecorded hbooked hrelated
          rw [hdelivered]
          exact h.settle_region hrelated (fun hne => hslot (.inr hne)) hbooked hnone
        · have hkey : ¬ (a.entryTarget = entry ∧ a.target.length = size) :=
            fun hk => hrelated ⟨hk.1, .inl hk.2⟩
          have hlooked : a.entryTarget ≠ entry ∨ recipe.h.length ≠ size := by
            rw [← not_and_or]
            exact fun hk => hrelated ⟨hk.1, .inr hk.2⟩
          exact h.settle_other hkey (hslot hlooked) _

/-- **One step.** -/
theorem Inv.step {s : State} {e : Event} (h : Inv entry size s) (hclean : Clean entry size s e)
    (halone : Alone entry size (step s e).log) : Inv entry size (step s e) := by
  cases e with
  | call c =>
    simp only [Backoff.step, enterCandidate] at halone ⊢
    by_cases hbusy : s.capture.isSome ∨ !c.candidate
    · rw [if_pos hbusy]
      exact h
    · rw [if_neg hbusy] at halone ⊢
      exact h.sight halone
  | finish f => exact h.finish hclean halone

/-- **Runs.** -/
theorem inv_of_reached {s : State} (h : Reached (Clean entry size) s)
    (halone : Alone entry size s.log) : Inv entry size s := by
  induction h with
  | start => exact ⟨kept_start entry size, fun _ h => absurd h (by simp [start])⟩
  | step e hs hclean ih =>
    exact (ih fun n hn => halone n (step_log _ e n hn)).step hclean halone

/-- **Backoff holds** in every run in which the recorder selects a region of an allocation of the
entry, where the allocation or the region has the size of the key, only when all later stages accept
the capture and no rejection counts. -/
theorem backoff_lawful (entry size : ℕ) (s : State) (h : Reached (Clean entry size) s)
    (halone : Alone entry size s.log) : Lawful (trace entry size s.log) :=
  (inv_of_reached h halone).kept.lawful

/-! ### Runs -/

/-- An allocation of seventeen pages that is an argument of a candidate. -/
def sampleTarget : Target := ⟨0x10000, 69632, buffer_aligned, by decide, by decide⟩

def sampleCall : Call := ⟨0x401000, true, [some sampleTarget], 0, 0, none⟩

/-- The producer does what the events say, and the daemon refuses the recipe. -/
def sampleFinishing (events : List Recording.Capture.Event) : Finishing where
  memory := fun _ => 0
  events := events
  rejection := none
  size := 69632
  result := 5
  regions := true
  sha256 := fun _ => some (List.replicate 32 0)
  submit := fun _ => false
  manage := false

theorem sample_delivered (events : List Recording.Capture.Event) (recipe : Recipe) :
    delivered recipe (sampleFinishing events) = false := by
  simp only [delivered, sampleFinishing]
  split
  · rfl
  · simp

section SampleCall

variable {s : State}

theorem step_captured (hnone : s.capture = none)
    (hr : (retry s.retries 0x401000 69632).remaining = 0) :
    step s (.call sampleCall) =
      ⟨book s.retries 0x401000 69632 (retry s.retries 0x401000 69632),
        some (attempt sampleCall sampleTarget), ⟨0x401000, 69632, .captured, 69632⟩ :: s.log⟩ := by
  simp [step, enterCandidate, hnone, sampleCall, sight, sampleTarget, hr]

theorem step_skipped (hnone : s.capture = none)
    (hr : (retry s.retries 0x401000 69632).remaining ≠ 0) :
    step s (.call sampleCall) =
      ⟨book s.retries 0x401000 69632 (retry s.retries 0x401000 69632).skip, none,
        ⟨0x401000, 69632, .skipped, 69632⟩ :: s.log⟩ := by
  simp [step, enterCandidate, hnone, sampleCall, sight, sampleTarget, hr]

theorem step_rejected (hcapture : s.capture = some (attempt sampleCall sampleTarget))
    (events : List Recording.Capture.Event) {looked : ℕ}
    (hlooked : (concluded (attempt sampleCall sampleTarget) (sampleFinishing events)) =
      (looked, false)) :
    step s (.finish (sampleFinishing events)) =
      ⟨book s.retries 0x401000 looked (retry s.retries 0x401000 looked).fail, none,
        ⟨0x401000, 69632, .rejected, looked⟩ :: s.log⟩ := by
  simp only [step, finish, hcapture, hlooked]
  rfl

end SampleCall

theorem concluded_region :
    concluded (attempt sampleCall sampleTarget) (sampleFinishing regionEvents) =
      (65536, false) := by
  obtain ⟨recipe, hfinish, hlength⟩ := regionEvents_finish
  have hrecorded : recorded (attempt sampleCall sampleTarget) (sampleFinishing regionEvents) =
      .ok recipe := hfinish
  rw [concluded, if_neg (by decide), hrecorded]
  simp only [sample_delivered, hlength]

theorem concluded_nothing :
    concluded (attempt sampleCall sampleTarget) (sampleFinishing []) = (69632, false) := rfl

/-- The first call, and its return. -/
def sampleCaptured : State := step start (.call sampleCall)

theorem sampleCaptured_eq : sampleCaptured =
    ⟨book start.retries 0x401000 69632 ⟨0x401000, 69632, 0, 0⟩,
      some (attempt sampleCall sampleTarget), [⟨0x401000, 69632, .captured, 69632⟩]⟩ := by
  have hretry := retry_start 0x401000 69632
  rw [sampleCaptured, step_captured rfl (by rw [hretry]), hretry]
  rfl

/-- The call returns with a region. -/
def sampleReturned : State := step sampleCaptured (.finish (sampleFinishing regionEvents))

theorem sampleReturned_eq : sampleReturned =
    ⟨book sampleCaptured.retries 0x401000 65536 (retry sampleCaptured.retries 0x401000 65536).fail,
      none,
      ⟨0x401000, 69632, .rejected, 65536⟩ :: sampleCaptured.log⟩ :=
  step_rejected (congrArg State.capture sampleCaptured_eq) regionEvents concluded_region

theorem sampleReturned_retry : (retry sampleReturned.retries 0x401000 69632).remaining = 0 := by
  have hslot : slot 0x401000 65536 ≠ slot 0x401000 69632 := by decide
  rw [sampleReturned_eq]
  dsimp only
  rw [retry_book_of_ne hslot, sampleCaptured_eq]
  dsimp only
  rw [retry_book_new]

/-- The next call. -/
def sampleAgain : State := step sampleReturned (.call sampleCall)

theorem sampleAgain_log : sampleAgain.log =
    [⟨0x401000, 69632, .captured, 69632⟩, ⟨0x401000, 69632, .rejected, 65536⟩,
      ⟨0x401000, 69632, .captured, 69632⟩] := by
  rw [sampleAgain, step_captured (congrArg State.capture sampleReturned_eq) sampleReturned_retry,
    sampleReturned_eq, sampleCaptured_eq]

/-- **The size at the return is another one.** A capture that is rejected after its region was
selected is tried again at the next call. -/
theorem backoff_not_lawful : ¬ ∀ (entry size : ℕ) (s : State), Reached (fun _ _ => True) s →
    Alone entry size s.log → Lawful (trace entry size s.log) := by
  intro hall
  have hcaptured : Reached (fun _ _ => True) sampleCaptured := .step _ .start trivial
  have hreturned : Reached (fun _ _ => True) sampleReturned := .step _ hcaptured trivial
  have hagain : Reached (fun _ _ => True) sampleAgain := .step _ hreturned trivial
  have hlog := sampleAgain_log
  generalize sampleAgain = s at hagain hlog
  have halone : Alone 0x401000 69632 s.log := by
    rw [hlog]
    unfold Alone
    decide
  have hlawful := hall 0x401000 69632 s hagain halone
  rw [hlog] at hlawful
  -- one sighting was due to be skipped
  exact absurd hlawful.1 (by decide)

/-! ### A run that the condition allows -/

/-- The call returns without a record, and comes again twice. -/
def sampleRejected : State := step sampleCaptured (.finish (sampleFinishing []))

theorem sampleRejected_eq : sampleRejected =
    ⟨book sampleCaptured.retries 0x401000 69632 (retry sampleCaptured.retries 0x401000 69632).fail,
      none,
      ⟨0x401000, 69632, .rejected, 69632⟩ :: sampleCaptured.log⟩ :=
  step_rejected (congrArg State.capture sampleCaptured_eq) [] concluded_nothing

theorem sampleRejected_retry :
    retry sampleRejected.retries 0x401000 69632 = ⟨0x401000, 69632, 1, 1⟩ := by
  have hcaptured : retry sampleCaptured.retries 0x401000 69632 = ⟨0x401000, 69632, 0, 0⟩ := by
    rw [sampleCaptured_eq]
    exact retry_book_new
  rw [sampleRejected_eq]
  dsimp only
  rw [hcaptured]
  exact retry_book rfl rfl

def sampleSkipped : State := step sampleRejected (.call sampleCall)

theorem sampleSkipped_eq : sampleSkipped =
    ⟨book sampleRejected.retries 0x401000 69632 ⟨0x401000, 69632, 1, 0⟩, none,
      ⟨0x401000, 69632, .skipped, 69632⟩ :: sampleRejected.log⟩ := by
  have hremaining : (retry sampleRejected.retries 0x401000 69632).remaining ≠ 0 := by
    rw [sampleRejected_retry]
    decide
  rw [sampleSkipped, step_skipped (congrArg State.capture sampleRejected_eq) hremaining,
    sampleRejected_retry]
  rfl

def sampleResumed : State := step sampleSkipped (.call sampleCall)

theorem sampleResumed_log : sampleResumed.log =
    [⟨0x401000, 69632, .captured, 69632⟩, ⟨0x401000, 69632, .skipped, 69632⟩,
      ⟨0x401000, 69632, .rejected, 69632⟩, ⟨0x401000, 69632, .captured, 69632⟩] := by
  have hremaining : (retry sampleSkipped.retries 0x401000 69632).remaining = 0 := by
    rw [sampleSkipped_eq]
    exact congrArg Retry.remaining
      (@retry_book sampleRejected.retries 0x401000 69632 ⟨0x401000, 69632, 1, 0⟩ rfl rfl)
  rw [sampleResumed, step_captured (congrArg State.capture sampleSkipped_eq) hremaining,
    sampleSkipped_eq, sampleRejected_eq, sampleCaptured_eq]

/-- A rejection by the recorder is found again. -/
theorem backoff_lawful_sample : ∃ s, Reached (Clean 0x401000 69632) s ∧
    trace 0x401000 69632 s.log = [.captured, .skipped, .rejected, .captured] ∧
    Lawful (trace 0x401000 69632 s.log) := by
  have hcall : ∀ s, Clean 0x401000 69632 s (.call sampleCall) := fun s f a recipe he => by cases he
  have hfinish : Clean 0x401000 69632 sampleCaptured (.finish (sampleFinishing [])) := by
    intro f a recipe he ha _ _ hrecorded
    cases he
    rw [sampleCaptured_eq] at ha
    cases ha
    cases hrecorded
  have hreached : Reached (Clean 0x401000 69632) sampleResumed :=
    .step _ (.step _ (.step _ (.step _ .start (hcall _)) hfinish) (hcall _)) (hcall _)
  have hlog := sampleResumed_log
  generalize sampleResumed = s at hreached hlog
  have halone : Alone 0x401000 69632 s.log := by
    rw [hlog]
    unfold Alone
    decide
  refine ⟨s, hreached, ?_, backoff_lawful 0x401000 69632 s hreached halone⟩
  rw [hlog]
  rfl

end Afterfree.Preload.Backoff
