import Afterfree.Loops.ReadPlan
import Afterfree.Recording.Writes

/-!
# Inline capture of native loops

`recorder.hpp`: at the branch of a short loop `inline_loop` runs the rest of the loop outside the
instrumentation, adds the instructions of its iterations to the steps and writes the span of its
stores in pieces of 64 KiB. The instructions themselves are only recorded by `block`, when the body
has been entered before.

A run is a list of steps, events or loops (`Step`). In the plain capture a loop is the events of its
iterations; `inline_plain` compares it with the capture that runs loops inline.
-/

namespace Afterfree.Recording.Inline

open Afterfree.Common Afterfree.Codec
open Afterfree.Loops.ReadPlan (NativeLoop)
open Afterfree.Recording.Capture Afterfree.Recording.Capture.Recorder Afterfree.Recording.Runs
open Afterfree.Recording.Regions Afterfree.Recording.Counting Afterfree.Recording.Bounds
open Afterfree.Recording.Writes

/-! ### The loop -/

/-- `NativeLoop::Trace`, kept by the generated code while it runs. -/
structure Trace where
  frontier : ℕ
  limit : ℕ
  invalid : Bool
deriving DecidableEq, Repr

/-- The check before a store: it continues the frontier, without a carry and below the limit. -/
def Trace.store (t : Trace) (addr size : ℕ) : Trace :=
  if addr ≠ t.frontier ∨ UINT64_MAX < addr + size ∨ t.limit < addr + size then
    { t with invalid := true }
  else { t with frontier := addr + size }

/-- A run of `NativeLoop::run` on a traced loop at `head`: the instructions of the body with the
branch at its end, and the stores of each iteration, whose operands have a size. `fresh` are the
instructions that the plain capture instruments when it enters the loop at its head. -/
structure LoopRun where
  loop : NativeLoop
  head : ℕ
  after : ℕ
  instructions : List Analysis
  iterations : List (List (ℕ × List UInt8))
  fresh : List Analysis
  counted : instructions.length = loop.instructionCount
  nonempty : instructions ≠ []
  inside : ∀ a ∈ instructions, head ≤ a.address ∧ a.address < after
  distinct : (instructions.map Analysis.address).Nodup
  sized : ∀ stores ∈ iterations, ∀ s ∈ stores, 0 < s.2.length ∧ s.2.length ≤ 16
  fresh_sub : ∀ a ∈ fresh, a ∈ instructions

/-- `writes_output`. -/
def writesOutput (loop : NativeLoop) : Bool :=
  match loop.output with
  | some a => decide (a.width ≠ 0)
  | none => false

/-- The checks of some stores. -/
def Trace.stores (t : Trace) (ss : List (ℕ × List UInt8)) : Trace :=
  ss.foldl (fun t s => t.store s.1 s.2.length) t

namespace LoopRun

/-- Where `inline_loop` expects the first store. -/
def first (l : LoopRun) (r : Recorder) : ℕ :=
  if writesOutput l.loop then r.lastStoreEnd else r.outputFrontier

/-- The trace after the loop. -/
def trace (l : LoopRun) (r : Recorder) : Trace :=
  l.iterations.foldl Trace.stores ⟨l.first r, r.h.output + r.h.length, false⟩

/-- `trace.valid`. -/
def valid (l : LoopRun) (r : Recorder) : Bool :=
  !(l.trace r).invalid && decide (l.iterations.length ≤ 500000000 / l.loop.instructionCount)

/-- The number of bytes that the loop stores. -/
def stored (l : LoopRun) : ℕ := (l.iterations.flatten.map fun x => x.2.length).sum

/-- The number of pages of its span. -/
def spanPages (l : LoopRun) (r : Recorder) : ℕ := rounded (l.first r % PAGE + l.stored) / PAGE

/-- The events of some iterations. -/
def body (l : LoopRun) (its : List (List (ℕ × List UInt8))) : List Event :=
  its.flatMap fun stores => .block l.head l.after :: stores.map fun s => .write s.1 s.2

/-- What the plain capture sees of the loop. -/
def plain (l : LoopRun) : List Event :=
  if l.iterations = [] then [] else l.fresh.map Event.rule ++ l.body l.iterations

end LoopRun

/-- The loop over `write` in `inline_loop`. -/
def writeSpan : ℕ → Recorder → ℕ → ℕ → Result
  | 0, r, _, _ => .ok r
  | fuel + 1, r, address, stop =>
    if stop ≤ address then .ok r
    else do
      let length := min 65536 (stop - address)
      let r ← r.write address length
      writeSpan fuel r (address + length) stop

/-- `inline_loop`, when the native loop runs. `none` is `CONTINUE`: the loop is left to the events.
-/
def inlineLoop (r : Recorder) (l : LoopRun) : Option Recorder :=
  if r.rejection.isSome then none
  else if l.first r < r.h.output ∨ r.h.output + r.h.length < l.first r then none
  else
    let instructions := if l.valid r then l.iterations.length * l.loop.instructionCount else 0
    if l.valid r = false ∨ 500000000 - min r.steps 500000000 < instructions then
      some (r.reject "inline capture exceeded exact coverage or instruction bounds")
    else
      let stop := (l.trace r).frontier
      match writeSpan (stop - l.first r) { r with steps := r.steps + instructions }
        (l.first r) stop with
      | .ok r => some r
      | .error (r, _) => some (r.reject "inline capture metadata allocation failed")

/-! ### Runs -/

/-- A step of a producer. -/
inductive Step
  | event (e : Event)
  | loop (l : LoopRun)

/-- The events of a step in the plain capture. -/
def Step.plain : Step → List Event
  | .event e => [e]
  | .loop l => l.plain

/-- The events of a run in the plain capture. -/
def plainEvents (steps : List Step) : List Event := steps.flatMap Step.plain

/-- One step of the inline capture, with the memory the step leaves. -/
def inlineStep (s : (ℕ → UInt8) × Recorder) : Step → Option ((ℕ → UInt8) × Recorder)
  | .event e => some (e.update s.1, e.note s.1 s.2)
  | .loop l => (inlineLoop s.2 l).map fun r => (l.plain.foldl Event.update s.1, r)

/-- The inline capture. -/
def inlineCapture (s : (ℕ → UInt8) × Recorder) : List Step → Option ((ℕ → UInt8) × Recorder)
  | [] => some s
  | x :: xs => (inlineStep s x).bind fun s => inlineCapture s xs

/-- The instructions that are instrumented in a step. -/
def Step.rules : Step → List Analysis
  | .event (.rule a) => [a]
  | .event (.begin _ _ _) | .event (.block _ _) | .event (.read _ _) | .event (.write _ _) => []
  | .loop l => l.fresh

theorem LoopRun.valid_trace {r : Recorder} (l : LoopRun) (h : l.valid r = true) :
    (l.trace r).invalid = false := by
  unfold valid at h
  rw [Bool.and_eq_true, Bool.not_eq_true'] at h
  exact h.1

/-! ### Plans and code -/

section Planned

variable {r q : Recorder} {start stop : ℕ} {text : ℕ → Option String}

theorem keys_eq (h : ∀ k, k ∈ q.plans ↔ k ∈ r.plans) : q.plans.keys = r.plans.keys := by
  have hperm : q.plans.keys.Perm r.plans.keys := by
    refine (List.perm_ext_iff_of_nodup Std.TreeMap.nodup_keys Std.TreeMap.nodup_keys).mpr fun k =>
      ?_
    rw [Std.TreeMap.mem_keys, Std.TreeMap.mem_keys, h]
  have hlt : ∀ m : Std.TreeMap ℕ Plan, m.keys.Pairwise (· < ·) := fun m =>
    Std.TreeMap.ordered_keys.imp fun {_ _} h => Nat.compare_eq_lt.mp h
  exact hperm.eq_of_pairwise (fun a b _ _ h1 h2 => absurd h1 (Nat.lt_asymm h2)) (hlt _) (hlt _)

/-- The instrumented addresses of a block. -/
def plannedKeys (r : Recorder) (start stop : ℕ) : List ℕ :=
  r.plans.keys.filter fun k => decide (start ≤ k ∧ k < stop)

theorem planned_length (r : Recorder) (start stop : ℕ) :
    (r.planned start stop).length = (plannedKeys r start stop).length := by
  unfold planned plannedKeys
  rw [List.length_map, ← Std.TreeMap.map_fst_toList_eq_keys, List.filter_map, List.length_map]
  rfl

theorem plannedKeys_eq (h : ∀ k, k ∈ q.plans ↔ k ∈ r.plans) :
    plannedKeys q start stop = plannedKeys r start stop := by
  unfold plannedKeys
  rw [keys_eq h]

theorem mem_plannedKeys {k : ℕ} :
    k ∈ plannedKeys r start stop ↔ k ∈ r.plans ∧ start ≤ k ∧ k < stop := by
  unfold plannedKeys
  rw [List.mem_filter, Std.TreeMap.mem_keys, decide_eq_true_iff]

theorem planned_loop {l : LoopRun} (hall : ∀ a ∈ l.instructions, a.address ∈ r.plans)
    (honly : ∀ k ∈ r.plans, l.head ≤ k → k < l.after → ∃ a ∈ l.instructions, a.address = k) :
    (plannedKeys r l.head l.after).length = l.instructions.length := by
  have hnodup : (plannedKeys r l.head l.after).Nodup := Std.TreeMap.nodup_keys.filter _
  rw [← @List.length_map _ _ l.instructions Analysis.address]
  refine ((List.perm_ext_iff_of_nodup hnodup l.distinct).mpr fun k => ?_).length_eq
  rw [mem_plannedKeys, List.mem_map]
  constructor
  · rintro ⟨hk, h1, h2⟩
    exact honly k hk h1 h2
  · rintro ⟨a, ha, rfl⟩
    exact ⟨hall a ha, l.inside a ha⟩

/-- Every plan is for its address, and rejected as the text says. -/
def Lawful (r : Recorder) (text : ℕ → Option String) : Prop :=
  ∀ (k : ℕ) (p : Plan), r.plans[k]? = some p → p.instruction.address = k ∧ p.rejection = text k

theorem planned_texts (h : Lawful r text) (start stop : ℕ) :
    (r.planned start stop).map Plan.rejection = (plannedKeys r start stop).map text := by
  unfold planned plannedKeys
  rw [← Std.TreeMap.map_fst_toList_eq_keys, List.filter_map, List.map_map, List.map_map]
  refine List.map_congr_left fun x hx => ?_
  exact (h x.1 x.2 (Std.TreeMap.mem_toList_iff_getElem?_eq_some.mp (List.mem_filter.mp hx).1)).2

/-- What a reason makes of a rejection: the first stays. -/
def noteReason (x : Option String) : Option String → Option String
  | none => x
  | some why => some (x.getD why)

/-- What some reasons make of a rejection. -/
def noted (x : Option String) (texts : List (Option String)) : Option String :=
  texts.foldl noteReason x

theorem noted_none : ∀ {texts : List (Option String)} {x : Option String},
    noted x texts = none ↔ x = none ∧ ∀ t ∈ texts, t = none
  | [], x => by simp [noted]
  | t :: texts, x => by
    rw [List.forall_mem_cons]
    show noted (noteReason x t) texts = none ↔ _
    rw [noted_none]
    cases t with
    | none => simp [noteReason]
    | some why => simp [noteReason]

theorem noted_same {x : Option String} : ∀ {texts : List (Option String)},
    (x = none → ∀ t ∈ texts, t = none) → noted x texts = x
  | [], _ => rfl
  | t :: texts, h => by
    have hone : noteReason x t = x := by
      cases t with
      | none => rfl
      | some why =>
        cases x with
        | some y => rfl
        | none => exact absurd (h rfl (some why) List.mem_cons_self) (Option.some_ne_none why)
    show noted (noteReason x t) texts = x
    rw [hone]
    exact noted_same fun hx t ht => h hx t (List.mem_cons_of_mem _ ht)

theorem foldl_notePlan_eq : ∀ (ps : List Plan) (r : Recorder), ps.foldl notePlan r = { r with
    code := ps.foldl (fun c p => c.insertIfNew p.instruction.address p.instruction) r.code
    rejection := noted r.rejection (ps.map Plan.rejection) }
  | [], _ => rfl
  | p :: ps, r => by
    rw [List.foldl_cons, foldl_notePlan_eq ps]
    unfold notePlan
    cases p with
    | mk instruction rejection =>
      cases rejection with
      | none => rfl
      | some why => rfl

/-- The code after the plans of a block: what was there, and else the plan of the address. -/
theorem foldl_code : ∀ (ps : List Plan) (code : Std.TreeMap ℕ Instruction) (k : ℕ),
    (ps.foldl (fun c p => c.insertIfNew p.instruction.address p.instruction) code)[k]? =
      code[k]?.or ((ps.find? fun p => decide (p.instruction.address = k)).map Plan.instruction)
  | [], code, k => by simp
  | p :: ps, code, k => by
    rw [List.foldl_cons, foldl_code ps, Std.TreeMap.getElem?_insertIfNew, List.find?_cons]
    by_cases hk : p.instruction.address = k
    · subst hk
      rw [decide_eq_true rfl]
      dsimp only
      by_cases hmem : p.instruction.address ∈ code
      · rw [if_neg fun h => h.2 hmem]
        rw [Std.TreeMap.mem_iff_isSome_getElem?] at hmem
        obtain ⟨c, hc⟩ := Option.isSome_iff_exists.mp hmem
        rw [hc]
        rfl
      · rw [if_pos ⟨Nat.compare_eq_eq.mpr rfl, hmem⟩]
        have hnone : code[p.instruction.address]? = none := by
          rw [Std.TreeMap.mem_iff_isSome_getElem?, Option.not_isSome_iff_eq_none] at hmem
          exact hmem
        rw [hnone]
        rfl
    · rw [decide_eq_false hk, if_neg fun h => hk (Nat.compare_eq_eq.mp h.1)]

theorem find_planned (h : Lawful r text) (k : ℕ) :
    (r.planned start stop).find? (fun p => decide (p.instruction.address = k)) =
      if start ≤ k ∧ k < stop then r.plans[k]? else none := by
  have hmem : ∀ p, p ∈ r.planned start stop ↔
      start ≤ p.instruction.address ∧ p.instruction.address < stop ∧
        r.plans[p.instruction.address]? = some p := by
    intro p
    constructor
    · intro hp
      obtain ⟨j, h1, h2, hj⟩ := mem_planned hp
      rw [(h j p hj).1]
      exact ⟨h1, h2, hj⟩
    · rintro ⟨h1, h2, hj⟩
      exact List.mem_map.mpr ⟨(_, p), List.mem_filter.mpr
        ⟨Std.TreeMap.mem_toList_iff_getElem?_eq_some.mpr hj, decide_eq_true ⟨h1, h2⟩⟩, rfl⟩
  cases hfind : (r.planned start stop).find? (fun p => decide (p.instruction.address = k)) with
  | none =>
    split_ifs with hin
    · cases hk : r.plans[k]? with
      | none => rfl
      | some p =>
        have haddr := (h k p hk).1
        have hp : p ∈ r.planned start stop := (hmem p).mpr (by
          rw [haddr]
          exact ⟨hin.1, hin.2, hk⟩)
        exact absurd (decide_eq_true haddr) (List.find?_eq_none.mp hfind p hp)
    · rfl
  | some p =>
    have hp : p.instruction.address = k := by simpa using List.find?_some hfind
    obtain ⟨h1, h2, h3⟩ := (hmem p).mp (List.mem_of_find?_eq_some hfind)
    rw [hp] at h1 h2 h3
    rw [if_pos ⟨h1, h2⟩, h3]

/-! ### Blocks -/

/-- The check of the steps. -/
def limited (x : Option String) (steps : ℕ) : Option String :=
  if 500000000 < steps then some (x.getD "500 million instruction capture limit") else x

theorem limited_none {x : Option String} {steps : ℕ} (h : limited x steps = none) : x = none := by
  unfold limited at h
  split_ifs at h
  exact h

theorem limited_same {x : Option String} {steps : ℕ} (h : steps ≤ 500000000) :
    limited x steps = x := by
  unfold limited
  rw [if_neg (by omega)]

theorem block_known {c : ℕ} (h : r.blockCounts start stop = some c) :
    r.block start stop =
      { r with steps := r.steps + c, rejection := limited r.rejection (r.steps + c) } := by
  unfold Recorder.block limited
  rw [h]
  dsimp only
  split_ifs <;> rfl

/-- The recorder after a block that is entered for the first time. -/
def entered (r : Recorder) (start stop : ℕ) : Recorder :=
  { r with
    code := (r.planned start stop).foldl
      (fun c p => c.insertIfNew p.instruction.address p.instruction) r.code
    blockCounts := Function.update r.blockCounts start
      (Function.update (r.blockCounts start) stop (some (r.planned start stop).length))
    steps := r.steps + (r.planned start stop).length }

/-- Its rejection. -/
def enteredRejection (x : Option String) (steps : ℕ) (texts : List (Option String)) :
    Option String :=
  limited (if texts.length = 0 then some ((noted x texts).getD "block has no instruction metadata")
    else noted x texts) (steps + texts.length)

theorem block_new (h : r.blockCounts start stop = none) :
    r.block start stop = { entered r start stop with
      rejection := enteredRejection r.rejection r.steps
        ((r.planned start stop).map Plan.rejection) } := by
  unfold Recorder.block enteredRejection limited
  rw [h]
  dsimp only
  rw [foldl_notePlan_eq, List.length_map]
  split_ifs <;> rfl

end Planned

/-! ### The two captures -/

/-- The inline recorder `r` and the plain one `q`: they act alike, have the same steps, the same
code and the same instrumented addresses; only the plain one may have entered a loop at its head,
whose instructions then are in the code. -/
structure Twin (text : ℕ → Option String) (loops : List LoopRun) (r q : Recorder) : Prop where
  alike : Alike r q
  steps : q.steps = r.steps
  code : ∀ k : ℕ, q.code[k]? = r.code[k]?
  keys : ∀ k, k ∈ q.plans ↔ k ∈ r.plans
  lawful : Lawful r text
  lawful' : Lawful q text
  same : ∀ k : ℕ, k ∉ r.code → q.plans[k]? = r.plans[k]?
  recorded : ∀ k ∈ r.code, k ∈ r.plans ∧ (r.rejection = none → text k = none)
  counts : ∀ start stop, q.blockCounts start stop = r.blockCounts start stop ∨
    (r.blockCounts start stop = none ∧ ∃ l ∈ loops, start = l.head ∧ stop = l.after ∧
      ∀ a ∈ l.instructions, a.address ∈ r.code)
  cached : ∀ l ∈ loops, ∀ c, q.blockCounts l.head l.after = some c → c = l.instructions.length
  only : ∀ l ∈ loops, ∀ k ∈ r.plans, l.head ≤ k → k < l.after → ∃ a ∈ l.instructions, a.address = k

section Twin

variable {text : ℕ → Option String} {loops : List LoopRun} {r q : Recorder}

theorem mem_code {k : ℕ} {code : Std.TreeMap ℕ Instruction} : k ∈ code ↔ (code[k]?).isSome = true :=
  Std.TreeMap.mem_iff_isSome_getElem?

theorem Twin.loop_recorded (h : Twin text loops r q) {l : LoopRun} (hl : l ∈ loops)
    (hcode : ∀ a ∈ l.instructions, a.address ∈ r.code) {k : ℕ}
    (hk : k ∈ plannedKeys r l.head l.after) : k ∈ r.code := by
  obtain ⟨hk, h1, h2⟩ := mem_plannedKeys.mp hk
  obtain ⟨a, ha, rfl⟩ := h.only l hl k hk h1 h2
  exact hcode a ha

theorem Twin.loop_length (h : Twin text loops r q) {l : LoopRun} (hl : l ∈ loops)
    (hcode : ∀ a ∈ l.instructions, a.address ∈ r.code) :
    (plannedKeys r l.head l.after).length = l.instructions.length :=
  planned_loop (fun a ha => (h.recorded _ (hcode a ha)).1) (h.only l hl)

theorem Twin.loop_rejection (h : Twin text loops r q) {l : LoopRun} (hl : l ∈ loops)
    (hcode : ∀ a ∈ l.instructions, a.address ∈ r.code) :
    enteredRejection r.rejection r.steps ((plannedKeys r l.head l.after).map text) =
      limited r.rejection (r.steps + l.instructions.length) := by
  have hquiet : noted r.rejection ((plannedKeys r l.head l.after).map text) = r.rejection := by
    refine noted_same fun hrej t ht => ?_
    obtain ⟨k, hk, rfl⟩ := List.mem_map.mp ht
    exact (h.recorded k (h.loop_recorded hl hcode hk)).2 hrej
  unfold enteredRejection
  rw [hquiet, List.length_map, h.loop_length hl hcode,
    if_neg fun h0 => l.nonempty (List.length_eq_zero_iff.mp h0)]

theorem entered_code (h : Lawful r text) (start stop k : ℕ) :
    (entered r start stop).code[k]? =
      r.code[k]?.or ((if start ≤ k ∧ k < stop then r.plans[k]? else none).map
        Plan.instruction) := by
  unfold entered
  dsimp only
  rw [foldl_code, find_planned h]

theorem entered_counts (r : Recorder) (start stop a b : ℕ) :
    (entered r start stop).blockCounts a b =
      if a = start ∧ b = stop then some (r.planned start stop).length else r.blockCounts a b := by
  unfold entered
  dsimp only
  by_cases ha : a = start
  · subst ha
    rw [Function.update_self]
    by_cases hb : b = stop
    · subst hb
      rw [Function.update_self, if_pos ⟨rfl, rfl⟩]
    · rw [Function.update_of_ne hb, if_neg fun h => hb h.2]
  · rw [Function.update_of_ne ha, if_neg fun h => ha h.1]

theorem entered_code_recorded (h : Lawful r text) {start stop : ℕ}
    (hall : ∀ k ∈ r.plans, start ≤ k → k < stop → k ∈ r.code) (k : ℕ) :
    (entered r start stop).code[k]? = r.code[k]? := by
  rw [entered_code h]
  cases hk : r.code[k]? with
  | some c => rfl
  | none =>
    have hnone : (if start ≤ k ∧ k < stop then r.plans[k]? else none) = none := by
      split_ifs with hin
      · by_contra hsome
        have hmem : k ∈ r.plans :=
          Std.TreeMap.mem_iff_isSome_getElem?.mpr (Option.isSome_iff_ne_none.mpr hsome)
        have hcode := mem_code.mp (hall k hmem hin.1 hin.2)
        rw [hk] at hcode
        cases hcode
      · rfl
    rw [hnone]
    rfl

/-- **A block is entered** by both captures. -/
theorem Twin.block (h : Twin text loops r q) {start stop : ℕ}
    (hentry : ∀ l ∈ loops, start = l.head → stop = l.after →
      ∀ a ∈ l.instructions, a.address ∈ r.plans) :
    Twin text loops (r.block start stop) (q.block start stop) := by
  have hlen : (q.planned start stop).length = (r.planned start stop).length := by
    rw [planned_length, planned_length, plannedKeys_eq h.keys]
  have hsteps := h.steps
  have hrej := h.alike.rejection
  cases hqc : q.blockCounts start stop with
  | some c =>
    rw [block_known hqc]
    rcases h.counts start stop with heq | ⟨hnone, l, hl, rfl, rfl, hcode⟩
    · -- both have entered the block before
      rw [block_known (heq ▸ hqc)]
      refine { h with
        alike := { h.alike with rejection := ?_ }
        steps := ?_
        recorded := fun k hk =>
          ⟨(h.recorded k hk).1, fun hn => (h.recorded k hk).2 (limited_none hn)⟩ }
      · dsimp only
        rw [hrej, hsteps]
      · dsimp only
        rw [hsteps]
    · -- the plain capture has entered the block as the head of a loop
      have hcount := (h.loop_length hl hcode).trans (h.cached l hl c hqc).symm
      have hlength := (planned_length r l.head l.after).trans hcount
      rw [block_new hnone, planned_texts h.lawful, h.loop_rejection hl hcode, ← h.cached l hl c hqc]
      have hsame := entered_code_recorded h.lawful fun k hk h1 h2 =>
        h.loop_recorded hl hcode (mem_plannedKeys.mpr ⟨hk, h1, h2⟩)
      have hmem : ∀ k, k ∈ (entered r l.head l.after).code ↔ k ∈ r.code := fun k => by
        rw [mem_code, mem_code, hsame]
      refine
        { alike := { h.alike with rejection := ?_ }
          steps := ?_
          code := fun k => (h.code k).trans (hsame k).symm
          keys := h.keys
          lawful := h.lawful
          lawful' := h.lawful'
          same := fun k hk => h.same k fun hc => hk ((hmem k).mpr hc)
          recorded := fun k hk => ?_
          counts := fun a b => ?_
          cached := h.cached
          only := h.only }
      · show limited q.rejection (q.steps + c) = limited r.rejection (r.steps + c)
        rw [hrej, hsteps]
      · show q.steps + c = r.steps + (r.planned l.head l.after).length
        rw [hsteps, hlength]
      · obtain ⟨h1, h2⟩ := h.recorded k ((hmem k).mp hk)
        exact ⟨h1, fun hn => h2 (limited_none hn)⟩
      · show q.blockCounts a b = (entered r l.head l.after).blockCounts a b ∨
          (entered r l.head l.after).blockCounts a b = none ∧ _
        rw [entered_counts]
        split_ifs with hab
        · obtain ⟨rfl, rfl⟩ := hab
          left
          rw [hqc, hlength]
        · rcases h.counts a b with heq | ⟨hn, l', hl', ha, hb, hc'⟩
          · exact Or.inl heq
          · exact Or.inr ⟨hn, l', hl', ha, hb, fun x hx => (hmem _).mpr (hc' x hx)⟩
  | none =>
    -- both enter the block for the first time
    have hnone : r.blockCounts start stop = none := by
      rcases h.counts start stop with heq | ⟨hn, -⟩
      · rw [← heq, hqc]
      · exact hn
    rw [block_new hqc, block_new hnone, planned_texts h.lawful', planned_texts h.lawful,
      plannedKeys_eq h.keys, hrej, hsteps]
    have hcode : ∀ k : ℕ, (entered q start stop).code[k]? = (entered r start stop).code[k]? := by
      intro k
      rw [entered_code h.lawful', entered_code h.lawful, h.code k]
      by_cases hk : k ∈ r.code
      · rw [mem_code] at hk
        obtain ⟨c, hc⟩ := Option.isSome_iff_exists.mp hk
        rw [hc]
        rfl
      · rw [h.same k hk]
    have hold : ∀ k, k ∈ r.code → k ∈ (entered r start stop).code := by
      intro k hk
      rw [mem_code] at hk ⊢
      rw [entered_code h.lawful]
      obtain ⟨c, hc⟩ := Option.isSome_iff_exists.mp hk
      rw [hc]
      rfl
    refine
      { alike := { h.alike with rejection := rfl }
        steps := ?_
        code := hcode
        keys := h.keys
        lawful := h.lawful
        lawful' := h.lawful'
        same := fun k hk => h.same k fun hc => hk (hold k hc)
        recorded := fun k hk => ?_
        counts := fun a b => ?_
        cached := fun l hl c hc => ?_
        only := h.only }
    · show q.steps + (q.planned start stop).length = r.steps + (r.planned start stop).length
      rw [hlen, hsteps]
    · have hquiet :
        enteredRejection r.rejection r.steps ((plannedKeys r start stop).map text) = none →
          r.rejection = none ∧ ∀ t ∈ (plannedKeys r start stop).map text, t = none := by
        intro hn
        have hn := limited_none hn
        split_ifs at hn
        exact noted_none.mp hn
      by_cases hk' : k ∈ r.code
      · obtain ⟨h1, h2⟩ := h.recorded k hk'
        exact ⟨h1, fun hn => h2 (hquiet hn).1⟩
      · replace hk : k ∈ (entered r start stop).code := hk
        rw [mem_code, entered_code h.lawful] at hk
        rw [mem_code, Option.not_isSome_iff_eq_none] at hk'
        rw [hk', Option.none_or, Option.isSome_map] at hk
        split_ifs at hk with hin
        · have hmem : k ∈ r.plans := Std.TreeMap.mem_iff_isSome_getElem?.mpr hk
          exact ⟨hmem, fun hn => (hquiet hn).2 _
            (List.mem_map_of_mem (mem_plannedKeys.mpr ⟨hmem, hin⟩))⟩
        · cases hk
    · show (entered q start stop).blockCounts a b = (entered r start stop).blockCounts a b ∨
        (entered r start stop).blockCounts a b = none ∧ _
      rw [entered_counts, entered_counts, hlen]
      split_ifs
      · exact Or.inl rfl
      · rcases h.counts a b with heq | ⟨hn, l', hl', ha, hb, hc'⟩
        · exact Or.inl heq
        · exact Or.inr ⟨hn, l', hl', ha, hb, fun x hx => hold _ (hc' x hx)⟩
    · replace hc : (entered q start stop).blockCounts l.head l.after = some c := hc
      rw [entered_counts] at hc
      split_ifs at hc with hab
      · cases hc
        obtain ⟨rfl, rfl⟩ := hab
        rw [hlen, planned_length]
        exact planned_loop (hentry l hl rfl rfl) (h.only l hl)
      · exact h.cached l hl c hc

theorem Twin.congr {r' q' : Recorder} (h : Twin text loops r q) (halike : Alike r' q')
    (hrej : r'.rejection = none → r.rejection = none) (hr : Notes Set.univ r r')
    (hq : Notes Set.univ q q') : Twin text loops r' q' := by
  refine
    { alike := halike
      steps := ?_
      code := ?_
      keys := ?_
      lawful := ?_
      lawful' := ?_
      same := ?_
      recorded := ?_
      counts := ?_
      cached := ?_
      only := ?_ }
  · rw [hr.steps, hq.steps]
    exact h.steps
  · rw [hr.code, hq.code]
    exact h.code
  · rw [hr.plans, hq.plans]
    exact h.keys
  · unfold Lawful
    rw [hr.plans]
    exact h.lawful
  · unfold Lawful
    rw [hq.plans]
    exact h.lawful'
  · rw [hr.plans, hr.code, hq.plans]
    exact h.same
  · rw [hr.plans, hr.code]
    exact fun k hk => ⟨(h.recorded k hk).1, fun hn => (h.recorded k hk).2 (hrej hn)⟩
  · rw [hr.code, hr.counts, hq.counts]
    exact h.counts
  · rw [hq.counts]
    exact h.cached
  · rw [hr.plans]
    exact h.only

theorem Twin.reject (h : Twin text loops r q) (why : String) :
    Twin text loops (r.reject why) (q.reject why) :=
  h.congr (h.alike.reject why) (fun hn => absurd hn (reject_rejection r why)) (Notes.reject why)
    (Notes.reject why)

theorem rule_ok (m : ℕ → UInt8) (a : Analysis) (h : r.plans.size < 1000000) :
    r.rule m a = { r with plans := r.plans.insert a.address (r.plan m a) } := by
  unfold Recorder.rule
  rw [if_neg (by omega)]

theorem Lawful.insert (h : Lawful r text) {m : ℕ → UInt8} {a : Analysis}
    (htext : a.unsupported = text a.address) :
    Lawful { r with plans := r.plans.insert a.address (r.plan m a) } text := by
  intro k x hk
  replace hk : (r.plans.insert a.address (r.plan m a))[k]? = some x := hk
  rw [Std.TreeMap.getElem?_insert] at hk
  split_ifs at hk with he
  · cases hk
    obtain rfl : a.address = k := Nat.compare_eq_eq.mp he
    refine ⟨rfl, ?_⟩
    show a.unsupported.or (r.planAt a.address).rejection = _
    rw [htext]
    unfold Recorder.planAt
    cases hold : r.plans[a.address]? with
    | none => exact Option.or_none
    | some p =>
      rw [Option.getD_some, (h a.address p hold).2, Option.or_self]
  · exact h k x hk

/-- **An instruction is instrumented** by both captures. -/
theorem Twin.rule (h : Twin text loops r q) {m : ℕ → UInt8} {a : Analysis}
    (htext : a.unsupported = text a.address)
    (honly : ∀ l ∈ loops, l.head ≤ a.address → a.address < l.after →
      ∃ b ∈ l.instructions, b.address = a.address) :
    Twin text loops (r.rule m a) (q.rule m a) := by
  have hsize : q.plans.size = r.plans.size := by
    rw [← Std.TreeMap.length_keys, ← Std.TreeMap.length_keys, keys_eq h.keys]
  by_cases hlimit : r.plans.size < 1000000
  swap
  · unfold Recorder.rule
    rw [if_pos (by omega), if_pos (by omega)]
    exact h.reject _
  rw [rule_ok (r := r) m a hlimit, rule_ok (r := q) m a (by omega)]
  refine
    { h with
      alike := { h.alike with }
      keys := fun k => ?_
      lawful := h.lawful.insert htext
      lawful' := h.lawful'.insert htext
      same := fun k hk => ?_
      recorded := fun k hk => ?_
      only := fun l hl k hk h3 h4 => ?_ }
  · show k ∈ q.plans.insert a.address _ ↔ k ∈ r.plans.insert a.address _
    rw [Std.TreeMap.mem_insert, Std.TreeMap.mem_insert, h.keys]
  · show (q.plans.insert a.address _)[k]? = (r.plans.insert a.address _)[k]?
    rw [Std.TreeMap.getElem?_insert, Std.TreeMap.getElem?_insert, h.same k hk]
    split_ifs with he
    · -- nothing of it has been recorded, so that both keep the same plan
      obtain rfl : a.address = k := Nat.compare_eq_eq.mp he
      unfold Recorder.plan Recorder.planAt
      rw [h.same _ hk]
    · rfl
  · obtain ⟨hmem, ht⟩ := h.recorded k hk
    exact ⟨Std.TreeMap.mem_insert.mpr (Or.inr hmem), ht⟩
  · rcases Std.TreeMap.mem_insert.mp hk with he | hk
    · obtain rfl : a.address = k := Nat.compare_eq_eq.mp he
      exact honly l hl h3 h4
    · exact h.only l hl k hk h3 h4

/-- **A recorded instruction is instrumented again** by the plain capture alone. -/
theorem Twin.rule_again (h : Twin text loops r q) {m : ℕ → UInt8} {a : Analysis}
    (htext : a.unsupported = text a.address) (hcode : a.address ∈ r.code)
    (hlimit : r.plans.size < 1000000) :
    Twin text loops r (q.rule m a) := by
  have hsize : q.plans.size = r.plans.size := by
    rw [← Std.TreeMap.length_keys, ← Std.TreeMap.length_keys, keys_eq h.keys]
  have hmem : a.address ∈ q.plans := (h.keys _).mpr (h.recorded _ hcode).1
  rw [rule_ok (r := q) m a (by omega)]
  refine { h with
    alike := { h.alike with }
    keys := fun k => ?_
    lawful' := h.lawful'.insert htext
    same := fun k hk => ?_ }
  · show k ∈ q.plans.insert a.address _ ↔ k ∈ r.plans
    rw [Std.TreeMap.mem_insert, ← h.keys]
    constructor
    · rintro (he | hk)
      · obtain rfl : a.address = k := Nat.compare_eq_eq.mp he
        exact hmem
      · exact hk
    · exact Or.inr
  · show (q.plans.insert a.address _)[k]? = r.plans[k]?
    rw [Std.TreeMap.getElem?_insert, if_neg, h.same k hk]
    intro he
    obtain rfl : a.address = k := Nat.compare_eq_eq.mp he
    exact hk hcode

/-- **An event** that is no block and no rule. -/
theorem Twin.access (h : Twin text loops r q) {m : ℕ → UInt8} {e : Event}
    (he : match e with
      | .read _ _ | .write _ _ | .begin _ _ _ => True
      | .rule _ | .block _ _ => False) :
    Twin text loops (e.note m r) (e.note m q) := by
  have hrej := h.alike.rejection
  cases e with
  | rule a | block start stop => exact he.elim
  | begin regs xmm mxcsr =>
    simp only [Event.note]
    unfold Recorder.begin
    rw [h.alike.began]
    split_ifs
    · exact h
    · refine h.congr { h.alike with header := ?_, began := rfl } id
        ⟨rfl, rfl, rfl, rfl, fun _ hp => Or.inl hp⟩ ⟨rfl, rfl, rfl, rfl, fun _ hp => Or.inl hp⟩
      dsimp only
      rw [h.alike.header]
  | read addr n =>
    simp only [Event.note]
    unfold readAccess
    rw [hrej]
    split_ifs with hsome
    · exact h
    · refine h.congr (h.alike.read addr n).caught (fun _ => ?_) (Notes.caught_read addr n)
        (Notes.caught_read addr n)
      exact Option.not_isSome_iff_eq_none.mp hsome
  | write addr bytes =>
    simp only [Event.note]
    unfold writeAccess
    rw [hrej]
    split_ifs with hsome
    · exact h
    · refine h.congr (h.alike.write addr bytes.length).caught (fun _ => ?_)
        (Notes.caught_write addr _)
        (Notes.caught_write addr _)
      exact Option.not_isSome_iff_eq_none.mp hsome

/-- The runs of a loop are runs of the same instructions. -/
def OneText (loops : List LoopRun) : Prop :=
  ∀ l ∈ loops, ∀ l' ∈ loops, l.head = l'.head → l.after = l'.after →
    l.instructions.map Analysis.address = l'.instructions.map Analysis.address

/-- The block of a loop that the plain capture enters: in the inline one its steps are added. -/
theorem Twin.loop_block (h : Twin text loops r q) (hone : OneText loops) {l : LoopRun}
    (hl : l ∈ loops) (hcode : ∀ a ∈ l.instructions, a.address ∈ r.code)
    (hle : r.steps + l.instructions.length ≤ 500000000) :
    Twin text loops { r with steps := r.steps + l.instructions.length }
      (q.block l.head l.after) := by
  have hsteps := h.steps
  have hrej := h.alike.rejection
  cases hqc : q.blockCounts l.head l.after with
  | some c =>
    obtain rfl := h.cached l hl c hqc
    rw [block_known hqc, limited_same (by omega)]
    exact { h with
      alike := { h.alike with }
      steps := by dsimp only; rw [hsteps] }
  | none =>
    have hnone : r.blockCounts l.head l.after = none := by
      rcases h.counts l.head l.after with heq | ⟨hn, -⟩
      · rw [← heq, hqc]
      · exact hn
    have hlength : (q.planned l.head l.after).length = l.instructions.length := by
      rw [planned_length, plannedKeys_eq h.keys, h.loop_length hl hcode]
    have hsame : ∀ k : ℕ, (entered q l.head l.after).code[k]? = q.code[k]? := by
      refine entered_code_recorded h.lawful' fun k hk h1 h2 => ?_
      have hin := h.loop_recorded hl hcode (mem_plannedKeys.mpr ⟨(h.keys k).mp hk, h1, h2⟩)
      rw [mem_code] at hin ⊢
      rwa [h.code]
    rw [block_new hqc, planned_texts h.lawful', plannedKeys_eq h.keys, hrej, hsteps,
      h.loop_rejection hl hcode, limited_same hle]
    refine
      { alike := { h.alike with rejection := rfl }
        steps := ?_
        code := fun k => (hsame k).trans (h.code k)
        keys := h.keys
        lawful := h.lawful
        lawful' := h.lawful'
        same := h.same
        recorded := h.recorded
        counts := fun a b => ?_
        cached := fun l' hl' c hc => ?_
        only := h.only }
    · show q.steps + (q.planned l.head l.after).length = r.steps + l.instructions.length
      rw [hlength, hsteps]
    · show (entered q l.head l.after).blockCounts a b = r.blockCounts a b ∨ _
      rw [entered_counts]
      split_ifs with hab
      · obtain ⟨rfl, rfl⟩ := hab
        exact Or.inr ⟨hnone, l, hl, rfl, rfl, hcode⟩
      · exact h.counts a b
    · replace hc : (entered q l.head l.after).blockCounts l'.head l'.after = some c := hc
      rw [entered_counts] at hc
      split_ifs at hc with hab
      · cases hc
        obtain ⟨hhead, hafter⟩ := hab
        rw [hlength, ← @List.length_map _ _ l.instructions Analysis.address,
          hone l hl l' hl' hhead.symm hafter.symm, List.length_map]
      · exact h.cached l' hl' c hc

end Twin

/-! ### The loop in the two captures -/

section Loop

variable {text : ℕ → Option String} {loops : List LoopRun} {l : LoopRun} {r s q : Recorder}
  {m : ℕ → UInt8} {t : Trace} {i stop : ℕ}

theorem Trace.store_valid {a n : ℕ} (h : (t.store a n).invalid = false) :
    t.invalid = false ∧ a = t.frontier ∧ a + n ≤ UINT64_MAX ∧ a + n ≤ t.limit ∧
      t.store a n = { t with frontier := a + n } := by
  unfold Trace.store at h ⊢
  split_ifs at h ⊢
  exact ⟨h, by omega, by omega, by omega, rfl⟩

theorem Trace.stores_valid : ∀ {ss : List (ℕ × List UInt8)} {t : Trace},
    (t.stores ss).invalid = false → t.invalid = false ∧ t.frontier ≤ (t.stores ss).frontier ∧
      (t.stores ss).limit = t.limit ∧
      (t.frontier < (t.stores ss).frontier →
        (t.stores ss).frontier ≤ UINT64_MAX ∧ (t.stores ss).frontier ≤ t.limit)
  | [], t, h => ⟨h, le_rfl, rfl, fun hlt => absurd hlt (lt_irrefl _)⟩
  | x :: ss, t, h => by
    obtain ⟨h1, h2, h3, h4⟩ := @stores_valid ss (t.store x.1 x.2.length) h
    obtain ⟨ht, ha, hmax, hlimit, hstore⟩ := Trace.store_valid h1
    rw [hstore] at h2 h3 h4
    dsimp only at h2 h3 h4
    have hsame : t.stores (x :: ss) =
        ({ t with frontier := x.1 + x.2.length } : Trace).stores ss := by
      rw [← hstore]
      rfl
    rw [hsame]
    refine ⟨ht, by omega, h3, fun _ => ?_⟩
    by_cases hlt : x.1 + x.2.length <
        (({ t with frontier := x.1 + x.2.length } : Trace).stores ss).frontier
    · exact h4 hlt
    · omega

theorem Trace.iterations_valid : ∀ {its : List (List (ℕ × List UInt8))} {t : Trace},
    (its.foldl Trace.stores t).invalid = false → t.invalid = false ∧
      t.frontier ≤ (its.foldl Trace.stores t).frontier ∧
      (t.frontier < (its.foldl Trace.stores t).frontier →
        (its.foldl Trace.stores t).frontier ≤ UINT64_MAX ∧
          (its.foldl Trace.stores t).frontier ≤ t.limit)
  | [], t, h => ⟨h, le_rfl, fun hlt => absurd hlt (lt_irrefl _)⟩
  | ss :: its, t, h => by
    obtain ⟨h1, h2, h3⟩ := @iterations_valid its (t.stores ss) h
    obtain ⟨h4, h5, h6, h7⟩ := Trace.stores_valid h1
    rw [h6] at h3
    rw [List.foldl_cons]
    refine ⟨h4, h5.trans h2, fun hlt => ?_⟩
    by_cases heq : (t.stores ss).frontier < (its.foldl Trace.stores (t.stores ss)).frontier
    · exact h3 heq
    · rw [← le_antisymm h2 (Nat.not_lt.mp heq)]
      exact h7 (by omega)

/-- In the middle of a loop that started at `r`, after `i` blocks and the stores up to the frontier
of `t`: `q` is the plain recorder, and `s` what the inline one would be. -/
structure Mid (text : ℕ → Option String) (loops : List LoopRun) (l : LoopRun) (r : Recorder)
    (t : Trace) (i : ℕ) (s q : Recorder) : Prop where
  twin : Twin text loops s q
  written : Both (writeBytes (t.frontier - l.first r) r (l.first r)) (.ok s)
  notes : Notes Set.univ { r with steps := r.steps + i * l.instructions.length } s
  header : s.h = r.h
  quiet : s.rejection = none
  low : l.first r ≤ t.frontier
  limit : t.limit = r.h.output + r.h.length

/-- **One store.** -/
theorem Mid.store (h : Mid text loops l r t i s q) {a : ℕ} {bytes : List UInt8}
    (hout : r.h.output ≤ l.first r) (hvalid : (t.store a bytes.length).invalid = false)
    (hpos : 0 < bytes.length) (hshort : bytes.length ≤ 16)
    (hwhole : ∃ w, writeBytes (stop - l.first r) r (l.first r) = .ok w)
    (hstop : (t.store a bytes.length).frontier ≤ stop) :
    Mid text loops l r (t.store a bytes.length) i (Event.note m s (.write a bytes))
      (Event.note m q (.write a bytes)) := by
  obtain ⟨-, rfl, hmax, hlimit, hstore⟩ := Trace.store_valid hvalid
  rw [hstore] at hstop ⊢
  dsimp only at hstop
  have hlow := h.low
  have hpage : PAGE * 16 = 65536 := rfl
  -- the bytes so far, and those of the store
  obtain ⟨w, hw⟩ := hwhole
  rw [show stop - l.first r = (t.frontier + bytes.length - l.first r) +
    (stop - (t.frontier + bytes.length)) by omega] at hw
  obtain ⟨s₁, hs₁⟩ := writeBytes_prefix hw
  have hsplit : t.frontier + bytes.length - l.first r =
    (t.frontier - l.first r) + bytes.length := by
    omega
  have hbytes := hs₁
  rw [hsplit, writeBytes_add] at hbytes
  obtain ⟨s₀, hs₀, hbytes⟩ := bind_ok hbytes
  rw [show l.first r + (t.frontier - l.first r) = t.frontier by omega] at hbytes
  have halike : Both (writeBytes bytes.length s t.frontier) (.ok s₁) := by
    have hwritten := h.written
    rw [hs₀] at hwritten
    rw [← hbytes]
    cases hwritten with
    | ok hwritten => exact (hwritten.writeBytes bytes.length t.frontier).symm
  have hwrite : Both (s.write t.frontier bytes.length) (.ok s₁) := by
    refine (write_bytes hpos (by omega) ?_ ?_ hmax).trans halike
    · rw [h.header]
      omega
    · rw [h.header, ← h.limit]
      exact hlimit
  obtain ⟨s', hs', halike'⟩ := hwrite.ok_of
  have hnote : Event.note m s (.write t.frontier bytes) = s' := by
    simp only [Event.note, writeAccess, h.quiet, Option.isSome_none, Bool.false_eq_true,
      if_false, hs']
    rfl
  obtain ⟨hquiet, hheader⟩ := write_quiet (by omega) hmax hs'
  have htwin := h.twin.access (m := m) (e := .write t.frontier bytes) trivial
  rw [hnote] at htwin ⊢
  have hkept := Notes.caught_write (r := s) t.frontier bytes.length
  rw [hs'] at hkept
  refine
    { twin := htwin
      written := ?_
      notes := h.notes.trans hkept
      header := hheader.trans h.header
      quiet := hquiet.trans h.quiet
      low := by dsimp only; omega
      limit := h.limit }
  show Both (writeBytes (t.frontier + bytes.length - l.first r) r (l.first r)) _
  rw [hs₁]
  exact .ok halike'.symm

/-- **The stores of an iteration.** -/
theorem Mid.stores (hout : r.h.output ≤ l.first r)
    (hwhole : ∃ w, writeBytes (stop - l.first r) r (l.first r) = .ok w) :
    ∀ {ss : List (ℕ × List UInt8)} {t : Trace} {s q : Recorder} {m : ℕ → UInt8},
      Mid text loops l r t i s q → (t.stores ss).invalid = false →
      (∀ x ∈ ss, 0 < x.2.length ∧ x.2.length ≤ 16) → (t.stores ss).frontier ≤ stop →
      ∃ s', Mid text loops l r (t.stores ss) i s'
        (capture m q (ss.map fun x => Event.write x.1 x.2)).2
  | [], _, s, _, _, h, _, _, _ => ⟨s, h⟩
  | x :: ss, t, s, q, m, h, hvalid, hsized, hstop => by
    obtain ⟨⟨hpos, hshort⟩, hsized⟩ := List.forall_mem_cons.mp hsized
    have hrest : ((t.store x.1 x.2.length).stores ss).invalid = false := hvalid
    obtain ⟨hone, hle, -⟩ := Trace.stores_valid hrest
    exact Mid.stores (m := Event.update m (.write x.1 x.2)) hout hwhole
      (h.store (m := m) (a := x.1) hout hone hpos hshort hwhole (hle.trans hstop))
        hrest hsized hstop

/-- **The block of an iteration.** -/
theorem Mid.block (h : Mid text loops l r t i s q) (hone : OneText loops) (hl : l ∈ loops)
    (hcode : ∀ a ∈ l.instructions, a.address ∈ r.code)
    (hle : r.steps + (i + 1) * l.instructions.length ≤ 500000000) :
    Mid text loops l r t (i + 1) { s with steps := s.steps + l.instructions.length }
      (q.block l.head l.after) := by
  have hsteps : s.steps = r.steps + i * l.instructions.length := h.notes.steps
  have hsum : s.steps + l.instructions.length = r.steps + (i + 1) * l.instructions.length := by
    rw [hsteps, Nat.succ_mul]
    omega
  have hcode' : ∀ a ∈ l.instructions, a.address ∈ s.code := by
    rw [h.notes.code]
    exact hcode
  exact
    { twin := h.twin.loop_block hone hl hcode' (by omega)
      written := h.written.trans (.ok { Alike.refl s with })
      notes := ⟨h.notes.plans, h.notes.code, h.notes.counts, hsum, fun _ _ => Or.inr trivial⟩
      header := h.header
      quiet := h.quiet
      low := h.low
      limit := h.limit }

/-- **The iterations**, by induction on them. -/
theorem Mid.iterations (hone : OneText loops) (hl : l ∈ loops)
    (hcode : ∀ a ∈ l.instructions, a.address ∈ r.code) (hout : r.h.output ≤ l.first r)
    (hwhole : ∃ w, writeBytes (stop - l.first r) r (l.first r) = .ok w) :
    ∀ {its : List (List (ℕ × List UInt8))} {t : Trace} {i : ℕ} {s q : Recorder} {m : ℕ → UInt8},
      Mid text loops l r t i s q → (its.foldl Trace.stores t).invalid = false →
      (∀ ss ∈ its, ∀ x ∈ ss, 0 < x.2.length ∧ x.2.length ≤ 16) →
      (its.foldl Trace.stores t).frontier ≤ stop →
      r.steps + (i + its.length) * l.instructions.length ≤ 500000000 →
      ∃ s', Mid text loops l r (its.foldl Trace.stores t) (i + its.length) s'
        (capture m q (l.body its)).2
  | [], _, _, s, _, _, h, _, _, _, _ => ⟨s, h⟩
  | ss :: its, t, i, s, q, m, h, hvalid, hsized, hstop, hle => by
    obtain ⟨hsize, hsized⟩ := List.forall_mem_cons.mp hsized
    have hrest : (its.foldl Trace.stores (t.stores ss)).invalid = false := hvalid
    obtain ⟨hfirst, hfront, -⟩ := Trace.iterations_valid hrest
    rw [List.length_cons] at hle
    have hblock := h.block hone hl hcode (by
      refine le_trans (Nat.add_le_add_left (Nat.mul_le_mul_right _ ?_) _) hle
      omega)
    obtain ⟨s₁, h₁⟩ := Mid.stores (m := m) hout hwhole hblock hfirst hsize (hfront.trans hstop)
    rw [show i + (its.length + 1) = i + 1 + its.length by omega] at hle
    obtain ⟨s₂, h₂⟩ := Mid.iterations (m := (capture m (q.block l.head l.after)
      (ss.map fun x => Event.write x.1 x.2)).1) hone hl hcode hout hwhole h₁ hvalid hsized hstop hle
    refine ⟨s₂, ?_⟩
    have hevents : l.body (ss :: its) =
        .block l.head l.after :: (ss.map fun x => Event.write x.1 x.2) ++ l.body its := rfl
    rw [hevents, capture_append, List.length_cons, show i + (its.length + 1) = i + 1 +
      its.length by omega]
    exact h₂

/-- **The pieces of `inline_loop`** leave what the bytes of the span one after the other leave. -/
theorem writeSpan_bytes : ∀ (fuel : ℕ) {r : Recorder} {a : ℕ}, stop - a ≤ fuel → r.h.output ≤ a →
    (a < stop → stop ≤ r.h.output + r.h.length ∧ stop ≤ UINT64_MAX) →
    Both (writeSpan fuel r a stop) (writeBytes (stop - a) r a)
  | 0, r, a, hfuel, _, _ => by
    rw [show stop - a = 0 by omega]
    exact Both.refl _
  | fuel + 1, r, a, hfuel, hlow, hhigh => by
    rw [writeSpan]
    by_cases hdone : stop ≤ a
    · rw [if_pos hdone, show stop - a = 0 by omega]
      exact Both.refl _
    rw [if_neg hdone]
    obtain ⟨hlimit, hmax⟩ := hhigh (by omega)
    dsimp only
    obtain ⟨n, hn⟩ : ∃ n, n = min 65536 (stop - a) := ⟨_, rfl⟩
    rw [← hn]
    have hpiece : Both (r.write a n) (writeBytes n r a) :=
      write_bytes (by omega) (by unfold PAGE; omega) hlow (by omega) (by omega)
    rw [show stop - a = n + (stop - (a + n)) by omega, writeBytes_add]
    cases hw : r.write a n with
    | error x =>
      rw [hw] at hpiece
      cases hb : writeBytes n r a with
      | error y => exact .error
      | ok w =>
        rw [hb] at hpiece
        cases hpiece
    | ok r₁ =>
      rw [hw] at hpiece
      obtain ⟨w, hb, halike⟩ := hpiece.symm.ok_of
      rw [hb]
      have hh : r₁.h = r.h := (write_quiet (by unfold PAGE; omega) (by omega) hw).2
      have hrest := writeSpan_bytes fuel (r := r₁) (a := a + n) (by omega) (by rw [hh]; omega)
        fun hlt => by rw [hh]; exact ⟨hlimit, hmax⟩
      exact hrest.trans (halike.symm.writeBytes (stop - (a + n)) (a + n))

theorem writeSpan_kept : ∀ (fuel : ℕ) {r r' : Recorder} {a : ℕ},
    writeSpan fuel r a stop = .ok r' → Notes Set.univ r r'
  | 0, _, _, _, h => by
    cases h
    exact Notes.refl
  | fuel + 1, r, r', a, h => by
    rw [writeSpan] at h
    split_ifs at h
    · cases h
      exact Notes.refl
    obtain ⟨r₁, hw, h⟩ := bind_ok h
    have hkept := Notes.caught_write (r := r) a (min 65536 (stop - a))
    rw [hw] at hkept
    exact hkept.trans (writeSpan_kept fuel h)

theorem Twin.fresh : ∀ {fresh : List Analysis} {q : Recorder} {m : ℕ → UInt8}, Twin text loops r q →
    (∀ a ∈ fresh, a.unsupported = text a.address ∧ a.address ∈ r.code) →
    (fresh = [] ∨ r.plans.size < 1000000) →
    Twin text loops r (capture m q (fresh.map Event.rule)).2
  | [], _, _, h, _, _ => h
  | a :: fresh, q, m, h, hall, hlimit => by
    obtain ⟨⟨htext, hcode⟩, hall⟩ := List.forall_mem_cons.mp hall
    have hsize : r.plans.size < 1000000 := hlimit.resolve_left (List.cons_ne_nil _ _)
    show Twin text loops r (capture m (q.rule m a) (fresh.map Event.rule)).2
    exact Twin.fresh (h.rule_again htext hcode hsize) hall (Or.inr hsize)

theorem Trace.stores_stored : ∀ {ss : List (ℕ × List UInt8)} {t : Trace},
    (t.stores ss).invalid = false →
      (t.stores ss).frontier = t.frontier + (ss.map fun x => x.2.length).sum
  | [], _, _ => rfl
  | x :: ss, t, h => by
    obtain ⟨ht, -⟩ := @Trace.stores_valid ss (t.store x.1 x.2.length) h
    obtain ⟨-, ha, -, -, hstore⟩ := Trace.store_valid ht
    have hrest := @stores_stored ss (t.store x.1 x.2.length) h
    rw [hstore] at hrest
    rw [List.map_cons, List.sum_cons, ← Nat.add_assoc, ← ha, ← hrest, ← hstore]
    rfl

theorem Trace.iterations_stored : ∀ {its : List (List (ℕ × List UInt8))} {t : Trace},
    (its.foldl Trace.stores t).invalid = false →
      (its.foldl Trace.stores t).frontier = t.frontier + (its.flatten.map fun x => x.2.length).sum
  | [], _, _ => rfl
  | ss :: its, t, h => by
    obtain ⟨ht, -⟩ := @Trace.iterations_valid its (t.stores ss) h
    rw [List.foldl_cons, @Trace.iterations_stored its (t.stores ss) h, Trace.stores_stored ht,
      List.flatten_cons, List.map_append, List.sum_append, Nat.add_assoc]

theorem base_mem_span {a n b : ℕ} (hlow : a ≤ b) (hhigh : b < a + n) :
    base b ∈ (List.range (rounded (a % PAGE + n) / PAGE)).map (base a + · * PAGE) := by
  refine List.mem_map.mpr ⟨b / PAGE - a / PAGE, List.mem_range.mpr ?_, ?_⟩
  · unfold rounded PAGE
    omega
  · unfold base PAGE
    omega

/-- **The span of a loop is written** when its pages find room. -/
theorem writeSpan_ok {q : Recorder} (hsame : Alike q r) (hfirst : r.h.output ≤ l.first r)
    (hinvalid : (l.trace r).invalid = false)
    (hroom : l.first r ≤ r.outputFrontier ∨ r.pages.size + l.spanPages r ≤ 262144) :
    ∃ r', writeSpan ((l.trace r).frontier - l.first r) q (l.first r) (l.trace r).frontier =
      .ok r' := by
  obtain ⟨-, hlow, hhigh⟩ := Trace.iterations_valid hinvalid
  have hstop : (l.trace r).frontier = l.first r + l.stored := Trace.iterations_stored hinvalid
  have hheader := hsame.header
  have hpieces :
    Both (writeSpan ((l.trace r).frontier - l.first r) q (l.first r) (l.trace r).frontier)
      (writeBytes ((l.trace r).frontier - l.first r) q (l.first r)) :=
    writeSpan_bytes _ le_rfl (by rw [← hheader]; exact hfirst) fun hlt => by
      rw [← hheader]
      exact (hhigh hlt).symm
  -- so that its bytes one after the other decide
  obtain ⟨s, hs⟩ : ∃ s, writeBytes ((l.trace r).frontier - l.first r) r (l.first r) = .ok s := by
    rw [hstop, Nat.add_sub_cancel_left]
    cases hn : l.stored with
    | zero => exact ⟨r, rfl⟩
    | succ n =>
      rw [hn] at hstop
      obtain ⟨hmax, hlimit⟩ := hhigh (by
        show l.first r < (l.trace r).frontier
        omega)
      change (l.trace r).frontier ≤ _ at hmax
      change (l.trace r).frontier ≤ r.h.output + r.h.length at hlimit
      by_cases hbehind : l.first r ≤ r.outputFrontier
      · exact ⟨_, writeBytes_behind n hfirst hbehind (by omega) (by omega)⟩
      · have hpages := hroom.resolve_left hbehind
        unfold LoopRun.spanPages at hpages
        obtain ⟨s, hs⟩ := markBytes_room (r.pages.keys ++
            (List.range (rounded (l.first r % PAGE + (n + 1)) / PAGE)).map
              (base (l.first r) + · * PAGE))
          (by
            rw [List.length_append, Std.TreeMap.length_keys, List.length_map,
              List.length_range, ← hn]
            exact hpages)
          (n + 1) (r := { r with lastStoreEnd := l.first r + (n + 1) }) (a := l.first r)
          (fun p hp => List.mem_append_left _ (Std.TreeMap.mem_keys.mpr hp))
          fun b h1 h2 => List.mem_append_right _ (base_mem_span h1 h2)
        have hboth := writeBytes_past n (r := r) (a := l.first r) (by omega) (by omega)
        rw [hs] at hboth
        obtain ⟨s', hs', -⟩ := hboth.ok_of
        exact ⟨s', hs'⟩
  have hall := hpieces.trans (hsame.writeBytes _ _)
  rw [hs] at hall
  obtain ⟨r', hr', -⟩ := hall.ok_of
  exact ⟨r', hr'⟩

/-- **A loop below the limits** is not rejected, and leaves the recorder after its span. -/
theorem inlineLoop_ok {r' : Recorder} (hrun : inlineLoop r l = some r') (hvalid : l.valid r = true)
    (hsteps : r.steps + l.iterations.length * l.loop.instructionCount ≤ 500000000)
    (hroom : l.first r ≤ r.outputFrontier ∨ r.pages.size + l.spanPages r ≤ 262144) :
    r.rejection = none ∧ r.h.output ≤ l.first r ∧ l.first r ≤ r.h.output + r.h.length ∧
      writeSpan ((l.trace r).frontier - l.first r)
        { r with steps := r.steps + l.iterations.length * l.loop.instructionCount } (l.first r)
        (l.trace r).frontier = .ok r' := by
  unfold inlineLoop at hrun
  dsimp only at hrun
  by_cases hsome : r.rejection.isSome
  · rw [if_pos hsome] at hrun
    cases hrun
  rw [if_neg hsome] at hrun
  by_cases hrange : l.first r < r.h.output ∨ r.h.output + r.h.length < l.first r
  · rw [if_pos hrange] at hrun
    cases hrun
  rw [if_neg hrange, hvalid, if_pos rfl, if_neg (by simp only [reduceCtorEq, false_or]; omega)]
    at hrun
  obtain ⟨s, hs⟩ := writeSpan_ok (q := { r with
    steps := r.steps + l.iterations.length * l.loop.instructionCount }) { Alike.refl r with }
    (by omega) (l.valid_trace hvalid) hroom
  refine ⟨Option.not_isSome_iff_eq_none.mp hsome, by omega, by omega, ?_⟩
  rw [hs] at hrun ⊢
  cases hrun
  rfl

/-- **A loop**: run inline, and as the events of its iterations. -/
theorem Twin.loop {r' : Recorder} (h : Twin text loops r q) (hone : OneText loops) (hl : l ∈ loops)
    (hcode : l.iterations ≠ [] → ∀ a ∈ l.instructions, a.address ∈ r.code)
    (htext : ∀ a ∈ l.fresh, a.unsupported = text a.address)
    (hlimit : l.iterations ≠ [] → l.fresh = [] ∨ r.plans.size < 1000000)
    (hvalid : l.valid r = true)
    (hsteps : r.steps + l.iterations.length * l.loop.instructionCount ≤ 500000000)
    (hroom : l.first r ≤ r.outputFrontier ∨ r.pages.size + l.spanPages r ≤ 262144)
    (hrun : inlineLoop r l = some r') :
    Twin text loops r' (capture m q l.plain).2 := by
  obtain ⟨hquiet, hfirst, hfirst', hspan⟩ := inlineLoop_ok hrun hvalid hsteps hroom
  have hinvalid := l.valid_trace hvalid
  obtain ⟨-, hlow, hhigh⟩ := Trace.iterations_valid hinvalid
  dsimp only at hlow hhigh
  have hkept := writeSpan_kept _ hspan
  -- the span as its bytes, from the recorder before the loop
  have hbytes : Both (.ok r') (writeBytes ((l.trace r).frontier - l.first r) r (l.first r)) := by
    have hsame : Alike { r with steps := r.steps + l.iterations.length * l.loop.instructionCount }
      r :=
      { Alike.refl r with }
    have hpieces := writeSpan_bytes ((l.trace r).frontier - l.first r) (r := { r with
        steps := r.steps + l.iterations.length * l.loop.instructionCount }) le_rfl hfirst
      fun hlt => (hhigh hlt).symm
    rw [hspan] at hpieces
    exact hpieces.trans (hsame.writeBytes _ _)
  obtain ⟨w, hw, halike⟩ := hbytes.symm.ok_of
  rw [l.counted.symm] at hsteps hkept
  by_cases hnone : l.iterations = []
  · -- nothing happens
    have hstop : (l.trace r).frontier = l.first r := by
      unfold LoopRun.trace
      rw [hnone]
      rfl
    rw [hstop, Nat.sub_self] at hw
    cases hw
    unfold LoopRun.plain
    rw [if_pos hnone]
    rw [hnone, List.length_nil, Nat.zero_mul, Nat.add_zero] at hkept
    exact h.congr (halike.symm.trans h.alike) (fun _ => hquiet) hkept Notes.refl
  replace hcode := hcode hnone
  have hpos : 0 < l.instructions.length := List.length_pos_of_ne_nil l.nonempty
  have hlen : 0 < l.iterations.length := List.length_pos_of_ne_nil hnone
  have hmid : Mid text loops l r ⟨l.first r, r.h.output + r.h.length, false⟩ 0 r
      (capture m q (l.fresh.map Event.rule)).2 :=
    { twin := h.fresh (fun a ha => ⟨htext a ha, hcode a (l.fresh_sub a ha)⟩) (hlimit hnone)
      written := by
        dsimp only
        rw [Nat.sub_self]
        exact Both.refl _
      notes := ⟨rfl, rfl, rfl, by dsimp only; omega, fun _ hp => Or.inl hp⟩
      header := rfl
      quiet := hquiet
      low := le_rfl
      limit := rfl }
  have hbound : r.steps + (0 + l.iterations.length) * l.instructions.length ≤ 500000000 := by
    have := Nat.mul_pos hlen hpos
    rw [Nat.zero_add]
    omega
  obtain ⟨s, hs⟩ :=
    hmid.iterations (m := (capture m q (l.fresh.map Event.rule)).1) hone hl hcode hfirst
    ⟨w, hw⟩ hinvalid l.sized le_rfl hbound
  have hws := hs.written
  change Both (writeBytes ((l.trace r).frontier - l.first r) r (l.first r)) _ at hws
  rw [hw] at hws
  unfold LoopRun.plain
  rw [if_neg hnone, capture_append]
  cases hws with
  | ok hws =>
    refine hs.twin.congr ((halike.symm.trans hws).trans hs.twin.alike)
      (fun _ => hs.quiet) ?_ Notes.refl
    have hn := hs.notes
    refine ⟨hkept.plans.trans hn.plans.symm, hkept.code.trans hn.code.symm,
      hkept.counts.trans hn.counts.symm, ?_, fun _ _ => Or.inr trivial⟩
    have h1 := hkept.steps
    have h2 := hn.steps
    rw [Nat.zero_add] at h2
    exact h1.trans h2.symm

end Loop

/-! ### Whole runs -/

theorem capture_memory : ∀ (es : List Event) (m : ℕ → UInt8) (r : Recorder),
    (capture m r es).1 = es.foldl Event.update m
  | [], _, _ => rfl
  | e :: es, m, r => capture_memory es (e.update m) (e.note m r)

/-- The loops of a run. -/
def loopsOf (steps : List Step) : List LoopRun :=
  steps.filterMap fun
    | .event _ => none
    | .loop l => some l

/-- What the instrumentation promises of a step: an instruction is supported or not wherever it is
instrumented, and a block is entered after all its instructions are instrumented. -/
def Instrumented (text : ℕ → Option String) (loops : List LoopRun) (r : Recorder) : Step → Prop
  | .event (.rule a) => a.unsupported = text a.address
  | .event (.block start stop) => ∀ l ∈ loops, start = l.head → stop = l.after →
      ∀ a ∈ l.instructions, a.address ∈ r.plans
  | .event (.begin _ _ _) | .event (.read _ _) | .event (.write _ _) => True
  | .loop l => ∀ a ∈ l.fresh, a.unsupported = text a.address

/-- When a step is captured inline as it is block by block: every instruction of a loop that
iterates has been recorded before, no other address in a loop is instrumented, and the limits are
not met. Stores at the frontier or behind it need no pages. -/
def Recorded (loops : List LoopRun) (r : Recorder) : Step → Prop
  | .event (.rule a) => ∀ l ∈ loops, l.head ≤ a.address → a.address < l.after →
      ∃ b ∈ l.instructions, b.address = a.address
  | .event (.begin _ _ _) | .event (.block _ _) | .event (.read _ _) | .event (.write _ _) => True
  | .loop l => (l.iterations ≠ [] → ∀ a ∈ l.instructions, a.address ∈ r.code) ∧
      (l.iterations ≠ [] → l.fresh = [] ∨ r.plans.size < 1000000) ∧
      l.valid r = true ∧ r.steps + l.iterations.length * l.loop.instructionCount ≤ 500000000 ∧
      (l.first r ≤ r.outputFrontier ∨ r.pages.size + l.spanPages r ≤ 262144)

/-- A condition on every step of an inline capture. -/
def Along (P : Recorder → Step → Prop) (s : (ℕ → UInt8) × Recorder) : List Step → Prop
  | [] => True
  | x :: xs => P s.2 x ∧ match inlineStep s x with
    | none => True
    | some s' => Along P s' xs

instance {text : ℕ → Option String} {loops : List LoopRun} {r : Recorder} :
    DecidablePred (Instrumented text loops r)
  | .event (.rule a) => inferInstanceAs (Decidable (a.unsupported = text a.address))
  | .event (.block start stop) => inferInstanceAs (Decidable (∀ l ∈ loops, start = l.head →
      stop = l.after → ∀ a ∈ l.instructions, a.address ∈ r.plans))
  | .event (.begin _ _ _) | .event (.read _ _) | .event (.write _ _) =>
      inferInstanceAs (Decidable True)
  | .loop l => inferInstanceAs (Decidable (∀ a ∈ l.fresh, a.unsupported = text a.address))

instance {loops : List LoopRun} {r : Recorder} : DecidablePred (Recorded loops r)
  | .event (.rule a) => inferInstanceAs (Decidable (∀ l ∈ loops, l.head ≤ a.address →
      a.address < l.after → ∃ b ∈ l.instructions, b.address = a.address))
  | .event (.begin _ _ _) | .event (.block _ _) | .event (.read _ _) | .event (.write _ _) =>
    inferInstanceAs (Decidable True)
  | .loop l => inferInstanceAs (Decidable (
      (l.iterations ≠ [] → ∀ a ∈ l.instructions, a.address ∈ r.code) ∧
      (l.iterations ≠ [] → l.fresh = [] ∨ r.plans.size < 1000000) ∧
      l.valid r = true ∧ r.steps + l.iterations.length * l.loop.instructionCount ≤ 500000000 ∧
      (l.first r ≤ r.outputFrontier ∨ r.pages.size + l.spanPages r ≤ 262144)))

/-- The check of a condition along a capture. -/
def Along.decide {P : Recorder → Step → Prop} [∀ r, DecidablePred (P r)] :
    ∀ (s : (ℕ → UInt8) × Recorder) (steps : List Step), Decidable (Along P s steps)
  | _, [] => inferInstanceAs (Decidable True)
  | s, x :: xs =>
    have : Decidable (match inlineStep s x with
        | none => True
        | some s' => Along P s' xs) :=
      match inlineStep s x with
      | none => inferInstanceAs (Decidable True)
      | some s' => Along.decide s' xs
    inferInstanceAs (Decidable (_ ∧ _))

instance {P : Recorder → Step → Prop} [∀ r, DecidablePred (P r)] {s : (ℕ → UInt8) × Recorder}
    {steps : List Step} : Decidable (Along P s steps) := Along.decide s steps

instance {loops : List LoopRun} : Decidable (OneText loops) := by
  unfold OneText
  infer_instance

/-- A byte that counts as written. -/
def WrittenAt (r : Recorder) (a : ℕ) : Prop := r.behind a ∨ r.writtenBit a = true

/-- The same steps, written bytes, end of the last store and instructions. -/
structure Agrees (r q : Recorder) : Prop where
  steps : q.steps = r.steps
  written : ∀ a, WrittenAt q a ↔ WrittenAt r a
  stored : q.lastStoreEnd = r.lastStoreEnd
  code : ∀ k : ℕ, q.code[k]? = r.code[k]?

section Run

variable {text : ℕ → Option String} {loops : List LoopRun}

theorem Twin.agrees {r q : Recorder} (h : Twin text loops r q) : Agrees r q := by
  refine ⟨h.steps, fun a => ?_, h.alike.stored, h.code⟩
  unfold WrittenAt behind writtenBit
  rw [h.alike.header, h.alike.frontier, h.alike.pageAt]

theorem Twin.make (t : Target) (fsBase gsBase : ℕ) :
    Twin text loops (Recorder.make t fsBase gsBase) (Recorder.make t fsBase gsBase) := by
  have hplans : ∀ k : ℕ, (Recorder.make t fsBase gsBase).plans[k]? = none := fun k =>
    Std.TreeMap.getElem?_emptyc
  have hcode : ∀ k, k ∉ (Recorder.make t fsBase gsBase).code := fun k => Std.TreeMap.not_mem_emptyc
  refine
    { alike := Alike.refl _
      steps := rfl
      code := fun _ => rfl
      keys := fun _ => Iff.rfl
      lawful := fun k p hp => ?_
      lawful' := fun k p hp => ?_
      same := fun _ _ => rfl
      recorded := fun k hk => absurd hk (hcode k)
      counts := fun _ _ => Or.inl rfl
      cached := fun l _ c hc => ?_
      only := fun l _ k hk => absurd hk Std.TreeMap.not_mem_emptyc }
  · rw [hplans] at hp
    cases hp
  · rw [hplans] at hp
    cases hp
  · cases hc

/-- **One step** of both captures. -/
theorem Twin.step {m : ℕ → UInt8} {r q : Recorder} {s : (ℕ → UInt8) × Recorder} {x : Step}
    (h : Twin text loops r q) (hone : OneText loops) (hx : ∀ l, x = .loop l → l ∈ loops)
    (hsound : Instrumented text loops r x) (hcond : Recorded loops r x)
    (hrun : inlineStep (m, r) x = some s) :
    (capture m q x.plain).1 = s.1 ∧ Twin text loops s.2 (capture m q x.plain).2 := by
  cases x with
  | event e =>
    cases hrun
    refine ⟨rfl, ?_⟩
    cases e with
    | rule a => exact h.rule hsound hcond
    | block start stop => exact h.block hsound
    | begin regs xmm mxcsr => exact h.access (m := m) (e := .begin regs xmm mxcsr) trivial
    | read addr n => exact h.access (m := m) (e := .read addr n) trivial
    | write addr bytes => exact h.access (m := m) (e := .write addr bytes) trivial
  | loop l =>
    obtain ⟨hcode, hlimit, hvalid, hsteps, hroom⟩ := hcond
    obtain ⟨r', hr', rfl⟩ := Option.map_eq_some_iff.mp hrun
    exact ⟨capture_memory _ _ _, h.loop hone (hx l rfl) hcode hsound hlimit hvalid hsteps hroom hr'⟩

/-- **A run**, step by step. -/
theorem Twin.run (hone : OneText loops) : ∀ {steps : List Step} {m : ℕ → UInt8} {r q : Recorder}
    {s : (ℕ → UInt8) × Recorder}, Twin text loops r q → (∀ l ∈ loopsOf steps, l ∈ loops) →
    Along (Instrumented text loops) (m, r) steps → Along (Recorded loops) (m, r) steps →
    inlineCapture (m, r) steps = some s →
    (capture m q (plainEvents steps)).1 = s.1 ∧
      Twin text loops s.2 (capture m q (plainEvents steps)).2
  | [], m, r, q, s, h, _, _, _, hrun => by
    cases hrun
    exact ⟨rfl, h⟩
  | x :: xs, m, r, q, s, h, hloops, hsound, hcond, hrun => by
    obtain ⟨⟨m₁, r₁⟩, h₁, hrun⟩ := Option.bind_eq_some_iff.mp hrun
    obtain ⟨hs, hsound⟩ := hsound
    obtain ⟨hc, hcond⟩ := hcond
    rw [h₁] at hsound hcond
    have hmem : ∀ l ∈ loopsOf xs, l ∈ loops := fun l hl => hloops l (by
      cases x with
      | event e => exact hl
      | loop l' => exact List.mem_cons_of_mem _ hl)
    have hx : ∀ l, x = .loop l → l ∈ loops := by
      rintro l rfl
      exact hloops l List.mem_cons_self
    obtain ⟨hm, htwin⟩ := h.step hone hx hs hc h₁
    have hevents : plainEvents (x :: xs) = x.plain ++ plainEvents xs := rfl
    rw [hevents, capture_append, hm]
    exact htwin.run hone hmem hsound hcond hrun

end Run

/-- **Inline capture equals plain capture** when the instructions of every loop were recorded before
it runs inline. -/
theorem inline_plain (t : Target) (fsBase gsBase : ℕ) (m : ℕ → UInt8) (text : ℕ → Option String)
    (steps : List Step) (s : (ℕ → UInt8) × Recorder)
    (hrun : inlineCapture (m, Recorder.make t fsBase gsBase) steps = some s)
    (hone : OneText (loopsOf steps))
    (hsound : Along (Instrumented text (loopsOf steps)) (m, Recorder.make t fsBase gsBase) steps)
    (hcond : Along (Recorded (loopsOf steps)) (m, Recorder.make t fsBase gsBase) steps) :
    (capture m (Recorder.make t fsBase gsBase) (plainEvents steps)).1 = s.1 ∧
      Agrees s.2 (capture m (Recorder.make t fsBase gsBase) (plainEvents steps)).2 := by
  obtain ⟨hm, htwin⟩ := (Twin.make t fsBase gsBase).run hone (fun _ hl => hl) hsound hcond hrun
  exact ⟨hm, htwin.agrees⟩

/-! ### A loop that fills a buffer -/

/-- A page at `0x10000`. -/
def fillTarget : Target where
  output := 0x10000
  length := 4096
  aligned := rfl
  pos := by decide
  fits := by decide

/-- An instruction of the examples. -/
def plainAnalysis (address size : ℕ) (pos : 0 < size) (short : size ≤ 15)
    (fits : address + size ≤ UINT64_MAX) : Analysis := ⟨address, size, pos, short, fits, none⟩

/-- `mov [rdi+rax], cl`. -/
def fillStore : Analysis := plainAnalysis 0x1002 3 three_bytes three_short (by decide)

/-- `inc rax`. -/
def fillCount : Analysis := plainAnalysis 0x1005 3 three_bytes three_short (by decide)

/-- `cmp rax, rdx`. -/
def fillCompare : Analysis := plainAnalysis 0x1008 3 three_bytes three_short (by decide)

/-- `jne`, back to the store. -/
def fillBranch : Analysis := plainAnalysis 0x100b 2 (by decide) (by decide) (by decide)

/-- `mov [rdi], cl` and a jump to the comparison. -/
def fillEntry : Analysis := plainAnalysis 0x0ffe 2 (by decide) (by decide) (by decide)

def fillJump : Analysis := plainAnalysis 0x1000 2 (by decide) (by decide) (by decide)

/-- Two more iterations of the loop, which store the second and the third byte. -/
def fillRun (fresh : List Analysis)
    (hfresh : ∀ a ∈ fresh, a ∈ [fillStore, fillCount, fillCompare, fillBranch]) : LoopRun where
  loop :=
    { original := [0x88, 0x0c, 0x07, 0x48, 0xff, 0xc0, 0x48, 0x39, 0xd0, 0x75, 0xf5]
      bodySize := 9
      tracing := true
      condition := 5
      instructionCount := 4
      output := some ⟨.gp 7 64, .gp 0 64, 1, 1, 1, 0, 0, 1⟩
      readPlan := none }
  head := 0x1002
  after := 0x100d
  instructions := [fillStore, fillCount, fillCompare, fillBranch]
  iterations := [[(0x10001, [7])], [(0x10002, [7])]]
  fresh := fresh
  counted := rfl
  nonempty := List.cons_ne_nil _ _
  inside := by decide
  distinct := by decide
  sized := by decide
  fresh_sub := hfresh

/-- The loop is entered at its head, and runs inline after its first iteration. -/
def headSteps : List Step :=
  [.event (.rule fillStore), .event (.rule fillCount), .event (.rule fillCompare),
    .event (.rule fillBranch), .event (.block 0x1002 0x100d), .event (.write 0x10000 [7]),
    .loop (fillRun [] (by simp))]

/-- The loop is entered by a jump to its test, after the first byte was stored before it. -/
def testSteps : List Step :=
  [.event (.rule fillEntry), .event (.rule fillJump), .event (.block 0x0ffe 0x1002),
    .event (.write 0x10000 [7]), .event (.rule fillCompare), .event (.rule fillBranch),
    .event (.block 0x1008 0x100d),
    .loop (fillRun [fillStore, fillCount, fillCompare, fillBranch] fun _ h => h)]

/-- A loop that was entered at its head, in both captures. -/
theorem inline_plain_head : ∃ s,
    inlineCapture (fun _ => 0, Recorder.make fillTarget 0 0) headSteps = some s ∧
      Agrees s.2 (capture (fun _ => 0) (Recorder.make fillTarget 0 0)
        (plainEvents headSteps)).2 := by
  have hsome : (inlineCapture (fun _ => 0, Recorder.make fillTarget 0 0) headSteps).isSome := by
    decide +kernel
  obtain ⟨s, hs⟩ := Option.isSome_iff_exists.mp hsome
  exact ⟨s, hs, (inline_plain fillTarget 0 0 (fun _ => 0) (fun _ => none) headSteps s hs
    (by decide +kernel) (by decide +kernel) (by decide +kernel)).2⟩

/-- **A loop that was entered by a jump to its test**: the store at its head runs only inline, and
its instruction is missing from the code. -/
theorem inline_plain_test : ∃ s,
    inlineCapture (fun _ => 0, Recorder.make fillTarget 0 0) testSteps = some s ∧
      OneText (loopsOf testSteps) ∧
      Along (Instrumented (fun _ => none) (loopsOf testSteps))
        (fun _ => 0, Recorder.make fillTarget 0 0) testSteps ∧
      (∀ l ∈ loopsOf testSteps, fillStore.address ∈ l.instructions.map Analysis.address ∧
        l.iterations ≠ []) ∧
      s.2.rejection = none ∧ fillStore.address ∉ s.2.code ∧
      fillStore.address ∈
        (capture (fun _ => 0) (Recorder.make fillTarget 0 0) (plainEvents testSteps)).2.code ∧
      ¬ Agrees s.2 (capture (fun _ => 0) (Recorder.make fillTarget 0 0)
        (plainEvents testSteps)).2 := by
  have hsome : (inlineCapture (fun _ => 0, Recorder.make fillTarget 0 0) testSteps).isSome := by
    decide +kernel
  have hout : ∀ s ∈ inlineCapture (fun _ => 0, Recorder.make fillTarget 0 0) testSteps,
      s.2.rejection = none ∧ fillStore.address ∉ s.2.code := by
    decide +kernel
  have hplain : fillStore.address ∈
      (capture (fun _ => 0) (Recorder.make fillTarget 0 0) (plainEvents testSteps)).2.code := by
    decide +kernel
  obtain ⟨s, hs⟩ := Option.isSome_iff_exists.mp hsome
  obtain ⟨hrej, hcode⟩ := hout s hs
  refine ⟨s, hs, by decide +kernel, by decide +kernel, by decide, hrej, hcode, hplain, fun h => ?_⟩
  rw [mem_code, h.code] at hplain
  exact hcode (mem_code.mpr hplain)

end Afterfree.Recording.Inline
