import Afterfree.Native.Replay
import Afterfree.Native.Interpreter

/-!
# The fused boundary check

A block start compares the cursor with a cached trigger first and skips all checks below it. With
`AF_DISABLE_FAST_BOUNDARY` every block start makes the checks. Both codes go through the same
pieces, with hosts that differ in the scratch register and the trigger at most.

* `Twins`: two such hosts; every piece behind its block start keeps them so;
* `boundary_flags`: a block start leaves the flags of one subtraction behind, whatever it has
  skipped;
* `boundary_twins`, `piece_trigger`: a block start below the trigger misses nothing, and the trigger
  stays in front of what is due;
* `fused_boundary`: both codes, piece by piece and at the end of calls and of whole replays.
-/

namespace Afterfree.Native.Fused

open Afterfree.Common Afterfree.Codec Afterfree.Encoding Afterfree.Native.X86
  Afterfree.Native.Decode
open Afterfree.Native.Reference Afterfree.Native.Compile Afterfree.Native.Pieces
  Afterfree.Native.Calls
open Afterfree.Native.Interpreter Afterfree.Native.Arenas Afterfree.Worker.Checked Afterfree.Lib

/-- The code with its boundary checks fused or not. -/
def withBoundary (c : Compiler) (fast : Bool) : Compiler := { c with fastBoundary := fast }

/-! ### Hosts -/

/-- Two views that differ in the trigger at most. -/
structure Same (v w : View) : Prop where
  word : ∀ f, f ≠ .trigger → v.word f = w.word f
  pointer : v.pointer = w.pointer
  gpr : v.gpr = w.gpr
  xmm : v.xmm = w.xmm
  mxcsr : v.mxcsr = w.mxcsr
  stack : v.stack = w.stack
  saved : v.saved = w.saved
  frames : v.frames = w.frames
  mem : v.mem = w.mem
  log : v.log = w.log

theorem Same.setWord {v w : View} (h : Same v w) (f : Field) (x : Word) :
    Same (v.setWord f x) (w.setWord f x) :=
  { h with
    word := fun k hk => by
      by_cases hf : k = f
      · subst hf
        rw [View.word_setWord_self, View.word_setWord_self]
      · rw [View.word_setWord_of_ne hf, View.word_setWord_of_ne hf, h.word k hk] }

theorem Same.setTrigger {v w : View} (h : Same v w) (x : Word) : Same (v.setWord .trigger x) w :=
  { h with word := fun k hk => (View.word_setWord_of_ne hk x v).trans (h.word k hk) }

theorem Same.popView {v w : View} (h : Same v w) (preserving : Bool) :
    Same (popView preserving v) (popView preserving w) := by
  cases preserving with
  | false => exact h
  | true => exact { h with stack := congrArg List.tail h.stack }

theorem Same.leaveView {v w : View} (h : Same v w) (e : Exit) (preserving : Bool) :
    Same (leaveView e preserving v) (leaveView e preserving w) := by
  unfold Pieces.leaveView
  split_ifs
  · exact h.popView preserving
  · exact (h.popView preserving).setWord .error 1

/-- **Two hosts** that differ in the scratch register and the trigger at most. -/
structure Twins (a : Allocation) (h g : Host) : Prop where
  same : Same (view a h) (view a g)
  flags : h.core.flags = g.core.flags

/-- The scratch registers are equal, too. -/
structure Level (a : Allocation) (h g : Host) : Prop extends Twins a h g where
  scratch : h.scratch a = g.scratch a

section Operations
variable {a : Allocation} {h g : Host}

theorem Twins.get (ht : Twins a h g) {f : Field} (hf : f ≠ .trigger) : h.get a f = g.get a f :=
  ht.same.word f hf

theorem Twins.jumps (ht : Twins a h g) (code : ℕ) : h.jumps code = g.jumps code := by
  unfold Host.jumps
  rw [ht.flags]

theorem Twins.setScratch (ht : Twins a h g) (v : Word) :
    Level a (h.setScratch a v) (g.setScratch a v) := by
  refine ⟨⟨?_, ?_⟩, ?_⟩
  · rw [view_setScratch, view_setScratch]
    exact ht.same
  · rw [flags_setScratch, flags_setScratch, ht.flags]
  · rw [scratch_setScratch, scratch_setScratch]

theorem Twins.setFlags (ht : Twins a h g) (v : Word) : Twins a (h.setFlags v) (g.setFlags v) :=
  ⟨by rw [view_setFlags, view_setFlags]; exact ht.same, rfl⟩

theorem Twins.cmp (ht : Twins a h g) (isa : Isa) (x y : Word) :
    Twins a (h.cmp isa x y) (g.cmp isa x y) := by
  unfold Host.cmp
  rw [ht.flags]
  exact ht.setFlags _

theorem Twins.pushf (ht : Twins a h g) : Twins a h.pushf g.pushf :=
  ⟨{ ht.same with stack := congrArg₂ List.cons ht.flags ht.same.stack }, ht.flags⟩

theorem Twins.popf (ht : Twins a h g) : Twins a h.popf g.popf :=
  ⟨{ ht.same with stack := congrArg List.tail ht.same.stack },
    congrArg (fun l => List.headD l 0) ht.same.stack⟩

theorem flags_put (f : Field) (v : Word) (h : Host) : (h.put a f v).core.flags = h.core.flags := by
  unfold Host.put
  cases a.hot.lookup f <;> rfl

theorem Twins.put (ht : Twins a h g) (f : Field) (v : Word) :
    Twins a (h.put a f v) (g.put a f v) := by
  refine ⟨?_, ?_⟩
  · rw [view_put, view_put]
    exact ht.same.setWord f v
  · rw [flags_put, flags_put, ht.flags]

theorem Level.cmp (hl : Level a h g) (isa : Isa) (x y : Word) :
    Level a (h.cmp isa x y) (g.cmp isa x y) :=
  ⟨hl.toTwins.cmp isa x y, hl.scratch⟩

theorem Level.put (hl : Level a h g) (f : Field) (v : Word) : Level a (h.put a f v) (g.put a f v) :=
  ⟨hl.toTwins.put f v, by rw [scratch_put, scratch_put, hl.scratch]⟩

theorem Level.addScratch (hl : Level a h g) (isa : Isa) (v : Word) :
    Level a (h.addScratch isa a v) (g.addScratch isa a v) := by
  unfold Host.addScratch
  rw [hl.flags, hl.scratch]
  exact ⟨(hl.setScratch _).setFlags _, (hl.setScratch _).scratch⟩

theorem Level.subScratch (hl : Level a h g) (isa : Isa) (v : Word) :
    Level a (h.subScratch isa a v) (g.subScratch isa a v) := by
  unfold Host.subScratch
  rw [hl.flags, hl.scratch]
  exact ⟨(hl.setScratch _).setFlags _, (hl.setScratch _).scratch⟩

end Operations

/-! ### Pieces -/

/-- Two results of a check. -/
structure Checked (a : Allocation) (x y : Host × Bool) : Prop where
  verdict : x.2 = y.2
  level : Level a x.1 y.1

section
variable {c : Compiler} {h g : Host}

/-- **The guard of a store.** -/
theorem writes_twins (hl : Level c.regs h g) (n : ℕ) :
    Checked c.regs (c.writes n h) (c.writes n g) := by
  unfold Compiler.writes
  dsimp only
  rw [← hl.scratch, ← hl.get (f := .cursor) (by decide)]
  have h1 := hl.cmp c.isa (h.scratch c.regs) (h.get c.regs .cursor)
  generalize h.cmp c.isa _ _ = h₁ at h1 ⊢
  generalize g.cmp c.isa _ _ = g₁ at h1 ⊢
  rw [← h1.jumps 5]
  by_cases j1 : h₁.jumps 5 = true
  · rw [if_pos j1, if_pos j1]
    exact ⟨rfl, h1⟩
  rw [if_neg j1, if_neg j1]
  have h2 := h1.addScratch c.isa (BitVec.ofNat 64 n)
  generalize h₁.addScratch c.isa c.regs _ = h₂ at h2 ⊢
  generalize g₁.addScratch c.isa c.regs _ = g₂ at h2 ⊢
  rw [← h2.jumps 2]
  by_cases j2 : h₂.jumps 2 = true
  · rw [if_pos j2, if_pos j2]
    exact ⟨rfl, h2⟩
  rw [if_neg j2, if_neg j2]
  rw [← h2.scratch, ← h2.get (f := .limit) (by decide)]
  have h3 := h2.cmp c.isa (h₂.scratch c.regs) (h₂.get c.regs .limit)
  generalize h₂.cmp c.isa _ _ = h₃ at h3 ⊢
  generalize g₂.cmp c.isa _ _ = g₃ at h3 ⊢
  rw [← h3.jumps 7]
  by_cases j3 : h₃.jumps 7 = true
  · rw [if_pos j3, if_pos j3]
    exact ⟨rfl, h3⟩
  rw [if_neg j3, if_neg j3]
  rw [← h3.scratch]
  have h4 := (h3.put .cursor (h₃.scratch c.regs)).subScratch c.isa (BitVec.ofNat 64 n)
  rw [← h4.get (f := .delta) (by decide)]
  exact ⟨rfl, h4.addScratch c.isa _⟩

/-- **The guard of a load.** -/
theorem reads_twins (n : ℕ) : ∀ (inputs : List Segment) {h g : Host}, Level c.regs h g →
    Checked c.regs (c.reads n inputs h) (c.reads n inputs g)
  | [], _, _, hl => ⟨rfl, hl⟩
  | s :: rest, h, g, hl => by
    rw [Compiler.reads, Compiler.reads]
    by_cases h0 : c.readable n s = false
    · rw [if_pos h0, if_pos h0]
      exact reads_twins n rest hl
    rw [if_neg h0, if_neg h0]
    dsimp only
    rw [← hl.scratch]
    have h1 := hl.cmp c.isa (h.scratch c.regs) (BitVec.ofNat 64 s.address)
    generalize h.cmp c.isa _ _ = h₁ at h1 ⊢
    generalize g.cmp c.isa _ _ = g₁ at h1 ⊢
    rw [← h1.jumps 2]
    by_cases j1 : h₁.jumps 2 = true
    · rw [if_pos j1, if_pos j1]
      exact reads_twins n rest h1
    rw [if_neg j1, if_neg j1]
    rw [← h1.scratch]
    have h2 := h1.cmp c.isa (h₁.scratch c.regs) (BitVec.ofNat 64 (s.address + s.bytes.length - n))
    generalize h₁.cmp c.isa _ _ = h₂ at h2 ⊢
    generalize g₁.cmp c.isa _ _ = g₂ at h2 ⊢
    rw [← h2.jumps 7]
    by_cases j2 : h₂.jumps 7 = true
    · rw [if_pos j2, if_pos j2]
      exact reads_twins n rest h2
    · rw [if_neg j2, if_neg j2]
      exact ⟨rfl, h2.addScratch c.isa _⟩

/-- **The guard of a memory operand.** -/
theorem guard_twins (hl : Level c.regs h g) (d : Decoded) (m : Mem) :
    Checked c.regs (c.guard d m h) (c.guard d m g) := by
  have hrest : ∀ {x y : Host}, Level c.regs x y → Checked c.regs
      (if m.action = .write then c.writes (m.size / 8) x
        else c.reads (m.size / 8) c.recipe.inputs x)
      (if m.action = .write then c.writes (m.size / 8) y
        else c.reads (m.size / 8) c.recipe.inputs y) := by
    intro x y hxy
    split_ifs
    · exact writes_twins hxy _
    · exact reads_twins _ _ hxy
  unfold Compiler.guard
  by_cases hu : d.inst.mnemonic.unaligned.isSome = true
  · have h1 : Level c.regs (h.setFlags (c.isa.testFlags h.core.flags (h.scratch c.regs) 15))
        (g.setFlags (c.isa.testFlags h.core.flags (h.scratch c.regs) 15)) :=
      ⟨hl.setFlags _, hl.scratch⟩
    simp only [hu, if_true]
    rw [← hl.flags, ← hl.scratch, ← h1.jumps 5]
    split_ifs
    · exact ⟨rfl, h1⟩
    · exact writes_twins h1 _
    · exact reads_twins _ _ h1
  · simp only [hu, Bool.false_eq_true, if_false, reduceCtorEq]
    exact hrest hl

end

/-- Two flows to the same place, or two ends of the same kind. -/
inductive SameFlow (a : Allocation) : Flow → Flow → Prop
  | next {position : ℕ} {h g : Host} (ht : Twins a h g) :
      SameFlow a (.next position h) (.next position g)
  | stop {e : Exit} {h g : Host} (hs : Same (view a h) (view a g)) :
      SameFlow a (.stop e h) (.stop e g)

section
variable {c : Compiler} {h g : Host}

theorem leave_twins (hs : Same (view c.regs h) (view c.regs g)) (e : Exit) (preserving : Bool) :
    SameFlow c.regs (c.leave e preserving h) (c.leave e preserving g) := by
  obtain ⟨x, hx, hvx⟩ := leave_spec c e preserving h
  obtain ⟨y, hy, hvy⟩ := leave_spec c e preserving g
  rw [hx, hy]
  exact .stop (by rw [hvx, hvy]; exact hs.leaveView e preserving)

variable {r : Recipe} (ha : Admitted c.isa r c.plan)
include ha

/-- **A return.** -/
theorem ret_twins (hs : Same (view c.regs h) (view c.regs g)) :
    SameFlow c.regs (c.ret h) (c.ret g) := by
  obtain ⟨x, hx, hvx⟩ := ret_spec c ha.result h
  obtain ⟨y, hy, hvy⟩ := ret_spec c ha.result g
  have hiff : Finished c (view c.regs h) ↔ Finished c (view c.regs g) := by
    unfold Finished
    rw [hs.word .cursor (by decide), hs.word .stop (by decide),
      hs.word .remaining (by decide), hs.gpr]
  rw [hx, hy]
  by_cases hf : Finished c (view c.regs h)
  · rw [if_pos hf] at hvx ⊢
    rw [if_pos (hiff.mp hf)] at hvy ⊢
    exact .stop (by rw [hvx, hvy]; exact hs.leaveView _ _)
  · rw [if_neg hf] at hvx ⊢
    rw [if_neg fun hc => hf (hiff.mpr hc)] at hvy ⊢
    exact .stop (by rw [hvx, hvy]; exact hs.leaveView _ _)

omit ha in
theorem jump_twins (ht : Twins c.regs h g) (position : ℕ) (d : Decoded) :
    SameFlow c.regs (c.jump position d h) (c.jump position d g) := by
  unfold Compiler.jump
  cases d.condition with
  | none => exact .next ht
  | some code =>
    simp only
    rw [ht.jumps]
    split_ifs
    · exact .next ht
    · exact .next ht

/-- **An instruction of the guest** does the same to both. -/
theorem exec_twins {d : Decoded} (hd : d ∈ c.plan.instructions) (hr : d.returns = false)
    (ht : Twins c.regs h g) (l : Loaded) :
    (c.isa.exec d.inst h.core l).2 = (c.isa.exec d.inst g.core l).2 ∧
      ∀ {mem mem' log log'}, mem = mem' → log = log' →
        Twins c.regs { h with core := (c.isa.exec d.inst h.core l).1, mem := mem, log := log }
          { g with core := (c.isa.exec d.inst g.core l).1, mem := mem', log := log' } := by
  have hused : SameOn c.regs.used (List.finRange 16) h.core g.core := by
    refine ⟨fun r hr => ?_, fun k _ => congrFun ht.same.xmm k, ht.same.mxcsr⟩
    rw [gpr_eq hr h, gpr_eq hr g, ht.same.gpr]
  have hflags : Agree (d.inst.tested ||| 0) h.core.flags g.core.flags := by
    rw [ht.flags]
    exact .refl _ _
  obtain ⟨hs, -, hout⟩ :=
    c.isa.exec_sameOn (ha.gprs d hd hr) (fun k _ => List.mem_finRange k) l hused hflags
  have hown : SameOn d.inst.gprs d.inst.vectors h.core g.core :=
    ⟨fun r hi => hused.gpr r (ha.gprs d hd hr r hi), fun k _ => hused.xmm k (List.mem_finRange k),
      hused.mxcsr⟩
  refine ⟨hout, fun {mem mem' log log'} hm hlog => ⟨?_,
    c.isa.exec_flags d.inst h.core g.core l hown ht.flags⟩⟩
  rw [view_exec c (ha.gprs d hd hr) l mem log h, view_exec c (ha.gprs d hd hr) l mem' log' g]
  refine { ht.same with
    gpr := funext fun r => ?_
    xmm := funext fun k => hs.xmm k (List.mem_finRange k)
    mxcsr := hs.mxcsr
    mem := hm
    log := hlog }
  unfold View.setCore
  simp only
  split_ifs with hin
  · exact hs.gpr r hin
  · rfl

theorem quiet_twins {d : Decoded} (hd : d ∈ c.plan.instructions) (hr : d.returns = false)
    (ht : Twins c.regs h g) (l : Loaded) (position : ℕ) :
    SameFlow c.regs (.next position { h with core := (c.isa.exec d.inst h.core l).1 })
      (.next position { g with core := (c.isa.exec d.inst g.core l).1 }) :=
  .next ((exec_twins ha hd hr ht l).2 ht.same.mem ht.same.log)

/-- **An emitted instruction** with a memory operand. -/
theorem access_twins {d : Decoded} (hd : d ∈ c.plan.instructions) (hr : d.returns = false)
    (hl : Level c.regs h g) (position : ℕ) (m : Mem) :
    SameFlow c.regs (c.access position d m h) (c.access position d m g) := by
  have hmem : h.mem = g.mem := hl.same.mem
  have hlog : h.log = g.log := hl.same.log
  unfold Compiler.access
  simp only [c.isa.exec_unaligned]
  rw [← hl.scratch]
  split_ifs
  · exact .stop hl.same
  · obtain ⟨hout, hx⟩ := exec_twins ha hd hr hl.toTwins .nothing
    exact .next (hx (by rw [hmem, hout]) (by rw [hlog]))
  · rw [← hmem]
    exact .next ((exec_twins ha hd hr hl.toTwins _).2 rfl (by rw [hlog]))

/-- **An instruction** that is no branch and no return. -/
theorem plain_twins {d : Decoded} (hd : d ∈ c.plan.instructions) (hr : d.returns = false)
    (ht : Twins c.regs h g) (position : ℕ) :
    SameFlow c.regs (c.plain position d h) (c.plain position d g) := by
  unfold Compiler.plain
  cases hm : d.memory with
  | none => exact quiet_twins ha hd hr ht .nothing _
  | some m =>
    have hop : ∀ {x y : Host}, Twins c.regs x y →
        operandAddress c.recipe.h d.source d.inst m x.core =
          operandAddress c.recipe.h d.source d.inst m y.core := fun {x y} hxy =>
      operandOf_same ha hd hr hm fun r hin => by rw [gpr_eq hin x, gpr_eq hin y, hxy.same.gpr]
    simp only
    by_cases hlea : d.inst.mnemonic = .lea
    · rw [if_pos hlea, if_pos hlea, ← hop ht]
      have hl := ht.setScratch (operandAddress c.recipe.h d.source d.inst m h.core)
      rw [← hl.scratch]
      exact quiet_twins ha hd hr hl.toTwins _ _
    · rw [if_neg hlea, if_neg hlea]
      have hp : Twins c.regs (if c.preserving d = true then h.pushf else h)
          (if c.preserving d = true then g.pushf else g) := by
        split_ifs
        · exact ht.pushf
        · exact ht
      generalize (if c.preserving d = true then h.pushf else h) = h₁ at hp ⊢
      generalize (if c.preserving d = true then g.pushf else g) = g₁ at hp ⊢
      rw [← hop hp]
      obtain ⟨hverdict, hlevel⟩ := guard_twins (hp.setScratch
        (operandAddress c.recipe.h d.source d.inst m h₁.core)) d m
      generalize c.guard d m _ = x at hverdict hlevel ⊢
      generalize c.guard d m _ = y at hverdict hlevel ⊢
      rw [← hverdict]
      split_ifs with hx hpres
      · exact access_twins ha hd hr ⟨hlevel.popf, hlevel.scratch⟩ _ m
      · exact access_twins ha hd hr hlevel _ m
      · exact leave_twins hlevel.same .rejected _

end

/-! ### Block starts -/

theorem steady_cmp (isa : Isa) (x y : Word) (h : Host) :
    steady (h.cmp isa x y).core.flags = steady h.core.flags := isa.sub_steady ..

theorem steady_addField (isa : Isa) (a : Allocation) (f : Field) (v : Word) (h : Host) :
    steady (h.addField isa a f v).core.flags = steady h.core.flags := isa.add_steady ..

section
variable (c : Compiler)

theorem atLimit_steady (h : Host) : steady (c.atLimit h).1.core.flags = steady h.core.flags := by
  unfold Compiler.atLimit
  dsimp only
  split_ifs <;> simp only [steady_cmp, flags_setScratch]

theorem collect_steady (position : ℕ) (preserving : Bool) (h : Host) :
    steady (c.collect position preserving h).core.flags = steady h.core.flags := by
  have hcapture :
    ∀ g : Host, steady (c.capture position preserving g).core.flags = steady g.core.flags := by
    intro g
    unfold Compiler.capture
    dsimp only
    rw [steady_addField, steady_addField]
    rfl
  unfold Compiler.collect
  dsimp only
  split_ifs <;> simp only [hcapture, steady_cmp, flags_setScratch, flags_put]

theorem retrigger_steady (h : Host) : steady (c.retrigger h).core.flags = steady h.core.flags := by
  unfold Compiler.retrigger
  dsimp only
  split_ifs <;> simp only [steady_cmp, flags_setScratch, flags_put]

theorem cold_steady (position : ℕ) (d : Decoded) (h : Host) (hx : (c.cold position d h).2 = false) :
    steady (c.cold position d h).1.core.flags = steady h.core.flags := by
  have hlimit := atLimit_steady c h
  unfold Compiler.cold at hx ⊢
  dsimp only at hx ⊢
  generalize c.atLimit h = x at hlimit hx ⊢
  split_ifs at hx ⊢
  · simp only [retrigger_steady, collect_steady, hlimit]
  · simp only [collect_steady, hlimit]

theorem charge_flags {d : Decoded} (hp : c.preserving d = false) (h : Host)
    (hx : (c.charge d h).2 = true) :
    (c.charge d h).1.core.flags =
        c.isa.subFlags h.core.flags (h.get c.regs .remaining) (BitVec.ofNat 64 (c.blockCount d)) ∧
      (view c.regs (c.charge d h).1).word .remaining =
        h.get c.regs .remaining - BitVec.ofNat 64 (c.blockCount d) := by
  unfold Compiler.charge at hx ⊢
  simp only [hp, Bool.false_eq_true, if_false] at hx ⊢
  split_ifs at hx ⊢
  rw [view_setFlags, view_put, View.word_setWord_self]
  exact ⟨rfl, rfl⟩

/-- **The flags behind a block start** that has not saved them are those of its last subtraction. -/
theorem boundary_flags (position : ℕ) {d : Decoded} (hp : c.preserving d = false) (h : Host)
    (hx : (c.boundary position d h).2 = none) : ∃ f old, steady f = steady h.core.flags ∧
      (c.boundary position d h).1.core.flags = c.isa.subFlags f old
        (BitVec.ofNat 64 (c.blockCount d)) ∧
      (view c.regs (c.boundary position d h).1).word .remaining =
        old - BitVec.ofNat 64 (c.blockCount d) := by
  unfold Compiler.boundary at hx ⊢
  rw [hp] at hx ⊢
  simp only [Bool.false_eq_true, if_false] at hx ⊢
  generalize hfront : (if c.fastBoundary = true then _ else _ : Host × Bool) = x at hx ⊢
  have hsteady : x.2 = false → steady x.1.core.flags = steady h.core.flags := by
    rw [← hfront]
    split_ifs
    · intro _
      simp only [steady_cmp, flags_setScratch]
    · intro hno
      rw [cold_steady c position d _ hno]
      simp only [steady_cmp, flags_setScratch]
    · exact cold_steady c position d h
  cases hyield : x.2 with
  | true =>
    rw [hyield] at hx
    cases hx
  | false =>
    rw [hyield] at hx
    simp only [Bool.false_eq_true, if_false] at hx ⊢
    cases hy : (c.charge d x.1).2 with
    | false =>
      rw [hy] at hx
      cases hx
    | true =>
      simp only [if_true]
      exact ⟨_, _, hsteady hyield, charge_flags c hp x.1 hy⟩

end

/-! ### Two codes -/

section
variable (c : Compiler)

theorem countFrom_boundary (fast : Bool) :
    ∀ fuel pc, (withBoundary c fast).countFrom fuel pc = c.countFrom fuel pc
  | 0, _ => rfl
  | fuel + 1, pc => by
    rw [Compiler.countFrom, Compiler.countFrom]
    simp only [countFrom_boundary fast fuel]
    rfl

theorem blockCount_boundary (fast : Bool) (d : Decoded) :
    (withBoundary c fast).blockCount d = c.blockCount d := countFrom_boundary c fast _ _

theorem reads_boundary (fast : Bool) (n : ℕ) :
    ∀ (inputs : List Segment) (h : Host), (withBoundary c fast).reads n inputs h =
      c.reads n inputs h
  | [], _ => rfl
  | s :: rest, h => by
    rw [Compiler.reads, Compiler.reads]
    simp only [reads_boundary fast n rest]
    rfl

theorem plain_boundary (fast : Bool) (position : ℕ) (d : Decoded) (h : Host) :
    (withBoundary c fast).plain position d h = c.plain position d h := by
  unfold Compiler.plain Compiler.guard
  simp only [reads_boundary]
  rfl

/-- Two starts of a block: both go on, or both end in the same way. -/
inductive SameStart (a : Allocation) : Host × Option Exit → Host × Option Exit → Prop
  | passes {h g : Host} (ht : Twins a h g) : SameStart a (h, none) (g, none)
  | ends {e : Exit} {h g : Host} (hs : Same (view a h) (view a g)) :
      SameStart a (h, some e) (g, some e)

variable {c}

theorem Same.pushView {v w : View} (h : Same v w) {f g : Word} (hf : f = g) (preserving : Bool) :
    Same (pushView preserving f v) (pushView preserving g w) := by
  cases preserving with
  | false => exact h
  | true => exact { h with stack := congrArg₂ List.cons hf h.stack }

theorem Same.yields {v w : View} (h : Same v w) : Yields v.word ↔ Yields w.word := by
  unfold Yields
  rw [h.word .validating (by decide), h.word .cursor (by decide), h.word .limit (by decide)]

theorem Same.due {v w : View} (h : Same v w) : Due v.word ↔ Due w.word := by
  unfold Due
  rw [h.word .collecting (by decide), h.word .cursor (by decide), h.word .stop (by decide),
    h.word .nextPage (by decide)]

theorem Same.frameOf {v w : View} (h : Same v w) (position : ℕ) (preserving : Bool) :
    frameOf c position preserving v = frameOf c position preserving w := by
  unfold Pieces.frameOf
  rw [h.word .cursor (by decide), h.word .remaining (by decide), h.stack, h.saved,
    h.mxcsr, h.gpr, h.xmm]

theorem Same.persistState {v w : View} (h : Same v w) (preserving : Bool) :
    persistState c preserving v = persistState c preserving w := by
  unfold Pieces.persistState
  rw [h.gpr, h.stack, h.saved, h.xmm, h.mxcsr]

theorem Same.collectView {v w : View} (h : Same v w) (position : ℕ) (preserving : Bool) :
    Same (collectView c position preserving v) (collectView c position preserving w) := by
  have hpage := h.word .nextPage (by decide)
  have hframe := h.word .nextFrame (by decide)
  unfold Pieces.collectView
  by_cases h1 : Due v.word
  · rw [if_pos h1, if_pos (h.due.mp h1), h.word .cursor (by decide), hpage]
    split_ifs
    · unfold captureView
      rw [h.frameOf, hpage, hframe]
      have hput : Same ((v.addLog (.frame (w.word .nextFrame))).setFrame (w.word .nextFrame)
          (Pieces.frameOf c position preserving w))
            ((w.addLog (.frame (w.word .nextFrame))).setFrame
            (w.word .nextFrame) (Pieces.frameOf c position preserving w)) :=
        { h with
          frames := congrArg (fun x => Function.update x _ _) h.frames
          log := congrArg (fun x => x ++ _) h.log }
      exact (hput.setWord _ _).setWord _ _
    · exact h.setWord .collecting 0
  · rw [if_neg h1, if_neg fun hc => h1 (h.due.mpr hc)]
    exact h

/-- **The checks of a block start**, with the cached trigger and without. -/
theorem checked_twins {v w : View} (h : Same v w) (hok : TriggerOk v.word) (position : ℕ)
    (preserving : Bool) :
    Same (checkedView (withBoundary c true) position preserving v)
      (checkedView (withBoundary c false) position preserving w) := by
  have hcold : checkedView (withBoundary c false) position preserving w =
      collectView c position preserving w := if_neg fun hh => Bool.false_ne_true hh.1
  rw [hcold]
  unfold checkedView
  by_cases hh : Hot (withBoundary c true) v.word
  · have hnot : ¬ Due w.word := fun hd => (hok.quiet hh.2).2 (h.due.mpr hd)
    rw [if_pos hh, Pieces.collectView, if_neg hnot]
    exact h
  · rw [if_neg hh]
    exact (h.collectView position preserving).setTrigger _

variable {r : Recipe} (ha : Admitted c.isa r c.plan)
include ha

/-- **A block start** with the cached trigger does what one without it does. -/
theorem boundary_twins {h g : Host} (ht : Twins c.regs h g) (hok : TriggerOk (view c.regs h).word)
    (position : ℕ) (d : Decoded) :
    SameStart c.regs ((withBoundary c true).boundary position d h)
      ((withBoundary c false).boundary position d g) := by
  have hv := ht.same.pushView ht.flags (c.preserving d)
  have hok' : TriggerOk (pushView (c.preserving d) h.core.flags (view c.regs h)).word := by
    unfold pushView
    split_ifs
    · exact hok
    · exact hok
  have hx := boundary_spec (withBoundary c true) ha.result position d h
  have hy := boundary_spec (withBoundary c false) ha.result position d g
  have hfx := boundary_flags (withBoundary c true) position (d := d) (h := h)
  have hfy := boundary_flags (withBoundary c false) position (d := d) (h := g)
  generalize (withBoundary c true).boundary position d h = x at hx hfx ⊢
  generalize (withBoundary c false).boundary position d g = y at hy hfy ⊢
  obtain ⟨x, ex⟩ := x
  obtain ⟨y, ey⟩ := y
  have hcold : ∀ u : Field → Word, ¬ Hot (withBoundary c false) u :=
    fun u hh => Bool.false_ne_true hh.1
  by_cases hyield : Yields (pushView (c.preserving d) h.core.flags (view c.regs h)).word
  · -- a window that ends here is not below the trigger
    obtain ⟨rfl, hvx⟩ := hx.yields (fun hh => (hok'.quiet hh.2).1 hyield) hyield
    obtain ⟨rfl, hvy⟩ := hy.yields (hcold _) (hv.yields.mp hyield)
    refine .ends ?_
    rw [show view c.regs x = _ from hvx, show view c.regs y = _ from hvy]
    exact { hv.setWord .entry _ with saved := hv.persistState (c := c) (c.preserving d) }
  · have hno : ¬ Yields (pushView (c.preserving d) g.core.flags (view c.regs g)).word := fun hc =>
      hyield (hv.yields.mpr hc)
    have hchecked := checked_twins (c := c) hv hok' position (c.preserving d)
    have hrest := hchecked.word .remaining (by decide)
    have hcharge : Same
        (chargeView (withBoundary c true) d
          (checkedView (withBoundary c true) position (c.preserving d)
          (pushView (c.preserving d) h.core.flags (view c.regs h))))
        (chargeView (withBoundary c false) d
          (checkedView (withBoundary c false) position (c.preserving d)
          (pushView (c.preserving d) g.core.flags (view c.regs g)))) := by
      unfold chargeView
      rw [hrest, blockCount_boundary, blockCount_boundary]
      exact hchecked.setWord _ _
    by_cases haff : Affords (withBoundary c true) d (checkedView (withBoundary c true) position
        (c.preserving d) (pushView (c.preserving d) h.core.flags (view c.regs h))).word
    · have haff' : Affords (withBoundary c false) d (checkedView (withBoundary c false) position
          (c.preserving d) (pushView (c.preserving d) g.core.flags (view c.regs g))).word := by
        unfold Affords at haff ⊢
        rw [blockCount_boundary] at haff ⊢
        rwa [← hrest]
      obtain ⟨rfl, hvx, hpx⟩ := hx.passes (.inr hyield) haff
      obtain ⟨rfl, hvy, hpy⟩ := hy.passes (.inr hno) haff'
      have hsame : Same (view c.regs x) (view c.regs y) := by
        rw [show view c.regs x = _ from hvx, show view c.regs y = _ from hvy]
        exact hcharge.popView _
      refine .passes ⟨hsame, ?_⟩
      cases hp : c.preserving d with
      | true => exact (hpx hp).trans (ht.flags.trans (hpy hp).symm)
      | false =>
        obtain ⟨f, old, hf, hflags, hleft⟩ := hfx hp rfl
        obtain ⟨f', old', hf', hflags', hleft'⟩ := hfy hp rfl
        rw [blockCount_boundary] at hflags hflags' hleft hleft'
        -- the budget is the same before the subtraction as it is behind it
        have hold : old = old' := by
          have hsub := hleft.symm.trans ((hsame.word .remaining (by decide)).trans hleft')
          rw [← BitVec.sub_add_cancel old (BitVec.ofNat 64 (c.blockCount d)), hsub,
            BitVec.sub_add_cancel]
        change x.core.flags = y.core.flags
        rw [show x.core.flags = _ from hflags, show y.core.flags = _ from hflags', hold]
        exact c.isa.sub_flags _ _ _ _ (hf.trans ((congrArg steady ht.flags).trans hf'.symm))
    · have haff' : ¬ Affords (withBoundary c false) d (checkedView (withBoundary c false) position
          (c.preserving d) (pushView (c.preserving d) g.core.flags (view c.regs g))).word := by
        unfold Affords at haff ⊢
        rw [blockCount_boundary] at haff ⊢
        rwa [← hrest]
      obtain ⟨rfl, hvx⟩ := hx.exhausts (.inr hyield) haff
      obtain ⟨rfl, hvy⟩ := hy.exhausts (.inr hno) haff'
      refine .ends ?_
      rw [show view c.regs x = _ from hvx, show view c.regs y = _ from hvy]
      exact hcharge

/-- **A piece** with the cached trigger does what one without it does. -/
theorem piece_twins {h g : Host} (ht : Twins c.regs h g) (hok : TriggerOk (view c.regs h).word)
    (position : ℕ) {d : Decoded} (hd : d ∈ c.plan.instructions) :
    SameFlow c.regs ((withBoundary c true).piece position d h)
      ((withBoundary c false).piece position d g) := by
  have hbody : ∀ {x y : Host}, Twins c.regs x y → SameFlow c.regs
      (if d.returns = true then c.ret x else if d.branch = true then c.jump position d x
        else c.plain position d x)
      (if d.returns = true then c.ret y else if d.branch = true then c.jump position d y
        else c.plain position d y) := by
    intro x y hxy
    split_ifs with hr hb
    · exact ret_twins ha hxy.same
    · exact jump_twins hxy position d
    · exact plain_twins ha hd (Bool.not_eq_true _ ▸ hr) hxy position
  unfold Compiler.piece
  simp only [plain_boundary]
  cases hs : c.starts d with
  | false =>
    rw [show (withBoundary c true).starts d = false from hs,
      show (withBoundary c false).starts d = false from hs]
    exact hbody ht
  | true =>
    rw [show (withBoundary c true).starts d = true from hs,
      show (withBoundary c false).starts d = true from hs]
    simp only [if_true]
    have hb := boundary_twins ha ht hok position d
    generalize (withBoundary c true).boundary position d h = x at hb ⊢
    generalize (withBoundary c false).boundary position d g = y at hb ⊢
    cases hb with
    | passes hxy => exact hbody hxy
    | ends hxy => exact leave_twins hxy _ (c.preserving d)

omit ha in
theorem TriggerOk.charged {w : Field → Word} (h : TriggerOk w) (d : Decoded) :
    TriggerOk (chargedWord (withBoundary c true) d w) := by
  have hsettled : TriggerOk (settledWord (withBoundary c true) w) := by
    unfold settledWord
    by_cases hh : Hot (withBoundary c true) w
    · rw [if_pos hh]
      exact h
    · rw [if_neg hh, if_pos (show (withBoundary c true).fastBoundary = true from rfl)]
      refine TriggerOk.of_eq ?_
      rw [Function.update_self]
      rfl
  refine hsettled.congr fun f hf => Function.update_of_ne ?_ _ _
  rintro rfl
  simp at hf

/-- **A piece keeps the trigger in front of what is due.** -/
theorem piece_trigger {h h' : Host} {position position' : ℕ} {d : Decoded}
    (hd : d ∈ c.plan.instructions) (hok : TriggerOk (view c.regs h).word)
    (hp : (withBoundary c true).piece position d h = .next position' h') :
    TriggerOk (view c.regs h').word := by
  have hbody : ∀ {g : Host}, TriggerOk (view c.regs g).word →
      Body (withBoundary c true) position d g (.next position' h') →
        TriggerOk (view c.regs h').word := by
    intro g hg hb
    have hkept := Body.kept (c := withBoundary c true) ha hd hb
    refine hg.congr fun f hf => hkept.word f ?_
    rintro rfl
    simp at hf
  have hstep := piece_step (c := withBoundary c true) ha position hd h
  rw [hp] at hstep
  cases hstep with
  | inner _ hb => exact hbody hok hb
  | start _ _ _ hpassed hb =>
    refine hbody ?_ hb
    have hword := hpassed.crossed.word
    change (view c.regs _).word = _ at hword
    rw [hword]
    exact TriggerOk.charged hok d

/-! ### Runs -/

/-- Both codes at the same piece, with the trigger in front of what is due. -/
structure Beside (c : Compiler) (s t : ℕ × Host) : Prop where
  position : s.1 = t.1
  twins : Twins c.regs s.2 t.2
  trigger : TriggerOk (view c.regs s.2).word

/-- Both codes end in the same way. -/
structure Along (c : Compiler) (x y : Exit × Host) : Prop where
  exit : x.1 = y.1
  same : Same (view c.regs x.2) (view c.regs y.2)

/-- **One step of both.** -/
theorem step_twins (s t : ℕ × Host) (h : Beside c s t) :
    Option.Rel (Sum.LiftRel (Beside c) (Along c)) (hostStep (withBoundary c true) s)
      (hostStep (withBoundary c false) t) := by
  obtain ⟨i, h₁⟩ := s
  obtain ⟨j, g₁⟩ := t
  obtain ⟨rfl, ht, hok⟩ := h
  have hinst : ∀ fast, (withBoundary c fast).plan.instructions[i]? = c.plan.instructions[i]? :=
    fun _ => rfl
  unfold hostStep
  simp only [hinst]
  cases hi : c.plan.instructions[i]? with
  | none => exact .none
  | some d =>
    have hd : d ∈ c.plan.instructions := List.mem_of_getElem? hi
    have hp := piece_twins ha ht hok i hd
    have htrigger : ∀ j g, (withBoundary c true).piece i d h₁ = .next j g →
      TriggerOk (view c.regs g).word :=
      fun j g => piece_trigger ha hd hok
    simp only [Option.map_some]
    generalize (withBoundary c true).piece i d h₁ = x at hp htrigger ⊢
    generalize (withBoundary c false).piece i d g₁ = y at hp ⊢
    cases hp with
    | next hxy => exact .some (.inl ⟨rfl, hxy, htrigger _ _ rfl⟩)
    | stop hs => exact .some (.inr ⟨rfl, hs⟩)

end

/-! ### Calls -/

/-- Two `State` objects that differ in the trigger at most. -/
structure SameState (s t : State) : Prop where
  word : ∀ f, f ≠ .trigger → s.word f = t.word f
  rest : { s with word := fun _ => 0 } = { t with word := fun _ => 0 }

theorem SameState.refl (s : State) : SameState s s := ⟨fun _ _ => rfl, rfl⟩

/-- Two hosts around calls: memory, frames and accesses, and the registers that a call keeps. -/
structure Mates (h g : Host) : Prop where
  gpr : ∀ r ∈ [3, 5, 12, 13, 14, (15 : Fin 16)], h.core.gpr r = g.core.gpr r
  xmm : h.core.xmm = g.core.xmm
  flags : h.core.flags = g.core.flags
  mxcsr : h.core.mxcsr = g.core.mxcsr
  stack : h.stack = g.stack
  frames : h.frames = g.frames
  mem : h.mem = g.mem
  log : h.log = g.log

theorem Mates.refl (h : Host) : Mates h h :=
  ⟨fun _ _ => rfl, rfl, rfl, rfl, rfl, rfl, rfl, rfl⟩

/-- **Two calls end in the same way**: exit and number of instructions, memory and checkpoints, and
the `State` object but for its trigger. -/
structure SameEnd (pointer : Word) (x y : Exit × Host × ℕ) : Prop where
  exit : x.1 = y.1
  count : x.2.2 = y.2.2
  mates : Mates x.2.1 y.2.1
  state : SameState (x.2.1.state pointer) (y.2.1.state pointer)

section
variable {c : Compiler}

theorem enter_stack (h : Host) : (c.enter h).stack =
    [15, 14, 13, 12, 5, (3 : Fin 16)].map h.core.gpr ++ h.core.flags :: h.stack := rfl

theorem enter_xmm (h : Host) (k : Fin 16) : (c.enter h).core.xmm k =
    if k ∈ c.plan.vectors then (h.state (h.core.gpr 7)).xmm k else h.core.xmm k := by
  have he := enter_spec (c := c) h
  by_cases hk : k ∈ c.plan.vectors
  · rw [if_pos hk, he.xmm k hk]
  · rw [if_neg hk]
    exact if_neg hk

/-- **The code in front of the first piece.** -/
theorem enter_twins {h g : Host} (hm : Mates h g) (hp : h.core.gpr 7 = g.core.gpr 7)
    (hs : SameState (h.state (h.core.gpr 7)) (g.state (g.core.gpr 7))) :
    Twins c.regs (c.enter h) (c.enter g) := by
  have hh := enter_spec (c := c) h
  have hg := enter_spec (c := c) g
  have hrest := hs.rest
  rw [State.mk.injEq] at hrest
  obtain ⟨-, hregs, hflags, hxmm, hmxcsr, -⟩ := hrest
  refine ⟨⟨fun f hf => ?_, ?_, ?_, ?_, ?_, ?_, ?_, ?_, ?_, ?_⟩, ?_⟩
  · rw [hh.word, hg.word, hs.word f hf]
  · rw [hh.pointer, hg.pointer, hp]
  · funext r
    unfold view
    simp only
    split_ifs with hr
    · rw [hh.gpr r hr, hg.gpr r hr, hregs]
    · rfl
  · funext k
    refine (enter_xmm h k).trans (Eq.trans ?_ (enter_xmm g k).symm)
    rw [hxmm, hm.xmm]
  · exact hh.mxcsr.trans (hmxcsr.trans hg.mxcsr.symm)
  · refine (enter_stack (c := c) h).trans ?_
    rw [hm.flags, hm.stack, List.map_congr_left fun r hr => hm.gpr r (by revert r; decide)]
    exact (enter_stack (c := c) g).symm
  · rw [hh.saved, hg.saved, hm.mxcsr]
    exact congrArg (fun x => { x with hostMxcsr := g.core.mxcsr }) hs.rest
  · exact hh.frames.trans (hm.frames.trans hg.frames.symm)
  · exact hh.mem.trans (hm.mem.trans hg.mem.symm)
  · exact hh.log.trans (hm.log.trans hg.log.symm)
  · exact hh.flags.trans (hflags.trans hg.flags.symm)

theorem exit_gpr (h : Host) : [3, 5, 12, 13, 14, (15 : Fin 16)].map (c.exit h).core.gpr =
    [5, 4, 3, 2, 1, 0].map fun k => (List.tail^[k] h.stack).headD 0 := by
  simp [Compiler.exit, Host.popf, Host.setFlags, Host.pop, Host.setGpr, Host.modify,
    Host.setContext]

theorem exit_mxcsr (h : Host) : (c.exit h).core.mxcsr = (view c.regs h).saved.hostMxcsr := by
  have hcontext : ∀ s, (h.setContext c.regs s).context c.regs = s :=
    fun s => Function.update_self ..
  exact (congrArg State.hostMxcsr (hcontext _)).trans rfl

/-- **The code behind the last piece.** -/
theorem exit_twins {h g : Host} (hs : Same (view c.regs h) (view c.regs g)) :
    Mates (c.exit h) (c.exit g) ∧
      SameState ((c.exit h).state (view c.regs h).pointer)
        ((c.exit g).state (view c.regs h).pointer) := by
  have hstack : h.stack = g.stack := hs.stack
  have hsaved : (view c.regs h).saved = (view c.regs g).saved := hs.saved
  obtain ⟨hx, -⟩ := exit_spec (c := c) h
  obtain ⟨hy, -⟩ := exit_spec (c := c) g
  refine ⟨⟨?_, hs.xmm, ?_, ?_, ?_, hs.frames, hs.mem, hs.log⟩, ?_⟩
  · refine List.map_inj_left.mp ((exit_gpr h).trans (Eq.trans ?_ (exit_gpr g).symm))
    rw [hstack]
  · exact congrArg (fun l => (List.tail^[6] l).headD 0) hstack
  · rw [exit_mxcsr, exit_mxcsr, hsaved]
  · exact congrArg List.tail^[7] hstack
  · rw [hx, hy, hs.pointer, Function.update_self, Function.update_self]
    exact ⟨hs.word, hsaved⟩

variable {r : Recipe} (ha : Admitted c.isa r c.plan)
include ha

/-- **A call** with the cached trigger does what one without it does. -/
theorem call_twins {h g : Host} (hm : Mates h g) (hp : h.core.gpr 7 = g.core.gpr 7)
    (hs : SameState (h.state (h.core.gpr 7)) (g.state (g.core.gpr 7)))
    (hok : TriggerOk (h.state (h.core.gpr 7)).word) (fuel : ℕ) :
    Option.Rel (SameEnd (h.core.gpr 7)) ((withBoundary c true).call fuel h)
      ((withBoundary c false).call fuel g) := by
  have ht := enter_twins (c := c) hm hp hs
  have hh := enter_spec (c := c) h
  have hentry : (c.enter h).get c.regs .entry = (c.enter g).get c.regs .entry := ht.get (by decide)
  have hbeside : Beside c (((c.enter h).get c.regs .entry).toNat, c.enter h)
      (((c.enter g).get c.regs .entry).toNat, c.enter g) :=
    ⟨by rw [hentry], ht, by rw [hh.word]; exact hok⟩
  have hrel := Machine.run_rel (step_twins ha) fuel hbeside
  have hpointer :
    ∀ x, (withBoundary c true).run fuel ((c.enter h).get c.regs .entry).toNat (c.enter h) =
      some x → (view c.regs x.2.1).pointer = h.core.gpr 7 := fun x hx =>
    (run_sameCall (c := withBoundary c true) ha hx).pointer.trans hh.pointer
  unfold Compiler.call
  dsimp only
  change Option.Rel _
    (((withBoundary c true).run fuel ((c.enter h).get c.regs .entry).toNat (c.enter h)).map _)
    (((withBoundary c false).run fuel ((c.enter g).get c.regs .entry).toNat (c.enter g)).map _)
  rw [run_eq] at hpointer
  rw [run_eq, run_eq]
  generalize Machine.run (hostStep (withBoundary c true)) fuel _ = x at hrel hpointer ⊢
  generalize Machine.run (hostStep (withBoundary c false)) fuel _ = y at hrel ⊢
  cases hrel with
  | none => exact Option.Rel.none
  | some hxy =>
    obtain ⟨⟨hexit, hsame⟩, hcount⟩ := hxy
    have hptr := hpointer _ rfl
    obtain ⟨hmates, hstate⟩ := exit_twins (c := c) hsame
    exact .some ⟨hexit, by simp only [hexit, hcount], hmates, hptr ▸ hstate⟩

end

/-! ### Replays -/

theorem SameState.set {s t : State} (h : SameState s t) (f : Field) (v : Word) :
    SameState (Replay.State.set f v s) (Replay.State.set f v t) :=
  ⟨fun k hk => by
    by_cases hf : k = f
    · subst hf
      rw [Replay.set_self, Replay.set_self]
    · rw [Replay.set_of_ne hf, Replay.set_of_ne hf, h.word k hk], h.rest⟩

theorem SameState.withTrigger {s t : State} (h : SameState s t) :
    SameState (Replay.withTrigger s) (Replay.withTrigger t) := by
  unfold Replay.withTrigger
  rw [h.word .collecting (by decide), h.word .nextPage (by decide), h.word .limit (by decide)]
  exact h.set _ _

theorem SameState.advanceWindow {s t : State} (h : SameState s t) (c : Compiler) (window : Word)
    (offset size : ℕ) : SameState (Replay.advanceWindow c window offset size s)
      (Replay.advanceWindow c window offset size t) := by
  unfold Replay.advanceWindow
  dsimp only
  have h1 := h.set .limit (BitVec.ofNat 64 (c.recipe.h.output + offset + size))
  have h2 := h1.set .delta (window - (Replay.State.set .limit
    (BitVec.ofNat 64 (c.recipe.h.output + offset + size)) s).word .cursor)
  rw [← h1.word .cursor (by decide), ← h2.word .limit (by decide), ← h2.word .stop (by decide)]
  exact (h2.set _ _).withTrigger

theorem report_twins {s t : State} {h g : Host} (hs : SameState s t) (hm : Mates h g)
    (output : Word) :
    Replay.report output s h = Replay.report output t g := by
  unfold Replay.report Replay.collected
  rw [hs.word .error (by decide), hs.word .cursor (by decide), hs.word .limit (by decide),
    hs.word .collecting (by decide), hs.word .stop (by decide),
      hs.word .nextPage (by decide), hm.mem]

theorem Mates.argued {h g : Host} (hm : Mates h g) (store : Replay.Storage) (s t : State) :
    Mates (Replay.argued store s h) (Replay.argued store t g) := by
  refine ⟨fun r hr => ?_, hm.xmm, hm.flags, hm.mxcsr, hm.stack, hm.frames, hm.mem, hm.log⟩
  have h7 : r ≠ 7 := by
    rintro rfl
    simp at hr
  exact (Function.update_of_ne h7 _ _).trans
    ((hm.gpr r hr).trans (Function.update_of_ne h7 _ _).symm)

/-- Two results with the same verdict and the same memory. -/
def SameResult {α : Type} (x y : α × Host) : Prop := x.1 = y.1 ∧ Mates x.2 y.2

/-- Two runs of the loop over the windows. -/
inductive SameWindows : Except Failure (State × List UInt8 × List (List UInt8)) × Host →
    Except Failure (State × List UInt8 × List (List UInt8)) × Host → Prop
  | error {f : Failure} {h g : Host} (hm : Mates h g) : SameWindows (.error f, h) (.error f, g)
  | ok {s t : State} {h g : Host} {out : List UInt8} {digests : List (List UInt8)}
      (hs : SameState s t)
    (hm : Mates h g) : SameWindows (.ok (s, out, digests), h) (.ok (t, out, digests), g)

section
variable {c : Compiler} {r : Recipe} (ha : Admitted c.isa r c.plan) (store : Replay.Storage)
include ha

theorem invoke_twins {s t : State} {h g : Host} (hs : SameState s t) (hm : Mates h g)
    (hok : TriggerOk s.word) :
    Option.Rel (fun x y => SameState x.1 y.1 ∧ Mates x.2 y.2)
      (Replay.invoke (withBoundary c true) store s h)
      (Replay.invoke (withBoundary c false) store t g) := by
  have hrel := call_twins ha (hm.argued store s t)
    (by rw [Replay.argued_pointer, Replay.argued_pointer])
    (by rw [Replay.argued_pointer, Replay.argued_pointer, Replay.argued_state,
      Replay.argued_state]; exact hs)
    (by rw [Replay.argued_pointer, Replay.argued_state]; exact hok) ((s.word .remaining).toNat + 1)
  unfold Replay.invoke
  rw [Replay.argued_pointer] at hrel
  rw [← hs.word .remaining (by decide)]
  generalize (withBoundary c true).call _ _ = x at hrel ⊢
  generalize (withBoundary c false).call _ _ = y at hrel ⊢
  cases hrel with
  | none => exact .none
  | some hxy =>
    simp only [hxy.exit]
    split_ifs
    · exact .none
    · exact .some ⟨hxy.state, hxy.mates⟩

omit ha in
theorem front_trigger {n : Worker.Checked.Native} {output : Word} {offset length : ℕ}
    {validate : Bool} {h g : Host} {s : State}
    (hx : Replay.front c store n output offset length validate h = .ok (s, g)) :
    TriggerOk s.word := by
  unfold Replay.front at hx
  dsimp only at hx
  split_ifs at hx <;> obtain ⟨rfl, rfl⟩ := Prod.mk.inj (Except.ok.inj hx) <;>
    exact .of_eq (Replay.withTrigger_eq _)

/-- **`run`** with the cached trigger and without. -/
theorem run_twins (sha256 : List UInt8 → List UInt8) (n : Worker.Checked.Native) (output : Word)
    (offset length : ℕ) (validate : Bool) (h : Host) :
    Option.Rel SameResult
      (Replay.run (withBoundary c true) store sha256 n output offset length validate h)
      (Replay.run (withBoundary c false) store sha256 n output offset length validate h) := by
  have hfront : ∀ fast, Replay.front (withBoundary c fast) store n output offset length validate h =
      Replay.front c store n output offset length validate h := fun _ => rfl
  have hattempt : Option.Rel SameResult
      (Replay.attempt (withBoundary c true) store n output offset length validate h)
      (Replay.attempt (withBoundary c false) store n output offset length validate h) := by
    unfold Replay.attempt
    rw [hfront, hfront]
    cases hx : Replay.front c store n output offset length validate h with
    | error x => exact .some ⟨rfl, .refl h⟩
    | ok x =>
      obtain ⟨s, g⟩ := x
      dsimp only
      have hrel := invoke_twins ha store (.refl s) (.refl g) (front_trigger store hx)
      generalize Replay.invoke (withBoundary c true) store s g = x at hrel ⊢
      generalize Replay.invoke (withBoundary c false) store s g = y at hrel ⊢
      cases hrel with
      | none => exact .none
      | some hxy => exact .some ⟨report_twins hxy.1 hxy.2 output, hxy.2⟩
  unfold Replay.run
  generalize Replay.attempt (withBoundary c true) store n output offset length validate h =
    x at hattempt ⊢
  generalize Replay.attempt (withBoundary c false) store n output offset length validate h =
    y at hattempt ⊢
  cases hattempt with
  | none => exact .none
  | some hxy =>
    exact .some ⟨congrArg (Native.run sha256 n c.recipe.h offset length validate) hxy.1, hxy.2⟩

theorem windowLoop_twins (sha256 : List UInt8 → List UInt8) (window : Word) (capacity : ℕ)
    (sink : List UInt8 → Bool) : ∀ (fuel offset : ℕ) {s t : State} {h g : Host} (done : List UInt8)
      (digests : List (List UInt8)), SameState s t → Mates h g → Option.Rel SameWindows
        (Replay.windowLoop (withBoundary c true) store sha256 window capacity sink fuel offset s
          h done digests)
        (Replay.windowLoop (withBoundary c false) store sha256 window capacity sink fuel offset t
          g done digests)
  | 0, _, _, _, _, _, _, _, hs, hm => .some (.ok hs hm)
  | fuel + 1, offset, s, t, h, g, done, digests, hs, hm => by
    unfold Replay.windowLoop
    change Option.Rel SameWindows (if offset < c.recipe.h.length then _ else _)
      (if offset < c.recipe.h.length then _ else _)
    by_cases hlt : offset < c.recipe.h.length
    · rw [if_pos hlt, if_pos hlt]
      dsimp only
      have hrel : Option.Rel _
          (Replay.invoke (withBoundary c true) store (Replay.advanceWindow (withBoundary c true)
            window offset (min capacity ((withBoundary c true).recipe.h.length - offset)) s) h)
          (Replay.invoke (withBoundary c false) store (Replay.advanceWindow (withBoundary c false)
            window offset (min capacity ((withBoundary c false).recipe.h.length - offset)) t) g) :=
        invoke_twins ha store
          (hs.advanceWindow c window offset (min capacity (c.recipe.h.length - offset))) hm
          (.of_eq (Replay.withTrigger_eq _))
      generalize Replay.invoke (withBoundary c true) store _ h = x at hrel ⊢
      generalize Replay.invoke (withBoundary c false) store _ g = y at hrel ⊢
      cases hrel with
      | none => exact .none
      | @some x y hxy =>
        simp only [report_twins hxy.1 hxy.2 window]
        let bytes := content (Replay.report window y.1 y.2).written
          (min capacity (c.recipe.h.length - offset))
        change Option.Rel SameWindows
          (if (!(Replay.report window y.1 y.2).completed) = true then _
            else if (!sink bytes) = true then _ else _)
          (if (!(Replay.report window y.1 y.2).completed) = true then _
            else if (!sink bytes) = true then _ else _)
        by_cases hdone : (!(Replay.report window y.1 y.2).completed) = true
        · rw [if_pos hdone, if_pos hdone]
          exact .some (SameWindows.error hxy.2)
        rw [if_neg hdone, if_neg hdone]
        by_cases hsink : (!sink bytes) = true
        · rw [if_pos hsink, if_pos hsink]
          exact .some (SameWindows.error hxy.2)
        · rw [if_neg hsink, if_neg hsink]
          exact windowLoop_twins sha256 window capacity sink fuel _ _ _ hxy.1 hxy.2
    · rw [if_neg hlt, if_neg hlt]
      exact .some (.ok hs hm)

/-- **`validate_stream`** with the cached trigger and without. -/
theorem validateStream_twins (sha256 : List UInt8 → List UInt8) (window : Word) (capacity : ℕ)
    (sink : List UInt8 → Bool) (h : Host) :
    Option.Rel SameResult
      (Replay.validateStream (withBoundary c true) store sha256 window capacity sink h)
      (Replay.validateStream (withBoundary c false) store sha256 window capacity sink h) := by
  unfold Replay.validateStream
  split_ifs
  · exact .some ⟨rfl, .refl h⟩
  · have hloop := windowLoop_twins ha store sha256 window capacity sink c.recipe.h.length 0 [] []
      (.refl (Replay.collect c store (Replay.initial c) h).1)
      (.refl (Replay.collect c store (Replay.initial c) h).2)
    change Option.Rel SameResult
      ((Replay.windowLoop (withBoundary c true) store sha256 window capacity sink
        c.recipe.h.length 0
        (Replay.collect c store (Replay.initial c) h).1
          (Replay.collect c store (Replay.initial c) h).2
        [] []).map _)
      ((Replay.windowLoop (withBoundary c false) store sha256 window capacity sink
        c.recipe.h.length 0
        (Replay.collect c store (Replay.initial c) h).1
          (Replay.collect c store (Replay.initial c) h).2
        [] []).map _)
    generalize Replay.windowLoop (withBoundary c true) _ _ _ _ _ _ _ _ _ _ _ = x at hloop ⊢
    generalize Replay.windowLoop (withBoundary c false) _ _ _ _ _ _ _ _ _ _ _ = y at hloop ⊢
    cases hloop with
    | none => exact .none
    | some hxy =>
      refine .some ?_
      cases hxy with
      | error hm => exact ⟨rfl, hm⟩
      | ok hs hm =>
        have hcollected :
          ∀ {s t : State}, SameState s t → Replay.collected s = Replay.collected t := by
          intro s t hst
          unfold Replay.collected
          rw [hst.word .collecting (by decide), hst.word .stop (by decide),
            hst.word .nextPage (by decide)]
        simp only [hcollected hs]
        change SameResult (if sha256 _ ≠ c.recipe.h.digest then _ else _)
          (if sha256 _ ≠ c.recipe.h.digest then _ else _)
        split_ifs
        · exact ⟨rfl, hm⟩
        · exact ⟨rfl, hm⟩
        · exact ⟨rfl, hm⟩

end

/-! ### Both boundary checks -/

/-- **Both codes in step**: every number of pieces of the one is matched by the other, at the same
piece, with the same fields but for the trigger, the same checkpoints and the same memory. -/
def InStep (c : Compiler) (s : ℕ × Host) : Prop :=
  ∀ (n : ℕ) (u : ℕ × Host), Machine.Steps (hostStep (withBoundary c true)) n s u →
    ∃ v, Machine.Steps (hostStep (withBoundary c false)) n s v ∧ Beside c u v

/-- **Fused and plain boundary checks.** For every recipe that `decode` admits: a call whose entry
is a block start and whose trigger goes with its other fields, whatever its registers, limit,
`collecting`, `validating`, checkpoints and memory, ends with the cached trigger as it does without:
with the same exit after the same number of instructions, the same memory and checkpoints, and the
same `State` object but for the trigger. Piece by piece both are in step, so that they yield, take
checkpoints and clear `collecting` at the same block starts. So do all calls that `run` and
`validate_stream` make, window after window. -/
theorem fused_boundary {isa : Isa} {cache : Bool} {r : Recipe} {p : Plan} (hw : WellFormed r)
    (hp : decode isa cache r = .ok p) (data : Segment → Word) :
    (∀ (h : Host) (d : Decoded),
      p.instructions[((h.state (h.core.gpr 7)).word .entry).toNat]? = some d → d.pc ∈ p.starts →
      (h.state (h.core.gpr 7)).word .trigger = triggerOf (h.state (h.core.gpr 7)).word →
      (∃ x y, (∀ fuel, ((h.state (h.core.gpr 7)).word .remaining).toNat < fuel →
          Compiler.call ⟨isa, p, true, data⟩ fuel h = some x ∧
          Compiler.call ⟨isa, p, false, data⟩ fuel h = some y) ∧ SameEnd (h.core.gpr 7) x y) ∧
        InStep ⟨isa, p, true, data⟩ (((h.state (h.core.gpr 7)).word .entry).toNat,
          Compiler.enter ⟨isa, p, true, data⟩ h)) ∧
    ∀ (store : Replay.Storage) (sha256 : List UInt8 → List UInt8) (h : Host),
      (∀ n output offset length validate, Option.Rel SameResult
        (Replay.run ⟨isa, p, true, data⟩ store sha256 n output offset length validate h)
        (Replay.run ⟨isa, p, false, data⟩ store sha256 n output offset length validate h)) ∧
      ∀ window capacity sink, Option.Rel SameResult
        (Replay.validateStream ⟨isa, p, true, data⟩ store sha256 window capacity sink h)
        (Replay.validateStream ⟨isa, p, false, data⟩ store sha256 window capacity sink h) := by
  have ha : Admitted isa r p := decode_admitted hw hp
  refine ⟨fun h d hi hs htrigger => ?_, fun store sha256 h =>
    ⟨fun n output offset length validate =>
    run_twins (c := ⟨isa, p, true, data⟩) ha store sha256 n output offset length validate h,
    fun window capacity sink =>
      validateStream_twins (c := ⟨isa, p, true, data⟩) ha store sha256 window capacity sink h⟩⟩
  have hok := TriggerOk.of_eq htrigger
  constructor
  · -- both calls end within the budget
    obtain ⟨e, h', n, hx, -⟩ := Budget.compiled_replay_stops hw hp true data h hi hs
    obtain ⟨e', h'', n', hy, -⟩ := Budget.compiled_replay_stops hw hp false data h hi hs
    refine ⟨(e, h', n), (e', h'', n'), fun fuel hf => ⟨hx fuel hf, hy fuel hf⟩, ?_⟩
    have hfuel := Nat.lt_succ_self ((h.state (h.core.gpr 7)).word .remaining).toNat
    have hrel := call_twins (c := ⟨isa, p, true, data⟩) ha (.refl h) rfl (.refl _) hok
      (((h.state (h.core.gpr 7)).word .remaining).toNat + 1)
    change Option.Rel _ (Compiler.call ⟨isa, p, true, data⟩ _ h)
      (Compiler.call ⟨isa, p, false, data⟩ _ h) at hrel
    rw [hx _ hfuel, hy _ hfuel] at hrel
    cases hrel with
    | some hend => exact hend
  · intro n u hsteps
    have hword := (enter_spec (c := ⟨isa, p, true, data⟩) h).word
    exact hsteps.rel (step_twins (c := ⟨isa, p, true, data⟩) ha)
      ⟨rfl, enter_twins (.refl h) rfl (.refl _), by rw [hword]; exact hok⟩

/-- One byte and the return, with either boundary check. -/
theorem fused_boundary_fill : ∃ p, decode tinyIsa true fillRecipe = .ok p ∧ ∃ x y,
    Compiler.call ⟨tinyIsa, p, true, fun _ => 0⟩ 3 (Budget.startHost 2) = some x ∧
      Compiler.call ⟨tinyIsa, p, false, fun _ => 0⟩ 3 (Budget.startHost 2) = some y ∧
        SameEnd 0 x y := by
  obtain ⟨p, hp⟩ := exists_plan fillRecipe_ok.2
  obtain ⟨d, hi, hs⟩ := Budget.fill_entry hp
  obtain ⟨⟨x, y, hxy, hend⟩, -⟩ :=
    (fused_boundary fillRecipe_ok.1 hp fun _ => 0).1 (Budget.startHost 2) d hi hs rfl
  obtain ⟨hx, hy⟩ := hxy 3 (by decide)
  exact ⟨p, hp, x, y, hx, hy, hend⟩

end Afterfree.Native.Fused
