import Afterfree.Protocol.Registration
import Afterfree.Worker.Backing

/-!
# A healthy system does not fail-stop

The application and the worker's store side by side: an operation of the application goes with the
recipe that the worker commits in it, if it commits one. In a run in which no transfer and no system
call fails, the worker refuses only what its replays fail for, and accesses are by the owner thread,
every request for pages is granted and no step ends in `pager_failure` (`healthy_never_stops`).
-/

namespace Afterfree.Protocol.Health

open Afterfree.Common Afterfree.Codec Afterfree.Encoding Afterfree.Runtime.State
open Afterfree.Runtime.Pager Afterfree.Runtime.Submit Afterfree.Runtime.Api
open Afterfree.Runtime.Changes Afterfree.Runtime.Operations Afterfree.Runtime.Invariants
open Afterfree.Runtime.Recipes Afterfree.Runtime.Availability Afterfree.Worker.Checked
open Afterfree.Worker.Server Afterfree.Worker.Verified Afterfree.Worker.Backing
open Afterfree.Protocol.Registration (decoded_length sampleRecipe)

/-! ### The two sides -/

/-- The application, and what the worker has stored. `world.peer` are the outputs of `entries`. -/
structure State where
  world : World
  entries : ℕ → Option Entry

/-- `recipes` of the command loop. -/
def recipesOf (entries : ℕ → Option Entry) : ℕ → Option Stored :=
  fun id => (entries id).map Entry.stored

/-- The two sides after a step that has led to `w`. What the worker no longer has for an id is gone;
what it has for a new one is the recipe committed in the step. -/
def State.after (s : State) (committed : Option Entry) (w : World) : State :=
  ⟨w, fun id => if (w.peer.store id).isSome then (s.entries id).or committed else none⟩

section
variable (sha256 : List UInt8 → List UInt8) (arena : Option Arena)

/-- **The worker refuses only what its replays fail for.** -/
def Answering (entries : ℕ → Option Entry) (willing : Request → Bool) : Prop :=
  ∀ q x, entries q.id = some x → willing q = false →
    ∃ e S message, e.sent = true ∧ x.Replays sha256 q e ∧ S.recipes = recipesOf entries ∧
      Worker.Server.restore sha256 arena e S q = (S, .refused message)

/-- **A commit of the worker** for an id and an image: what `register` has kept and announced, with
the compiled code that has validated it, or with the emulation. -/
def Commits (entries : ℕ → Option Entry) (id : ℕ) (image : List UInt8) (out : ℕ → UInt8)
    (g : Registration) (message : String) (x : Entry) : Prop :=
  ∃ e S S' streaming, S.recipes = recipesOf entries ∧
    register sha256 arena e S streaming id image = (S', .committed id x.out g message) ∧
    S'.recipes id = some x.stored ∧ (∀ i < x.out.length, out i = x.out.getD i 0) ∧
    match x.backend with
    | .emulator e₀ => x.stored.native = none ∧ e₀ = e.emulation
    | .compiled _ _ _ _ => Backs sha256 x.stored x.out x.backend

/-- **A healthy step**: no transfer and no system call fails, accesses are by the owner thread, the
worker refuses only what its replays fail for, and what is committed is what the worker has
validated. -/
structure Healthy (s : State) (op : Op) (committed : Option Entry) : Prop where
  calls : OpHealthy op
  answers : Decides (Answering sha256 arena s.entries) op
  commits : ∀ e output image slot, Submits op e output image → s.world.find output = some slot →
    ∀ out g m, e.script.verdict = .committed out g m → ∃ x, committed = some x ∧
      Commits sha256 arena s.entries (s.world.buffers slot).id image out g m x

/-- **The states of healthy runs.** -/
inductive Reaches (memory : Memory) : State → Prop
  | initial : Reaches memory ⟨World.initial arena memory, fun _ => none⟩
  | step {s : State} {op : Op} {committed : Option Entry} {w : World} {r : Ret} :
      Reaches memory s → Healthy sha256 arena s op committed →
      Runtime.Api.step s.world op = .ok (w, r) → Reaches memory (s.after committed w)

end

/-! ### The invariant -/

/-- The ids whose recipes can be asked for ranges. -/
def sliceable (entries : ℕ → Option Entry) (id : ℕ) : Bool :=
  (entries id).any fun x => pageable x.stored

/-- An output is the one that was validated. -/
def Agrees (o : Output) (x : Entry) : Prop :=
  o.length = x.out.length ∧ ∀ i < o.length, o.byte i = x.out.getD i 0

/-- **The invariant of healthy runs.** -/
structure Sound (sha256 : List UInt8 → List UInt8) (arena : Option Arena) (s : State) : Prop where
  arena_eq : s.world.arena = arena
  ready : Ready (sliceable s.entries) s.world
  stored : ∀ id o, s.world.peer.store id = some o → ∃ x, s.entries id = some x ∧ Agrees o x
  nothing : ∀ id, s.world.peer.store id = none → s.entries id = none
  valid : ∀ id x, s.entries id = some x → x.Valid sha256

variable {sha256 : List UInt8 → List UInt8} {arena : Option Arena} {s : State}

/-! ### Commits -/

theorem validate_emulated {e : RegisterEnv} {window : Option ℕ} {h : Header} {out : List UInt8}
    {message : String} (hv : validate sha256 e window h = .ok (none, out, message)) :
    emulate sha256 h e.emulation = .ok out := by
  unfold validate at hv
  split at hv
  · cases hv
  · cases hv
  · split at hv
    · cases hv
    · next out' he =>
      rw [he]
      simp only at hv
      split at hv
      · cases hv
        rfl
      · split_ifs at hv
        cases hv
        rfl

/-- **What a commit is**: a validated recipe of the image, and the record of what it can be asked
for. -/
theorem Commits.spec {entries : ℕ → Option Entry} {id : ℕ} {image : List UInt8} {out : ℕ → UInt8}
    {g : Registration} {message : String} {x : Entry}
    (h : Commits sha256 arena entries id image out g message x) :
    x.Valid sha256 ∧ Agrees ⟨(Header.ofBytes image).length, out⟩ x ∧
      g.backend = (if x.stored.native.isSome then 1 else 0) ∧
      g.pageBytes = if pageable x.stored then PAGE else 0 := by
  obtain ⟨e, S, S', streaming, -, hreg, hstored, hout, hback⟩ := h
  rcases register_cases hreg (by simp) with ⟨-, m, hm⟩ | ⟨recipe, native, out', g', m, hdec,
    ⟨window, hval⟩, ha, hS, hb, hp⟩
  · cases hm
  obtain ⟨-, rfl, rfl, -⟩ := Answer.committed.inj ha
  rw [hS, Function.update_self] at hstored
  have hx := Option.some.inj hstored
  have hw : WellFormed recipe := (decode_iff.mp hdec).1
  have hvalid : x.Valid sha256 := by
    refine ⟨by rw [← hx]; exact hw, ?_⟩
    cases hbk : x.backend with
    | emulator e₀ =>
      rw [hbk] at hback
      obtain ⟨hnone, rfl⟩ := hback
      refine ⟨hnone, ?_⟩
      rw [← hx] at hnone ⊢
      simp only at hnone
      subst hnone
      exact validate_emulated hval
    | compiled c cache store h =>
      rw [hbk] at hback
      exact hback
  have hlen : x.out.length = (Header.ofBytes image).length := by
    rw [hvalid.length_eq, ← hx]
    exact decoded_length hdec
  refine ⟨hvalid, ⟨hlen.symm, fun i hi => hout i (by rw [hlen]; exact hi)⟩, ?_, ?_⟩
  · rw [hb, ← hx]
  · rw [hp, ← hx]
    rfl

/-! ### One step -/

/-- **The worker grants every proper request** for what it has stored. -/
theorem Sound.granted (h : Sound sha256 arena s) {q : Request} {x : Entry}
    (hx : s.entries q.id = some x) {o : Output} (ho : s.world.peer.store q.id = some o)
    (hq : Proper s.world.arena (sliceable s.entries q.id) o.length q) :
    Granted sha256 arena x q (rangeOf x.stored q).1 (rangeOf x.stored q).2 ∧
      rangeOf x.stored q = spanOf o.length q := by
  obtain ⟨y, hy, hlen, -⟩ := h.stored q.id o ho
  obtain rfl : y = x := Option.some.inj (hy.symm.trans hx)
  have hvalid := h.valid q.id y hx
  have hσ : sliceable s.entries q.id = pageable y.stored := by
    unfold sliceable
    rw [hx]
    rfl
  rw [hσ, h.arena_eq, hlen, hvalid.length_eq] at hq
  exact ⟨hvalid.granted hq, by rw [hlen, hvalid.length_eq]; rfl⟩

/-- **The worker answers** every proper request. -/
theorem Sound.obliging (h : Sound sha256 arena s) {willing : Request → Bool}
    (ha : Answering sha256 arena s.entries willing) :
    Obliging s.world.arena (sliceable s.entries) s.world.peer willing := by
  intro q o ho hq
  by_contra hw
  rw [Bool.not_eq_true] at hw
  obtain ⟨x, hx, -⟩ := h.stored q.id o ho
  obtain ⟨e, S, message, hsent, hr, hS, hrefused⟩ := ha q x hx hw
  have hid : S.recipes q.id = some x.stored := by
    rw [hS, recipesOf, hx]
    rfl
  rw [(h.granted hx ho hq).1.restored e S hsent hr hid] at hrefused
  cases hrefused

theorem Healthy.recorded {op : Op} {committed : Option Entry}
    (hop : Healthy sha256 arena s op committed) (e : SubmitEnv) (output : ℕ) (image : List UInt8)
    (slot : ℕ) (hsub : Submits op e output image) (hfind : s.world.find output = some slot) :
    Recorded e.script := by
  intro out g m hv
  obtain ⟨x, -, hx⟩ := hop.commits e output image slot hsub hfind out g m hv
  obtain ⟨-, -, hb, hp⟩ := hx.spec
  have hnative : pageable x.stored = true → x.stored.native.isSome = true := by
    unfold pageable
    cases x.stored.native with
    | none => exact fun hc => hc
    | some n => exact fun _ => rfl
  rw [hb, hp]
  cases hpage : pageable x.stored with
  | false => exact ⟨by split_ifs <;> decide, .inl rfl⟩
  | true =>
    rw [hnative hpage]
    exact ⟨le_rfl, .inr ⟨rfl, Nat.one_ne_zero⟩⟩

/-- **A healthy step** does not end in `pager_failure`. -/
theorem Sound.available (h : Sound sha256 arena s) {op : Op} {committed : Option Entry}
    (hop : Healthy sha256 arena s op committed) :
    Proceeds (fun x => Available (sliceable s.entries) s.world op x.1)
      (Runtime.Api.step s.world op) :=
  step_available hop.calls h.ready (hop.answers.mono fun _ ha => h.obliging ha) hop.recorded

section
variable {committed : Option Entry} {w : World} {id : ℕ} {x : Entry}

theorem State.after_kept (hw : w.peer.store id ≠ none) (hx : s.entries id = some x) :
    (s.after committed w).entries id = some x := by
  obtain ⟨o, ho⟩ := Option.ne_none_iff_exists'.mp hw
  unfold State.after
  simp only
  rw [ho, hx]
  rfl

theorem State.after_new (hw : w.peer.store id ≠ none) (hx : s.entries id = none) :
    (s.after committed w).entries id = committed := by
  obtain ⟨o, ho⟩ := Option.ne_none_iff_exists'.mp hw
  unfold State.after
  simp only
  rw [ho, hx]
  rfl

theorem State.after_gone (hw : w.peer.store id = none) :
    (s.after committed w).entries id = none := by
  unfold State.after
  simp only
  rw [hw]
  rfl

/-- What is new in the worker's store has been committed in this step. -/
theorem Sound.enters (h : Sound sha256 arena s) {op : Op}
    (hop : Healthy sha256 arena s op committed) {e : SubmitEnv} {output slot : ℕ}
    {image : List UInt8} {out : ℕ → UInt8} {g : Registration} {m : String}
    (hsub : Submits op e output image) (hfind : s.world.find output = some slot)
    (hv : e.script.verdict = .committed out g m)
    (hnone : s.world.peer.store (s.world.buffers slot).id = none)
    (hsome : w.peer.store (s.world.buffers slot).id ≠ none) :
    ∃ x, (s.after committed w).entries (s.world.buffers slot).id = some x ∧
      Commits sha256 arena s.entries (s.world.buffers slot).id image out g m x := by
  obtain ⟨x, rfl, hx⟩ := hop.commits e output image slot hsub hfind out g m hv
  exact ⟨x, State.after_new hsome (h.nothing _ hnone), hx⟩

/-- An output of the worker's was there before, or is the one committed in this step. -/
theorem Sound.stored_cases (h : Sound sha256 arena s) {op : Op}
    (hop : Healthy sha256 arena s op committed) (hav : Available (sliceable s.entries) s.world op w)
    {o : Output} (ho : w.peer.store id = some o) :
    s.world.peer.store id = some o ∨
      ∃ x, (s.after committed w).entries id = some x ∧ x.Valid sha256 ∧ Agrees o x := by
  rcases hav.stored with hst | ⟨e, output, image, slot, hsub, hfind, hres, out, g, m, hv, hpeer, -⟩
  · exact .inl (hst id o ho)
  · by_cases hid : id = (s.world.buffers slot).id
    · subst hid
      obtain ⟨hl, -⟩ := (h.ready.inv.indexed.find_iff output slot).mp hfind
      have hnone := h.ready.unclaimed.resident h.ready.unbroken slot hl hres
      obtain ⟨x, hx, hcommit⟩ := h.enters hop hsub hfind hv hnone
        (by rw [ho]; exact Option.some_ne_none o)
      rw [hpeer, commit_store, if_pos rfl] at ho
      obtain rfl := Option.some.inj ho
      exact .inr ⟨x, hx, hcommit.spec.1, hcommit.spec.2.1⟩
    · rw [hpeer, commit_store, if_neg hid] at ho
      exact .inl ho

/-- **A healthy step keeps the invariant.** -/
theorem Sound.after (h : Sound sha256 arena s) {op : Op} {r : Ret}
    (hop : Healthy sha256 arena s op committed)
    (hs : Runtime.Api.step s.world op = .ok (w, r)) :
    Sound sha256 arena (s.after committed w) := by
  have ha := h.available hop
  rw [hs] at ha
  have hav : Available (sliceable s.entries) s.world op w := ha
  have hready : Ready (sliceable (s.after committed w).entries) w := by
    refine hav.ready hop.calls h.ready hs (fun id hw hw0 => ?_)
      fun e output image slot out g m hsub hfind hnone hsome hv => ?_
    · obtain ⟨o, ho⟩ := Option.ne_none_iff_exists'.mp hw0
      obtain ⟨x, hx, -⟩ := h.stored id o ho
      unfold sliceable
      rw [State.after_kept hw hx, hx]
    · obtain ⟨x, hx, hcommit⟩ := h.enters hop hsub hfind hv hnone hsome
      obtain ⟨-, -, -, hp⟩ := hcommit.spec
      unfold sliceable
      rw [hx, hp, Option.any_some]
      cases pageable x.stored <;> rfl
  refine ⟨hav.arena.trans h.arena_eq, hready, fun id o ho => ?_, fun id hid => State.after_gone hid,
    fun id x hx => ?_⟩
  · change w.peer.store id = some o at ho
    rcases h.stored_cases hop hav ho with ho' | ⟨x, hx, -, hagree⟩
    · obtain ⟨x, hx, hagree⟩ := h.stored id o ho'
      exact ⟨x, State.after_kept (by rw [ho]; exact Option.some_ne_none o) hx, hagree⟩
    · exact ⟨x, hx, hagree⟩
  · cases ho : w.peer.store id with
    | none =>
      rw [State.after_gone ho] at hx
      cases hx
    | some o =>
      rcases h.stored_cases hop hav ho with ho' | ⟨y, hy, hvalid, -⟩
      · obtain ⟨y, hy, -⟩ := h.stored id o ho'
        have hy' := @State.after_kept s committed w id y
          (by rw [ho]; exact Option.some_ne_none o) hy
        obtain rfl := Option.some.inj (hy'.symm.trans hx)
        exact h.valid id y hy
      · obtain rfl := Option.some.inj (hy.symm.trans hx)
        exact hvalid

end

/-! ### Runs -/

theorem Reaches.sound {memory : Memory} (h : Reaches sha256 arena memory s) :
    Sound sha256 arena s := by
  induction h with
  | initial =>
    have hlive : ∀ t, ¬ (World.initial arena memory).Live t := fun t ht => ht.2 rfl
    exact ⟨rfl, ⟨initial_inv arena memory,
      ⟨fun _ t ht => absurd ht (hlive t), fun t ht => absurd ht (hlive t)⟩,
      ⟨fun _ t ht => absurd ht (hlive t), fun _ _ _ => rfl⟩, rfl, fun t ht => absurd ht (hlive t)⟩,
      nofun, fun _ _ => rfl, nofun⟩
  | step _ hop hs ih => exact ih.after hop hs

/-- A run whose steps are healthy wherever they are taken. -/
theorem Reaches.runs {memory : Memory} {committed : Option Entry} {w w' : World}
    {events : List Event} (hr : Runs w events w') :
    ∀ {s : State}, s.world = w → Reaches sha256 arena memory s →
      (∀ e ∈ events, ∀ s, Healthy sha256 arena s e.1 committed) →
      ∃ entries, Reaches sha256 arena memory ⟨w', entries⟩ := by
  induction hr with
  | nil w =>
    rintro s rfl h -
    exact ⟨s.entries, h⟩
  | cons hs _ ih =>
    rintro s rfl h hop
    exact ih rfl (h.step (hop _ List.mem_cons_self s) hs)
      fun e he => hop e (List.mem_cons_of_mem _ he)

/-- **A healthy system never fail-stops.** In every run in which no transfer and no system call
fails, the worker refuses only what its replays fail for, replays end as they have in the validation
and accesses are by the owner thread:

* no step ends in `pager_failure`;
* every request for pages fits its word and is granted: for the recipe that the worker has for the
  buffer, it passes the range checks of the worker and of `NativeReplay::run`, and every replay
  answers it with status 0 and as many bytes as were asked for;
* a step that ends the process has asked for no pages;
* `materialize` of pages of a buffer does not return `false`. -/
theorem healthy_never_stops {memory : Memory} (h : Reaches sha256 arena memory s) :
    (∀ op committed, Healthy sha256 arena s op committed →
      Runtime.Api.step s.world op ≠ .error .pagerFailure ∧
      (∀ stop, Runtime.Api.step s.world op = .error stop → Silent s.world op) ∧
      ∀ w r, Runtime.Api.step s.world op = .ok (w, r) →
        ∃ l, w.asked = s.world.asked ++ l ∧ ∀ y ∈ l,
          (restoreRequest arena (s.world.buffers y.1) y.2).size < 2 ^ 64 ∧
          ∃ x, s.entries (s.world.buffers y.1).id = some x ∧
            Granted sha256 arena x (restoreRequest arena (s.world.buffers y.1) y.2)
              (y.2.offset - (s.world.buffers y.1).recipeOffset) y.2.length) ∧
    ∀ e slot first last writing, s.world.Live slot → last ≤ (s.world.buffers slot).pageCount →
      MaterializeHealthy e → (∀ i, Answering sha256 arena s.entries (e.span i).willing) →
      materialize e s.world slot first last writing ≠ none := by
  have hsound := h.sound
  refine ⟨fun op committed hop => ?_, fun e slot first last writing hl hlast he ha => ?_⟩
  · have hav := hsound.available hop
    refine ⟨fun hc => ?_, fun stop hs => ?_, fun w r hs => ?_⟩
    · rw [hc] at hav
      exact hav rfl
    · exact step_silent hop.calls hsound.ready
        (hop.answers.mono fun _ ha => hsound.obliging ha) hs
    · rw [hs] at hav
      obtain ⟨l, hl, hall⟩ := Available.asked hav
      refine ⟨l, hl, fun y hy => ?_⟩
      obtain ⟨-, o, ho, hq, hspan⟩ := hall y hy
      obtain ⟨x, hx, -⟩ := hsound.stored _ o ho
      obtain ⟨hgranted, hrange⟩ := hsound.granted (q := restoreRequest s.world.arena
        (s.world.buffers y.1) y.2) hx ho hq
      rw [hrange, hspan, hsound.arena_eq] at hgranted
      rw [hsound.arena_eq] at hq
      exact ⟨hq.word, x, hx, hgranted⟩
  · obtain ⟨w, hw, -⟩ := materialize_available he first writing hsound.ready hl hlast
      fun i => hsound.obliging (ha i)
    rw [hw]
    exact Option.some_ne_none w

/-! ### A healthy run -/

/-- One digest for every string, that of the recipe below. -/
def healthySha (_ : List UInt8) : List UInt8 := List.replicate 32 0

/-- The emulator leaves a seven followed by zeros. -/
def healthyEmulation : Emulation := ⟨none, sampleBytes, true⟩

/-- The recipe for the 537 bytes at `0x100000` is registered as the emulator has validated it. -/
def healthySubmit : SubmitEnv :=
  { sampleSubmit sampleBytes ⟨0, 0, 0⟩ with
    script := ⟨none,
      .committed sampleBytes ⟨0, 0, 0⟩ "emulator replay validated; native: rejected"⟩ }

/-- Allocate 537 bytes, write a seven, register a recipe for them and evict them. -/
def healthyOps : List Op :=
  [.alloc Caller.owner ⟨fun _ => sampleEvict, some 0x100000, true⟩ 537,
    .write Caller.owner sampleMaterialize 0x100000 7,
    .submit Caller.owner healthySubmit 0x100000 (some sampleRecipe) 0,
    .evict Caller.owner sampleEvict 0x100000]

/-- Read the seven. -/
def healthyRead : Op := .read Caller.owner sampleMaterialize 0x100000

theorem ok_of_any {ε α : Type} {x : Except ε α} {p : α → Bool} (h : x.toOption.any p = true) :
    ∃ y, x = .ok y ∧ p y = true := by
  cases x with
  | error e => cases h
  | ok y => exact ⟨y, rfl, h⟩

theorem healthy_commits : ∃ x : Entry, ∀ entries id, Commits healthySha none entries id
    sampleRecipe sampleBytes ⟨0, 0, 0⟩ "emulator replay validated; native: rejected" x := by
  have hdec : (decode sampleRecipe).toOption.any (fun r => decide (r.h.digest = healthySha [])) =
      true := by decide +kernel
  obtain ⟨r, hr, hdigest⟩ := ok_of_any hdec
  have hemulate : emulate healthySha r.h healthyEmulation =
      .ok (content sampleBytes r.h.length) := by
    unfold emulate healthyEmulation
    simp [healthySha, show r.h.digest = List.replicate 32 0 from of_decide_eq_true hdigest]
  have hsize : sampleRecipe.length ≤ MAX_BLOB ∧ HEADER_SIZE ≤ sampleRecipe.length ∧
      sampleRecipe.length ≤ BUDGET := by decide +kernel
  have call : Call := ⟨true, true, fun _ => 0, true, true, true, true⟩
  refine ⟨⟨⟨r, none, 0⟩, content sampleBytes r.h.length, .emulator healthyEmulation⟩,
    fun entries id => ?_⟩
  refine ⟨⟨true, some "rejected", call, fun _ => call, fun _ => true, call, healthyEmulation, true,
    fun _ => true, 0, true⟩, ⟨recipesOf entries, 0⟩,
    ⟨Function.update (recipesOf entries) id (some ⟨r, none, 0⟩), 0⟩, false, rfl, ?_,
    Function.update_self _ _ _, fun i hi => ?_, rfl, rfl⟩
  · unfold register validate validateNative
    rw [if_neg (not_or.mpr ⟨Nat.not_lt.mpr hsize.1, Nat.not_lt.mpr hsize.2.1⟩),
      if_neg (by rw [Nat.zero_add]; exact Nat.not_lt.mpr hsize.2.2), if_neg Bool.false_ne_true, hr]
    simp only [hemulate]
    rw [if_neg (by simp)]
    simp
  · rw [content_length] at hi
    unfold content
    rw [List.getD_eq_getElem _ _ (by rw [List.length_map, List.length_range]; exact hi),
      List.getElem_map, List.getElem_range]

theorem healthyOps_healthy {x : Entry} (hx : ∀ entries id, Commits healthySha none entries id
    sampleRecipe sampleBytes ⟨0, 0, 0⟩ "emulator replay validated; native: rejected" x) (s : State)
    {op : Op} (hop : op ∈ healthyRead :: healthyOps) : Healthy healthySha none s op (some x) := by
  have hanswer : Answering healthySha none s.entries fun _ => true := by
    intro q y _ hq
    cases hq
  have howner : Owner Caller.owner := ⟨rfl, rfl⟩
  have hpages : MaterializeHealthy sampleMaterialize := ⟨fun _ => ⟨rfl, rfl, rfl, rfl⟩, rfl, rfl⟩
  have hevict : EvictHealthy sampleEvict := ⟨rfl, rfl, fun _ => rfl⟩
  unfold healthyOps healthyRead at hop
  simp only [List.mem_cons, List.not_mem_nil, or_false] at hop
  obtain rfl | rfl | rfl | rfl | rfl := hop
  · exact ⟨⟨howner, hpages⟩, fun _ => hanswer, fun _ _ _ _ hsub => nomatch hsub⟩
  · exact ⟨fun _ => hevict, trivial, fun _ _ _ _ hsub => nomatch hsub⟩
  · exact ⟨⟨howner, hpages⟩, fun _ => hanswer, fun _ _ _ _ hsub => nomatch hsub⟩
  · refine ⟨⟨rfl, rfl, fun _ => rfl, rfl, fun _ => rfl, rfl, rfl⟩, trivial, ?_⟩
    rintro e output image slot ⟨⟩ - out g m hv
    obtain ⟨rfl, rfl, rfl⟩ := Verdict.committed.inj hv
    exact ⟨x, rfl, hx _ _⟩
  · exact ⟨hevict, trivial, fun _ _ _ _ hsub => nomatch hsub⟩

/-- The bytes are evicted and the seven is read: the worker is asked for them, and grants it. -/
theorem healthy_never_stops_sample : ∃ s w, Reaches healthySha none sampleMemory s ∧
    Runtime.Api.step s.world healthyRead = .ok (w, .byte 7) ∧
    (∃ y, w.asked = s.world.asked ++ [y] ∧
      (restoreRequest none (s.world.buffers y.1) y.2).size < 2 ^ 64 ∧
      ∃ x, s.entries (s.world.buffers y.1).id = some x ∧
        Granted healthySha none x (restoreRequest none (s.world.buffers y.1) y.2)
          (y.2.offset - (s.world.buffers y.1).recipeOffset) y.2.length) ∧
    materialize sampleMaterialize s.world 0 0 1 false ≠ none := by
  obtain ⟨x, hx⟩ := healthy_commits
  obtain ⟨y, hruns, hops, hl, hlast, hread⟩ :=
    (@play_any (World.initial none sampleMemory) healthyOps (fun y => y.1.Live 0 ∧
      1 ≤ (y.1.buffers 0).pageCount ∧ ((Runtime.Api.step y.1 healthyRead).toOption.any fun z =>
        decide (z.2 = .byte 7) && decide (z.1.asked.length = y.1.asked.length + 1)) = true) _)
      (by decide +kernel)
  have hhealthy : ∀ s op, op ∈ healthyRead :: healthyOps →
      Healthy healthySha none s op (some x) := fun s _ hop => healthyOps_healthy hx s hop
  obtain ⟨entries, hs⟩ := Reaches.runs hruns rfl .initial fun e he s =>
    hhealthy s e.1 (.tail _ (hops ▸ List.mem_map_of_mem he))
  obtain ⟨hsteps, hmaterialize⟩ := healthy_never_stops hs
  obtain ⟨-, -, hall⟩ := hsteps healthyRead (some x) (hhealthy _ _ List.mem_cons_self)
  obtain ⟨⟨w, r⟩, hstep, hr⟩ := ok_of_any hread
  obtain ⟨hbyte, hcount⟩ := Bool.and_eq_true_iff.mp hr
  obtain rfl : r = .byte 7 := of_decide_eq_true hbyte
  obtain ⟨l, hl', hgranted⟩ := hall w _ hstep
  -- one request
  obtain ⟨q, rfl⟩ : ∃ q, l = [q] := by
    rw [← List.length_eq_one_iff]
    have hcount : w.asked.length = y.1.asked.length + 1 := of_decide_eq_true hcount
    rw [hl', List.length_append] at hcount
    exact Nat.add_left_cancel hcount
  obtain ⟨hword, z, hz, hg⟩ := hgranted q List.mem_cons_self
  exact ⟨⟨y.1, entries⟩, w, hs, hstep, ⟨q, hl', hword, z, hz, hg⟩,
    hmaterialize sampleMaterialize 0 0 1 false hl hlast ⟨fun _ => ⟨rfl, rfl, rfl, rfl⟩, rfl, rfl⟩
      fun _ _ _ _ hq => by cases hq⟩

end Afterfree.Protocol.Health
