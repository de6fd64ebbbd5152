import Afterfree.Runtime.Recipes
import Afterfree.Runtime.Accounting
import Afterfree.Runtime.Compared

/-!
# Requests that can be answered

What `restore_span` asks for is the whole output of a recipe that cannot be sliced, or a range of
whole pages of one that can, up to its last page, which may be short (`ColdExtent.proper`). Where
the worker answers every such request for what it has, no system call fails and every access is by
the owner thread, no step ends in `pager_failure`, and all its requests are of this kind
(`step_available`).
-/

namespace Afterfree.Runtime.Availability

open Afterfree.Common Afterfree.Lib Afterfree.Runtime.State Afterfree.Runtime.Pager
open Afterfree.Runtime.Submit Afterfree.Runtime.Api Afterfree.Runtime.Lookup
open Afterfree.Runtime.Representation Afterfree.Runtime.Changes Afterfree.Runtime.Decompose
open Afterfree.Runtime.Operations Afterfree.Runtime.Invariants Afterfree.Runtime.Recipes
open Afterfree.Runtime.Accounting Afterfree.Runtime.Compared

/-! ### Proper requests -/

/-- The offset and the length that a request asks for, of an output of `whole` bytes. -/
def spanOf (whole : ℕ) (q : Request) : ℕ × ℕ :=
  if q.command = .restore then (0, whole) else (rangeOffset q.size, rangeLength q.size)

/-- **A request that can be answered** from an output of `whole` bytes, by a worker with this
window: the output as a whole, or a range of whole pages of it or up to its end, if the output can
be sliced. -/
structure Proper (arena : Option Arena) (sliceable : Bool) (whole : ℕ) (q : Request) : Prop where
  word : q.size < 2 ^ 64
  command : (q.command = .restore ∧ sliceable = false) ∨
    (q.command = .restoreRange ∧ sliceable = true) ∨
    (q.command = .restoreShared ∧ sliceable = true ∧
      ∃ a, arena = some a ∧ (spanOf whole q).2 ≤ a.capacity)
  pos : 0 < (spanOf whole q).2
  fits : (spanOf whole q).1 + (spanOf whole q).2 ≤ whole
  aligned : (spanOf whole q).1 % PAGE = 0
  ends : (spanOf whole q).2 % PAGE = 0 ∨ (spanOf whole q).1 + (spanOf whole q).2 = whole

/-- **The request for an extent can be answered**, for any offset of the region, a short last page
and any window. -/
theorem ColdExtent.proper {b : Buffer} (h : Shaped b) {x : Extent} (hx : ColdExtent b x)
    (arena : Option Arena) :
    Proper arena (decide (b.stats.pageBytes ≠ 0)) b.recipeLength (restoreRequest arena b x) ∧
      spanOf b.recipeLength (restoreRequest arena b x) = (x.offset - b.recipeOffset, x.length) := by
  have hfirst := h.first_mul
  have hlast := h.last_mul
  have hle := le_rounded b.recipeLength
  have hpos := h.recipe_pos
  have hmax := h.length_le
  have hrecipe := h.recipe_le
  obtain ⟨x1, x2, x3, x4, x5, x6, -, x8⟩ := hx
  have hcmd := restoreRequest_command arena b x
  by_cases hp : b.stats.pageBytes = 0
  · -- the whole output
    obtain ⟨hf, hl⟩ := x8 hp
    rw [hl, hlast] at x5
    rw [hf, hfirst] at x4
    have hspan : spanOf b.recipeLength (restoreRequest arena b x) = (0, b.recipeLength) :=
      if_pos (hcmd.mpr hp)
    have hsize : (restoreRequest arena b x).size = 0 := if_neg (not_not_intro hp)
    refine ⟨⟨by rw [hsize]; positivity, .inl ⟨hcmd.mpr hp, by simp [hp]⟩, ?_, ?_, ?_, ?_⟩, ?_⟩
    all_goals rw [hspan]
    · exact hpos
    · exact (Nat.zero_add _).le
    · rfl
    · exact .inr (Nat.zero_add _)
    · rw [x4, Nat.sub_self, show x.length = b.recipeLength by omega]
  · -- a range of pages
    have hsize : (restoreRequest arena b x).size = packRange (x.offset - b.recipeOffset) x.length :=
      if_pos hp
    have hshort : x.length < 2 ^ 32 := by
      unfold MAX_BUFFER at hmax
      omega
    obtain ⟨hoff, hlen⟩ := @range_unpack (x.offset - b.recipeOffset) x.length hshort
    have hspan : spanOf b.recipeLength (restoreRequest arena b x) =
        (x.offset - b.recipeOffset, x.length) := by
      rw [spanOf, if_neg fun hc => hp (hcmd.mp hc), hsize, hoff, hlen]
    have hword : packRange (x.offset - b.recipeOffset) x.length =
        2 ^ 32 * (x.offset - b.recipeOffset) + x.length := by
      rw [packRange, Nat.shiftLeft_eq, Nat.mul_comm, Nat.two_pow_add_eq_or_of_lt hshort]
    have hmul : x.last * PAGE ≤ b.recipeOffset + rounded b.recipeLength := by
      rw [← hlast]
      exact Nat.mul_le_mul_right _ x3
    have hlow : b.recipeOffset ≤ x.offset := by
      rw [x4, ← hfirst]
      exact Nat.mul_le_mul_right _ x2
    have hgrow : x.offset < x.last * PAGE := by
      rw [x4]
      exact Nat.mul_lt_mul_of_pos_right x1 PAGE_pos
    refine ⟨⟨?_, ?_, ?_, ?_, ?_, ?_⟩, hspan⟩
    · rw [hsize, hword]
      unfold MAX_BUFFER at hmax
      omega
    · have hslice : decide (b.stats.pageBytes ≠ 0) = true := decide_eq_true hp
      have hcommand : (restoreRequest arena b x).command =
          if usesWindow arena b x then .restoreShared else .restoreRange := by
        simp [restoreRequest, hp]
      by_cases huse : usesWindow arena b x = true
      · rw [if_pos huse] at hcommand
        refine .inr (.inr ⟨hcommand, hslice, ?_⟩)
        rw [hspan]
        unfold usesWindow at huse
        cases arena with
        | none => cases huse
        | some a => exact ⟨a, rfl, by simpa using (Bool.and_eq_true_iff.mp huse).2⟩
      · rw [if_neg huse] at hcommand
        exact .inr (.inl ⟨hcommand, hslice⟩)
    all_goals rw [hspan]
    · simp only
      omega
    · simp only
      omega
    · simp only
      rw [x4, ← hfirst, ← Nat.sub_mul, Nat.mul_mod_left]
    · simp only
      by_cases hshort : x.last * PAGE ≤ b.recipeOffset + b.recipeLength
      · refine .inl ?_
        rw [min_eq_left hshort] at x5
        rw [show x.length = (x.last - x.first) * PAGE by rw [Nat.sub_mul]; omega, Nat.mul_mod_left]
      · refine .inr ?_
        omega

/-! ### What does not fail -/

/-- Around one request for pages: the exchange, both `mprotect` calls and the payload. -/
structure SpanHealthy (e : SpanEnv) : Prop where
  link : e.link = ⟨true, true⟩
  opened : e.opened = true
  payload : e.payload = true
  closed : e.closed = true

/-- **The worker answers** what can be answered from the outputs it has; `sliceable` says of which
ids it can give ranges. -/
def Obliging (arena : Option Arena) (sliceable : ℕ → Bool) (p : Peer) (willing : Request → Bool) :
    Prop :=
  ∀ q o, p.store q.id = some o → Proper arena (sliceable q.id) o.length q → willing q = true

/-- Nothing fails in one `materialize`. -/
structure MaterializeHealthy (e : MaterializeEnv) : Prop where
  span : ∀ i, SpanHealthy (e.span i)
  unlocked : e.unlocked = true
  drop : e.drop = ⟨true, true⟩

/-- Nothing fails in one `af_evict`. -/
structure EvictHealthy (e : EvictEnv) : Prop where
  hidden : e.hidden = true
  discarded : e.discarded = true
  reprotected : ∀ i, e.reprotected i = true

/-- Nothing fails in one `submit`. -/
structure SubmitHealthy (e : SubmitEnv) : Prop where
  requestSent : e.requestSent = true
  blobSent : e.blobSent = true
  link : ∀ i, e.link i = ⟨true, true⟩
  registrationReceived : e.registrationReceived = true
  chunkReceived : ∀ i, e.chunkReceived i = true
  isProtected : e.isProtected = true
  drop : e.drop = ⟨true, true⟩

/-- What is committed has a registration record that the application accepts. -/
def Recorded (script : Script) : Prop :=
  ∀ out g m, script.verdict = .committed out g m →
    g.backend ≤ 1 ∧ (g.pageBytes = 0 ∨ g.pageBytes = PAGE ∧ g.backend ≠ 0)

/-- The owner thread. -/
def Owner (c : Caller) : Prop := c.ownerProcess = true ∧ c.ownerThread = true

/-- **Nothing fails in a step**, and accesses are by the owner thread. -/
def OpHealthy : Op → Prop
  | .alloc _ e _ => ∀ i, EvictHealthy (e.evict i)
  | .read c e _ | .write c e _ _ => Owner c ∧ MaterializeHealthy e
  | .prepareRead c e _ _ | .prepareWrite c e _ _ => Owner c ∧ ∀ i, MaterializeHealthy (e i)
  | .submit _ e _ _ _ | .submitRegion _ e _ _ _ => SubmitHealthy e
  | .evict _ e _ => EvictHealthy e
  | .manage _ e _ => ∀ i, EvictHealthy (e i)
  | .setResidentTarget _ _ => True
  | .materialize _ e _ => MaterializeHealthy e
  | .free _ e _ => e.drop = ⟨true, true⟩ ∧ e.unmapped = true

/-- All that decides in a step which requests the worker can answer. -/
def Decides (P : (Request → Bool) → Prop) : Op → Prop
  | .read _ e _ | .write _ e _ _ | .materialize _ e _ => ∀ i, P (e.span i).willing
  | .prepareRead _ e _ _ | .prepareWrite _ e _ _ => ∀ j i, P ((e j).span i).willing
  | _ => True

theorem Decides.mono {P Q : (Request → Bool) → Prop} (h : ∀ f, P f → Q f) {op : Op}
    (hop : Decides P op) : Decides Q op := by
  cases op with
  | read c e a => exact fun i => h _ (hop i)
  | write c e a v => exact fun i => h _ (hop i)
  | materialize c e p => exact fun i => h _ (hop i)
  | prepareRead c e a n => exact fun j i => h _ (hop j i)
  | prepareWrite c e a n => exact fun j i => h _ (hop j i)
  | _ => exact trivial

/-! ### Registered buffers -/

/-- What a change keeps of a registered buffer. -/
structure SameRecipe (b b' : Buffer) : Prop where
  offset : b'.recipeOffset = b.recipeOffset
  length : b'.recipeLength = b.recipeLength
  pageBytes : b'.stats.pageBytes = b.stats.pageBytes
  live : b'.recipeLive = true → b.recipeLive = true
  state : b'.state ≠ .resident

/-- What a change keeps of a live buffer. -/
structure Keeps (b b' : Buffer) : Prop where
  id : b'.id = b.id
  recipe : b.state ≠ .resident → SameRecipe b b'

theorem Keeps.refl (b : Buffer) : Keeps b b := ⟨rfl, fun hs => ⟨rfl, rfl, rfl, fun hk => hk, hs⟩⟩

theorem Keeps.trans {b1 b2 b3 : Buffer} (h : Keeps b1 b2) (h' : Keeps b2 b3) : Keeps b1 b3 := by
  refine ⟨h'.id.trans h.id, fun hs => ?_⟩
  have r := h.recipe hs
  have r' := h'.recipe r.state
  exact ⟨r'.offset.trans r.offset, r'.length.trans r.length, r'.pageBytes.trans r.pageBytes,
    fun hk => r.live (r'.live hk), r'.state⟩

theorem keeps_update {w w' : World} (u : ℕ) (b : Buffer)
    (hb : w'.buffers = Function.update w.buffers u b) (hd : b.data = (w.buffers u).data)
    (hk : Keeps (w.buffers u) b) {s : ℕ} (hl : w'.Live s) :
    w.Live s ∧ Keeps (w.buffers s) (w'.buffers s) := by
  unfold World.Live at *
  by_cases hs : s = u
  · subst hs
    rw [hb, Function.update_self] at hl ⊢
    exact ⟨⟨hl.1, hd ▸ hl.2⟩, hk⟩
  · rw [hb, Function.update_of_ne hs] at hl ⊢
    exact ⟨hl, .refl _⟩

/-- **A change keeps what is registered**, until the buffer is released. -/
theorem Change.keeps {w w' : World} (c : Change w w') {s : ℕ} (hl : w'.Live s) :
    w.Live s ∧ Keeps (w.buffers s) (w'.buffers s) := by
  cases c with
  | note hb =>
    have h := hb s
    refine ⟨⟨hl.1, h.data ▸ hl.2⟩, h.id, fun hs => ?_⟩
    exact ⟨h.recipeOffset, h.recipeLength, h.pageBytes hs, fun hk => h.recipeLive ▸ hk,
      h.state ▸ hs⟩
  | lose p => exact ⟨hl, .refl _⟩
  | restore u x o t hlu hx hu ho =>
    refine keeps_update u (restored (w.buffers u) x t) rfl rfl
      ⟨rfl, fun hs => ⟨rfl, rfl, rfl, fun hk => hk, ?_⟩⟩ hl
    change (if _ then BufferState.sealed else _) ≠ BufferState.resident
    split_ifs
    · decide
    · exact hs
  | unlock u first last hlu hlast hlt hp =>
    refine keeps_update u (written (w.buffers u) first last) rfl rfl
      ⟨rfl, fun hs => ⟨rfl, rfl, rfl, fun hk => hk, ?_⟩⟩ hl
    change (if _ then BufferState.pinned else _) ≠ BufferState.resident
    split_ifs
    · decide
    · exact hs
  | retire u n hlu hst hp =>
    exact keeps_update u { w.buffers u with
      recipeLive := false, stats := { (w.buffers u).stats with retainedBytes := n } } rfl rfl
      ⟨rfl, fun hs => ⟨rfl, rfl, rfl, fun hk => absurd hk Bool.false_ne_true, hs⟩⟩ hl
  | withdraw u hlu hst => exact ⟨hl, .refl _⟩
  | enroll u h g t o hlu hst =>
    exact keeps_update u (sealedBuffer (w.buffers u) h g t) rfl rfl
      ⟨rfl, fun hs => absurd hst hs⟩ hl
  | discard u hlu hst =>
    refine keeps_update u (discardedBuffer (w.buffers u)) rfl rfl
      ⟨rfl, fun hs => ⟨rfl, rfl, rfl, fun hk => hk, ?_⟩⟩ hl
    exact BufferState.noConfusion
  | release u l p hlu hr hp =>
    obtain ⟨-, hl0, hb⟩ := applyRelease_live hl
    rw [hb]
    exact ⟨hl0, .refl _⟩

theorem Steps.keeps {w w' : World} (c : Steps w w') {s : ℕ} (hl : w'.Live s) :
    w.Live s ∧ Keeps (w.buffers s) (w'.buffers s) := by
  induction c with
  | refl => exact ⟨hl, .refl _⟩
  | tail _ hc ih =>
    obtain ⟨hl1, hk1⟩ := Change.keeps hc hl
    obtain ⟨hl0, hk0⟩ := ih hl1
    exact ⟨hl0, hk0.trans hk1⟩

/-! ### Ready worlds -/

/-- The output that the worker has for a buffer is as long as its region, and the worker can give
ranges of it if the application asks for ranges. -/
def Suits (sliceable : ℕ → Bool) (b : Buffer) (o : Output) : Prop :=
  o.length = b.recipeLength ∧ sliceable b.id = decide (b.stats.pageBytes ≠ 0)

/-- **A world whose requests can be answered**: the channel is unbroken, and the worker has an
output that suits for every buffer with `recipe_live`, and none for a resident one. -/
structure Ready (sliceable : ℕ → Bool) (w : World) : Prop where
  inv : Inv w
  stocked : Stocked w
  unclaimed : Unclaimed w
  unbroken : w.channelBroken = false
  suits : ∀ s, w.Live s → (w.buffers s).recipeLive = true → ∀ o,
    w.peer.store (w.buffers s).id = some o → Suits sliceable (w.buffers s) o

/-- The worker has a recipe for no resident buffer. -/
theorem Ready.registered {σ : ℕ → Bool} {w : World} (h : Ready σ w) {s : ℕ} (hl : w.Live s)
    {o : Output} (ho : w.peer.store (w.buffers s).id = some o) :
    (w.buffers s).state ≠ .resident := by
  intro hs
  rw [h.unclaimed.resident h.unbroken s hl hs] at ho
  cases ho

/-- An output that was there before still suits what is kept of its buffer. -/
theorem Ready.suits_kept {σ σ' : ℕ → Bool} {w : World} (h : Ready σ w) {s : ℕ} (hl : w.Live s)
    {b : Buffer} (hkeep : Keeps (w.buffers s) b) (hk : b.recipeLive = true) {o : Output}
    (ho : w.peer.store b.id = some o) (hσ : σ' b.id = σ b.id) : Suits σ' b o := by
  rw [hkeep.id] at ho
  have hr := hkeep.recipe (h.registered hl ho)
  obtain ⟨h1, h2⟩ := h.suits s hl (hr.live hk) o ho
  exact ⟨by rw [h1, hr.length], by rw [hσ, hkeep.id, h2, hr.pageBytes]⟩

/-- A request for pages that the worker can answer with what it has. -/
def Asks (sliceable : ℕ → Bool) (w : World) (y : ℕ × Extent) : Prop :=
  w.Live y.1 ∧ ∃ o, w.peer.store (w.buffers y.1).id = some o ∧
    Proper w.arena (sliceable (w.buffers y.1).id) o.length
      (restoreRequest w.arena (w.buffers y.1) y.2) ∧
    spanOf o.length (restoreRequest w.arena (w.buffers y.1) y.2) =
      (y.2.offset - (w.buffers y.1).recipeOffset, y.2.length)

/-- **What materializing does to a ready world**: the worker's store does not grow, and the requests
can be answered. -/
structure Advance (sliceable : ℕ → Bool) (w w' : World) : Prop where
  steps : Steps w w'
  unbroken : w'.channelBroken = false
  shrinks : ∀ id o, w'.peer.store id = some o → w.peer.store id = some o
  arena : w'.arena = w.arena
  asked : ∃ l, w'.asked = w.asked ++ l ∧ ∀ y ∈ l, Asks sliceable w y

section

variable {σ : ℕ → Bool} {w w' w'' : World}

theorem Advance.refl (hu : w.channelBroken = false) : Advance σ w w :=
  ⟨.refl, hu, fun _ _ h => h, rfl, [], (List.append_nil _).symm, nofun⟩

theorem Advance.ready (h : Advance σ w w') (hw : Ready σ w) : Ready σ w' where
  inv := h.steps.inv hw.inv
  stocked := Steps.stocked h.steps hw.inv hw.stocked
  unclaimed := Steps.unclaimed h.steps hw.inv hw.unclaimed
  unbroken := h.unbroken
  suits _ hl hk _ ho := by
    obtain ⟨hl0, hkeep⟩ := Steps.keeps h.steps hl
    exact hw.suits_kept hl0 hkeep hk (h.shrinks _ _ ho) rfl

theorem restoreRequest_congr (arena : Option Arena) {b b' : Buffer} (x : Extent)
    (hid : b'.id = b.id) (hoff : b'.recipeOffset = b.recipeOffset)
    (hp : b'.stats.pageBytes = b.stats.pageBytes) :
    restoreRequest arena b' x = restoreRequest arena b x := by
  unfold restoreRequest usesWindow
  rw [hid, hoff, hp]

/-- A request that can be answered later could be answered before. -/
theorem Advance.asks (h : Advance σ w w') (hw : Ready σ w) {y : ℕ × Extent} (hy : Asks σ w' y) :
    Asks σ w y := by
  obtain ⟨hl, o, ho, hp, hspan⟩ := hy
  obtain ⟨hl0, hkeep⟩ := Steps.keeps h.steps hl
  have ho0 := h.shrinks _ _ ho
  rw [hkeep.id] at ho0
  have hr := hkeep.recipe (hw.registered hl0 ho0)
  rw [h.arena, restoreRequest_congr w.arena y.2 hkeep.id hr.offset hr.pageBytes] at hp hspan
  rw [hkeep.id] at hp
  rw [hr.offset] at hspan
  exact ⟨hl0, o, ho0, hp, hspan⟩

theorem Advance.trans (h : Advance σ w w') (hw : Ready σ w) (h' : Advance σ w' w'') :
    Advance σ w w'' := by
  obtain ⟨l, hl, hall⟩ := h.asked
  obtain ⟨l', hl', hall'⟩ := h'.asked
  refine ⟨h.steps.trans h'.steps, h'.unbroken, fun id o ho => h.shrinks _ _ (h'.shrinks _ _ ho),
    h'.arena.trans h.arena, l ++ l', by rw [hl', hl, List.append_assoc], fun y hy => ?_⟩
  rcases List.mem_append.mp hy with hy | hy
  · exact hall y hy
  · exact h.asks hw (hall' y hy)

theorem Obliging.mono {willing : Request → Bool} (h : Advance σ w w')
    (ho : Obliging w.arena σ w.peer willing) : Obliging w'.arena σ w'.peer willing := by
  intro q o hq hp
  rw [h.arena] at hp
  exact ho q o (h.shrinks _ _ hq) hp

/-! ### Materializing -/

theorem handleRestore_proper {arena : Option Arena} {sliceable : Bool} {q : Request} {p : Peer}
    {o : Output} (ho : p.store q.id = some o) (hp : Proper arena sliceable o.length q) :
    handleRestore true q p = (p, ⟨0, (spanOf o.length q).2, "restored"⟩,
      fun i => o.byte ((spanOf o.length q).1 + i)) := by
  obtain ⟨-, -, hpos, hfits, -, -⟩ := hp
  unfold handleRestore spanOf at *
  rw [ho]
  by_cases hc : q.command = .restore
  · simp only [if_pos hc] at hpos hfits ⊢
    rw [if_pos ⟨trivial, by omega, by omega, by omega⟩]
  · simp only [if_neg hc] at hpos hfits ⊢
    rw [if_pos ⟨trivial, by omega, by omega, by omega⟩]

/-- **One `restore_span`** of a ready world is answered. -/
theorem restoreSpan_available {e : SpanEnv} {s first last : ℕ} (hw : Ready σ w) (hl : w.Live s)
    (h1 : first < last) (h2 : last ≤ (w.buffers s).pageCount)
    (hcold : ∀ i, first ≤ i → i < last → (w.buffers s).pages i = .cold) (he : SpanHealthy e)
    (ho : Obliging w.arena σ w.peer e.willing) :
    ∃ w', restoreSpan e w s first last = some w' ∧ Paged s w w' ∧ Advance σ w w' := by
  have hI := hw.inv
  obtain ⟨hx, -⟩ := extentOf_cold (hI.buffer s hl) h1 h2 hcold
  have hk := hI.backed s hl (.inr ⟨first, h1.trans_le h2, hcold first le_rfl h1⟩)
  obtain ⟨o, hstore⟩ := Option.ne_none_iff_exists'.mp (hw.stocked.kept hw.unbroken s hl hk)
  obtain ⟨hlen, hslice⟩ := hw.suits s hl hk o hstore
  obtain ⟨hproper, hspan⟩ := ColdExtent.proper (hI.buffer s hl).toShaped hx w.arena
  rw [← hlen] at hproper hspan
  have hwilling : e.willing (restoreRequest w.arena (w.buffers s)
      (extentOf (w.buffers s) first last)) = true := by
    refine ho _ o hstore ?_
    change Proper w.arena (σ (w.buffers s).id) _ _
    rw [hslice]
    exact hproper
  have hanswer := handleRestore_proper (p := w.peer) hstore hproper
  rw [hspan] at hanswer
  have hu := hw.unbroken
  refine ⟨applyRestore (w.ask s (extentOf (w.buffers s) first last)) s
    (extentOf (w.buffers s) first last) (fun i => o.byte ((extentOf (w.buffers s) first last).offset
      - (w.buffers s).recipeOffset + i)) e.elapsed, ?_, Paged.restore hl hx hu hstore _, ?_⟩
  · unfold restoreSpan request
    simp only [he.link, he.opened, he.payload, he.closed, hwilling, World.ask, hu, hanswer]
    simp
  · exact ⟨(Paged.restore hl hx hu hstore _).steps, hu, fun _ _ h => h, rfl, [_], rfl,
      fun y hy => by
        obtain rfl := List.mem_singleton.mp hy
        exact ⟨hl, o, hstore, by rw [hslice]; exact hproper, hspan⟩⟩

theorem Advance.unasked (c : Steps w w') (hu : w'.channelBroken = false)
    (hs : ∀ id o, w'.peer.store id = some o → w.peer.store id = some o) (ha : w'.arena = w.arena)
    (hl : w'.asked = w.asked) : Advance σ w w' :=
  ⟨c, hu, hs, ha, [], by rw [hl, List.append_nil], nofun⟩

/-- **The restoring loop** of a ready world. -/
theorem restoreLoop_available {e : ℕ → SpanEnv} (he : ∀ i, SpanHealthy (e i)) {s : ℕ} (last : ℕ) :
    ∀ (fuel : ℕ) {w : World} (page : ℕ), Ready σ w → w.Live s →
      last ≤ (w.buffers s).pageCount → (∀ i, Obliging w.arena σ w.peer (e i).willing) →
      ∃ w', restoreLoop e s last fuel w page = some w' ∧ Advance σ w w'
  | 0, w, _, hw, _, _, _ => ⟨w, rfl, .refl hw.unbroken⟩
  | fuel + 1, w, page, hw, hl, hlast, ho => by
    unfold restoreLoop
    by_cases hpage : page < last
    · rw [if_pos hpage]
      simp only
      by_cases hcold : (w.buffers s).pages page = .cold
      · rw [if_neg (not_not_intro hcold)]
        obtain ⟨c1, c2, c3⟩ := coldEnd_spec (w.buffers s) page last (windowPages w.arena)
          (last - page) (page + 1) hpage
        generalize coldEnd (w.buffers s) page last (windowPages w.arena) (last - page) (page + 1) =
          stop at c1 c2 c3 ⊢
        have hspan : ∀ i, page ≤ i → i < stop → (w.buffers s).pages i = .cold := by
          intro i hi hlt
          rcases Nat.eq_or_lt_of_le hi with rfl | hi
          · exact hcold
          · exact c3 i hi hlt
        obtain ⟨w1, hr, hp, ha⟩ :=
          restoreSpan_available hw hl c1 (c2.trans hlast) hspan (he page) (ho page)
        obtain ⟨w2, hr2, ha2⟩ := restoreLoop_available he last fuel stop (ha.ready hw)
          ((hp.live s).mpr hl) (by rw [hp.pageCount]; exact hlast) fun i => (ho i).mono ha
        rw [hr]
        exact ⟨w2, hr2, ha.trans hw ha2⟩
      · rw [if_pos hcold]
        exact restoreLoop_available he last fuel (page + 1) hw hl hlast ho
    · rw [if_neg hpage]
      exact ⟨w, rfl, .refl hw.unbroken⟩

theorem drop_shrinks {p : Peer} {i id : ℕ} {o : Output} (h : (p.drop i).store id = some o) :
    p.store id = some o := by
  unfold Peer.drop at h
  simp only at h
  split_ifs at h
  exact h

theorem retire_available (hw : Ready σ w) {s : ℕ} (hl : w.Live s) :
    Advance σ w (retire ⟨true, true⟩ w s) := by
  have hu := hw.unbroken
  have hsteps := (retire_spec (l := ⟨true, true⟩) hw.inv hl).1.steps
  generalize hr : retire ⟨true, true⟩ w s = w' at hsteps ⊢
  unfold retire request handleDrop at hr
  simp only [hu, Bool.not_true, Bool.false_eq_true, if_false, if_true] at hr
  by_cases hc : (w.buffers s).state = .pinned ∧
      (w.buffers s).residentPages = (w.buffers s).mapped / PAGE ∧ (w.buffers s).recipeLive = true
  · rw [if_pos hc] at hr
    subst hr
    exact .unasked hsteps rfl (fun _ _ ho => @drop_shrinks w.peer (w.buffers s).id _ _ ho) rfl rfl
  · rw [if_neg hc] at hr
    subst hr
    exact .refl hu

/-- **`materialize`** of a ready world does not return `false`. -/
theorem materialize_available {e : MaterializeEnv} (he : MaterializeHealthy e) {s last : ℕ}
    (first : ℕ) (writing : Bool) (hw : Ready σ w) (hl : w.Live s)
    (hlast : last ≤ (w.buffers s).pageCount)
    (ho : ∀ i, Obliging w.arena σ w.peer (e.span i).willing) :
    ∃ w', materialize e w s first last writing = some w' ∧ Advance σ w w' := by
  obtain ⟨w1, h1, ha1⟩ := restoreLoop_available he.span last (last - first) first hw hl hlast ho
  obtain ⟨p1, all1⟩ := restoreLoop_spec e.span s last _ w w1 first hw.inv hl hlast le_rfl h1
  have hl1 := (p1.live s).mpr hl
  have hw1 := ha1.ready hw
  have hunlock : ∃ w2, unlock e w1 s first last writing = some w2 ∧ w2.peer = w1.peer ∧
      w2.channelBroken = w1.channelBroken ∧ w2.arena = w1.arena ∧ w2.asked = w1.asked := by
    unfold unlock
    by_cases hc : writing = true ∧ first < last
    · rw [if_pos hc, he.unlocked]
      exact ⟨_, rfl, rfl, rfl, rfl, rfl⟩
    · rw [if_neg hc]
      exact ⟨_, rfl, rfl, rfl, rfl, rfl⟩
  obtain ⟨w2, h2, hpeer, hu, harena, hasked⟩ := hunlock
  obtain ⟨p2, -⟩ := unlock_spec hl1 (by rw [p1.pageCount]; exact hlast) all1 h2
  have ha2 : Advance σ w1 w2 := .unasked p2.steps (hu.trans hw1.unbroken)
    (fun id o ho => by rw [← hpeer]; exact ho) harena hasked
  have ha3 := retire_available (ha2.ready hw1) ((p2.live s).mpr hl1)
  refine ⟨_, ?_, (ha1.trans hw ha2).trans hw ha3⟩
  unfold materialize
  simp only [h1, h2, he.drop]

/-! ### Faults and prefaults -/

/-- **A call that does not end in `pager_failure`**, with what it leaves. -/
def Proceeds {α : Type} (P : α → Prop) : Except Stop α → Prop
  | .error s => s ≠ .pagerFailure
  | .ok y => P y

theorem Proceeds.map {α β : Type} {P : α → Prop} {Q : β → Prop} {f : α → β} {x : Except Stop α}
    (h : Proceeds P x) (hf : ∀ y, P y → Q (f y)) : Proceeds Q (x.map f) := by
  cases x with
  | error s => exact h
  | ok y => exact hf y h

theorem fault_available {c : Caller} {e : MaterializeEnv} (hc : Owner c) (he : MaterializeHealthy e)
    (hw : Ready σ w) (ho : ∀ i, Obliging w.arena σ w.peer (e.span i).willing) (a : ℕ)
    (writing : Bool) : Proceeds (Advance σ w) (fault c e w a writing) := by
  have hI := hw.inv
  unfold fault
  cases hs : w.containing a with
  | none => exact Stop.noConfusion
  | some s =>
    obtain ⟨hl, hlo, hhi⟩ := (hI.indexed.containing_iff a s).mp hs
    obtain ⟨hpage, -⟩ := page_of_address (hI.buffer s hl).toShaped hlo hhi
    obtain ⟨hcore, -, hle⟩ := planFault_spec hpage writing
    have hown : ¬ (!(c.ownerProcess && c.ownerThread)) = true := by simp [hc.1, hc.2]
    simp only
    rw [if_neg hown]
    generalize (a - (w.buffers s).data) / PAGE = page at hcore hle ⊢
    by_cases hp : (w.buffers s).pages page = .cold ∨
        (writing = true ∧ (w.buffers s).pages page = .clean)
    · rw [if_pos hp]
      generalize planFault (w.buffers s) page writing = plan at hcore hle ⊢
      -- the bookkeeping first
      have hm := Moves.slot (w := w) hcore
      have ha : Advance σ w (w.setBuffer s plan.1) :=
        .unasked hm.steps hw.unbroken (fun _ _ h => h) rfl rfl
      have hself : (w.setBuffer s plan.1).buffers s = plan.1 := Function.update_self _ _ _
      have hlast : plan.2 ≤ ((w.setBuffer s plan.1).buffers s).pageCount := by
        rw [hself, Buffer.pageCount, hcore.mapped]
        exact hle
      obtain ⟨w', hr, ha'⟩ := materialize_available he page writing
        (ha.ready hw) ((hm.live s).mpr hl) hlast ho
      simp only [hr]
      exact ha.trans hw ha'
    · rw [if_neg hp]
      exact Stop.noConfusion

/-- **An access** to a ready world. -/
theorem access_available {c : Caller} {e : MaterializeEnv} (hc : Owner c)
    (he : MaterializeHealthy e) (hw : Ready σ w)
    (ho : ∀ i, Obliging w.arena σ w.peer (e.span i).willing) (a : ℕ) (writing : Bool) :
    Proceeds (Advance σ w) (access c e w a writing) := by
  have hf := fault_available hc he hw ho a writing
  unfold access
  by_cases hp : w.memory.permits a writing = true
  · rw [if_pos hp]
    exact .refl hw.unbroken
  · rw [if_neg hp]
    cases hx : fault c e w a writing with
    | error s =>
      rw [hx] at hf
      exact hf
    | ok w1 =>
      rw [hx] at hf
      simp only
      by_cases hp1 : w1.memory.permits a writing = true
      · rw [if_pos hp1]
        exact hf
      · rw [if_neg hp1]
        exact Stop.noConfusion

theorem prepareLoop_available {c : Caller} {e : ℕ → MaterializeEnv} (hc : Owner c)
    (he : ∀ i, MaterializeHealthy (e i)) (first size : ℕ) (writing : Bool) :
    ∀ (fuel : ℕ) {w : World} (pos : ℕ), Ready σ w →
      (∀ j i, Obliging w.arena σ w.peer ((e j).span i).willing) →
      ∃ w', prepareLoop c e first size writing fuel w pos = .ok w' ∧ Advance σ w w'
  | 0, w, _, hw, _ => ⟨w, rfl, .refl hw.unbroken⟩
  | fuel + 1, w, pos, hw, ho => by
    have hI := hw.inv
    unfold prepareLoop
    by_cases hpos : pos < w.allocationIndex.length
    · rw [if_pos hpos]
      simp only [List.getD_eq_getElem _ _ hpos]
      have hl := hI.indexed.live_get hpos
      generalize w.allocationIndex[pos] = s at hl ⊢
      have hown : ¬ (!(c.ownerProcess && c.ownerThread)) = true := by simp [hc.1, hc.2]
      by_cases hend : first + size ≤ (w.buffers s).data
      · rw [if_pos hend]
        exact ⟨w, rfl, .refl hw.unbroken⟩
      rw [if_neg hend, if_neg hown]
      have hlast := prepareSpan_le (hI.buffer s hl).toShaped (first + size)
      obtain ⟨w1, hr, ha⟩ := materialize_available (he pos)
        ((max first (w.buffers s).data - (w.buffers s).data) / PAGE) writing hw hl hlast (ho pos)
      rw [hr]
      obtain ⟨w2, hr2, ha2⟩ := prepareLoop_available hc he first size writing fuel (pos + 1)
        (ha.ready hw) fun j i => (ho j i).mono ha
      exact ⟨w2, hr2, ha.trans hw ha2⟩
    · rw [if_neg hpos]
      exact ⟨w, rfl, .refl hw.unbroken⟩

theorem prepare_available {c : Caller} {e : ℕ → MaterializeEnv} (hc : Owner c)
    (he : ∀ i, MaterializeHealthy (e i)) (hw : Ready σ w)
    (ho : ∀ j i, Obliging w.arena σ w.peer ((e j).span i).willing) (first size : ℕ)
    (writing : Bool) :
    ∃ x, prepare c e w first size writing = .ok x ∧ Advance σ w x.1 := by
  unfold prepare
  split_ifs
  · exact ⟨_, rfl, .refl hw.unbroken⟩
  · exact ⟨_, rfl, .refl hw.unbroken⟩
  · obtain ⟨w1, hr, ha⟩ := prepareLoop_available hc he first size writing
      (w.allocationIndex.length - preparePos w first) (preparePos w first) hw ho
    simp only
    rw [hr]
    exact ⟨_, rfl, ha⟩

/-- **`af_materialize`** of a ready world. -/
theorem materializeAll_available {c : Caller} {e : MaterializeEnv} (he : MaterializeHealthy e)
    (hw : Ready σ w) (ho : ∀ i, Obliging w.arena σ w.peer (e.span i).willing) (output : ℕ) :
    ∃ x, materializeAll c e w output = .ok x ∧ Advance σ w x.1 := by
  have hfail : ∀ m, Advance σ w (w.fail m) := fun m =>
    .unasked (Moves.fail w m).steps hw.unbroken (fun _ _ h => h) rfl rfl
  unfold materializeAll
  cases usable c with
  | some m => exact ⟨_, rfl, hfail m⟩
  | none =>
    cases hs : w.find output with
    | none => exact ⟨_, rfl, hfail _⟩
    | some s =>
      obtain ⟨hl, -⟩ := (hw.inv.indexed.find_iff output s).mp hs
      obtain ⟨w', hr, ha⟩ :=
        materialize_available he 0 false hw hl le_rfl ho
      simp only
      unfold Buffer.pageCount at hr
      rw [hr]
      exact ⟨_, rfl, ha⟩

/-! ### Eviction, allocation and release -/

/-- **What no request for pages does**: the channel, the window and the requests stay, and the
worker's store does not grow. -/
structure Rests (w w' : World) : Prop where
  unbroken : w'.channelBroken = w.channelBroken
  shrinks : ∀ id o, w'.peer.store id = some o → w.peer.store id = some o
  arena : w'.arena = w.arena
  asked : w'.asked = w.asked

theorem Rests.refl (w : World) : Rests w w := ⟨rfl, fun _ _ h => h, rfl, rfl⟩

theorem Rests.trans (h : Rests w w') (h' : Rests w' w'') : Rests w w'' :=
  ⟨h'.unbroken.trans h.unbroken, fun id o ho => h.shrinks id o (h'.shrinks id o ho),
    h'.arena.trans h.arena, h'.asked.trans h.asked⟩

theorem Rests.fail (w : World) (m : String) : Rests w (w.fail m) := ⟨rfl, fun _ _ h => h, rfl, rfl⟩

theorem evict_rests {c : Caller} {e : EvictEnv} (he : EvictHealthy e) (w : World) (output : ℕ) :
    Proceeds (fun x => Rests w x.1) (Pager.evict c e w output) := by
  unfold Pager.evict
  cases usable c with
  | some m => exact .fail w m
  | none =>
    cases w.find output with
    | none => exact .fail w _
    | some s =>
      simp only [he.hidden, he.discarded, Bool.not_true, Bool.false_eq_true, if_false]
      split_ifs
      · exact Rests.refl w
      · exact Rests.fail w _
      · exact Rests.fail w _
      · exact Rests.mk rfl (fun _ _ h => h) rfl rfl

theorem collectLoop_rests {c : Caller} {e : ℕ → EvictEnv} (he : ∀ i, EvictHealthy (e i))
    (incoming protectedOutput : ℕ) : ∀ (fuel : ℕ) (w : World) (resident : ℕ),
      Proceeds (fun x => Rests w x.1) (collectLoop c e incoming protectedOutput fuel w resident)
  | 0, _, _ => Stop.noConfusion
  | fuel + 1, w, resident => by
    unfold collectLoop
    by_cases hover : w.residentTarget < resident + incoming
    · rw [if_pos hover]
      cases candidate w protectedOutput with
      | none => exact .refl w
      | some s =>
        have hev := evict_rests (c := c) (he (w.buffers s).id) w (w.buffers s).data
        simp only
        cases hx : Pager.evict c (e (w.buffers s).id) w (w.buffers s).data with
        | error stop =>
          rw [hx] at hev
          exact hev
        | ok y =>
          obtain ⟨w1, r⟩ := y
          rw [hx] at hev
          simp only
          by_cases hr : r ≠ 0
          · rw [if_pos hr]
            exact hev
          · rw [if_neg hr]
            have hcount : Rests w { w1 with automaticEvictions := w1.automaticEvictions + 1 } :=
              Rests.trans hev ⟨rfl, fun _ _ h => h, rfl, rfl⟩
            have hrest := collectLoop_rests (c := c) he incoming protectedOutput fuel
              { w1 with automaticEvictions := w1.automaticEvictions + 1 }
              (resident - rounded (w1.buffers s).recipeLength)
            generalize collectLoop c e incoming protectedOutput fuel
              { w1 with automaticEvictions := w1.automaticEvictions + 1 }
              (resident - rounded (w1.buffers s).recipeLength) = x at hrest ⊢
            cases x with
            | error stop => exact hrest
            | ok z => exact hcount.trans hrest
    · rw [if_neg hover]
      exact .refl w

theorem collect_rests {c : Caller} {e : ℕ → EvictEnv} (he : ∀ i, EvictHealthy (e i)) (w : World)
    (incoming protectedOutput : ℕ) :
    Proceeds (fun x => Rests w x.1) (collect c e w incoming protectedOutput) := by
  unfold collect
  split_ifs
  · exact .refl w
  · exact collectLoop_rests he incoming protectedOutput _ w _

theorem manage_rests {c : Caller} {e : ℕ → EvictEnv} (he : ∀ i, EvictHealthy (e i)) (w : World)
    (output : ℕ) : Proceeds (fun x => Rests w x.1) (manage c e w output) := by
  unfold manage
  cases usable c with
  | some m => exact .fail w m
  | none =>
    simp only
    split_ifs
    · have hev := evict_rests (c := c) (he 0) w output
      cases hx : Pager.evict c (e 0) w output with
      | error stop =>
        rw [hx] at hev
        exact hev
      | ok y =>
        obtain ⟨w1, r⟩ := y
        rw [hx] at hev
        simp only
        split_ifs
        · exact Rests.trans hev ⟨rfl, fun _ _ h => h, rfl, rfl⟩
        · exact hev
    · exact collect_rests he w 0 output

theorem setResidentTarget_rests (c : Caller) (w : World) (bytes : ℕ) :
    Rests w (setResidentTarget c w bytes).1 := by
  unfold setResidentTarget
  split
  · exact .fail w _
  · split_ifs
    · exact .fail w _
    · exact ⟨rfl, fun _ _ h => h, rfl, rfl⟩

theorem alloc_rests {c : Caller} {e : AllocEnv} (he : ∀ i, EvictHealthy (e.evict i)) (w : World)
    (size : ℕ) : Proceeds (fun x => Rests w x.1) (alloc c e w size) := by
  unfold alloc
  cases usable c with
  | some m => exact .fail w m
  | none =>
    simp only
    by_cases hsize : size = 0 ∨ MAX_BUFFER < size
    · rw [if_pos hsize]
      exact .fail w _
    rw [if_neg hsize]
    cases (List.range MAX_SLOTS).find? fun i => decide ((w.buffers i).data = 0) with
    | none => exact .fail w _
    | some slot =>
      have hcollect := collect_rests (c := c) he w (rounded size) 0
      simp only
      cases hx : collect c e.evict w (rounded size) 0 with
      | error stop =>
        rw [hx] at hcollect
        exact hcollect
      | ok y =>
        obtain ⟨w1, r⟩ := y
        rw [hx] at hcollect
        simp only
        by_cases hr : r ≠ 0
        · rw [if_pos hr]
          exact hcollect
        rw [if_neg hr]
        cases e.place with
        | none => exact Rests.trans hcollect (.fail w1 _)
        | some p =>
          simp only
          split_ifs
          · exact Rests.trans hcollect (.fail w1 _)
          · exact Rests.trans hcollect ⟨rfl, fun _ _ h => h, rfl, rfl⟩
          · exact Rests.trans hcollect ⟨rfl, fun _ _ h => h, rfl, rfl⟩

theorem free_rests {c : Caller} {e : FreeEnv} (hd : e.drop = ⟨true, true⟩) {w : World}
    (hu : w.channelBroken = false) (output : ℕ) :
    Proceeds (fun x => Rests w x.1) (Api.free c e w output) := by
  unfold Api.free
  cases usable c with
  | some m => exact .fail w m
  | none =>
    cases w.find output with
    | none => exact .fail w _
    | some s =>
      have hreq : Rests w (if (w.buffers s).recipeLive = true then
          (request e.drop w (handleDrop (w.buffers s).id)).1 else w) := by
        split_ifs
        · rw [hd]
          unfold request
          rw [if_neg (by rw [hu]; exact Bool.false_ne_true)]
          exact ⟨rfl, fun _ _ ho => @drop_shrinks w.peer (w.buffers s).id _ _ ho, rfl, rfl⟩
        · exact .refl w
      simp only
      generalize (if (w.buffers s).recipeLive = true then
        (request e.drop w (handleDrop (w.buffers s).id)).1 else w) = w1 at hreq ⊢
      by_cases hun : (!e.unmapped) = true
      · rw [if_pos hun]
        exact hreq.trans (.fail w1 _)
      rw [if_neg hun]
      split
      · exact Stop.noConfusion
      · next w2 h2 =>
        obtain ⟨l, rfl⟩ := indexRemove_eq h2
        exact hreq.trans ⟨rfl, fun _ _ h => h, rfl, rfl⟩

/-! ### Registration -/

section

variable {link : ℕ → Link} (hlink : ∀ i, link i = ⟨true, true⟩) {capacity length original : ℕ}
  {m : Memory}
include hlink

/-- **Windows of a pass**, as far as it comes, do not break the exchange. -/
theorem streamLoop_take (hc : 0 < capacity) (out : ℕ → UInt8) (rest : List Reply) :
    ∀ (fuel offset published i : ℕ) (equal : Bool), ∃ j p,
      streamLoop link capacity length original m
        (((windows capacity length out fuel offset).take published).map windowReply ++ rest) i
          ⟨min offset length, equal⟩ = streamLoop link capacity length original m rest j p
  | 0, _, _, i, _ => by
    rw [windows, List.take_nil]
    exact ⟨i, _, rfl⟩
  | _ + 1, _, 0, i, _ => ⟨i, _, rfl⟩
  | fuel + 1, offset, published + 1, i, equal => by
    rw [windows]
    by_cases hlt : offset < length
    · rw [if_pos hlt, List.take_succ_cons, List.map_cons, List.cons_append, streamLoop_cons]
      have hs : onResponse capacity length (fun o n => m.same (original + o) n
          (windowReply ⟨min capacity (length - offset), fun i => out (offset + i)⟩).window)
          ⟨min offset length, equal⟩
          (windowReply ⟨min capacity (length - offset), fun i => out (offset + i)⟩).response =
        .acknowledge ⟨min (offset + capacity) length, equal && m.same
          (original + min offset length) (min capacity (length - offset))
            fun i => out (offset + i)⟩ := by
        unfold onResponse windowReply
        rw [if_neg (by simp), if_neg (by simp), if_neg (by simp; omega), if_neg (by simp; omega)]
        congr 2
        simp only
        omega
      rw [hs]
      simp only [hlink, Bool.not_true, Bool.false_eq_true, if_false]
      exact streamLoop_take hc out rest fuel (offset + capacity) published (i + 1) _
    · rw [if_neg hlt, List.take_nil]
      exact ⟨i, _, rfl⟩

theorem streamLoop_last (message : String) (i : ℕ) (p : Progress) (x : String) :
    streamLoop link capacity length original m [finalReply message] i p ≠ .broken x ∧
      streamLoop link capacity length original m [refusal message] i p ≠ .broken x := by
  rw [streamLoop_cons, streamLoop_cons, hlink]
  simp [onResponse, finalReply, refusal]

theorem streamLoop_verdict (hc : 0 < capacity) (v : Verdict) (i : ℕ) (x : String) :
    streamLoop link capacity length original m (passReplies capacity length v) i ⟨0, true⟩ ≠
      .broken x := by
  have hpass : ∀ out rest, ∃ j p, streamLoop link capacity length original m
      ((windows capacity length out length 0).map windowReply ++ rest) i ⟨0, true⟩ =
        streamLoop link capacity length original m rest j p := by
    intro out rest
    have h := @streamLoop_take link hlink capacity length original m hc out rest
      length 0 (windows capacity length out length 0).length i true
    rw [List.take_length, Nat.zero_min] at h
    exact h
  cases v with
  | refused message => exact (streamLoop_last hlink message i _ x).2
  | overBudget out message =>
    obtain ⟨j, p, hj⟩ := hpass out [refusal message]
    change streamLoop _ _ _ _ _ (_ ++ [refusal message]) _ _ ≠ _
    rw [hj]
    exact (streamLoop_last hlink message j p x).2
  | committed out g message =>
    obtain ⟨j, p, hj⟩ := hpass out [finalReply message]
    change streamLoop _ _ _ _ _ (_ ++ [finalReply message]) _ _ ≠ _
    rw [hj]
    exact (streamLoop_last hlink message j p x).1

/-- **A stream of the worker's** does not break the exchange. -/
theorem streamLoop_unbroken (hc : 0 < capacity) (s : Script) (x : String) :
    streamLoop link capacity length original m (s.replies capacity length) 0 ⟨0, true⟩ ≠
      .broken x := by
  have hgiven : ∀ (a : Abandoned) rest, ∃ j p, streamLoop link capacity length original m
      ((a.windows capacity length).map windowReply ++ rest) 0 ⟨0, true⟩ =
        streamLoop link capacity length original m rest j p := by
    intro a rest
    have h := @streamLoop_take link hlink capacity length original m hc a.output rest
      length 0 a.published 0 true
    rw [Nat.zero_min] at h
    exact h
  have hrestart : ∀ (a : Abandoned) (v : Verdict), streamLoop link capacity length original m
      ((a.windows capacity length).map windowReply ++
        restartReply :: passReplies capacity length v) 0 ⟨0, true⟩ ≠ .broken x := by
    intro a v
    obtain ⟨j, p, hj⟩ := hgiven a (restartReply :: passReplies capacity length v)
    rw [hj, streamLoop_cons, hlink]
    exact streamLoop_verdict hlink hc v (j + 1) x
  obtain ⟨speculative, verdict⟩ := s
  cases speculative with
  | none => exact streamLoop_verdict hlink hc verdict 0 x
  | some a =>
    cases verdict with
    | refused message =>
      obtain ⟨j, p, hj⟩ := hgiven a [refusal message]
      change streamLoop _ _ _ _ _ (_ ++ [refusal message]) _ _ ≠ _
      rw [hj]
      exact (streamLoop_last hlink message j p x).2
    | overBudget out message => exact hrestart a _
    | committed out g message => exact hrestart a _

end

theorem chunkLoop_unbroken {received : ℕ → Bool} (hr : ∀ i, received i = true)
    (size original : ℕ) (m : Memory) (payload : ℕ → UInt8) (x : String) :
    ∀ (fuel off : ℕ) (equal : Bool),
      chunkLoop received size original m payload fuel off equal ≠ .broken x
  | 0, _, _ => Comparison.noConfusion
  | fuel + 1, off, equal => by
    unfold chunkLoop
    by_cases hlt : off < size
    · rw [if_pos hlt]
      simp only [hr, Bool.not_true, Bool.false_eq_true, if_false]
      exact chunkLoop_unbroken hr size original m payload x fuel _ _
    · rw [if_neg hlt]
      exact Comparison.noConfusion

/-- **The exchange of a healthy registration** does not break off. -/
theorem compare_unbroken {e : SubmitEnv} (he : SubmitHealthy e) (hr : Recorded e.script)
    (hu : w.channelBroken = false) (h : Header) (x : String) :
    Submit.compare e w h ≠ .broken x := by
  have hrecord : Submit.compare.badRegistration e = false := by
    have hg : e.script.registration.backend ≤ 1 ∧ (e.script.registration.pageBytes = 0 ∨
        e.script.registration.pageBytes = PAGE ∧ e.script.registration.backend ≠ 0) := by
      unfold Script.registration
      split
      · next out g m hv => exact hr out g m hv
      · exact ⟨Nat.zero_le _, .inl rfl⟩
    unfold Submit.compare.badRegistration
    simp only [he.registrationReceived]
    obtain ⟨h1, h2 | ⟨h2, h3⟩⟩ := hg
    · simp [h2, h1]
    · simp [h2, h3, h1]
  unfold Submit.compare
  rw [if_neg (by simp [hu, he.requestSent, he.blobSent])]
  split
  · next a _ _ =>
    have hs := @streamLoop_unbroken e.link he.link a.capacity h.length h.output w.memory
      a.pos e.script
    split
    · rw [hrecord]
      exact Comparison.noConfusion
    · exact hs x
  · simp only [he.link, hrecord, Bool.not_true, Bool.false_eq_true, if_false]
    split_ifs with h1 h2
    · exact Comparison.noConfusion
    · refine absurd ?_ h2
      unfold Script.answer at h1 ⊢
      cases hv : e.script.verdict with
      | refused m => simp [hv, refusal] at h1
      | overBudget out m => simp [hv, refusal] at h1
      | committed out g m => simp
    · exact chunkLoop_unbroken he.chunkReceived _ _ _ _ x _ _ _

/-- **A complete registration**: what the worker has committed for the buffer, and what the
application knows of it. -/
def Registers (script : Script) (image : List UInt8) (s : ℕ) (w w' : World) : Prop :=
  ∃ out g m, script.verdict = .committed out g m ∧
    w'.peer = w.peer.commit (w.buffers s).id ⟨(Header.ofBytes image).length, out⟩ ∧
    (w'.buffers s).recipeLength = (Header.ofBytes image).length ∧
    (w'.buffers s).stats.pageBytes = g.pageBytes

/-- What a registration leaves: the channel, the window and the requests stay, and the worker's
store does not grow, but for the registration that it completes. -/
structure Settled (script : Script) (image : List UInt8) (s : ℕ) (w w' : World) : Prop where
  unbroken : w'.channelBroken = false
  arena : w'.arena = w.arena
  asked : w'.asked = w.asked
  stored : (∀ id o, w'.peer.store id = some o → w.peer.store id = some o) ∨
    Registers script image s w w'

theorem withdraw_settled {e : SubmitEnv} (he : e.drop = ⟨true, true⟩) {image : List UInt8} {s : ℕ}
    {p : Peer} {st : Stats} (hu : w.channelBroken = false)
    (hp : p.drop (w.buffers s).id = w.peer.drop (w.buffers s).id) (m : String) :
    Settled e.script image s w (withdraw e ({ w with peer := p }.setBuffer s
      { w.buffers s with stats := st }) (w.buffers s).id m) := by
  unfold withdraw request
  rw [if_neg (by simp [World.setBuffer, hu]), he]
  refine ⟨hu, rfl, rfl, .inl fun id o ho => ?_⟩
  change (p.drop (w.buffers s).id).store id = some o at ho
  rw [hp] at ho
  exact drop_shrinks ho

theorem settle_settled {e : SubmitEnv} (he : SubmitHealthy e) (hu : w.channelBroken = false)
    {s : ℕ} {image : List UInt8} {out : ℕ → UInt8} {g : Registration} {m : String}
    (hv : e.script.verdict = .committed out g m) {o : Output}
    (ho : o = ⟨(Header.ofBytes image).length, out⟩) (equal : Bool) :
    Settled e.script image s w (settle e { w with peer := w.peer.commit (w.buffers s).id o } s
      (Header.ofBytes image) equal).1 := by
  have hg : e.script.registration = g := by
    unfold Script.registration
    rw [hv]
  unfold settle
  rcases conclude_cases e.script.registration e.elapsed e.isProtected
    { w with peer := w.peer.commit (w.buffers s).id o } s (Header.ofBytes image) equal with
    ⟨st, msg, -, hx⟩ | ⟨-, hx⟩
  · rw [hx]
    simp only
    have hself : (World.setBuffer { w with peer := w.peer.commit (w.buffers s).id o } s
        { w.buffers s with stats := st }).buffers s = { w.buffers s with stats := st } :=
      Function.update_self _ _ _
    rw [hself]
    exact withdraw_settled he.drop hu (commit_drop _ _ _) msg
  · rw [hx]
    have hself : Function.update w.buffers s (sealedBuffer (w.buffers s) (Header.ofBytes image)
        e.script.registration e.elapsed) s = sealedBuffer (w.buffers s) (Header.ofBytes image)
          e.script.registration e.elapsed := Function.update_self _ _ _
    refine ⟨hu, rfl, rfl, .inr ⟨out, g, m, hv, by rw [← ho]; rfl, ?_, ?_⟩⟩
    · exact congrArg Buffer.recipeLength hself
    · rw [← hg]
      exact congrArg (fun b => b.stats.pageBytes) hself

theorem exchange_settled {e : SubmitEnv} (he : SubmitHealthy e) (hr : Recorded e.script)
    (hu : w.channelBroken = false) (s : ℕ) (image : List UInt8) :
    Settled e.script image s w (exchange e w s (Header.ofBytes image)).1 := by
  unfold exchange
  simp only
  cases hc : Submit.compare e w (Header.ofBytes image) with
  | broken m => exact absurd hc (compare_unbroken he hr hu _ m)
  | rejected m => exact ⟨hu, rfl, rfl, .inl fun _ _ h => h⟩
  | compared equal =>
    obtain ⟨-, out, g, m, hv, -⟩ := compare_compared hc
    have hplayed : peerAfter e w w.peer (w.buffers s).id (Header.ofBytes image).length
        (.compared equal) = w.peer.commit (w.buffers s).id
          ⟨(Header.ofBytes image).length, out⟩ := by
      unfold peerAfter Script.played
      rw [hv]
    simp only
    rw [hplayed]
    exact settle_settled he hu hv rfl equal

/-- A call that registers an image for the buffer at `output`. -/
inductive Submits : Op → SubmitEnv → ℕ → List UInt8 → Prop
  | whole {c : Caller} {e : SubmitEnv} {output captureNs : ℕ} {image : List UInt8} :
      Submits (.submit c e output (some image) captureNs) e output image
  | region {c : Caller} {e : SubmitEnv} {output captureNs : ℕ} {image : List UInt8} :
      Submits (.submitRegion c e output (some image) captureNs) e output image

/-- **What a healthy step leaves**: an unbroken channel, requests for pages that can be answered,
and a store of the worker's that grows by complete registrations only. -/
structure Available (sliceable : ℕ → Bool) (w : World) (op : Op) (w' : World) : Prop where
  unbroken : w'.channelBroken = false
  arena : w'.arena = w.arena
  asked : ∃ l, w'.asked = w.asked ++ l ∧ ∀ y ∈ l, Asks sliceable w y
  stored : (∀ id o, w'.peer.store id = some o → w.peer.store id = some o) ∨
    ∃ e output image s, Submits op e output image ∧ w.find output = some s ∧
      (w.buffers s).state = .resident ∧ Registers e.script image s w w'

theorem Advance.available {op : Op} (h : Advance σ w w') : Available σ w op w' :=
  ⟨h.unbroken, h.arena, h.asked, .inl h.shrinks⟩

theorem Rests.available {op : Op} (h : Rests w w') (hu : w.channelBroken = false) :
    Available σ w op w' :=
  ⟨h.unbroken.trans hu, h.arena, ⟨[], by rw [h.asked, List.append_nil], nofun⟩, .inl h.shrinks⟩

theorem submit_available {c : Caller} {e : SubmitEnv} (he : SubmitHealthy e)
    (hu : w.channelBroken = false) {op : Op} {output : ℕ} {data : Option (List UInt8)}
    {captureNs : ℕ} {region : Bool}
    (hop : ∀ image, data = some image → Submits op e output image)
    (hr : ∀ image s, data = some image → w.find output = some s → Recorded e.script) :
    Available σ w op (Submit.submit c e w output data captureNs region).1 := by
  unfold Submit.submit
  cases hs : screen c w output data captureNs region with
  | error m => exact (Rests.fail w m).available hu
  | ok y =>
    obtain ⟨w1, slot, image⟩ := y
    have hx := screen_ok hs
    obtain ⟨st, -, hw1⟩ := hx.opened
    have hu1 : w1.channelBroken = false := by
      rw [hw1]
      exact hu
    have hid : (w1.buffers slot).id = (w.buffers slot).id := (hx.same slot).id
    have hset := exchange_settled he (hr image slot hx.image_eq hx.found) hu1 slot image
    simp only
    refine ⟨hset.unbroken, hset.arena.trans (by rw [hw1]; rfl), ⟨[], ?_, nofun⟩, ?_⟩
    · rw [hset.asked, hw1, List.append_nil]
      rfl
    · rcases hset.stored with h | ⟨out, g, m, hv, hpeer, hlen, hpages⟩
      · exact .inl fun id o ho => by
          have := h id o ho
          rw [hw1] at this
          exact this
      · refine .inr ⟨e, output, image, slot, hop image hx.image_eq, hx.found, hx.resident, out, g,
          m, hv, ?_, hlen, hpages⟩
        rw [hpeer, hid, hx.rest.2.1]

/-- **A healthy step of a ready world** does not end in `pager_failure`. -/
theorem step_available {op : Op} (hop : OpHealthy op) (hw : Ready σ w)
    (ho : Decides (Obliging w.arena σ w.peer) op)
    (hr : ∀ e output image s, Submits op e output image → w.find output = some s →
      Recorded e.script) :
    Proceeds (fun x => Available σ w op x.1) (Api.step w op) := by
  have hu := hw.unbroken
  have hrests : ∀ x : World × Int, Rests w x.1 → Available σ w op x.1 := fun _ h => h.available hu
  cases op with
  | alloc c e size => exact (alloc_rests hop w size).map fun _ h => h.available hu
  | read c e a =>
    refine Proceeds.map (P := fun x => Advance σ w x.1) ?_ fun _ h => h.available
    have ha := access_available hop.1 hop.2 hw ho a false
    unfold readByte
    cases hx : access c e w a false with
    | error s =>
      rw [hx] at ha
      exact ha
    | ok w1 =>
      rw [hx] at ha
      exact ha
  | write c e a v =>
    refine Proceeds.map (P := fun x => Available σ w (.write c e a v) x) ?_ fun _ h => h
    have ha := access_available hop.1 hop.2 hw ho a true
    unfold writeByte
    cases hx : access c e w a true with
    | error s =>
      rw [hx] at ha
      exact ha
    | ok w1 =>
      rw [hx] at ha
      exact ⟨ha.unbroken, ha.arena, ha.asked, .inl ha.shrinks⟩
  | prepareRead c e a n =>
    obtain ⟨x, hx, ha⟩ := prepare_available hop.1 hop.2 hw ho a n false
    rw [Api.step, hx]
    exact ha.available
  | prepareWrite c e a n =>
    obtain ⟨x, hx, ha⟩ := prepare_available hop.1 hop.2 hw ho a n true
    rw [Api.step, hx]
    exact ha.available
  | submit c e output data t =>
    have hsub : ∀ image, data = some image →
        Submits (.submit c e output data t) e output image := by
      rintro image rfl
      exact .whole
    exact submit_available hop hu hsub fun image s h => hr e output image s (hsub image h)
  | submitRegion c e output data t =>
    have hsub : ∀ image, data = some image →
        Submits (.submitRegion c e output data t) e output image := by
      rintro image rfl
      exact .region
    exact submit_available hop hu hsub fun image s h => hr e output image s (hsub image h)
  | evict c e output => exact (evict_rests hop w output).map hrests
  | manage c e output => exact (manage_rests hop w output).map hrests
  | setResidentTarget c bytes => exact (setResidentTarget_rests c w bytes).available hu
  | materialize c e output =>
    obtain ⟨x, hx, ha⟩ := materializeAll_available hop hw ho output
    rw [Api.step, hx]
    exact ha.available
  | free c e output => exact (free_rests hop.1 hu output).map hrests

/-- A step that asks for no pages: an access to no buffer, or a call that restores nothing. -/
def Silent (w : World) : Op → Prop
  | .read _ _ a | .write _ _ a _ => w.containing a = none
  | .prepareRead _ _ _ _ | .prepareWrite _ _ _ _ | .materialize _ _ _ => False
  | _ => True

theorem access_silent {c : Caller} {e : MaterializeEnv} (hc : Owner c) (he : MaterializeHealthy e)
    (hw : Ready σ w) (ho : ∀ i, Obliging w.arena σ w.peer (e.span i).willing) {a : ℕ}
    {writing : Bool} {stop : Stop} (h : access c e w a writing = .error stop) :
    w.containing a = none := by
  have ha := access_available hc he hw ho a writing
  cases hs : w.containing a with
  | none => rfl
  | some s =>
    obtain ⟨hl, hlo, hhi⟩ := (hw.inv.indexed.containing_iff a s).mp hs
    have hstop := access_stop hw.inv hl hlo hhi h
    rw [h] at ha
    exact absurd hstop ha

/-- **A healthy step that ends the process** has asked for no pages. -/
theorem step_silent {op : Op} (hop : OpHealthy op) (hw : Ready σ w)
    (ho : Decides (Obliging w.arena σ w.peer) op) {stop : Stop}
    (h : Api.step w op = .error stop) : Silent w op := by
  cases op with
  | read c e a =>
    cases hx : access c e w a false with
    | error s => exact access_silent hop.1 hop.2 hw ho hx
    | ok w1 =>
      rw [Api.step, readByte, hx] at h
      cases h
  | write c e a v =>
    cases hx : access c e w a true with
    | error s => exact access_silent hop.1 hop.2 hw ho hx
    | ok w1 =>
      rw [Api.step, writeByte, hx] at h
      cases h
  | prepareRead c e a n =>
    obtain ⟨x, hx, -⟩ := prepare_available hop.1 hop.2 hw ho a n false
    rw [Api.step, hx] at h
    cases h
  | prepareWrite c e a n =>
    obtain ⟨x, hx, -⟩ := prepare_available hop.1 hop.2 hw ho a n true
    rw [Api.step, hx] at h
    cases h
  | materialize c e output =>
    obtain ⟨x, hx, -⟩ := materializeAll_available hop hw ho output
    rw [Api.step, hx] at h
    cases h
  | _ => exact trivial

/-! ### Runs -/

/-- **A step keeps what is registered**, until the buffer is released or taken for another. -/
theorem Effect.keeps {op : Op} {r : Ret} (e : Effect w op r w') (hf : ¬ Forsakes w op) {s : ℕ}
    (hl : w'.Live s) (hk : (w'.buffers s).recipeLive = true) :
    w.Live s ∧ Keeps (w.buffers s) (w'.buffers s) := by
  cases e with
  | moves hm _ => exact Steps.keeps hm.steps hl
  | stored hm _ => exact Steps.keeps hm.steps hl
  | @placed w1 c e size slot p hm h1 h2 h3 h4 h5 =>
    rcases place_live hl with rfl | hl1
    · rw [place_self] at hk
      cases hk
    · rw [place_other (ne_of_free hl1 h2)] at hk ⊢
      exact Steps.keeps hm.steps hl1
  | released hm hl1 hr hp =>
    exact Steps.keeps (hm.steps.tail (.release _ _ _ hl1 hr hp)) hl
  | forsaken hbad _ _ => exact absurd hbad hf

theorem OpHealthy.keeps_recipes {op : Op} (h : OpHealthy op) (w : World) : ¬ Forsakes w op := by
  cases op with
  | free c e output =>
    intro hf
    have h1 := hf.2.2.2.1
    rw [h.2] at h1
    cases h1
  | _ => exact fun hf => hf

/-- **A healthy step leads from a ready world to a ready one**, when what is known of the outputs
goes along with the registrations. -/
theorem Available.ready {σ' : ℕ → Bool} {op : Op} {r : Ret} (h : Available σ w op w')
    (hop : OpHealthy op) (hw : Ready σ w) (hs : Api.step w op = .ok (w', r))
    (hkept : ∀ id, w'.peer.store id ≠ none → w.peer.store id ≠ none → σ' id = σ id)
    (hnew : ∀ e output image s out g m, Submits op e output image → w.find output = some s →
      w.peer.store (w.buffers s).id = none → w'.peer.store (w.buffers s).id ≠ none →
      e.script.verdict = .committed out g m →
      σ' (w.buffers s).id = decide (g.pageBytes ≠ 0)) : Ready σ' w' := by
  have heff := step_effect hw.inv hs
  have hf := hop.keeps_recipes w
  refine ⟨Effect.inv heff hw.inv, Effect.stocked heff hw.inv hf hw.stocked,
    Effect.unclaimed heff hw.inv hw.unclaimed, h.unbroken, fun s hl hk o ho => ?_⟩
  obtain ⟨hl0, hkeep⟩ := Effect.keeps heff hf hl hk
  -- an output that was there before
  have hold : ∀ o', w.peer.store (w'.buffers s).id = some o' → o' = o →
      Suits σ' (w'.buffers s) o := by
    rintro o' ho' rfl
    exact hw.suits_kept hl0 hkeep hk ho' (hkept _ (by rw [ho]; exact Option.some_ne_none _)
      (by rw [ho']; exact Option.some_ne_none _))
  rcases h.stored with hst | ⟨e, output, image, t, hsub, hfind, hres, out, g, m, hv, hpeer, hlen,
    hpages⟩
  · exact hold o (hst _ o ho) rfl
  · obtain ⟨hlt, -⟩ := (hw.inv.indexed.find_iff output t).mp hfind
    by_cases hst : s = t
    · -- the buffer that has been registered
      subst hst
      have hnone := hw.unclaimed.resident hw.unbroken s hlt hres
      rw [hkeep.id] at ho
      have hσ := hnew e output image s out g m hsub hfind hnone
        (by rw [ho]; exact Option.some_ne_none _) hv
      rw [hpeer, commit_store, if_pos rfl] at ho
      obtain rfl := Option.some.inj ho
      exact ⟨hlen.symm, by rw [hkeep.id, hσ, hpages]⟩
    · have hne : (w'.buffers s).id ≠ (w.buffers t).id := by
        rw [hkeep.id]
        exact fun hc => hst (hw.inv.ids s t hl0 hlt hc)
      rw [hpeer, commit_store, if_neg hne] at ho
      exact hold o ho rfl

end

end Afterfree.Runtime.Availability
