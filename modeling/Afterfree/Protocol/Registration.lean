import Afterfree.Protocol.Soundness

/-!
# Registration agreement

`registration_agreement`: what `submit` returns and what the worker holds agree, in every state the
two processes reach. It speaks of the codes `submit` returns; `undisturbed` and `undisturbed_stream`
show that `0` is one of them: if the channel is at rest, the image decodes and the worker's output
is the region, then the processes reach a return with `0`, without streaming and with it, for a
region of any length.
-/

namespace Afterfree.Protocol.Registration

open Afterfree.Common Afterfree.Codec Afterfree.Runtime.State Afterfree.Runtime.Pager
open Afterfree.Runtime.Submit Afterfree.Runtime.Compared Afterfree.Runtime.Api
open Afterfree.Runtime.Operations Afterfree.Protocol.System Afterfree.Protocol.Dialogue
open Afterfree.Protocol.Agreement Afterfree.Protocol.Soundness

theorem Reaches.app {s s' s'' : Sys} (h : AppStep s s') (h' : Reaches s' s'') : Reaches s s'' :=
  Relation.ReflTransGen.head (.app h) h'

theorem Reaches.worker {s s' s'' : Sys} (h : WorkerStep s s') (h' : Reaches s' s'') :
    Reaches s s'' :=
  Relation.ReflTransGen.head (.worker h) h'

theorem Reaches.others {w w' : World} {events : List Event} (h : Runs w events w') {s : Sys}
    (hp : ∀ e ∈ events, Plain e.1) (hw : s.world = w) (ha : s.app = .idle) :
    Reaches s { s with world := w' } := by
  induction h generalizing s with
  | nil w =>
    subst hw
    exact Relation.ReflTransGen.refl
  | @cons w w1 w2 op r events hs _ ih =>
    subst hw
    refine Reaches.app (.other ha (hp _ List.mem_cons_self) hs) ?_
    exact ih (s := { s with world := w1 }) (fun e he => hp e (List.mem_cons_of_mem _ he)) rfl ha

theorem Reaches.sends {id sent : ℕ} : ∀ {ms sum : List Message} {s : Sys},
    s.worker = .acting id sent (ms.map .send) → sum = s.toApp ++ ms →
    Reaches s { s with worker := .acting id sent [], toApp := sum }
  | [], sum, s, hw, hsum => by
    rw [hsum, List.append_nil, ← show s.worker = .acting id sent [] from hw]
    exact Relation.ReflTransGen.refl
  | m :: ms, sum, s, hw, hsum => by
    refine Reaches.worker (.send hw) ?_
    refine (@Reaches.sends _ _ ms _
        ({ s with worker := .acting id sent (ms.map .send), toApp := s.toApp ++ [m] })) rfl ?_
    rw [hsum, List.append_assoc]
    rfl

theorem Reaches.reads {g : Registration} {out : ℕ → UInt8} : ∀ {fuel : ℕ} {s : Sys} {x : Session}
    {offset : ℕ}, s.app = .submitting x (.payload g ⟨offset, true⟩) →
    offset ≤ x.header.length → x.header.length ≤ offset + fuel →
    (∀ i < x.header.length, out i = s.world.memory.bytes (x.header.output + i)) →
    s.toApp = (windows CHUNK x.header.length out fuel offset).map .payload →
    ∃ log, Reaches s { s with
      toApp := [], app := .submitting { x with log := log } (.payload g ⟨x.header.length, true⟩) }
  | 0, s, x, offset, ha, h1, h2, _, hm => by
    obtain rfl : offset = x.header.length := by omega
    refine ⟨x.log, ?_⟩
    rw [← ha, ← show s.toApp = [] from hm]
    exact Relation.ReflTransGen.refl
  | fuel + 1, s, x, offset, ha, h1, h2, heq, hm => by
    by_cases hlt : offset < x.header.length
    · rw [windows_succ hlt, List.map_cons] at hm
      -- the piece is the region from `offset` on
      have hpos : 0 < CHUNK := by decide
      generalize hk : min CHUNK (x.header.length - offset) = k at hm
      have hsame : s.world.memory.same (x.header.output + offset) k (fun i => out (offset + i)) =
          true := by
        refine (same_iff _ _ _ _).mpr fun i hi => ?_
        rw [heq _ (by omega), Nat.add_assoc]
      have hstep := AppStep.chunk ha hlt hm hk.symm
      simp only [hsame, Bool.and_self] at hstep
      by_cases hcap : CHUNK ≤ x.header.length - offset
      · obtain rfl : CHUNK = k := by omega
        let log := x.log ++
          comparisons s.world.memory x.header.output offset CHUNK fun i => out (offset + i)
        let x' : Session := { x with log := log }
        obtain ⟨log, hr⟩ := (@Reaches.reads g out fuel ({ s with
            toApp := (windows CHUNK x.header.length out fuel (offset + CHUNK)).map .payload
            app := .submitting x' (.payload g ⟨offset + CHUNK, true⟩) }) x' (offset + CHUNK)) rfl
              (by show _ ≤ x.header.length; omega)
          (by show x.header.length ≤ _; omega) heq rfl
        exact ⟨log, Reaches.app hstep hr⟩
      · have hend : offset + k = x.header.length := by omega
        rw [(@windows_end _ _ _ _ (offset + CHUNK)) (by omega), List.map_nil] at hstep
        rw [hend] at hstep
        exact ⟨_, Reaches.app hstep Relation.ReflTransGen.refl⟩
    · obtain rfl : offset = x.header.length := by omega
      rw [windows_end le_rfl, List.map_nil] at hm
      refine ⟨x.log, ?_⟩
      rw [← ha, ← hm]
      exact Relation.ReflTransGen.refl

theorem decoded_length {image : List UInt8} {recipe : Recipe} (h : decode image = .ok recipe) :
    recipe.h.length = (Header.ofBytes image).length := by
  rw [(decode_header h).2.1, Header.ofBytes_take]

section Undisturbed

variable {s : Sys} {x : Session} {g : Registration} {out : ℕ → UInt8}

theorem Reaches.requested (script : Script) (happ : s.app = .submitting x .request)
    (hl : AtLoop s.toWire) (hq : s.toWorker = [])
    (hsize : HEADER_SIZE ≤ x.image.length ∧ x.image.length ≤ MAX_BLOB) :
    Reaches s { s with
      toWorker := []
      app := .submitting x (.receive true ⟨0, true⟩)
      worker := .acting x.id 0 (answerTo s.world.arena false x.streaming script x.image) } := by
  obtain ⟨id, sent, hw⟩ := hl
  let q : Request := ⟨if x.streaming then .registerStream else .register, x.id, x.image.length⟩
  have hreq := AppStep.request happ
  rw [hq, List.nil_append] at hreq
  refine Reaches.app hreq (Reaches.app (.image rfl) ?_)
  have hcmd : q.command = .register ∨ q.command = .registerStream := by
    cases h : x.streaming <;> simp [q, h]
  refine Reaches.worker (@WorkerStep.register _ _ _ q [.image x.image] hw rfl hcmd hsize) ?_
  have hdec := WorkerStep.decoded (s := { s with
      toWorker := [.image x.image], worker := .reading q
      app := .submitting x (.receive true ⟨0, true⟩) }) false script rfl rfl
  have hstr : decide (q.command = .registerStream) = x.streaming := by
    cases h : x.streaming <;> simp [q, h]
  rw [hstr] at hdec
  exact Reaches.worker hdec Relation.ReflTransGen.refl

/-- What the worker sends for a registration without streaming. -/
def wholeMessages (n : ℕ) (g : Registration) (out : ℕ → UInt8) : List Message :=
  .response ⟨0, n, ""⟩ :: .registration g :: (windows CHUNK n out n 0).map .payload

theorem Reaches.served {recipe : Recipe} (happ : s.app = .submitting x .request)
    (hl : AtLoop s.toWire) (hq : s.toWorker = []) (hta : s.toApp = []) (hstr : x.streaming = false)
    (hsize : HEADER_SIZE ≤ x.image.length ∧ x.image.length ≤ MAX_BLOB)
    (hd : decode x.image = .ok recipe) :
    Reaches s { s with
      toWorker := []
      world := { s.world with peer := s.world.peer.commit x.id ⟨x.header.length, out⟩ }
      app := .submitting x (.receive true ⟨0, true⟩)
      worker := .acting x.id 0 []
      toApp := wholeMessages x.header.length g out
      commits := ⟨x.id, recipe, ⟨x.header.length, out⟩⟩ :: s.commits } := by
  have hans : answerTo s.world.arena false x.streaming ⟨none, .committed out g ""⟩ x.image =
      .commit recipe ⟨x.header.length, out⟩ :: (wholeMessages x.header.length g out).map .send := by
    unfold answerTo
    rw [if_neg Bool.false_ne_true, hd, hstr]
    unfold wholeActions wholeMessages
    rw [List.map_cons, List.map_cons, List.map_map]
    simp only [decoded_length hd]
    rfl
  have hreq := Reaches.requested ⟨none, .committed out g ""⟩ happ hl hq hsize
  rw [hans] at hreq
  refine hreq.trans (Reaches.worker (.commit rfl) ?_)
  refine (@Reaches.sends _ _ (wholeMessages x.header.length g out)) rfl ?_
  show _ = s.toApp ++ _
  rw [hta, List.nil_append]

theorem Reaches.accepted (happ : s.app = .submitting x (.receive true ⟨0, true⟩))
    (hta : s.toApp = wholeMessages x.header.length g out) (hstr : x.streaming = false)
    (heq : ∀ i < x.header.length, out i = s.world.memory.bytes (x.header.output + i))
    (hg : badRecord g = false)
    (hret : g.retainedBytes + (s.world.buffers x.slot).mapped / PAGE < rounded x.header.length) :
    ∃ s' call log, Reaches s s' ∧ s'.app = .returned call log 0 := by
  let s1 : Sys := { s with
    toApp := .registration g :: (windows CHUNK x.header.length out x.header.length 0).map .payload
    app := .submitting x (.handle ⟨0, true⟩ ⟨0, x.header.length, ""⟩) }
  have h1 : AppStep s s1 := .receive happ hta
  have h2 : AppStep s1 { s1 with app := .submitting x (.registration true) } := by
    have hh := AppStep.handle (s := s1) (x := x) (p := ⟨0, true⟩)
      (r := ⟨0, x.header.length, ""⟩) rfl
    have hre : react s1 x ⟨0, true⟩ ⟨0, x.header.length, ""⟩ = .finished true := by
      unfold react
      rw [if_neg (by rw [hstr]; exact Bool.false_ne_true), if_neg (fun h => h rfl),
        if_neg (fun h => h rfl)]
    unfold afterResponse at hh
    rw [hre] at hh
    exact hh
  have h3 := AppStep.registration (s := { s1 with app := .submitting x (.registration true) })
    rfl rfl hg
  rw [if_neg (by rw [hstr]; exact Bool.false_ne_true)] at h3
  obtain ⟨log, h4⟩ := (@Reaches.reads g out x.header.length ({ s1 with
      toApp := (windows CHUNK x.header.length out x.header.length 0).map .payload
      app := .submitting x (.payload g ⟨0, true⟩) }) x 0) rfl (Nat.zero_le _) (by omega) heq rfl
  let x' : Session := { x with log := log }
  have h5 := AppStep.delivered
    (s := { s with toApp := [], app := .submitting x' (.payload g ⟨x.header.length, true⟩) })
    (x := x') rfl le_rfl
  -- the record is small and the protection succeeds
  obtain ⟨w, h6⟩ : ∃ w, conclude g 0 true s.world x.slot x.header true = (w, none) := by
    unfold conclude
    simp only
    rw [if_neg (by simp), if_neg (by omega), if_neg (by simp)]
    exact ⟨_, rfl⟩
  have h7 := AppStep.sealed (s := { s with toApp := [], app := .submitting x' (.settle g true) })
    (x := x') 0 true rfl h6
  have hend := Reaches.app h5 (Reaches.app h7 Relation.ReflTransGen.refl)
  exact ⟨_, _, _, Reaches.app h1 (Reaches.app h2 (Reaches.app h3 (h4.trans hend))), rfl⟩

/-- **A registration that nothing disturbs returns `0`.** -/
theorem undisturbed {c : Caller} {output : ℕ} {data : Option (List UInt8)}
    {captureNs : ℕ} {region : Bool} {w : World} {slot : ℕ} {image : List UInt8} {recipe : Recipe}
    (happ : s.app = .idle) (hl : AtLoop s.toWire) (hq : s.toWorker = []) (hta : s.toApp = [])
    (hscr : screen c s.world output data captureNs region = .ok (w, slot, image))
    (hu : w.channelBroken = false) (hd : decode image = .ok recipe)
    (heq : ∀ i < (Header.ofBytes image).length,
      out i = w.memory.bytes ((Header.ofBytes image).output + i))
    (hg : badRecord g = false)
    (hret : g.retainedBytes + (w.buffers slot).mapped / PAGE <
      rounded (Header.ofBytes image).length) :
    ∃ s' call log, Reaches s s' ∧ s'.app = .returned call log 0 := by
  let x : Session := ⟨⟨s.world, s.commits, output, data⟩, w, slot, image,
    w.arena.isSome && !true, []⟩
  have hstr : x.streaming = false := Bool.and_false _
  have hcall := AppStep.call true happ hscr hu
  have hserved :=
    @Reaches.served { s with world := w, app := .submitting x .request } _ g out _ rfl hl hq
    hta hstr (screen_ok hscr).size hd
  let s1 : Sys := { s with
    toWorker := []
    world := { w with peer := w.peer.commit x.id ⟨x.header.length, out⟩ }
    app := .submitting x (.receive true ⟨0, true⟩)
    worker := .acting x.id 0 []
    toApp := wholeMessages x.header.length g out
    commits := ⟨x.id, recipe, ⟨x.header.length, out⟩⟩ :: s.commits }
  obtain ⟨s', call, log, hr, ha⟩ := (@Reaches.accepted s1 x g out) rfl
    rfl hstr heq hg hret
  exact ⟨s', call, log, Reaches.app hcall (hserved.trans hr), ha⟩

end Undisturbed

/-! ### A registration with streaming -/

/-- The bytes of the windows from `offset` on are those of the region. -/
def Shows (m : Memory) (output : ℕ) : ℕ → List Output → Prop
  | _, [] => True
  | offset, o :: os =>
    (∀ i < o.length, o.byte i = m.bytes (output + (offset + i))) ∧
      Shows m output (offset + o.length) os

theorem Shows.windows {m : Memory} {output capacity n : ℕ} {out : ℕ → UInt8}
    (h : ∀ i < n, out i = m.bytes (output + i)) :
    ∀ fuel offset, Shows m output offset (windows capacity n out fuel offset)
  | 0, _ => trivial
  | fuel + 1, offset => by
    by_cases hlt : offset < n
    · rw [windows_succ hlt]
      refine ⟨fun i (hi : i < min capacity (n - offset)) => h _ (by omega), ?_⟩
      by_cases hcap : capacity ≤ n - offset
      · show Shows m output (offset + min capacity (n - offset)) _
        rw [min_eq_left hcap]
        exact Shows.windows h fuel _
      · rw [windows_end (by omega)]
        trivial
    · rw [windows_end (by omega)]
      trivial

theorem windows_fit {capacity n : ℕ} (hc : 0 < capacity) (out : ℕ → UInt8) :
    ∀ fuel offset, ∀ o ∈ windows capacity n out fuel offset, 0 < o.length ∧ o.length ≤ capacity
  | 0, _, _, ho => absurd ho List.not_mem_nil
  | fuel + 1, offset, o, ho => by
    by_cases hlt : offset < n
    · rw [windows_succ hlt] at ho
      rcases List.mem_cons.mp ho with rfl | ho
      · show 0 < min capacity (n - offset) ∧ min capacity (n - offset) ≤ capacity
        omega
      · exact windows_fit hc out fuel _ o ho
    · rw [windows_end (by omega)] at ho
      exact absurd ho List.not_mem_nil

theorem windows_sum {capacity n : ℕ} (hc : 0 < capacity) (out : ℕ → UInt8) :
    ∀ fuel offset k, offset ≤ n →
      offset + (((windows capacity n out fuel offset).take k).map Output.length).sum ≤ n ∧
      (n ≤ offset + fuel → offset + ((windows capacity n out fuel offset).map Output.length).sum =
        n)
  | 0, offset, k, h => by
    simp only [windows, List.take_nil, List.map_nil, List.sum_nil]
    omega
  | fuel + 1, offset, k, h => by
    by_cases hlt : offset < n
    · rw [windows_succ hlt]
      by_cases hcap : capacity ≤ n - offset
      · obtain ⟨h1, h2⟩ := windows_sum (n := n) hc out fuel (offset + capacity) (k - 1) (by omega)
        cases k with
        | zero =>
          simp only [List.take_zero, List.map_cons, List.map_nil, List.sum_cons, List.sum_nil,
            min_eq_left hcap]
          exact ⟨by omega, fun hf => by have := h2 (by omega); omega⟩
        | succ k =>
          simp only [List.take_succ_cons, List.map_cons, List.sum_cons, min_eq_left hcap]
          simp only [Nat.add_sub_cancel] at h1
          exact ⟨by omega, fun hf => by have := h2 (by omega); omega⟩
      · rw [windows_end (by omega)]
        cases k <;> simp <;> omega
    · rw [windows_end (by omega)]
      simp
      omega

section Streamed

variable {s : Sys} {x : Session} {g : Registration} {out : ℕ → UInt8} {todo : List Action}
    {arena : Arena}

/-- **Windows**: each is published, compared and acknowledged. -/
theorem Reaches.published : ∀ {os : List Output} {s : Sys} {x : Session} {first : Bool} {offset : ℕ}
    {equal : Bool}, s.worker = .acting x.id offset (os.map .publish ++ todo) → s.toWorker = [] →
    s.toApp = [] → s.app = .submitting x (.receive first ⟨offset, equal⟩) → x.streaming = true →
    s.world.arena = some arena → (∀ o ∈ os, 0 < o.length ∧ o.length ≤ arena.capacity) →
    offset + (os.map Output.length).sum ≤ x.header.length →
    ∃ log first' equal' window, Reaches s { s with
        worker := .acting x.id (offset + (os.map Output.length).sum) todo
        window := window
        app := .submitting { x with log := log }
          (.receive first' ⟨offset + (os.map Output.length).sum, equal'⟩) } ∧
      (equal = true → Shows s.world.memory x.header.output offset os → equal' = true)
  | [], s, x, first, offset, equal, hw, _, _, ha, _, _, _, _ => by
    refine ⟨x.log, first, equal, s.window, ?_, fun he _ => he⟩
    rw [List.map_nil, List.sum_nil, Nat.add_zero, ← ha, ← show s.worker =
      .acting x.id offset todo from hw]
    exact Relation.ReflTransGen.refl
  | o :: os, s, x, first, offset, equal, hw, hq, hta, ha, hstr, har, hfit, hsum => by
    obtain ⟨hpos, hcap⟩ := hfit o List.mem_cons_self
    rw [List.map_cons, List.sum_cons] at hsum
    let todo' := os.map Action.publish ++ todo
    let window := fillWindow s.window o
    let same := s.world.memory.same (x.header.output + offset) o.length window
    let p : Progress := ⟨offset + o.length, equal && same⟩
    let x' : Session := { x with
      log := x.log ++ comparisons s.world.memory x.header.output offset o.length window }
    -- the worker fills the window and announces it
    let s1 : Sys := { s with worker := .publishing x.id offset o todo', window := window }
    let s2 : Sys := { s1 with
      worker := .awaiting x.id (offset + o.length) todo'
      toApp := [.response (windowReply o).response] }
    have h1 : WorkerStep s s1 := .fill hw
    have h2 : WorkerStep s1 s2 := by
      have h := @WorkerStep.publish s1 x.id offset o todo' rfl
      rw [show s1.toApp = [] from hta] at h
      exact h
    -- the application compares it
    let s3 : Sys := { s2 with
      toApp := []
      app := .submitting x (.handle ⟨offset, equal⟩ (windowReply o).response) }
    let s4 : Sys := { s3 with app := .submitting x' (.acknowledge p) }
    have h3 : AppStep s2 s3 := .receive ha rfl
    have h4 : AppStep s3 s4 := by
      have h := AppStep.handle (s := s3) (x := x) (p := ⟨offset, equal⟩)
        (r := (windowReply o).response) rfl
      have hre : react s3 x ⟨offset, equal⟩ (windowReply o).response = .acknowledge p := by
        have hc : System.capacity s3.world = arena.capacity := by
          unfold System.capacity
          rw [show s3.world.arena = some arena from har]
        unfold react
        rw [if_pos hstr, hc]
        unfold onResponse
        have hz : ¬ (windowReply o).response.size = 0 := Nat.pos_iff_ne_zero.mp hpos
        rw [if_neg (by rintro ⟨h, -⟩; cases h), if_neg (fun h => h rfl), if_neg hz, if_neg]
        · rfl
        · show ¬ (arena.capacity < o.length ∨ x.header.length < offset ∨
            x.header.length - offset < o.length)
          omega
      unfold afterResponse at h
      rw [hre] at h
      exact h
    -- and acknowledges it
    let s5 : Sys := { s4 with
      toWorker := [.request ⟨.streamAck, x.id, offset + o.length⟩]
      app := .submitting x' (.receive false p) }
    let s6 : Sys := { s5 with toWorker := [], worker := .acting x.id (offset + o.length) todo' }
    have h5 : AppStep s4 s5 := by
      have h := AppStep.acknowledge (s := s4) (x := x') (p := p) rfl
      rw [show s4.toWorker = [] from hq] at h
      exact h
    have h6 : WorkerStep s5 s6 := .acknowledged rfl rfl
    obtain ⟨log, first', equal', window', hr, heq⟩ :=
      @Reaches.published os s6 x' false (offset + o.length)
      (equal && same) rfl rfl rfl rfl hstr har (fun o' ho' => hfit o' (List.mem_cons_of_mem _ ho'))
      (by show _ ≤ x.header.length; omega)
    have hall : Reaches s { s6 with
        worker := .acting x.id (offset + o.length + (os.map Output.length).sum) todo
        window := window'
        app := .submitting { x with log := log }
          (.receive first' ⟨offset + o.length + (os.map Output.length).sum, equal'⟩) } :=
      Reaches.worker h1 (Reaches.worker h2 (Reaches.app h3 (Reaches.app h4 (Reaches.app h5
        (Reaches.worker h6 hr)))))
    refine ⟨log, first', equal', window', ?_, fun he hs => heq ?_ hs.2⟩
    · rw [List.map_cons, List.sum_cons, ← Nat.add_assoc, hq, hta]
      exact hall
    · have hsame : same = true := by
        refine (same_iff _ _ _ _).mpr fun i hi => ?_
        show fillWindow s.window o i = _
        unfold fillWindow
        rw [if_pos hi, hs.1 i hi, Nat.add_assoc]
      rw [he, hsame]
      rfl

/-- **The end of a stream** whose windows were all equal. -/
theorem Reaches.concluded {recipe : Recipe} {m : String} {first : Bool}
    (hw : s.worker = .acting x.id x.header.length [.commit recipe ⟨recipe.h.length, out⟩,
      .send (.response (finalReply m).response), .send (.registration g)])
    (hta : s.toApp = []) (happ : s.app = .submitting x (.receive first ⟨x.header.length, true⟩))
    (hstr : x.streaming = true) (hg : badRecord g = false)
    (hret : g.retainedBytes + (s.world.buffers x.slot).mapped / PAGE < rounded x.header.length) :
    ∃ s' call log, Reaches s s' ∧ s'.app = .returned call log 0 := by
  let s1 : Sys := { s with
    world := { s.world with peer := s.world.peer.commit x.id ⟨recipe.h.length, out⟩ }
    worker := .acting x.id x.header.length
      ([.response (finalReply m).response, .registration g].map .send)
    commits := ⟨x.id, recipe, ⟨recipe.h.length, out⟩⟩ :: s.commits }
  let s2 : Sys := { s1 with
    worker := .acting x.id x.header.length []
    toApp := [.response (finalReply m).response, .registration g] }
  have h1 : WorkerStep s s1 := .commit hw
  have h2 : Reaches s1 s2 := Reaches.sends rfl (by rw [show s1.toApp = [] from hta]; rfl)
  -- the final response ends the comparison
  let p : Progress := ⟨x.header.length, true⟩
  let s3 : Sys := { s2 with
    toApp := [.registration g], app := .submitting x (.handle p (finalReply m).response) }
  have h3 : AppStep s2 s3 := .receive happ rfl
  have h4 : AppStep s3 { s3 with app := .submitting x (.registration true) } := by
    have h := AppStep.handle (s := s3) (x := x) (p := p) (r := (finalReply m).response) rfl
    have hre : react s3 x p (finalReply m).response = .finished true := by
      unfold react
      rw [if_pos hstr]
      unfold onResponse
      have hz : (finalReply m).response.size = 0 := rfl
      rw [if_neg (by rintro ⟨h, -⟩; cases h), if_neg (fun h => h rfl), if_pos hz]
      exact congrArg Next.finished (by simp [p])
    unfold afterResponse at h
    rw [hre] at h
    exact h
  have h5 := AppStep.registration
    (s := { s3 with app := .submitting x (.registration true) }) rfl rfl hg
  rw [if_pos hstr] at h5
  obtain ⟨w, h6⟩ : ∃ w, conclude g 0 true s1.world x.slot x.header true = (w, none) := by
    unfold conclude
    simp only
    rw [if_neg (by simp),
      if_neg (by show ¬ _ ≤ g.retainedBytes + (s.world.buffers x.slot).mapped / PAGE; omega),
      if_neg (by simp)]
    exact ⟨_, rfl⟩
  have h7 := AppStep.sealed (s := { s3 with toApp := [], app := .submitting x (.settle g true) })
    (x := x) 0
    true rfl h6
  exact ⟨_, _, _, Reaches.worker h1 (h2.trans (Reaches.app h3 (Reaches.app h4 (Reaches.app h5
    (Reaches.app h7 Relation.ReflTransGen.refl))))), rfl⟩

/-- **A complete pass over the region** ends in a return with `0`. -/
theorem Reaches.passed {recipe : Recipe} {m : String} {first : Bool} {image : List UInt8}
    (hd : decode image = .ok recipe) (hx : x.image = image)
    (hw : s.worker = .acting x.id 0 (passActions arena.capacity recipe (.committed out g m)))
    (hq : s.toWorker = []) (hta : s.toApp = [])
    (happ : s.app = .submitting x (.receive first ⟨0, true⟩)) (hstr : x.streaming = true)
    (har : s.world.arena = some arena)
    (heq : ∀ i < x.header.length, out i = s.world.memory.bytes (x.header.output + i))
    (hg : badRecord g = false)
    (hret : g.retainedBytes + (s.world.buffers x.slot).mapped / PAGE < rounded x.header.length) :
    ∃ s' call log, Reaches s s' ∧ s'.app = .returned call log 0 := by
  have hlen : recipe.h.length = x.header.length := by
    rw [decoded_length hd, ← hx]
    rfl
  have hsum := (windows_sum (n := recipe.h.length) arena.pos out recipe.h.length 0 0
    (Nat.zero_le _)).2 (by omega)
  obtain ⟨log, first', equal', window, hr, hequal⟩ := Reaches.published hw hq hta happ hstr har
    (windows_fit arena.pos _ _ _) (by omega)
  obtain rfl : equal' = true := hequal rfl (Shows.windows (by rw [hlen]; exact heq) _ _)
  rw [hsum.trans hlen] at hr
  obtain ⟨s', call, log', hr', hret'⟩ := Reaches.concluded (s := { s with
      worker := .acting x.id x.header.length [.commit recipe ⟨recipe.h.length, out⟩,
        .send (.response (finalReply m).response), .send (.registration g)]
      window := window
      app := .submitting { x with log := log } (.receive first' ⟨x.header.length, true⟩) })
    (x := { x with log := log }) rfl hta rfl hstr hg hret
  exact ⟨s', call, log', hr.trans hr', hret'⟩

/-- **A streamed registration that nothing disturbs returns `0`**, also when a native stream,
whatever it published, has been given up for the emulator. -/
theorem undisturbed_stream {c : Caller} {output : ℕ} {data : Option (List UInt8)} {captureNs : ℕ}
    {region : Bool} {w : World} {slot : ℕ} {image : List UInt8} {recipe : Recipe}
    (a : Option Abandoned)
    (out : ℕ → UInt8) (happ : s.app = .idle) (hl : AtLoop s.toWire) (hq : s.toWorker = [])
    (hta : s.toApp = [])
    (hscr : screen c s.world output data captureNs region = .ok (w, slot, image))
    (har : w.arena = some arena) (hu : w.channelBroken = false) (hd : decode image = .ok recipe)
    (heq : ∀ i < (Header.ofBytes image).length,
      out i = w.memory.bytes ((Header.ofBytes image).output + i))
    (hg : badRecord g = false)
    (hret : g.retainedBytes + (w.buffers slot).mapped / PAGE <
      rounded (Header.ofBytes image).length) :
    ∃ s' call log, Reaches s s' ∧ s'.app = .returned call log 0 := by
  let x : Session :=
    ⟨⟨s.world, s.commits, output, data⟩, w, slot, image, w.arena.isSome && !false, []⟩
  have hstr : x.streaming = true := by
    show (w.arena.isSome && !false) = true
    rw [har]
    rfl
  have hlen : recipe.h.length = x.header.length := decoded_length hd
  let s1 : Sys := { s with world := w, app := .submitting x .request }
  have hcall : AppStep s s1 := .call false happ hscr hu
  have hreq := Reaches.requested (s := s1) (x := x) ⟨a, .committed out g ""⟩ rfl hl hq
    (screen_ok hscr).size
  have hans : answerTo s1.world.arena false x.streaming ⟨a, .committed out g ""⟩ x.image =
      streamActions ⟨a, .committed out g ""⟩ arena.capacity recipe := by
    have harena : s1.world.arena = some arena := har
    have himage : decode x.image = .ok recipe := hd
    unfold answerTo
    rw [if_neg Bool.false_ne_true, himage, hstr, harena]
  rw [hans] at hreq
  cases a with
  | none =>
    obtain ⟨s', call, log, hr, hret'⟩ := Reaches.passed (s := { s1 with
        toWorker := []
        app := .submitting x (.receive true ⟨0, true⟩)
        worker := .acting x.id 0 (passActions arena.capacity recipe (.committed out g "")) })
      hd rfl rfl rfl hta rfl hstr har heq hg hret
    exact ⟨s', call, log, Reaches.app hcall (hreq.trans hr), hret'⟩
  | some a =>
    let n := recipe.h.length
    let os := (windows arena.capacity n a.output n 0).take a.published
    let todo := Action.restart :: passActions arena.capacity recipe (.committed out g "")
    let s2 : Sys := { s1 with
      toWorker := []
      app := .submitting x (.receive true ⟨0, true⟩)
      worker := .acting x.id 0 (os.map .publish ++ todo) }
    have hfit := fun o (ho : o ∈ os) =>
      windows_fit (n := n) arena.pos a.output n 0 o (List.mem_of_mem_take ho)
    obtain ⟨log, first, equal, window, hr, -⟩ :=
      @Reaches.published todo arena os s2 x true 0 true rfl
      rfl hta rfl hstr har hfit (by
        rw [← hlen]
        exact (windows_sum arena.pos a.output n 0 a.published (Nat.zero_le _)).1)
    -- the emulator has run: the comparison begins again
    let x' : Session := { x with log := log }
    let p : Progress := ⟨0 + (os.map Output.length).sum, equal⟩
    let s3 : Sys := { s2 with
      worker := .acting x.id p.offset todo
      window := window
      app := .submitting x' (.receive first p) }
    let s4 : Sys := { s3 with
      worker := .acting x.id 0 (passActions arena.capacity recipe (.committed out g ""))
      toApp := [.response restartReply.response] }
    have h4 : WorkerStep s3 s4 := by
      have h := @WorkerStep.restart s3 x.id p.offset
        (passActions arena.capacity recipe (.committed out g ""))
        rfl
      rw [show s3.toApp = [] from hta] at h
      exact h
    let s5 : Sys := { s4 with toApp := [], app := .submitting x' (.handle p restartReply.response) }
    let s6 : Sys := { s5 with app := .submitting { x' with log := [] } (.receive false ⟨0, true⟩) }
    have h5 : AppStep s4 s5 := .receive rfl rfl
    have h6 : AppStep s5 s6 := by
      have h := AppStep.handle (s := s5) (x := x') (p := p) (r := restartReply.response) rfl
      have hre : react s5 x' p restartReply.response = .restart := by
        unfold react
        rw [if_pos hstr]
        exact if_pos ⟨rfl, rfl⟩
      unfold afterResponse at h
      rw [hre] at h
      exact h
    obtain ⟨s', call, log', hr', hret'⟩ :=
      Reaches.passed (s := s6) (x := { x' with log := [] }) hd rfl rfl rfl
      rfl rfl hstr har heq hg hret
    exact ⟨s', call, log', Reaches.app hcall (hreq.trans (hr.trans (Reaches.worker h4
      (Reaches.app h5 (Reaches.app h6 hr'))))), hret'⟩

end Streamed

/-! ### Agreement -/

/-- The image of a recipe without code for the 537 bytes at `0x100000`. -/
def sampleRecipe : List UInt8 := sampleImage 0x100000 537

/-- Allocate 537 bytes. -/
def sampleAlloc : Op := .alloc Caller.owner ⟨fun _ => sampleEvict, some 0x100000, true⟩ 537

/-- **Registration agreement.** In every state the two processes reach in which `submit` has
returned: with `0` the worker has committed the recipe of the image under the id of the buffer, and
every byte of the region was compared once with its validated output and was equal; with `-1`
states, pages and bytes are as before the call, and the worker holds no recipe for a resident buffer
unless the channel is broken. -/
theorem registration_agreement {arena : Option Arena} {memory : Memory} {s : Sys}
    (h : Reaches (Sys.initial arena memory) s) {c : Call} {log : List Compared} {code : Int}
    (hr : s.app = .returned c log code) :
    (code = 0 ∨ code = -1) ∧
      (code = 0 → ∃ slot image recipe out, Registered c log s slot image recipe out) ∧
      (code = -1 → Declined c s) := by
  have hs := Reaches.sound h (Sound.initial arena memory)
  unfold Sound at hs
  rw [hr] at hs
  rcases hs.2 with ⟨rfl, hreg⟩ | ⟨rfl, hdec⟩
  · exact ⟨Or.inl rfl, fun _ => hreg, fun hc => absurd hc (by decide)⟩
  · exact ⟨Or.inr rfl, fun hc => absurd hc (by decide), fun _ => hdec⟩

/-- A window of 64 KiB. -/
def sampleArena : Arena where
  capacity := 16 * PAGE
  aligned := Nat.mul_mod_left 16 PAGE
  low := le_rfl
  high := Nat.mul_le_mul_right PAGE (Nat.le_add_right 16 240)

/-- The two processes register the recipe of the zero bytes of a new buffer in a stream: a window of
the native code is acknowledged, though its bytes differ, before the worker begins again with the
emulator. -/
theorem registration_agreement_sample :
    ∃ s c log, Reaches (Sys.initial (some sampleArena) sampleMemory) s ∧
    s.app = .returned c log 0 ∧
      ∃ slot image recipe out, Registered c log s slot image recipe out := by
  obtain ⟨x, hr, hops, hf, hst, hlen, hmap, hu, har, hsame⟩ :=
    (@play_any (World.initial (some sampleArena) sampleMemory)
      [sampleAlloc] (fun x => x.1.find 0x100000 = some 0 ∧ (x.1.buffers 0).state = .resident ∧
        (x.1.buffers 0).stats.length = 537 ∧ (x.1.buffers 0).mapped = 4096 ∧
        x.1.channelBroken = false ∧ x.1.arena.map Arena.capacity = some 65536 ∧
        x.1.memory.same 0x100000 537 (fun _ => 0) = true))
    (by decide +kernel)
  have hplain : ∀ e ∈ x.2, Plain e.1 := by
    intro e he
    have hmem : e.1 ∈ x.2.map Prod.fst := List.mem_map_of_mem he
    rw [hops, List.mem_singleton] at hmem
    rw [hmem]
    trivial
  have h1 := Reaches.others (s := Sys.initial (some sampleArena) sampleMemory) hr hplain rfl rfl
  obtain ⟨arena, harena, -⟩ := Option.map_eq_some_iff.mp har
  -- the header of the image
  have hh : (Header.ofBytes sampleRecipe).length = 537 ∧
      (Header.ofBytes sampleRecipe).output = 0x100000 := by decide +kernel
  have hsize : sampleRecipe.length = 536 := by decide +kernel
  obtain ⟨recipe, hd⟩ : ∃ recipe, decode sampleRecipe = .ok recipe := by
    have : (decode sampleRecipe).toOption.isSome = true := by decide +kernel
    rcases hd : decode sampleRecipe with m | recipe
    · rw [hd] at this
      cases this
    · exact ⟨recipe, rfl⟩
  have hmatch : matchesAllocation false 0x100000 537 (Header.ofBytes sampleRecipe) = true := by
    decide +kernel
  obtain ⟨w, hscr⟩ : ∃ w, screen Caller.owner x.1 0x100000 (some sampleRecipe) 0 false =
      .ok (w, 0, sampleRecipe) := by
    unfold screen
    rw [show usable Caller.owner = none from rfl, hf]
    simp only [hst, hlen, hmatch, hsize, hh.1]
    exact ⟨_, rfl⟩
  have hw := screen_ok hscr
  have harena' : w.arena = some arena := by
    obtain ⟨st, -, rfl⟩ := hw.opened
    exact harena
  obtain ⟨s, c, log, h2, ha⟩ := undisturbed_stream
    (s := { Sys.initial (some sampleArena) sampleMemory with world := x.1 }) (g := ⟨0, 0, 0⟩)
    (some ⟨fun _ => 7, 1⟩) (fun _ => 0) rfl ⟨0, 0, rfl⟩ rfl rfl hscr
    harena' (hw.rest.2.2.trans hu) hd
    (by
      rw [hh.1, hh.2, hw.rest.1]
      exact (same_iff _ _ _ _).mp hsame)
    rfl
    (by
      rw [(hw.same 0).mapped, hmap, hh.1]
      decide)
  have hr2 : Reaches (Sys.initial (some sampleArena) sampleMemory) s := h1.trans h2
  exact ⟨s, c, log, hr2, ha, (registration_agreement hr2 ha).2.1 rfl⟩

end Afterfree.Protocol.Registration
