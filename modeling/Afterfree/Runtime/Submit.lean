import Afterfree.Runtime.Pager

/-!
# Registering a recipe

`submit` of `runtime.cpp`: the checks on the header, the comparison of the worker's output with the
allocation (window by window through the shared arena, or as one payload), and the branches that
take the registration back. The worker's side of the exchange is a `Script`: the windows of a
native stream it gave up, if it did, and its verdict. `Script.replies` lays the script out as the
responses the application reads.
-/

namespace Afterfree.Runtime.Submit

open Afterfree.Common Afterfree.Lib Afterfree.Runtime.State Afterfree.Runtime.Pager

/-! ### What the worker sends -/

/-- The end of a registration on the worker's side, for an output of the header's length: refused
before a complete pass, refused after one because of the recipe budget, or committed. -/
inductive Verdict
  | refused (message : String)
  | overBudget (output : ℕ → UInt8) (message : String)
  | committed (output : ℕ → UInt8) (registration : Registration) (message : String)

/-- A native stream that was abandoned for the emulator: the output it was producing, and how many
windows of it were published. -/
structure Abandoned where
  output : ℕ → UInt8
  published : ℕ

/-- A registration as the worker plays it. -/
structure Script where
  speculative : Option Abandoned
  verdict : Verdict

/-- A response, with the contents of the shared window when it is sent. -/
structure Reply where
  response : Response
  window : ℕ → UInt8

/-- One window of a stream: its length, and its bytes in the arena. -/
def windowReply (o : Output) : Reply := ⟨⟨0, o.length, ""⟩, o.byte⟩

/-- `restart comparison with strict emulator`. -/
def restartReply : Reply := ⟨⟨2, 0, "restart comparison with strict emulator"⟩, fun _ => 0⟩

/-- A refusal. -/
def refusal (message : String) : Reply := ⟨⟨1, 0, message⟩, fun _ => 0⟩

/-- The final response of a stream. -/
def finalReply (message : String) : Reply := ⟨⟨0, 0, message⟩, fun _ => 0⟩

/-- The windows of `n` bytes of `output` from `offset` on, `capacity` at a time. -/
def windows (capacity n : ℕ) (output : ℕ → UInt8) : ℕ → ℕ → List Output
  | 0, _ => []
  | fuel + 1, offset =>
    if offset < n then
      ⟨min capacity (n - offset), fun i => output (offset + i)⟩ ::
        windows capacity n output fuel (offset + capacity)
    else []

/-- The windows published of an abandoned stream. -/
def Abandoned.windows (a : Abandoned) (capacity n : ℕ) : List Output :=
  (Submit.windows capacity n a.output n 0).take a.published

/-- The complete pass over an output, and what follows it. -/
def passReplies (capacity n : ℕ) : Verdict → List Reply
  | .refused m => [refusal m]
  | .overBudget out m => (windows capacity n out n 0).map windowReply ++ [refusal m]
  | .committed out _ m => (windows capacity n out n 0).map windowReply ++ [finalReply m]

/-- The responses of a streamed registration. A refused emulation is not announced by a restart. -/
def Script.replies (s : Script) (capacity n : ℕ) : List Reply :=
  match s.speculative, s.verdict with
  | none, v => passReplies capacity n v
  | some a, .refused m => (a.windows capacity n).map windowReply ++ [refusal m]
  | some a, v => (a.windows capacity n).map windowReply ++ restartReply :: passReplies capacity n v

/-- The response of a registration without streaming, and the payload that follows it. -/
def Script.answer (s : Script) (n : ℕ) : Reply :=
  match s.verdict with
  | .refused m => refusal m
  | .overBudget _ m => refusal m
  | .committed out _ m => ⟨⟨0, n, m⟩, out⟩

/-- The registration record of a committed script. -/
def Script.registration (s : Script) : Registration :=
  match s.verdict with
  | .committed _ r _ => r
  | _ => ⟨0, 0, 0⟩

/-- The worker's store once the script has been played to its end. -/
def Script.played (s : Script) (id n : ℕ) (p : Peer) : Peer :=
  match s.verdict with
  | .committed out _ _ => p.commit id ⟨n, out⟩
  | _ => p

/-! ### The comparison -/

/-- `offset` and `equal` of `submit`. -/
structure Progress where
  offset : ℕ
  equal : Bool
deriving DecidableEq, Repr

/-- What the stream loop does with one response. -/
inductive Next
  | rejected (message : String)
  | invalid
  | finished (equal : Bool)
  | restart
  | acknowledge (p : Progress)

/-- The body of the stream loop: one response, with the window it announces. `same offset size`
is the `memcmp` of the window with the allocation. -/
def onResponse (capacity length : ℕ) (same : ℕ → ℕ → Bool) (p : Progress) (r : Response) : Next :=
  if r.status = 2 ∧ r.size = 0 then .restart
  else if r.status ≠ 0 then .rejected ("validation rejected: " ++ r.message)
  else if r.size = 0 then .finished (p.equal && decide (p.offset = length))
  else if capacity < r.size ∨ length < p.offset ∨ length - p.offset < r.size then .invalid
  else .acknowledge ⟨p.offset + r.size, p.equal && same p.offset r.size⟩

/-- How the comparison ends: the channel was broken, the worker refused, or all was compared. -/
inductive Comparison
  | broken (message : String)
  | rejected (message : String)
  | compared (equal : Bool)
deriving DecidableEq, Repr

/-- The stream loop. `link i` decides the receipt of response `i` and the sending of the
acknowledgement after it; the first response is received before the loop. -/
def streamLoop (link : ℕ → Link) (capacity length original : ℕ) (m : Memory) :
    List Reply → ℕ → Progress → Comparison
  | [], _, _ => .broken "validation stream interrupted"
  | reply :: rest, i, p =>
    if !(link i).received then
      .broken (if i = 0 then "validation worker disconnected" else "validation stream interrupted")
    else
      match onResponse capacity length (fun o n => m.same (original + o) n reply.window) p
          reply.response with
      | .rejected message => .rejected message
      | .invalid => .broken "invalid validation window length"
      | .finished equal => .compared equal
      | .restart => streamLoop link capacity length original m rest (i + 1) ⟨0, true⟩
      | .acknowledge p =>
        if !(link i).sent then .broken "validation window acknowledgement failed"
        else streamLoop link capacity length original m rest (i + 1) p

/-- The payload of a registration without streaming, compared in chunks of 64 KiB. -/
def chunkLoop (received : ℕ → Bool) (size original : ℕ) (m : Memory) (payload : ℕ → UInt8) :
    ℕ → ℕ → Bool → Comparison
  | 0, _, equal => .compared equal
  | fuel + 1, off, equal =>
    if off < size then
      let n := min 65536 (size - off)
      if !received off then .broken "validation stream interrupted"
      else chunkLoop received size original m payload fuel (off + n)
        (equal && m.same (original + off) n fun i => payload (off + i))
    else .compared equal

/-- What the environment decides in one `submit`. `committed` says whether the worker came to its
commit although the exchange broke off. -/
structure SubmitEnv where
  streamingDisabled : Bool
  requestSent : Bool
  blobSent : Bool
  link : ℕ → Link
  registrationReceived : Bool
  chunkReceived : ℕ → Bool
  elapsed : ℕ
  isProtected : Bool
  drop : Link
  committed : Bool
  script : Script

/-- The checks of `submit` on the header, against an allocation of `length` bytes at `address`. -/
def matchesAllocation (region : Bool) (address length : ℕ) (h : Header) : Bool :=
  !(!region && (h.output ≠ address || h.length ≠ length)) && !(h.output < address) &&
    !(h.output - address > length) && !(h.length = 0) &&
    !(h.length > length - (h.output - address)) && (h.output - address) % PAGE = 0 &&
    !(h.length % PAGE ≠ 0 && h.output + h.length ≠ address + length)

/-- The exchange of `submit` up to the end of the comparison, with the registration record. -/
def compare (e : SubmitEnv) (w : World) (h : Header) : Comparison :=
  if w.channelBroken || !e.requestSent || !e.blobSent then .broken "validation worker disconnected"
  else
    match w.arena, e.streamingDisabled with
    | some a, false =>
      match streamLoop e.link a.capacity h.length h.output w.memory
          (e.script.replies a.capacity h.length) 0 ⟨0, true⟩ with
      | .compared equal =>
        if badRegistration then .broken "invalid registration response" else .compared equal
      | other => other
    | _, _ =>
      let r := e.script.answer h.length
      if !(e.link 0).received then .broken "validation worker disconnected"
      else if r.response.status ≠ 0 then .rejected ("validation rejected: " ++ r.response.message)
      else if r.response.size ≠ h.length then .broken "invalid validation response length"
      else if badRegistration then .broken "invalid registration response"
      else chunkLoop e.chunkReceived r.response.size h.output w.memory r.window h.length 0 true
where
  /-- The registration record is missing or makes no sense. -/
  badRegistration : Bool :=
    let g := e.script.registration
    !e.registrationReceived || decide (1 < g.backend) ||
      (decide (g.pageBytes ≠ 0) && decide (g.pageBytes ≠ PAGE)) ||
      (decide (g.pageBytes ≠ 0) && decide (g.backend = 0))

/-- The worker's store after the exchange: once the application has received the end of it, the
script has been played; after a break a request that was delivered in full may or may not have
come to its commit. -/
def peerAfter (e : SubmitEnv) (w : World) (p : Peer) (id n : ℕ) : Comparison → Peer
  | .broken _ =>
    if !w.channelBroken && e.requestSent && e.blobSent && e.committed then e.script.played id n p
    else p
  | .rejected _ => p
  | .compared _ => e.script.played id n p

/-- Take a registration back: `request(DROP)`, whatever comes of it, and `fail`. -/
def withdraw (e : SubmitEnv) (w : World) (id : ℕ) (message : String) : World :=
  (request e.drop w (handleDrop id)).1.fail message

/-- The end of `submit` up to the branches that take the registration back: these leave the message
they fail with. -/
def conclude (g : Registration) (elapsed : ℕ) (isProtected : Bool) (w : World) (slot : ℕ)
    (h : Header) (equal : Bool) : World × Option String :=
  let b := w.buffers slot
  let b := { b with stats := { b.stats with validationNs := elapsed } }
  let w := w.setBuffer slot b
  if !equal then (w, some "byte-for-byte validation failed")
  else
    let retained := g.retainedBytes + b.mapped / PAGE
    let b := { b with stats := { b.stats with
      retainedBytes := retained, pageBytes := g.pageBytes, backend := g.backend } }
    let w := w.setBuffer slot b
    if rounded h.length ≤ retained then
      (w, some "retained reconstruction metadata exceeds reclaimable memory")
    else if !isProtected then (w, some "cannot protect validated output")
    else
      let offset := h.output - b.data
      let w := { w with memory := w.memory.mprotect h.output (rounded h.length) .read }
      (w.setBuffer slot { b with
        recipeOffset := offset
        recipeLength := h.length
        state := .sealed
        recipeLive := true
        pages := Span.fill b.pages (offset / PAGE) ((offset + rounded h.length) / PAGE) .clean },
      none)

/-- The end of `submit`, when the exchange is complete. -/
def settle (e : SubmitEnv) (w : World) (slot : ℕ) (h : Header) (equal : Bool) : World × Int :=
  match conclude e.script.registration e.elapsed e.isProtected w slot h equal with
  | (w, none) => (w, 0)
  | (w, some m) => (withdraw e w (w.buffers slot).id m, -1)

/-- `submit` from its request on. -/
def exchange (e : SubmitEnv) (w : World) (slot : ℕ) (h : Header) : World × Int :=
  let result := compare e w h
  let w := { w with peer := peerAfter e w w.peer (w.buffers slot).id h.length result }
  match result with
  | .broken m => ({ w with channelBroken := true }.fail m, -1)
  | .rejected m => (w.fail m, -1)
  | .compared equal => settle e w slot h equal

/-- The checks of `submit` before its request. The result is the message it fails with, or the slot
of the buffer and the image; the statistics of the capture are recorded then. -/
def screen (c : Caller) (w : World) (output : ℕ) (data : Option (List UInt8)) (captureNs : ℕ)
    (region : Bool) : Except String (World × ℕ × List UInt8) :=
  match usable c with
  | some m => .error m
  | none =>
    match w.find output, data with
    | some slot, some data =>
      let b := w.buffers slot
      if b.state ≠ .resident ∨ data.length < HEADER_SIZE ∨ MAX_BLOB < data.length then
        .error "invalid recipe submission"
      else
        let h := Header.ofBytes data
        if !matchesAllocation region output b.stats.length h then
          .error "recipe does not match allocation"
        else if h.length ≤ data.length then .error "recipe is not smaller than output"
        else
          .ok (w.setBuffer slot { b with stats := { b.stats with
            captureNs := captureNs, inputBytes := h.inputBytes, instructions := h.steps
            recipeBytes := data.length } }, slot, data)
    | _, _ => .error "invalid recipe submission"

/-- `submit`. -/
def submit (c : Caller) (e : SubmitEnv) (w : World) (output : ℕ) (data : Option (List UInt8))
    (captureNs : ℕ) (region : Bool) : World × Int :=
  match screen c w output data captureNs region with
  | .error m => (w.fail m, -1)
  | .ok (w, slot, data) => exchange e w slot (Header.ofBytes data)

end Afterfree.Runtime.Submit
