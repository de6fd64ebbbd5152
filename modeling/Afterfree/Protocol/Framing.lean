import Afterfree.Protocol.System

/-!
# Framing: who reads whose bytes

The channel from the worker to the application, byte by byte. A response carries no request number;
what keeps requests and answers together is that every call takes its whole answer or marks the
channel broken. Each byte is tagged here with the request it answers, and `consumed` records for
every byte taken the request of the call that took it.

A send or a receive of the application may fail at any point: a failing receive has taken some bytes
of what it asked for, and the worker still delivers the rest. The worker may die, which cuts its
answer short. `af_get_worker_profile` is the one call that returns after a failed receive without
marking the channel: the bytes it leaves are taken by the next call (`profile_strands_bytes`). Every
other call keeps the framing, and so does every run in which the profile leaves nothing
(`consumed_own_answer`).
-/

namespace Afterfree.Protocol.Framing

open Afterfree.Common Afterfree.Protocol.System

/-! ### The channel -/

/-- A byte on its way to the application, with the number of the request it answers. -/
structure Cell where
  tag : ℕ
  value : UInt8
deriving DecidableEq, Repr

/-- The application's end. `running` is lost to `pager_failure`; `opened` is `channel >= 0`;
`issued` counts the requests of all channels. -/
structure Channel where
  running : Bool
  opened : Bool
  broken : Bool
  issued : ℕ
  incoming : List Cell
  consumed : List (ℕ × ℕ)
deriving DecidableEq, Repr

/-- Before `af_init`. -/
def Channel.closed : Channel := ⟨true, false, false, 0, [], []⟩

namespace Channel

/-- Take the next `n` bytes. -/
def take (n : ℕ) (c : Channel) : Channel :=
  { c with
    incoming := c.incoming.drop n
    consumed := c.consumed ++ (c.incoming.take n).map fun x => (c.issued, x.tag) }

/-- `read_all`: all `n` bytes (`none`), or an error or a time-out after `k` of them (`some k`). If
the worker has died the bytes may not be there. -/
def receive (fails : Option ℕ) (n : ℕ) (c : Channel) : Channel × Option (List UInt8) :=
  if n = 0 then (c, some [])
  else
    match fails with
    | none =>
      if n ≤ c.incoming.length then (c.take n, some ((c.incoming.take n).map Cell.value))
      else (c.take c.incoming.length, none)
    | some k => (c.take (min k (n - 1)), none)

/-- What the worker sends in answer to the last request. -/
def deliver (answer : List UInt8) (c : Channel) : Channel :=
  { c with incoming := c.incoming ++ answer.map (Cell.mk c.issued) }

/-- A new request. -/
def issue (c : Channel) : Channel := { c with issued := c.issued + 1 }

/-- `channel_broken.store(true)` and `shutdown`. -/
def sever (c : Channel) : Channel := { c with broken := true }

/-- `pager_failure`. -/
def exit (c : Channel) : Channel := { c with running := false }

end Channel

/-! ### Records -/

/-- A byte string of a given length. -/
abbrev Bytes (n : ℕ) : Type := { l : List UInt8 // l.length = n }

/-- `sizeof(Response)`. -/
def RESPONSE_SIZE : ℕ := 256

/-- `sizeof(Registration)`. -/
def REGISTRATION_SIZE : ℕ := 24

/-- `sizeof(af_worker_profile)`. -/
def PROFILE_SIZE : ℕ := 96

/-- The image of a `Response`. The message is cut off for its terminator. -/
def image (status size : ℕ) (message : List UInt8) : List UInt8 :=
  leBytes 8 status ++ leBytes 8 size ++ (message.take 239 ++ List.replicate 240 0).take 240

/-- `status` of a received response. -/
def statusOf (r : List UInt8) : ℕ := fieldAt r 0 8

/-- `size` of a received response. -/
def sizeOf (r : List UInt8) : ℕ := fieldAt r 8 8

/-- A received registration record. -/
def recordOf (r : List UInt8) : Registration := ⟨fieldAt r 0 8, fieldAt r 8 8, fieldAt r 16 8⟩

/-- A payload; its length fits the `size` field. -/
structure Payload where
  bytes : List UInt8
  small : bytes.length < 2 ^ 64

/-- The worker's `respond`. -/
def respond (status : ℕ) (message : List UInt8) (data : List UInt8) : List UInt8 :=
  image status data.length message ++ data

/-! ### Calls -/

/-- What the environment decides in one `request`: the send, where the worker's answer is cut short
if it dies, and the receipt of the response. -/
structure RequestEnv where
  sent : Bool
  cut : Option ℕ
  response : Option ℕ
deriving DecidableEq, Repr

/-- The part of an answer that the worker sends. -/
def RequestEnv.delivered (e : RequestEnv) (answer : List UInt8) : List UInt8 :=
  match e.cut with
  | none => answer
  | some k => answer.take k

/-- `request`. -/
def request (e : RequestEnv) (answer : List UInt8) (c : Channel) : Channel × Option (List UInt8) :=
  if c.broken then (c, none)
  else if !e.sent then (c.issue.sever, none)
  else
    match (c.issue.deliver (e.delivered answer)).receive e.response RESPONSE_SIZE with
    | (c, none) => (c.sever, none)
    | (c, some r) => (c, some r)

/-- The handshake of `af_init` on a new channel; `status` is not zero if the worker could not
restrict itself. A failure there, or of the signal setup after it, shuts the runtime down. -/
def init (e : RequestEnv) (status : ℕ) (message : List UInt8) (installed : Bool) (c : Channel) :
    Channel :=
  if c.opened then c
  else
    match request e (respond status message [])
        { c with opened := true, broken := false, incoming := [] } with
    | (c, none) => { c with opened := false }
    | (c, some r) => if statusOf r ≠ 0 ∨ installed = false then { c with opened := false } else c

/-- `af_shutdown`. -/
def shutdown (c : Channel) : Channel := { c with opened := false }

/-- `af_get_worker_profile`. -/
def getWorkerProfile (e : RequestEnv) (profile : Bytes PROFILE_SIZE) (payload : Option ℕ)
    (c : Channel) : Channel :=
  if !c.opened then c
  else
    match request e (respond 0 "profile".toUTF8.toList profile.1) c with
    | (c, none) => c
    | (c, some r) =>
      if statusOf r ≠ 0 ∨ sizeOf r ≠ PROFILE_SIZE then c
      else (c.receive payload PROFILE_SIZE).1

/-- `af_worker_peak_rss`. -/
def workerPeakRss (e : RequestEnv) (message : List UInt8) (c : Channel) : Channel :=
  if !c.opened then c else (request e (respond 0 message []) c).1

/-- `request(DROP)` of `af_free`, `materialize` and `submit`. -/
def drop (e : RequestEnv) (c : Channel) : Channel :=
  if !c.opened then c else (request e (respond 0 "dropped".toUTF8.toList []) c).1

/-- How the worker answers a restore. -/
inductive Restored
  | refused (message : List UInt8)
  | done (data : Payload)

/-- The bytes of the answer; those of a shared restore are in the window. -/
def Restored.answer (shared : Bool) : Restored → List UInt8
  | .refused m => respond 1 m []
  | .done data =>
    if shared then image 0 data.bytes.length []
    else respond 0 "restored".toUTF8.toList data.bytes

/-- `restore_span`: every failure of it ends the process. -/
def restoreSpan (e : RequestEnv) (shared : Bool) (length : ℕ) (a : Restored)
    (isProtected isSealed : Bool) (payload : Option ℕ) (c : Channel) : Channel :=
  if !c.opened then c
  else
    match request e (a.answer shared) c with
    | (c, none) => c.exit
    | (c, some r) =>
      if statusOf r ≠ 0 ∨ sizeOf r ≠ length ∨ isProtected = false then c.exit
      else if shared then if isSealed then c else c.exit
      else
        match c.receive payload length with
        | (c, none) => c.exit
        | (c, some _) => if isSealed then c else c.exit

/-! ### Registrations -/

/-- How the worker answers a registration without streaming. -/
inductive Whole
  | refused (message : List UInt8)
  | committed (message : List UInt8) (record : Bytes REGISTRATION_SIZE) (output : Payload)

/-- The bytes of the answer. -/
def Whole.answer : Whole → List UInt8
  | .refused m => respond 1 m []
  | .committed m record output =>
    image 0 output.bytes.length m ++ record.1 ++ output.bytes

/-- The loop over the payload; `fails i` is the receipt of the `i`-th chunk. -/
def receiveChunks (fails : ℕ → Option ℕ) : ℕ → ℕ → ℕ → Channel → Channel × Bool
  | 0, _, _, c => (c, true)
  | fuel + 1, i, left, c =>
    if left = 0 then (c, true)
    else
      match c.receive (fails i) (min CHUNK left) with
      | (c, none) => (c.sever, false)
      | (c, some _) => receiveChunks fails fuel (i + 1) (left - min CHUNK left) c

/-- What the environment decides in a registration: the sends of the request and of the image, the
request's other choices, the receipt of the record, and the request that takes the registration back
if the comparison, the size of the record or the protection asks for it. -/
structure SubmitEnv where
  request : RequestEnv
  imageSent : Bool
  record : Option ℕ
  withdraw : Option RequestEnv

/-- The registration record, and what follows it. -/
def receiveRecord (e : SubmitEnv) (c : Channel) : Channel × Bool :=
  match c.receive e.record REGISTRATION_SIZE with
  | (c, none) => (c.sever, false)
  | (c, some r) => if badRecord (recordOf r) then (c.sever, false) else (c, true)

/-- The `DROP` of a registration that is taken back. -/
def withdraw (e : SubmitEnv) (c : Channel) : Channel :=
  match e.withdraw with
  | none => c
  | some d => drop d c

/-- `submit` with `REGISTER`, for an output of `length` bytes. -/
def submitWhole (e : SubmitEnv) (length : ℕ) (a : Whole) (chunks : ℕ → Option ℕ) (c : Channel) :
    Channel :=
  if !c.opened then c
  else if c.broken then c.sever
  else if !e.request.sent || !e.imageSent then c.issue.sever
  else
    match (c.issue.deliver (e.request.delivered a.answer)).receive e.request.response
        RESPONSE_SIZE with
    | (c, none) => c.sever
    | (c, some r) =>
      if statusOf r ≠ 0 then c
      else if sizeOf r ≠ length then c.sever
      else
        match receiveRecord e c with
        | (c, false) => c
        | (c, true) =>
          match receiveChunks chunks length 0 (sizeOf r) c with
          | (c, false) => c
          | (c, true) => withdraw e c

/-- One message of a streamed registration before its end. -/
inductive Turn
  | window (size : ℕ) (pos : 0 < size) (small : size < 2 ^ 64)
  | restart

/-- The end of a streamed registration. -/
inductive Ending
  | refused (message : List UInt8)
  | committed (message : List UInt8) (record : Bytes REGISTRATION_SIZE)

/-- The bytes of an end. -/
def Ending.answer : Ending → List UInt8
  | .refused m => respond 1 m []
  | .committed m record => image 0 0 m ++ record.1

/-- What the worker sends before it waits for an acknowledgement, and the turns after it. -/
def burst (ending : Ending) : List Turn → List UInt8 × List Turn
  | [] => (ending.answer, [])
  | .window size _ _ :: rest => (image 0 size [], rest)
  | .restart :: rest =>
    (image 2 0 "restart comparison with strict emulator".toUTF8.toList ++ (burst ending rest).1,
      (burst ending rest).2)

/-- The stream loop. `fails i` is the receipt of response `i`, `acked i` the send of the
acknowledgement after it; `turns` are those the worker takes after the next acknowledgement, and
`ended` says that it waits for none. -/
def streamLoop (fails : ℕ → Option ℕ) (acked : ℕ → Bool) (capacity length : ℕ) (ending : Ending) :
    ℕ → ℕ → ℕ → List Turn → Channel → Channel × Bool
  | 0, _, _, _, c => (c.sever, false)
  | fuel + 1, i, offset, turns, c =>
    match c.receive (fails i) RESPONSE_SIZE with
    | (c, none) => (c.sever, false)
    | (c, some r) =>
      if statusOf r = 2 ∧ sizeOf r = 0 then
        streamLoop fails acked capacity length ending fuel (i + 1) 0 turns c
      else if statusOf r ≠ 0 then (c, false)
      else if sizeOf r = 0 then (c, true)
      else if capacity < sizeOf r ∨ length < offset ∨ length - offset < sizeOf r then
        (c.sever, false)
      else if !acked i then (c.sever, false)
      else
        streamLoop fails acked capacity length ending fuel (i + 1) (offset + sizeOf r)
          (burst ending turns).2 (c.deliver (burst ending turns).1)

/-- `submit` with `REGISTER_STREAM`. -/
def submitStream (e : SubmitEnv) (capacity length : ℕ) (turns : List Turn) (ending : Ending)
    (fails : ℕ → Option ℕ) (acked : ℕ → Bool) (c : Channel) : Channel :=
  if !c.opened then c
  else if c.broken then c.sever
  else if !e.request.sent || !e.imageSent then c.issue.sever
  else
    match streamLoop fails acked capacity length ending (turns.length + 1) 0 0
        (burst ending turns).2 (c.issue.deliver (burst ending turns).1) with
    | (c, false) => c
    | (c, true) =>
      match receiveRecord e c with
      | (c, false) => c
      | (c, true) => withdraw e c

/-! ### Runs -/

/-- One exchange of the application with the worker, with what the environment decides in it. -/
inductive Op
  | init (e : RequestEnv) (status : ℕ) (message : List UInt8) (installed : Bool)
  | shutdown
  | profile (e : RequestEnv) (profile : Bytes PROFILE_SIZE) (payload : Option ℕ)
  | peakRss (e : RequestEnv) (message : List UInt8)
  | drop (e : RequestEnv)
  | restore (e : RequestEnv) (shared : Bool) (length : ℕ) (a : Restored)
      (isProtected isSealed : Bool) (payload : Option ℕ)
  | submit (e : SubmitEnv) (length : ℕ) (a : Whole) (chunks : ℕ → Option ℕ)
  | submitStream (e : SubmitEnv) (capacity length : ℕ) (turns : List Turn) (ending : Ending)
      (fails : ℕ → Option ℕ) (acked : ℕ → Bool)

/-- One exchange; a process that has ended makes none. -/
def step (c : Channel) (op : Op) : Channel :=
  if !c.running then c
  else
    match op with
    | .init e status message installed => init e status message installed c
    | .shutdown => shutdown c
    | .profile e profile payload => getWorkerProfile e profile payload c
    | .peakRss e message => workerPeakRss e message c
    | .drop e => Framing.drop e c
    | .restore e shared length a isProtected isSealed payload =>
      restoreSpan e shared length a isProtected isSealed payload c
    | .submit e length a chunks => submitWhole e length a chunks c
    | .submitStream e capacity length turns ending fails acked =>
      Framing.submitStream e capacity length turns ending fails acked c

/-- The exchanges one after the other. -/
def run (c : Channel) (ops : List Op) : Channel := ops.foldl step c

/-- The profile leaves bytes behind: on an open channel the response arrives, but the receipt of the
payload fails before all bytes that the worker sends are taken. -/
def Strands (c : Channel) : Op → Prop
  | .profile e profile (some k) => c.opened = true ∧ c.broken = false ∧ e.sent = true ∧
      e.response = none ∧ RESPONSE_SIZE + min k (PROFILE_SIZE - 1) <
        (e.delivered (respond 0 "profile".toUTF8.toList profile.1)).length
  | _ => False

/-- No exchange of the run leaves bytes behind. -/
def Unstranded : Channel → List Op → Prop
  | _, [] => True
  | c, op :: ops => ¬ Strands c op ∧ Unstranded (step c op) ops

/-! ### Records are read back -/

theorem image_length (status size : ℕ) (message : List UInt8) :
    (image status size message).length = RESPONSE_SIZE := by
  unfold image RESPONSE_SIZE
  rw [List.length_append, List.length_append, leBytes_length, leBytes_length, List.length_take,
    List.length_append, List.length_replicate]
  omega

theorem statusOf_image {status size : ℕ} (message : List UInt8) (h : status < 2 ^ 64) :
    statusOf (image status size message) = status := by
  unfold statusOf fieldAt image
  rw [List.drop_zero, List.append_assoc, List.take_append_of_le_length (by rw [leBytes_length]),
    List.take_of_length_le (by rw [leBytes_length])]
  exact leNat_leBytes h

theorem sizeOf_image {status size : ℕ} (message : List UInt8) (h : size < 2 ^ 64) :
    sizeOf (image status size message) = size := by
  unfold sizeOf fieldAt image
  rw [List.append_assoc, List.drop_append_of_le_length (by rw [leBytes_length]),
    List.drop_of_length_le (by rw [leBytes_length]), List.nil_append,
    List.take_append_of_le_length (by rw [leBytes_length]),
    List.take_of_length_le (by rw [leBytes_length])]
  exact leNat_leBytes h

/-! ### Receiving -/

/-- Every byte taken so far belongs to the request of the call that took it. -/
def Own (c : Channel) : Prop := ∀ x ∈ c.consumed, x.1 = x.2

/-- In the middle of an exchange: what is still to come belongs to it. -/
structure Busy (c : Channel) : Prop where
  own : Own c
  current : ∀ x ∈ c.incoming, x.tag = c.issued

/-- **Between exchanges**: on a channel in use nothing is left to come. -/
structure Clean (c : Channel) : Prop where
  own : Own c
  empty : c.running = true → c.opened = true → c.broken = false → c.incoming = []

theorem Busy.take {c : Channel} (h : Busy c) (n : ℕ) : Busy (c.take n) := by
  refine ⟨fun x hx => ?_, fun x hx => h.current x (List.mem_of_mem_drop hx)⟩
  rcases List.mem_append.mp hx with hx | hx
  · exact h.own x hx
  · obtain ⟨y, hy, rfl⟩ := List.mem_map.mp hx
    exact (h.current y (List.mem_of_mem_take hy)).symm

theorem Busy.receive {c : Channel} (h : Busy c) (fails : Option ℕ) (n : ℕ) :
    Busy (c.receive fails n).1 := by
  unfold Channel.receive
  by_cases hn : n = 0
  · rw [if_pos hn]
    exact h
  rw [if_neg hn]
  cases fails with
  | none =>
    dsimp only
    split_ifs
    · exact h.take n
    · exact h.take _
  | some k => exact h.take _

theorem Busy.deliver {c : Channel} (h : Busy c) (answer : List UInt8) :
    Busy (c.deliver answer) := by
  refine ⟨h.own, fun x hx => ?_⟩
  rcases List.mem_append.mp hx with hx | hx
  · exact h.current x hx
  · obtain ⟨v, -, rfl⟩ := List.mem_map.mp hx
    rfl

theorem Clean.issue {c : Channel} (h : Clean c) (hr : c.running = true) (ho : c.opened = true)
    (hb : c.broken = false) : Busy c.issue := by
  refine ⟨h.own, fun x hx => ?_⟩
  rw [show c.issue.incoming = [] from h.empty hr ho hb] at hx
  cases hx

theorem receive_flags (c : Channel) (fails : Option ℕ) (n : ℕ) :
    (c.receive fails n).1.running = c.running ∧ (c.receive fails n).1.opened = c.opened ∧
      (c.receive fails n).1.broken = c.broken ∧ (c.receive fails n).1.issued = c.issued := by
  unfold Channel.receive
  by_cases hn : n = 0
  · rw [if_pos hn]
    exact ⟨rfl, rfl, rfl, rfl⟩
  rw [if_neg hn]
  cases fails with
  | none =>
    dsimp only
    split_ifs <;> exact ⟨rfl, rfl, rfl, rfl⟩
  | some k => exact ⟨rfl, rfl, rfl, rfl⟩

/-- **A successful receive** takes the next bytes and nothing else. -/
theorem receive_ok {c c' : Channel} {fails : Option ℕ} {n t : ℕ} {l r : List UInt8}
    (hl : c.incoming = l.map (Cell.mk t)) (h : c.receive fails n = (c', some r)) :
    n ≤ l.length ∧ r = l.take n ∧ c'.incoming = (l.drop n).map (Cell.mk t) := by
  unfold Channel.receive at h
  by_cases hn : n = 0
  · rw [if_pos hn] at h
    cases h
    subst hn
    exact ⟨Nat.zero_le _, rfl, hl⟩
  rw [if_neg hn] at h
  cases fails with
  | none =>
    dsimp only at h
    split_ifs at h with hle
    · cases h
      rw [hl, List.length_map] at hle
      refine ⟨hle, ?_, ?_⟩
      · rw [hl, ← List.map_take, List.map_map]
        exact List.map_id _
      · show List.drop n c.incoming = _
        rw [hl, List.map_drop]
    · cases h
  | some k => cases h

theorem receive_none {c c' : Channel} {fails : Option ℕ} {n : ℕ} {r : List UInt8} (hn : n ≠ 0)
    (h : c.receive fails n = (c', some r)) : fails = none := by
  unfold Channel.receive at h
  rw [if_neg hn] at h
  cases fails with
  | none => rfl
  | some k => cases h

/-! ### Exchanges keep the framing -/

theorem Clean.of_broken {c : Channel} (h : Own c) (hb : c.broken = true) : Clean c :=
  ⟨h, fun _ _ hf => Bool.noConfusion (hb.symm.trans hf)⟩

theorem Clean.of_closed {c : Channel} (h : Own c) (hb : c.opened = false) : Clean c :=
  ⟨h, fun _ hf _ => Bool.noConfusion (hb.symm.trans hf)⟩

theorem Clean.of_exit {c : Channel} (h : Own c) : Clean c.exit :=
  ⟨h, fun hf => Bool.noConfusion hf⟩

theorem Clean.of_empty {c : Channel} (h : Own c) (he : c.incoming = []) : Clean c :=
  ⟨h, fun _ _ _ => he⟩

/-- An exchange on a channel in use. -/
structure InUse (c : Channel) : Prop where
  clean : Clean c
  running : c.running = true
  opened : c.opened = true

/-- **`request`**: it fails and marks the channel, or it has the response and the rest of the answer
is to come. -/
theorem request_cases {c : Channel} (h : InUse c) (e : RequestEnv) (answer : List UInt8) :
    (∃ c', request e answer c = (c', none) ∧ c'.broken = true ∧ Own c') ∨
    ∃ c' r, request e answer c = (c', some r) ∧ Busy c' ∧ c.broken = false ∧ e.sent = true ∧
      e.response = none ∧ RESPONSE_SIZE ≤ (e.delivered answer).length ∧
      r = (e.delivered answer).take RESPONSE_SIZE ∧
      c'.incoming = ((e.delivered answer).drop RESPONSE_SIZE).map (Cell.mk c'.issued) := by
  unfold request
  by_cases hb : c.broken = true
  · rw [if_pos hb]
    exact Or.inl ⟨c, rfl, hb, h.clean.own⟩
  rw [if_neg hb]
  have hb' : c.broken = false := by simpa using hb
  by_cases hs : (!e.sent) = true
  · rw [if_pos hs]
    exact Or.inl ⟨_, rfl, rfl, h.clean.own⟩
  rw [if_neg hs]
  have hbusy := (h.clean.issue h.running h.opened hb').deliver (e.delivered answer)
  have hinc : (c.issue.deliver (e.delivered answer)).incoming =
      (e.delivered answer).map (Cell.mk c.issue.issued) := by
    show c.incoming ++ _ = _
    rw [h.clean.empty h.running h.opened hb', List.nil_append]
  have hrb := hbusy.receive e.response RESPONSE_SIZE
  have hfl := receive_flags (c.issue.deliver (e.delivered answer)) e.response RESPONSE_SIZE
  rcases hrec : (c.issue.deliver (e.delivered answer)).receive e.response RESPONSE_SIZE with
    ⟨c', _ | r⟩
  · rw [hrec] at hrb
    exact Or.inl ⟨_, rfl, rfl, hrb.own⟩
  · rw [hrec] at hrb hfl
    obtain ⟨hle, hr, hrest⟩ := receive_ok hinc hrec
    refine Or.inr ⟨c', r, rfl, hrb, hb', by simpa using hs, receive_none (by decide) hrec, hle, hr,
      ?_⟩
    rw [hrest, ← show c'.issued = c.issue.issued from hfl.2.2.2]

theorem delivered_prefix (e : RequestEnv) (answer : List UInt8) {n : ℕ}
    (h : n ≤ (e.delivered answer).length) :
    (e.delivered answer).take n = answer.take n ∧ (e.delivered answer).length ≤ answer.length := by
  unfold RequestEnv.delivered at *
  cases hc : e.cut with
  | none => exact ⟨rfl, le_rfl⟩
  | some k =>
    rw [hc] at h
    dsimp only at h ⊢
    rw [List.length_take] at h ⊢
    rw [List.take_take, min_eq_left (by omega)]
    exact ⟨rfl, by omega⟩

theorem request_response {c : Channel} (h : InUse c) (e : RequestEnv) (status size : ℕ)
    (message : List UInt8) :
    (∃ c', request e (image status size message) c = (c', none) ∧ c'.broken = true ∧ Own c') ∨
    ∃ c', request e (image status size message) c = (c', some (image status size message)) ∧
      Own c' ∧ c'.incoming = [] := by
  rcases request_cases h e (image status size message) with
    hf | ⟨c', r, hq, hbusy, -, -, -, hle, rfl, hinc⟩
  · exact Or.inl hf
  · obtain ⟨ht, hl⟩ := delivered_prefix e _ hle
    rw [image_length] at hl
    refine Or.inr ⟨c', ?_, hbusy.own, ?_⟩
    · rw [hq, ht, List.take_of_length_le (by rw [image_length])]
    · rw [hinc, List.drop_of_length_le hl, List.map_nil]

theorem respond_nil (status : ℕ) (message : List UInt8) :
    respond status message [] = image status 0 message := List.append_nil _

theorem Clean.simple {c : Channel} (h : InUse c) (e : RequestEnv) (status : ℕ)
    (message : List UInt8) : Clean (request e (respond status message []) c).1 := by
  rw [respond_nil]
  rcases request_response h e status 0 message with ⟨c', hq, hb, ho⟩ | ⟨c', hq, ho, hi⟩
  · rw [hq]
    exact .of_broken ho hb
  · rw [hq]
    exact .of_empty ho hi

theorem Clean.init {c : Channel} (h : Clean c) (hr : c.running = true) (e : RequestEnv) (status : ℕ)
    (message : List UInt8) (installed : Bool) : Clean (init e status message installed c) := by
  unfold Framing.init
  by_cases ho : c.opened = true
  · rw [if_pos ho]
    exact h
  rw [if_neg ho, respond_nil]
  have huse : InUse { c with opened := true, broken := false, incoming := [] } :=
    ⟨⟨h.own, fun _ _ _ => rfl⟩, hr, rfl⟩
  rcases request_response huse e status 0 message with ⟨c', hq, hb, hown⟩ | ⟨c', hq, hown, hi⟩
  · rw [hq]
    exact .of_closed hown rfl
  · rw [hq]
    dsimp only
    split_ifs
    · exact .of_closed hown rfl
    · exact .of_empty hown hi

theorem Clean.drop {c : Channel} (h : Clean c) (hr : c.running = true) (e : RequestEnv) :
    Clean (Framing.drop e c) := by
  unfold Framing.drop
  by_cases ho : (!c.opened) = true
  · rw [if_pos ho]
    exact h
  · rw [if_neg ho]
    exact .simple ⟨h, hr, by simpa using ho⟩ _ _ _

theorem Clean.workerPeakRss {c : Channel} (h : Clean c) (hr : c.running = true) (e : RequestEnv)
    (message : List UInt8) : Clean (workerPeakRss e message c) := by
  unfold Framing.workerPeakRss
  by_cases ho : (!c.opened) = true
  · rw [if_pos ho]
    exact h
  · rw [if_neg ho]
    exact .simple ⟨h, hr, by simpa using ho⟩ _ _ _

/-- An answer with a payload: the response comes first. -/
theorem request_payload {c : Channel} (h : InUse c) (e : RequestEnv) (status : ℕ)
    (message data : List UInt8) :
    (∃ c', request e (respond status message data) c = (c', none) ∧ c'.broken = true ∧ Own c') ∨
    ∃ (c' : Channel) (rest : List UInt8), request e (respond status message data) c =
        (c', some (image status data.length message)) ∧
      Busy c' ∧ c.broken = false ∧ e.sent = true ∧ e.response = none ∧
      (e.delivered (respond status message data)).length = RESPONSE_SIZE + rest.length ∧
      rest.length ≤ data.length ∧ c'.incoming = rest.map (Cell.mk c'.issued) := by
  rcases request_cases h e (respond status message data) with
    hf | ⟨c', r, hq, hbusy, hb, hs, hres, hle, rfl, hinc⟩
  · exact Or.inl hf
  · obtain ⟨ht, hl⟩ := delivered_prefix e _ hle
    refine Or.inr ⟨c', _, ?_, hbusy, hb, hs, hres, ?_, ?_, hinc⟩
    · rw [hq, ht]
      unfold respond
      rw [List.take_append_of_le_length (by rw [image_length]),
        List.take_of_length_le (by rw [image_length])]
    · rw [List.length_drop]
      omega
    · unfold respond at hl
      rw [List.length_append, image_length] at hl
      rw [List.length_drop]
      unfold respond
      omega

/-- **`af_get_worker_profile`** keeps the framing unless it leaves bytes behind. -/
theorem Clean.profile {c : Channel} (h : Clean c) (hr : c.running = true) {e : RequestEnv}
    {profile : Bytes PROFILE_SIZE} {payload : Option ℕ}
    (hn : ¬ Strands c (.profile e profile payload)) :
    Clean (getWorkerProfile e profile payload c) := by
  unfold getWorkerProfile
  by_cases ho : (!c.opened) = true
  · rw [if_pos ho]
    exact h
  rw [if_neg ho]
  have ho' : c.opened = true := by simpa using ho
  rcases request_payload ⟨h, hr, ho'⟩ e 0 "profile".toUTF8.toList profile.1 with
    ⟨c', hq, hb, hown⟩ | ⟨c', rest, hq, hbusy, hb, hs, hres, hlen, hle, hinc⟩
  · rw [hq]
    exact .of_broken hown hb
  · rw [hq]
    dsimp only
    rw [statusOf_image _ (by decide), sizeOf_image _ (by rw [profile.2]; decide), profile.2,
      if_neg (by simp)]
    have hbr := hbusy.receive payload PROFILE_SIZE
    rw [profile.2] at hle
    refine .of_empty hbr.own ?_
    cases payload with
    | none =>
      -- all bytes that were sent are taken, whether they are enough or not
      unfold Channel.receive
      rw [if_neg (by decide)]
      dsimp only
      have hlen' : c'.incoming.length = rest.length := by rw [hinc, List.length_map]
      split_ifs
      · show c'.incoming.drop PROFILE_SIZE = []
        exact List.drop_of_length_le (by omega)
      · show c'.incoming.drop c'.incoming.length = []
        exact List.drop_length
    | some k =>
      unfold Channel.receive
      rw [if_neg (by decide)]
      show c'.incoming.drop (min k (PROFILE_SIZE - 1)) = []
      refine List.drop_of_length_le ?_
      rw [hinc, List.length_map]
      by_contra hlt
      exact hn ⟨ho', hb, hs, hres, by rw [hlen]; omega⟩

/-- **`restore_span`** takes its whole answer or ends the process. -/
theorem Clean.restoreSpan {c : Channel} (h : Clean c) (hr : c.running = true) (e : RequestEnv)
    (shared : Bool) (length : ℕ) (a : Restored) (isProtected isSealed : Bool) (payload : Option ℕ) :
    Clean (restoreSpan e shared length a isProtected isSealed payload c) := by
  unfold Framing.restoreSpan
  by_cases ho : (!c.opened) = true
  · rw [if_pos ho]
    exact h
  rw [if_neg ho]
  have huse : InUse c := ⟨h, hr, by simpa using ho⟩
  cases a with
  | refused m =>
    show Clean (match request e (respond 1 m []) c with | (c, none) => _ | (c, some r) => _)
    rw [respond_nil]
    rcases request_response huse e 1 0 m with ⟨c', hq, -, hown⟩ | ⟨c', hq, hown, -⟩
    · rw [hq]
      exact .of_exit hown
    · rw [hq]
      dsimp only
      rw [statusOf_image _ (by decide), if_pos (Or.inl (by decide))]
      exact .of_exit hown
  | done data =>
    cases shared with
    | true =>
      show Clean (match request e (image 0 data.bytes.length []) c with
        | (c, none) => _ | (c, some r) => _)
      rcases request_response huse e 0 data.bytes.length [] with
        ⟨c', hq, -, hown⟩ | ⟨c', hq, hown, hi⟩
      · rw [hq]
        exact .of_exit hown
      · rw [hq]
        dsimp only
        split
        · exact .of_exit hown
        rw [if_pos rfl]
        split
        · exact .of_empty hown hi
        · exact .of_exit hown
    | false =>
      show Clean (match request e (respond 0 "restored".toUTF8.toList data.bytes) c with
        | (c, none) => _ | (c, some r) => _)
      rcases request_payload huse e 0 "restored".toUTF8.toList data.bytes with
        ⟨c', hq, -, hown⟩ | ⟨c', rest, hq, hbusy, -, -, -, -, hle, hinc⟩
      · rw [hq]
        exact .of_exit hown
      · rw [hq]
        dsimp only
        rw [statusOf_image _ (by decide), sizeOf_image _ data.small]
        by_cases hbad : (0 : ℕ) ≠ 0 ∨ data.bytes.length ≠ length ∨ isProtected = false
        · rw [if_pos hbad]
          exact .of_exit hbusy.own
        rw [if_neg hbad, if_neg Bool.false_ne_true]
        have hlen : data.bytes.length = length := by
          by_contra hne
          exact hbad (Or.inr (Or.inl hne))
        have hbr := hbusy.receive payload length
        rcases hrec : c'.receive payload length with ⟨c'', _ | r⟩
        · rw [hrec] at hbr
          exact .of_exit hbr.own
        · rw [hrec] at hbr
          obtain ⟨-, -, hrest⟩ := receive_ok hinc hrec
          dsimp only
          split_ifs
          · refine .of_empty hbr.own ?_
            rw [hrest, List.drop_of_length_le (by omega), List.map_nil]
          · exact .of_exit hbr.own

/-! ### Registrations keep the framing -/

/-- **The payload loop** takes all bytes that are left, or marks the channel. -/
theorem receiveChunks_cases (fails : ℕ → Option ℕ) {t : ℕ} : ∀ (fuel i left : ℕ) (c : Channel)
    (l : List UInt8), left ≤ fuel → Busy c → c.incoming = l.map (Cell.mk t) →
    Busy (receiveChunks fails fuel i left c).1 ∧
      ((receiveChunks fails fuel i left c).2 = false →
        (receiveChunks fails fuel i left c).1.broken = true) ∧
      ((receiveChunks fails fuel i left c).2 = true →
        (receiveChunks fails fuel i left c).1.incoming = (l.drop left).map (Cell.mk t) ∧
        (receiveChunks fails fuel i left c).1.running = c.running)
  | 0, i, left, c, l, hle, hb, hl => by
    obtain rfl : left = 0 := by omega
    exact ⟨hb, fun h => Bool.noConfusion h, fun _ => ⟨hl, rfl⟩⟩
  | fuel + 1, i, left, c, l, hle, hb, hl => by
    unfold receiveChunks
    by_cases h0 : left = 0
    · rw [if_pos h0]
      subst h0
      exact ⟨hb, fun h => Bool.noConfusion h, fun _ => ⟨hl, rfl⟩⟩
    rw [if_neg h0]
    have hpos : 0 < CHUNK := by decide
    have hbr := hb.receive (fails i) (min CHUNK left)
    have hfl := receive_flags c (fails i) (min CHUNK left)
    rcases hrec : c.receive (fails i) (min CHUNK left) with ⟨c', _ | r⟩
    · rw [hrec] at hbr
      exact ⟨⟨hbr.own, hbr.current⟩, fun _ => rfl, fun h => Bool.noConfusion h⟩
    · rw [hrec] at hbr hfl
      obtain ⟨-, -, hrest⟩ := receive_ok hl hrec
      obtain ⟨h1, h2, h3⟩ := receiveChunks_cases fails fuel (i + 1) (left - min CHUNK left) c' _
        (by omega) hbr hrest
      refine ⟨h1, h2, fun h => ?_⟩
      obtain ⟨h4, h5⟩ := h3 h
      refine ⟨?_, h5.trans hfl.1⟩
      rw [h4, List.drop_drop, Nat.add_sub_cancel' (Nat.min_le_right _ _)]

theorem receiveRecord_cases (e : SubmitEnv) {c : Channel} {t : ℕ} {l : List UInt8} (hb : Busy c)
    (hl : c.incoming = l.map (Cell.mk t)) :
    (∃ c', receiveRecord e c = (c', false) ∧ c'.broken = true ∧ Own c') ∨
    ∃ c', receiveRecord e c = (c', true) ∧ Busy c' ∧ c'.running = c.running ∧
      c'.incoming = (l.drop REGISTRATION_SIZE).map (Cell.mk t) := by
  unfold receiveRecord
  have hbr := hb.receive e.record REGISTRATION_SIZE
  have hfl := receive_flags c e.record REGISTRATION_SIZE
  rcases hrec : c.receive e.record REGISTRATION_SIZE with ⟨c', _ | r⟩
  · rw [hrec] at hbr
    exact Or.inl ⟨_, rfl, rfl, hbr.own⟩
  · rw [hrec] at hbr hfl
    obtain ⟨-, -, hrest⟩ := receive_ok hl hrec
    by_cases hbad : badRecord (recordOf r) = true
    · refine Or.inl ⟨c'.sever, ?_, rfl, hbr.own⟩
      dsimp only
      rw [if_pos hbad]
    · refine Or.inr ⟨c', ?_, hbr, hfl.1, hrest⟩
      dsimp only
      rw [if_neg hbad]

theorem Clean.withdraw {c : Channel} (h : Clean c) (hr : c.running = true) (e : SubmitEnv) :
    Clean (Framing.withdraw e c) := by
  unfold Framing.withdraw
  split
  · exact h
  · exact h.drop hr _

/-- **`submit` without streaming.** -/
theorem Clean.submitWhole {c : Channel} (h : Clean c) (hr : c.running = true) (e : SubmitEnv)
    (length : ℕ) (a : Whole) (chunks : ℕ → Option ℕ) :
    Clean (submitWhole e length a chunks c) := by
  unfold Framing.submitWhole
  by_cases ho : (!c.opened) = true
  · rw [if_pos ho]
    exact h
  rw [if_neg ho]
  by_cases hb : c.broken = true
  · rw [if_pos hb]
    exact .of_broken h.own rfl
  rw [if_neg hb]
  by_cases hs : (!e.request.sent || !e.imageSent) = true
  · rw [if_pos hs]
    exact .of_broken h.own rfl
  rw [if_neg hs]
  have hb' : c.broken = false := by simpa using hb
  have ho' : c.opened = true := by simpa using ho
  have hbusy := (h.issue hr ho' hb').deliver (e.request.delivered a.answer)
  have hinc : (c.issue.deliver (e.request.delivered a.answer)).incoming =
      (e.request.delivered a.answer).map (Cell.mk c.issue.issued) := by
    show c.incoming ++ _ = _
    rw [h.empty hr ho' hb', List.nil_append]
  have hbr := hbusy.receive e.request.response RESPONSE_SIZE
  have hfl := receive_flags (c.issue.deliver (e.request.delivered a.answer)) e.request.response
    RESPONSE_SIZE
  rcases hrec : (c.issue.deliver (e.request.delivered a.answer)).receive e.request.response
    RESPONSE_SIZE with ⟨c', _ | r⟩
  · rw [hrec] at hbr
    exact .of_broken hbr.own rfl
  rw [hrec] at hbr hfl
  obtain ⟨hle, hr', hrest⟩ := receive_ok hinc hrec
  obtain ⟨ht, hl⟩ := delivered_prefix e.request _ hle
  dsimp only
  cases a with
  | refused m =>
    have him : r = image 1 0 m := by
      rw [hr', ht]
      show (respond 1 m []).take _ = _
      rw [respond_nil, List.take_of_length_le (by rw [image_length])]
    rw [him, statusOf_image _ (by decide), if_pos (by decide)]
    refine .of_empty hbr.own ?_
    change _ ≤ (respond 1 m []).length at hl
    rw [respond_nil, image_length] at hl
    rw [hrest, List.drop_of_length_le hl, List.map_nil]
  | committed m record output =>
    have him : r = image 0 output.bytes.length m := by
      rw [hr', ht]
      show (image 0 output.bytes.length m ++ record.1 ++ output.bytes).take _ = _
      rw [List.append_assoc, List.take_append_of_le_length (by rw [image_length]),
        List.take_of_length_le (by rw [image_length])]
    rw [him, statusOf_image _ (by decide), sizeOf_image _ output.small, if_neg (by decide)]
    by_cases hsz : output.bytes.length ≠ length
    · rw [if_pos hsz]
      exact .of_broken hbr.own rfl
    rw [if_neg hsz]
    have hsz' : output.bytes.length = length := not_not.mp hsz
    rcases receiveRecord_cases e hbr hrest with ⟨c1, hq, hb1, ho1⟩ | ⟨c1, hq, hbusy1, hr1, hinc1⟩
    · rw [hq]
      exact .of_broken ho1 hb1
    rw [hq]
    dsimp only
    obtain ⟨h1, h2, h3⟩ := receiveChunks_cases chunks length 0 output.bytes.length c1 _ (by omega)
      hbusy1 hinc1
    rcases hch : receiveChunks chunks length 0 output.bytes.length c1 with ⟨c2, _ | _⟩
    · rw [hch] at h1 h2
      exact .of_broken h1.own (h2 rfl)
    · rw [hch] at h1 h3
      obtain ⟨h4, h5⟩ := h3 rfl
      refine Clean.withdraw (.of_empty h1.own ?_) (h5.trans (hr1.trans (hfl.1.trans hr))) e
      -- the whole answer is a response, a record and the payload
      have hall : (Whole.committed m record output).answer.length =
          RESPONSE_SIZE + REGISTRATION_SIZE + output.bytes.length := by
        show (image 0 output.bytes.length m ++ record.1 ++ output.bytes).length = _
        rw [List.length_append, List.length_append, image_length, record.2]
      rw [h4, List.drop_of_length_le, List.map_nil]
      rw [List.length_drop, List.length_drop]
      omega

/-- The state of the stream loop when it ends. -/
structure StreamEnd (ending : Ending) (c : Channel) (result : Channel × Bool) : Prop where
  busy : Busy result.1
  running : result.1.running = c.running
  refused : result.2 = false → result.1.broken = true ∨ result.1.incoming = []
  finished : result.2 = true → ∃ m record t, ending = .committed m record ∧
    result.1.incoming = record.1.map (Cell.mk t)

theorem receive_image {c c' : Channel} {fails : Option ℕ} {t status size : ℕ}
    {message rest r : List UInt8}
    (hl : c.incoming = (image status size message ++ rest).map (Cell.mk t))
    (h : c.receive fails RESPONSE_SIZE = (c', some r)) :
    r = image status size message ∧ c'.incoming = rest.map (Cell.mk t) := by
  obtain ⟨-, hr, hrest⟩ := receive_ok hl h
  rw [List.take_append_of_le_length (by rw [image_length]),
    List.take_of_length_le (by rw [image_length])] at hr
  rw [List.drop_append_of_le_length (by rw [image_length]),
    List.drop_of_length_le (by rw [image_length]), List.nil_append] at hrest
  exact ⟨hr, hrest⟩

/-- **The stream loop.** The induction is on the turns; what is to come is the burst they begin
with. -/
theorem streamLoop_end (fails : ℕ → Option ℕ) (acked : ℕ → Bool) (capacity length : ℕ)
    (ending : Ending) : ∀ (turns : List Turn) (fuel i offset : ℕ) (c : Channel),
    turns.length < fuel → Busy c → c.incoming = (burst ending turns).1.map (Cell.mk c.issued) →
    StreamEnd ending c (streamLoop fails acked capacity length ending fuel i offset
      (burst ending turns).2 c) := by
  intro turns
  induction turns with
  | nil =>
    intro fuel i offset c hfuel hb hl
    obtain ⟨fuel, rfl⟩ : ∃ k, fuel = k + 1 := ⟨fuel - 1, by omega⟩
    unfold streamLoop
    have hbr := hb.receive (fails i) RESPONSE_SIZE
    have hfl := receive_flags c (fails i) RESPONSE_SIZE
    rcases hrec : c.receive (fails i) RESPONSE_SIZE with ⟨c', _ | r⟩
    · rw [hrec] at hbr hfl
      exact ⟨⟨hbr.own, hbr.current⟩, hfl.1, fun _ => Or.inl rfl, fun h => Bool.noConfusion h⟩
    rw [hrec] at hbr hfl
    dsimp only
    cases ending with
    | refused m =>
      obtain ⟨rfl, hrest⟩ := (@receive_image _ _ _ _ _ _ _ []) hl hrec
      rw [statusOf_image _ (by decide), if_neg (by simp), if_pos (by simp)]
      exact ⟨hbr, hfl.1, fun _ => Or.inr hrest, fun h => Bool.noConfusion h⟩
    | committed m record =>
      obtain ⟨rfl, hrest⟩ := (@receive_image _ _ _ _ _ _ _ record.1) hl hrec
      rw [statusOf_image _ (by decide), sizeOf_image _ (by decide), if_neg (by simp),
        if_neg (by simp), if_pos rfl]
      exact ⟨hbr, hfl.1, fun h => Bool.noConfusion h, fun _ => ⟨m, record, _, rfl, hrest⟩⟩
  | cons turn rest ih =>
    intro fuel i offset c hfuel hb hl
    rw [List.length_cons] at hfuel
    obtain ⟨fuel, rfl⟩ : ∃ k, fuel = k + 1 := ⟨fuel - 1, by omega⟩
    unfold streamLoop
    have hbr := hb.receive (fails i) RESPONSE_SIZE
    have hfl := receive_flags c (fails i) RESPONSE_SIZE
    rcases hrec : c.receive (fails i) RESPONSE_SIZE with ⟨c', _ | r⟩
    · rw [hrec] at hbr hfl
      exact ⟨⟨hbr.own, hbr.current⟩, hfl.1, fun _ => Or.inl rfl, fun h => Bool.noConfusion h⟩
    rw [hrec] at hbr hfl
    dsimp only
    cases turn with
    | window size pos small =>
      obtain ⟨rfl, hrest⟩ := (@receive_image _ _ _ _ _ size _ [])
        (by rw [List.append_nil]; exact hl) hrec
      rw [statusOf_image _ (by decide), sizeOf_image _ small, if_neg (by simp), if_neg (by simp),
        if_neg (by omega)]
      by_cases hbad : capacity < size ∨ length < offset ∨ length - offset < size
      · rw [if_pos hbad]
        exact ⟨⟨hbr.own, hbr.current⟩, hfl.1, fun _ => Or.inl rfl, fun h => Bool.noConfusion h⟩
      rw [if_neg hbad]
      by_cases hack : (!acked i) = true
      · rw [if_pos hack]
        exact ⟨⟨hbr.own, hbr.current⟩, hfl.1, fun _ => Or.inl rfl, fun h => Bool.noConfusion h⟩
      rw [if_neg hack]
      -- the acknowledgement sets off the burst of the remaining turns
      have hnext := ih fuel (i + 1) (offset + size) (c'.deliver (burst ending rest).1) (by omega)
        (hbr.deliver _) (by show c'.incoming ++ _ = _; rw [hrest]; rfl)
      exact ⟨hnext.busy, hnext.running.trans hfl.1, hnext.refused, hnext.finished⟩
    | restart =>
      obtain ⟨rfl, hrest⟩ := (@receive_image _ _ _ _ _ _ _ ((burst ending rest).1)) hl hrec
      rw [statusOf_image _ (by decide), sizeOf_image _ (by decide), if_pos ⟨rfl, rfl⟩]
      have hnext := ih fuel (i + 1) 0 c' (by omega) hbr (by rw [hrest, hfl.2.2.2])
      exact ⟨hnext.busy, hnext.running.trans hfl.1, hnext.refused, hnext.finished⟩

/-- **`submit` with streaming.** -/
theorem Clean.submitStream {c : Channel} (h : Clean c) (hr : c.running = true) (e : SubmitEnv)
    (capacity length : ℕ) (turns : List Turn) (ending : Ending) (fails : ℕ → Option ℕ)
    (acked : ℕ → Bool) :
    Clean (submitStream e capacity length turns ending fails acked c) := by
  unfold Framing.submitStream
  by_cases ho : (!c.opened) = true
  · rw [if_pos ho]
    exact h
  rw [if_neg ho]
  by_cases hb : c.broken = true
  · rw [if_pos hb]
    exact .of_broken h.own rfl
  rw [if_neg hb]
  by_cases hs : (!e.request.sent || !e.imageSent) = true
  · rw [if_pos hs]
    exact .of_broken h.own rfl
  rw [if_neg hs]
  have hb' : c.broken = false := by simpa using hb
  have ho' : c.opened = true := by simpa using ho
  have hend := streamLoop_end fails acked capacity length ending turns (turns.length + 1) 0 0
    (c.issue.deliver (burst ending turns).1) (Nat.lt_succ_self _)
    ((h.issue hr ho' hb').deliver _) (by
      show c.incoming ++ _ = _
      rw [h.empty hr ho' hb', List.nil_append]
      rfl)
  rcases hloop : Framing.streamLoop fails acked capacity length ending (turns.length + 1) 0 0
    (burst ending turns).2 (c.issue.deliver (burst ending turns).1) with ⟨c1, _ | _⟩
  · rw [hloop] at hend
    rcases hend.refused rfl with hb1 | hi
    · exact .of_broken hend.busy.own hb1
    · exact .of_empty hend.busy.own hi
  · rw [hloop] at hend
    obtain ⟨m, record, t, -, hinc⟩ := hend.finished rfl
    dsimp only
    rcases receiveRecord_cases e hend.busy hinc with ⟨c2, hq, hb2, ho2⟩ | ⟨c2, hq, hbusy, hr2, hi2⟩
    · rw [hq]
      exact .of_broken ho2 hb2
    · rw [hq]
      refine Clean.withdraw (.of_empty hbusy.own ?_) (hr2.trans (hend.running.trans hr)) e
      rw [hi2, List.drop_of_length_le (le_of_eq record.2), List.map_nil]

/-! ### Every run -/

/-- **Every exchange that leaves no bytes behind keeps the framing.** -/
theorem Clean.step {c : Channel} (h : Clean c) {op : Op} (hn : ¬ Strands c op) :
    Clean (step c op) := by
  unfold Framing.step
  by_cases hr : (!c.running) = true
  · rw [if_pos hr]
    exact h
  rw [if_neg hr]
  have hr' : c.running = true := by simpa using hr
  cases op with
  | init e status message installed => exact h.init hr' e status message installed
  | shutdown => exact .of_closed h.own rfl
  | profile e profile payload => exact h.profile hr' hn
  | peakRss e message => exact h.workerPeakRss hr' e message
  | drop e => exact h.drop hr' e
  | restore e shared length a isProtected isSealed payload =>
    exact h.restoreSpan hr' e shared length a isProtected isSealed payload
  | submit e length a chunks => exact h.submitWhole hr' e length a chunks
  | submitStream e capacity length turns ending fails acked =>
    exact h.submitStream hr' e capacity length turns ending fails acked

theorem Clean.run {c : Channel} (h : Clean c) {ops : List Op} (hn : Unstranded c ops) :
    Clean (run c ops) := by
  induction ops generalizing c with
  | nil => exact h
  | cons op ops ih => exact ih (h.step hn.1) hn.2

/-- **Requests and answers stay together.** In every run in which no `af_get_worker_profile` leaves
bytes of its payload behind, every byte the application takes from the channel answers the request
of the call that takes it. -/
theorem consumed_own_answer {ops : List Op} (h : Unstranded Channel.closed ops) :
    ∀ x ∈ (run Channel.closed ops).consumed, x.1 = x.2 := by
  have hc : Clean Channel.closed := .of_closed (fun x hx => by cases hx) rfl
  exact (hc.run h).own

/-- Everything succeeds. -/
def sampleRequest : RequestEnv := ⟨true, none, none⟩

/-- A profile of zeros. -/
def sampleProfile : Bytes PROFILE_SIZE := ⟨List.replicate 96 0, List.length_replicate⟩

/-- The handshake, a profile, and a request for the peak whose response breaks off after 100 bytes,
so that the `DROP` behind it takes none: 708 bytes are taken. -/
theorem consumed_own_answer_sample :
    (run Channel.closed [.init sampleRequest 0 [] true, .profile sampleRequest sampleProfile none,
      .peakRss ⟨true, none, some 100⟩ [], .drop sampleRequest]).consumed.length = 708 ∧
    ∀ x ∈ (run Channel.closed [.init sampleRequest 0 [] true,
      .profile sampleRequest sampleProfile none, .peakRss ⟨true, none, some 100⟩ [],
      .drop sampleRequest]).consumed, x.1 = x.2 :=
  ⟨by decide +kernel, consumed_own_answer ⟨id, id, id, id, trivial⟩⟩

/-- **The profile strands bytes.** The receipt of its payload times out, and the worker's bytes are
taken as the response to the next request. -/
theorem profile_strands_bytes :
    ¬ ∀ ops : List Op, ∀ x ∈ (run Channel.closed ops).consumed, x.1 = x.2 := by
  intro h
  have hx : (3, 2) ∈ (run Channel.closed [.init sampleRequest 0 [] true,
      .profile sampleRequest sampleProfile (some 0), .peakRss sampleRequest []]).consumed := by
    decide +kernel
  exact absurd (h _ _ hx) (by decide)

end Afterfree.Protocol.Framing
