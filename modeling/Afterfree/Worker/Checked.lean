import Afterfree.Codec

/-!
# Validation and reconstruction with digest checks

What `NativeReplay::run`, `NativeReplay::validate_stream` and `Replay::run` let through: the bytes a
call of the generated code or of the emulator leaves in its buffer are arbitrary here, and only the
checks around the call decide whether they count. SHA-256 is a function from byte strings to byte
strings.
-/

namespace Afterfree.Worker.Checked

open Afterfree.Common Afterfree.Codec

/-- The first `n` bytes of a buffer. -/
def content (written : ℕ → UInt8) (n : ℕ) : List UInt8 := (List.range n).map written

/-- Page `k` of a byte string; the last one may be short. -/
def pageOf (out : List UInt8) (k : ℕ) : List UInt8 := (out.drop (k * PAGE)).take PAGE

/-- The digest of every page. -/
def pageDigests (sha256 : List UInt8 → List UInt8) (out : List UInt8) : List (List UInt8) :=
  (List.range (rounded out.length / PAGE)).map fun k => sha256 (pageOf out k)

/-- What a `NativeReplay` keeps from its validation: `pages` (it can be asked for page ranges) and
the page digests. -/
structure Native where
  pages : Bool
  digests : List (List UInt8)
deriving DecidableEq, Repr

/-- The state of a `NativeReplay` before its validation. -/
def Native.fresh : Native := ⟨false, []⟩

/-- One call of the generated code: whether the checkpoint it starts from passes its checks,
whether it ends without error at the limit, what its buffer holds then, whether a checkpoint was
collected for every page, and which digest calls behind it succeed: `updated` is `EVP_DigestUpdate`
of a window, `hashed` the digest of the whole output and `paged` those of its pages. -/
structure Call where
  checkpoint : Bool
  completed : Bool
  written : ℕ → UInt8
  collected : Bool
  updated : Bool
  hashed : Bool
  paged : Bool

/-- The page digests of a reconstructed range agree with the validated ones. -/
def pagesMatch (sha256 : List UInt8 → List UInt8) (n : Native) (offset : ℕ) (out : List UInt8) :
    Bool :=
  (List.range (rounded out.length / PAGE)).all fun k =>
    n.digests[(offset + k * PAGE) / PAGE]? = some (sha256 (pageOf out k))

/-- `NativeReplay::run`: the object afterwards and the bytes it has checked. -/
def Native.run (sha256 : List UInt8 → List UInt8) (n : Native) (h : Header) (offset length : ℕ)
    (validate : Bool) (c : Call) : Except String (Native × List UInt8) :=
  if length = 0 ∨ h.length < offset ∨ h.length - offset < length ∨
      (offset ≠ 0 ∧ (n.pages = false ∨ offset % PAGE ≠ 0)) ∨
      (validate = false ∧ length ≠ h.length ∧ n.pages = false) then
    .error "invalid native reconstruction range"
  else if validate = false ∧ offset ≠ 0 ∧ c.checkpoint = false then
    .error "invalid native checkpoint"
  else if !c.completed then
    .error "checked native execution rejected memory or control flow"
  else
    let out := content c.written length
    if (validate = true ∨ (offset = 0 ∧ length = h.length)) ∧
        (c.hashed = false ∨ sha256 out ≠ h.digest) then .error "native replay digest mismatch"
    else if validate then
      if !c.collected then .ok (⟨false, []⟩, out)
      else if !c.paged then .error "native page digest failed"
      else .ok (⟨true, pageDigests sha256 out⟩, out)
    else if n.pages then
      if c.paged && pagesMatch sha256 n offset out then .ok (n, out)
      else .error "native page digest mismatch"
    else .ok (n, out)

/-! ### Streamed validation -/

/-- A failed acknowledgement (`ProtocolFailure`) or any other exception. -/
inductive Failure
  | protocol (message : String)
  | other (message : String)
deriving DecidableEq, Repr

/-- The loop of `validate_stream`: `call offset` is the call for the window at `offset`, and
`acked offset` says whether `publish` got its acknowledgement. -/
def windowLoop (sha256 : List UInt8 → List UInt8) (capacity : ℕ) (h : Header) (call : ℕ → Call)
    (acked : ℕ → Bool) : ℕ → ℕ → List UInt8 → List (List UInt8) →
      Except Failure (List UInt8 × List (List UInt8))
  | 0, _, done, digests => .ok (done, digests)
  | fuel + 1, offset, done, digests =>
    if offset < h.length then
      let size := min capacity (h.length - offset)
      let c := call offset
      if !c.completed then
        .error (.other "native validation cannot yield at the requested boundary")
      else if !c.updated then .error (.other "validation digest update failed")
      else if !c.paged then .error (.other "native page digest failed")
      else if !acked offset then .error (.protocol "validation window acknowledgement failed")
      else
        let window := content c.written size
        windowLoop sha256 capacity h call acked fuel (offset + size) (done ++ window)
          (digests ++ pageDigests sha256 window)
    else .ok (done, digests)

/-- `NativeReplay::validate_stream`. `last` decides the final digest and the collection. -/
def validateStream (sha256 : List UInt8 → List UInt8) (capacity : ℕ) (h : Header)
    (call : ℕ → Call) (acked : ℕ → Bool) (last : Call) :
    Except Failure (Native × List UInt8) :=
  if capacity = 0 ∨ capacity % PAGE ≠ 0 then .error (.other "invalid validation window")
  else
    match windowLoop sha256 capacity h call acked h.length 0 [] [] with
    | .error f => .error f
    | .ok (out, digests) =>
      if last.hashed = false ∨ sha256 out ≠ h.digest then
        .error (.other "native replay digest mismatch")
      else if last.collected then .ok (⟨true, digests⟩, out)
      else .ok (⟨false, []⟩, out)

/-! ### The emulator -/

/-- One emulation: the exception that ends it before the digest check, if one does, the output
mapping afterwards, and whether the digest call succeeds. -/
structure Emulation where
  failure : Option String
  written : ℕ → UInt8
  hashed : Bool

/-- `Replay::run`: the output it has checked. -/
def emulate (sha256 : List UInt8 → List UInt8) (h : Header) (e : Emulation) :
    Except String (List UInt8) :=
  match e.failure with
  | some message => .error message
  | none =>
    let out := content e.written h.length
    if !e.hashed then .error "replay digest calculation failed"
    else if sha256 out ≠ h.digest then .error "replay output digest mismatch"
    else .ok out

/-! ### What the checks establish -/

theorem content_length (written : ℕ → UInt8) (n : ℕ) : (content written n).length = n := by
  simp [content]

/-- **What a validation establishes** about an output: its length, its digest, and the digests kept
for its pages. -/
structure Validated (sha256 : List UInt8 → List UInt8) (h : Header) (native : Option Native)
    (out : List UInt8) : Prop where
  length_eq : out.length = h.length
  digest_eq : sha256 out = h.digest
  pages : ∀ n, native = some n → n.pages = true → n.digests = pageDigests sha256 out

variable {sha256 : List UInt8 → List UInt8} {h : Header}

/-- What `NativeReplay::run` has checked when it returns. -/
structure RunChecked (sha256 : List UInt8 → List UInt8) (n : Native) (h : Header)
    (offset length : ℕ) (validate : Bool) (n' : Native) (bytes : List UInt8) : Prop where
  range : offset + length ≤ h.length
  length_eq : bytes.length = length
  aligned : offset ≠ 0 → n.pages = true ∧ offset % PAGE = 0
  sliced : validate = false → length ≠ h.length → n.pages = true
  digest : (validate = true ∨ (offset = 0 ∧ length = h.length)) → sha256 bytes = h.digest
  collected : validate = true → n'.pages = true → n'.digests = pageDigests sha256 bytes
  matched : validate = false → n.pages = true → pagesMatch sha256 n offset bytes = true

/-- **`NativeReplay::run`.** -/
theorem Native.run_checked {n n' : Native} {offset length : ℕ} {validate : Bool} {c : Call}
    {bytes : List UInt8} (hr : n.run sha256 h offset length validate c = .ok (n', bytes)) :
    RunChecked sha256 n h offset length validate n' bytes := by
  unfold Native.run at hr
  by_cases h1 : length = 0 ∨ h.length < offset ∨ h.length - offset < length ∨
      (offset ≠ 0 ∧ (n.pages = false ∨ offset % PAGE ≠ 0)) ∨
      (validate = false ∧ length ≠ h.length ∧ n.pages = false)
  · rw [if_pos h1] at hr
    cases hr
  rw [if_neg h1] at hr
  by_cases h2 : validate = false ∧ offset ≠ 0 ∧ c.checkpoint = false
  · rw [if_pos h2] at hr
    cases hr
  rw [if_neg h2] at hr
  by_cases h3 : (!c.completed) = true
  · rw [if_pos h3] at hr
    cases hr
  rw [if_neg h3] at hr
  simp only at hr
  have hlen := content_length c.written length
  generalize content c.written length = out at hr hlen
  by_cases h4 : (validate = true ∨ (offset = 0 ∧ length = h.length)) ∧
      (c.hashed = false ∨ sha256 out ≠ h.digest)
  · rw [if_pos h4] at hr
    cases hr
  rw [if_neg h4] at hr
  -- whatever branch returns, the bytes are those of the buffer
  have hout : bytes = out ∧ (validate = true → n'.pages = true →
      n'.digests = pageDigests sha256 out) ∧
      (validate = false → n.pages = true → pagesMatch sha256 n offset out = true) := by
    cases validate with
    | true =>
      rw [if_pos rfl] at hr
      split_ifs at hr
      · cases hr
        exact ⟨rfl, fun _ hp => Bool.noConfusion hp, fun hv => Bool.noConfusion hv⟩
      · cases hr
        exact ⟨rfl, fun _ _ => rfl, fun hv => Bool.noConfusion hv⟩
    | false =>
      rw [if_neg Bool.false_ne_true] at hr
      split_ifs at hr with h5 h6
      · cases hr
        exact ⟨rfl, fun hv => Bool.noConfusion hv, fun _ _ => (Bool.and_eq_true_iff.mp h6).2⟩
      · cases hr
        exact ⟨rfl, fun hv => Bool.noConfusion hv, fun _ hp => absurd hp h5⟩
  obtain ⟨rfl, hcol, hmat⟩ := hout
  refine ⟨by omega, hlen, fun h0 => ?_, fun hv hl => ?_, fun hw => ?_, hcol, hmat⟩
  · have : ¬ (n.pages = false ∨ offset % PAGE ≠ 0) := fun hb =>
      h1 (Or.inr (Or.inr (Or.inr (Or.inl ⟨h0, hb⟩))))
    rw [not_or, not_not] at this
    exact ⟨by simpa using this.1, this.2⟩
  · by_contra hp
    exact h1 (Or.inr (Or.inr (Or.inr (Or.inr ⟨hv, hl, by simpa using hp⟩))))
  · by_contra hd
    exact h4 ⟨hw, Or.inr hd⟩

/-- **Whole native validation.** -/
theorem run_validated {c : Call} {n : Native} {out : List UInt8}
    (hr : Native.run sha256 Native.fresh h 0 h.length true c = .ok (n, out)) :
    Validated sha256 h (some n) out := by
  have hc := Native.run_checked hr
  refine ⟨hc.length_eq, hc.digest (Or.inl rfl), fun n' hn hp => ?_⟩
  cases hn
  exact hc.collected rfl hp

theorem pageDigests_append {a b : List UInt8} (ha : a.length % PAGE = 0) :
    pageDigests sha256 (a ++ b) = pageDigests sha256 a ++ pageDigests sha256 b := by
  have hra : rounded a.length = a.length := rounded_of_mod ha
  have hsum : rounded (a ++ b).length / PAGE =
      rounded a.length / PAGE + rounded b.length / PAGE := by
    rw [List.length_append, rounded_add ha, hra]
    unfold PAGE at *
    omega
  unfold pageDigests
  rw [hsum, List.range_add, List.map_append, List.map_map]
  refine congrArg₂ (· ++ ·) ?_ ?_
  · refine List.map_congr_left fun k hk => ?_
    have hk := List.mem_range.mp hk
    have hle : k * PAGE + PAGE ≤ a.length := by
      rw [hra] at hk
      unfold PAGE at *
      omega
    unfold pageOf
    rw [List.drop_append_of_le_length (by omega), List.take_append_of_le_length]
    rw [List.length_drop]
    omega
  · refine List.map_congr_left fun k _ => ?_
    have he : (rounded a.length / PAGE + k) * PAGE = a.length + k * PAGE := by
      rw [hra]
      unfold PAGE at *
      omega
    show sha256 (pageOf (a ++ b) (rounded a.length / PAGE + k)) = _
    unfold pageOf
    rw [he, List.drop_append, List.drop_eq_nil_of_le (by omega), List.nil_append,
      Nat.add_sub_cancel_left]

theorem windowLoop_spec {capacity : ℕ} (hc : 0 < capacity) (hcp : capacity % PAGE = 0)
    {call : ℕ → Call} {acked : ℕ → Bool} :
    ∀ {fuel offset : ℕ} {done : List UInt8} {digests : List (List UInt8)}
      {x : List UInt8 × List (List UInt8)},
      done.length = offset → offset ≤ h.length → h.length - offset ≤ fuel →
      (offset < h.length → offset % PAGE = 0) → digests = pageDigests sha256 done →
      windowLoop sha256 capacity h call acked fuel offset done digests = .ok x →
      x.1.length = h.length ∧ x.2 = pageDigests sha256 x.1
  | 0, offset, done, digests, x, hd, hle, hf, _, hdig, hx => by
    cases hx
    exact ⟨by show done.length = _; omega, hdig⟩
  | fuel + 1, offset, done, digests, x, hd, hle, hf, hal, hdig, hx => by
    unfold windowLoop at hx
    by_cases hlt : offset < h.length
    · rw [if_pos hlt] at hx
      simp only at hx
      split_ifs at hx
      have hlen := content_length (call offset).written (min capacity (h.length - offset))
      refine windowLoop_spec hc hcp ?_ ?_ ?_ ?_ ?_ hx
      · rw [List.length_append, hlen, hd]
      · omega
      · omega
      · intro hmore
        have hoff := hal hlt
        have hmin : min capacity (h.length - offset) = capacity := by omega
        rw [hmin, Nat.add_mod, hoff, hcp]
        rfl
      · rw [pageDigests_append (by rw [hd]; exact hal hlt), hdig]
    · rw [if_neg hlt] at hx
      cases hx
      exact ⟨by show done.length = _; omega, hdig⟩

/-- **Streamed native validation.** -/
theorem validateStream_validated {capacity : ℕ} {call : ℕ → Call} {acked : ℕ → Bool} {last : Call}
    {n : Native} {out : List UInt8}
    (hr : validateStream sha256 capacity h call acked last = .ok (n, out)) :
    Validated sha256 h (some n) out := by
  unfold validateStream at hr
  by_cases h1 : capacity = 0 ∨ capacity % PAGE ≠ 0
  · rw [if_pos h1] at hr
    cases hr
  rw [if_neg h1] at hr
  rw [not_or, not_not] at h1
  rcases hw : windowLoop sha256 capacity h call acked h.length 0 [] [] with f | ⟨o, ds⟩
  · rw [hw] at hr
    cases hr
  rw [hw] at hr
  simp only at hr
  obtain ⟨hlen, hds⟩ := (@windowLoop_spec sha256 _ _ (by omega)) h1.2 (by rfl)
    (Nat.zero_le _) (Nat.sub_le _ _) (fun _ => rfl) (by rfl) hw
  by_cases h2 : last.hashed = false ∨ sha256 o ≠ h.digest
  · rw [if_pos h2] at hr
    cases hr
  rw [if_neg h2] at hr
  rw [not_or, not_not] at h2
  split_ifs at hr
  · cases hr
    refine ⟨hlen, h2.2, fun n hn _ => ?_⟩
    cases hn
    exact hds
  · cases hr
    refine ⟨hlen, h2.2, fun n hn hp => ?_⟩
    cases hn
    cases hp

/-- **Emulated validation.** -/
theorem emulate_validated {e : Emulation} {out : List UInt8} (hr : emulate sha256 h e = .ok out) :
    Validated sha256 h none out := by
  unfold emulate at hr
  split at hr
  · cases hr
  · simp only at hr
    split_ifs at hr with h1 h2
    cases hr
    exact ⟨content_length _ _, by simpa using h2, fun n hn => by cases hn⟩

/-! ### What a reconstruction establishes -/

theorem pageOf_getElem? (out : List UInt8) (k j : ℕ) (hj : j < PAGE) :
    (pageOf out k)[j]? = out[k * PAGE + j]? := by
  unfold pageOf
  rw [List.getElem?_take, if_pos hj, List.getElem?_drop]

/-- The strings that are hashed when bytes are checked: all of them, and their pages. -/
def hashedStrings (out : List UInt8) : Set (List UInt8) :=
  { x | x = out ∨ ∃ k < rounded out.length / PAGE, x = pageOf out k }

/-- **A range whose page digests match is the range of the validated output**, unless two of the
strings that have been hashed collide. -/
theorem pagesMatch_eq {n : Native} {offset : ℕ} {out bytes : List UInt8}
    (hsha : Set.InjOn sha256 (hashedStrings out ∪ hashedStrings bytes))
    (hn : n.digests = pageDigests sha256 out) (hal : offset % PAGE = 0)
    (hm : pagesMatch sha256 n offset bytes = true) :
    bytes = (out.drop offset).take bytes.length := by
  unfold pagesMatch at hm
  rw [List.all_eq_true] at hm
  have hchunk : ∀ k < rounded bytes.length / PAGE,
      pageOf out (offset / PAGE + k) = pageOf bytes k := by
    intro k hk
    have h1 := of_decide_eq_true (hm k (List.mem_range.mpr hk))
    have he : (offset + k * PAGE) / PAGE = offset / PAGE + k := Nat.add_mul_div_right _ _ PAGE_pos
    rw [he, hn] at h1
    unfold pageDigests at h1
    rw [List.getElem?_map, Option.map_eq_some_iff] at h1
    obtain ⟨i, hi, hs⟩ := h1
    obtain ⟨hlt, rfl⟩ := List.getElem?_eq_some_iff.mp hi
    rw [List.getElem_range] at hs
    rw [List.length_range] at hlt
    exact hsha (.inl (.inr ⟨_, hlt, rfl⟩)) (.inr (.inr ⟨k, hk, rfl⟩)) hs
  refine List.ext_getElem? fun i => ?_
  by_cases hi : i < bytes.length
  · have hk : i / PAGE < rounded bytes.length / PAGE := by
      unfold rounded PAGE
      omega
    have hj : i % PAGE < PAGE := Nat.mod_lt _ PAGE_pos
    have h1 : (pageOf out (offset / PAGE + i / PAGE))[i % PAGE]? =
        (pageOf bytes (i / PAGE))[i % PAGE]? := by rw [hchunk _ hk]
    rw [pageOf_getElem? _ _ _ hj, pageOf_getElem? _ _ _ hj] at h1
    rw [List.getElem?_take, if_pos hi, List.getElem?_drop]
    have e1 : (offset / PAGE + i / PAGE) * PAGE + i % PAGE = offset + i := by
      unfold PAGE at *
      omega
    have e2 : i / PAGE * PAGE + i % PAGE = i := Nat.div_add_mod' i PAGE
    rw [e1, e2] at h1
    exact h1.symm
  · rw [List.getElem?_eq_none (by omega), List.getElem?_take, if_neg hi]

/-- **A native reconstruction is a range of the validated output.** -/
theorem run_restored {n n' : Native} {offset length : ℕ} {c : Call} {out bytes : List UInt8}
    (hsha : Set.InjOn sha256 (hashedStrings out ∪ hashedStrings bytes))
    (hv : Validated sha256 h (some n) out)
    (hr : Native.run sha256 n h offset length false c = .ok (n', bytes)) :
    bytes.length = length ∧ offset + length ≤ out.length ∧
      bytes = (out.drop offset).take length := by
  have hc := Native.run_checked hr
  have hlen := hc.length_eq
  have hol := hv.length_eq
  have hle : offset + length ≤ out.length := by
    rw [hol]
    exact hc.range
  refine ⟨hlen, hle, ?_⟩
  by_cases hp : n.pages = true
  · -- page by page
    have hal : offset % PAGE = 0 := by
      by_cases h0 : offset = 0
      · rw [h0]
        rfl
      · exact (hc.aligned h0).2
    have := pagesMatch_eq hsha (hv.pages n rfl hp) hal (hc.matched rfl hp)
    rw [hlen] at this
    exact this
  · -- the whole output by its digest
    have h0 : offset = 0 := by
      by_contra h0
      exact hp (hc.aligned h0).1
    have hwhole : length = h.length := by
      by_contra hl
      exact hp (hc.sliced rfl hl)
    have heq : bytes = out := hsha (.inr (.inl rfl)) (.inl (.inl rfl))
      ((hc.digest (Or.inr ⟨h0, hwhole⟩)).trans hv.digest_eq.symm)
    rw [heq, h0, List.drop_zero, hwhole, ← hol, List.take_length]

/-- **An emulated reconstruction is the validated output.** -/
theorem emulate_restored {native : Option Native} {e : Emulation} {out bytes : List UInt8}
    (hsha : Set.InjOn sha256 (hashedStrings out ∪ hashedStrings bytes))
    (hv : Validated sha256 h native out) (hr : emulate sha256 h e = .ok bytes) : bytes = out :=
  hsha (.inr (.inl rfl)) (.inl (.inl rfl))
    ((emulate_validated hr).digest_eq.trans hv.digest_eq.symm)

/-- The SHA-256 digest of the byte 7. -/
def sampleDigest : List UInt8 :=
  [0xca, 0x35, 0x87, 0x58, 0xf6, 0xd2, 0x7e, 0x6c, 0xf4, 0x52, 0x72,
    0x93, 0x79, 0x77, 0xa7, 0x48, 0xfd, 0x88, 0x39, 0x1d, 0xb6, 0x79,
    0xce, 0xda, 0x7d, 0xc7, 0xbf, 0x1f, 0x00, 0x5e, 0xe8, 0x79]

end Afterfree.Worker.Checked
