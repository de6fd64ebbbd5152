import Afterfree.Encoding
import Afterfree.Lib.Search

/-!
# Decoding in 64 bits

`decode` once more, with the arithmetic the source has: every sum and difference is taken modulo
`2 ^ 64`, the reader is an offset into the blob, and `lower_bound` is a binary search. `decode64_eq`
says that nothing wraps, so that `decode` is what the source computes; `decode_encode` and
`codec` are the round trips.
-/

namespace Afterfree.Wrapping

open Afterfree.Common Afterfree.Codec Afterfree.Encoding
open Afterfree.Lib.Search

/-- `uint64_t` addition. -/
def add64 (a b : ℕ) : ℕ := (a + b) % 2 ^ 64

/-- `uint64_t` subtraction. -/
def sub64 (a b : ℕ) : ℕ := (a + (2 ^ 64 - b % 2 ^ 64)) % 2 ^ 64

theorem add64_eq {a b : ℕ} (h : a + b ≤ UINT64_MAX) : add64 a b = a + b := by
  unfold add64 UINT64_MAX at *
  omega

theorem sub64_eq {a b : ℕ} (h : b ≤ a) (ha : a ≤ UINT64_MAX) : sub64 a b = a - b := by
  unfold sub64 UINT64_MAX at *
  omega

/-! ### The reader -/

/-- `Reader::take` and `Reader::bytes` at an offset. -/
def takeAt (message : String) (blob : List UInt8) (n offset : ℕ) :
    Except String (List UInt8 × ℕ) :=
  if sub64 blob.length offset < n then .error message
  else .ok ((blob.drop offset).take n, add64 offset n)

/-- `count` records, one after the other. -/
def takeManyAt {α : Type} (item : ℕ → Except String (α × ℕ)) :
    ℕ → ℕ → Except String (List α × ℕ)
  | 0, offset => .ok ([], offset)
  | count + 1, offset => do
    let (x, offset) ← item offset
    let (xs, offset) ← takeManyAt item count offset
    .ok (x :: xs, offset)

/-- One page. -/
def takePageAt (blob : List UInt8) (offset : ℕ) : Except String (ℕ × ℕ) := do
  let (image, offset) ← takeAt "truncated recipe" blob 8 offset
  let p := leNat image
  if p % PAGE ≠ 0 ∨ sub64 UINT64_MAX PAGE < p then .error "invalid page" else .ok (p, offset)

/-- One instruction. -/
def takeInstructionAt (blob : List UInt8) (offset : ℕ) : Except String (Instruction × ℕ) := do
  let (image, offset) ← takeAt "truncated recipe" blob 24 offset
  let c : Instruction :=
    { address := fieldAt image 0 8, size := fieldAt image 8 1, bytes := (image.drop 9).take 15 }
  if c.size = 0 ∨ 15 < c.size ∨ sub64 UINT64_MAX c.size < c.address then
    .error "invalid instruction"
  else .ok (c, offset)

/-- One input. -/
def takeSegmentAt (blob : List UInt8) (offset : ℕ) : Except String (Segment × ℕ) := do
  let (image, offset) ← takeAt "truncated recipe" blob 8 offset
  let p := leNat image
  let (image, offset) ← takeAt "truncated recipe" blob 8 offset
  let n := leNat image
  if n = 0 ∨ MAX_BLOB < n ∨ sub64 UINT64_MAX n < p then .error "invalid input range"
  else
    let (bytes, offset) ← takeAt "truncated input" blob n offset
    .ok (⟨p, bytes⟩, offset)

/-! ### The checks -/

/-- `rounded`. -/
def rounded64 (n : ℕ) : ℕ := add64 n (PAGE - 1) / PAGE * PAGE

/-- The header checks. -/
def invalidHeader64 (h : Header) : Bool :=
  h.magic ≠ MAGIC || h.version ≠ 1 || h.length = 0 || MAX_BUFFER < h.length ||
    h.output % PAGE ≠ 0 || sub64 UINT64_MAX (rounded64 h.length) < h.output ||
    262144 < h.pageCount || 1000000 < h.codeCount || 1000000 < h.inputCount ||
    500000000 < h.steps || 0xffff < h.mxcsr

/-- The predicate of `lower_bound`: instruction `k` ends at or below the input. -/
def endsBelow (code : List Instruction) (s : Segment) (k : ℕ) : Bool :=
  match code[k]? with
  | none => false
  | some c => decide (add64 c.address c.size ≤ s.address)

/-- The instructions from `lower_bound` on that start below the end of the input. -/
def overlapping64 (code : List Instruction) (s : Segment) : List Instruction :=
  let first := bisect (endsBelow code s) code.length 0 code.length
  (code.drop first).takeWhile fun c => decide (c.address < add64 s.address s.bytes.length)

/-- The input and the instruction differ in a byte they share. -/
def conflicts64 (s : Segment) (c : Instruction) : Bool :=
  let first := max s.address c.address
  let last := min (add64 s.address s.bytes.length) (add64 c.address c.size)
  (List.range (sub64 last first)).any fun i =>
    s.bytes.getD (sub64 (add64 first i) s.address) 0 ≠
      c.bytes.getD (sub64 (add64 first i) c.address) 0

/-- The end of `decode`. -/
def arrange64 (h : Header) (pages : List ℕ) (code : List Instruction) (inputs : List Segment) :
    Except String Recipe :=
  let pages := pages.mergeSort fun a b => decide (a ≤ b)
  let code := code.mergeSort fun a b => decide (a.address ≤ b.address)
  let inputs := inputs.mergeSort fun a b => decide (a.address ≤ b.address)
  if !neighbours (fun a b => decide (a ≠ b)) pages then .error "duplicate recipe page"
  else if !neighbours (fun a b : Instruction => decide (add64 a.address a.size ≤ b.address))
      code then
    .error "overlapping recipe instructions"
  else if !neighbours (fun a b : Segment => decide (add64 a.address a.bytes.length ≤ b.address))
      inputs then .error "overlapping recipe inputs"
  else if inputs.any fun s => (overlapping64 code s).any (conflicts64 s) then
    .error "input conflicts with recipe code"
  else .ok { h, pages, code, inputs }

/-- `decode`. -/
def decode64 (blob : List UInt8) : Except String Recipe := do
  let (image, offset) ← takeAt "truncated recipe" blob HEADER_SIZE 0
  let h := Header.ofBytes image
  if invalidHeader64 h then .error "invalid recipe header"
  else
    let (pages, offset) ← takeManyAt (takePageAt blob) h.pageCount offset
    let (code, offset) ← takeManyAt (takeInstructionAt blob) h.codeCount offset
    let (inputs, offset) ← takeManyAt (takeSegmentAt blob) h.inputCount offset
    let total := inputs.foldl (fun t s => add64 t s.bytes.length) 0
    if offset ≠ blob.length ∨ total ≠ h.inputBytes then .error "recipe length mismatch"
    else arrange64 h pages code inputs

/-! ### The two readers -/

/-- A result of the reader at an offset is that of the reader of the remaining bytes. -/
inductive Tracked {α : Type} (blob : List UInt8) :
    Except String (α × List UInt8) → Except String (α × ℕ) → Prop
  | error (e : String) : Tracked blob (.error e) (.error e)
  | ok (x : α) (o : ℕ) (h : o ≤ blob.length) : Tracked blob (.ok (x, blob.drop o)) (.ok (x, o))

section Tracking

variable {blob : List UInt8}

theorem Tracked.bind {α β : Type} {a : Except String (α × List UInt8)} {b : Except String (α × ℕ)}
    (h : Tracked blob a b) {f : α × List UInt8 → Except String (β × List UInt8)}
    {g : α × ℕ → Except String (β × ℕ)}
    (hfg : ∀ x o, o ≤ blob.length → Tracked blob (f (x, blob.drop o)) (g (x, o))) :
    Tracked blob (a >>= f) (b >>= g) := by
  cases h with
  | error e => exact .error e
  | ok x o ho => exact hfg x o ho

theorem tracked_take (hb : blob.length ≤ UINT64_MAX) (message : String) (n : ℕ) {offset : ℕ}
    (ho : offset ≤ blob.length) :
    Tracked blob (take message n (blob.drop offset)) (takeAt message blob n offset) := by
  unfold take takeAt
  rw [sub64_eq ho hb, List.length_drop]
  by_cases hlt : blob.length - offset < n
  · rw [if_pos hlt, if_pos hlt]
    exact .error message
  · rw [if_neg hlt, if_neg hlt, add64_eq (by omega), List.drop_drop]
    exact .ok _ _ (by omega)

theorem tracked_many {α : Type} {item : List UInt8 → Except String (α × List UInt8)}
    {itemAt : ℕ → Except String (α × ℕ)}
    (h : ∀ offset ≤ blob.length, Tracked blob (item (blob.drop offset)) (itemAt offset)) :
    ∀ count, ∀ offset ≤ blob.length,
      Tracked blob (takeMany item count (blob.drop offset)) (takeManyAt itemAt count offset)
  | 0, offset, ho => .ok [] offset ho
  | count + 1, offset, ho => by
    rw [takeMany, takeManyAt]
    refine (h offset ho).bind fun x o ho' => ?_
    refine (tracked_many h count o ho').bind fun xs o₂ ho₂ => ?_
    exact .ok (x :: xs) o₂ ho₂

theorem tracked_page (hb : blob.length ≤ UINT64_MAX) {offset : ℕ} (ho : offset ≤ blob.length) :
    Tracked blob (takePage (blob.drop offset)) (takePageAt blob offset) := by
  unfold takePage takePageAt
  refine (tracked_take hb "truncated recipe" 8 ho).bind fun image o ho' => ?_
  dsimp only
  rw [sub64_eq (by decide) le_rfl]
  split_ifs
  · exact .error _
  · exact .ok _ o ho'

theorem tracked_instruction (hb : blob.length ≤ UINT64_MAX) {offset : ℕ}
    (ho : offset ≤ blob.length) :
    Tracked blob (takeInstruction (blob.drop offset)) (takeInstructionAt blob offset) := by
  unfold takeInstruction takeInstructionAt
  refine (tracked_take hb "truncated recipe" 24 ho).bind fun image o ho' => ?_
  dsimp only
  have hsize : fieldAt image 8 1 ≤ UINT64_MAX := by
    have := (@fieldAt_lt image 8 1)
    unfold UINT64_MAX
    omega
  rw [sub64_eq hsize le_rfl]
  split_ifs
  · exact .error _
  · exact .ok _ o ho'

theorem tracked_segment (hb : blob.length ≤ UINT64_MAX) {offset : ℕ} (ho : offset ≤ blob.length) :
    Tracked blob (takeSegment (blob.drop offset)) (takeSegmentAt blob offset) := by
  unfold takeSegment takeSegmentAt
  refine (tracked_take hb "truncated recipe" 8 ho).bind fun address o ho' => ?_
  dsimp only
  refine (tracked_take hb "truncated recipe" 8 ho').bind fun count o₂ ho₂ => ?_
  dsimp only
  -- a length that is too large is refused before the difference is formed
  have hcond : (leNat count = 0 ∨ MAX_BLOB < leNat count ∨
      sub64 UINT64_MAX (leNat count) < leNat address) ↔
      (leNat count = 0 ∨ MAX_BLOB < leNat count ∨ UINT64_MAX - leNat count < leNat address) := by
    by_cases hbig : MAX_BLOB < leNat count
    · simp only [hbig, true_or, or_true]
    · rw [sub64_eq (by unfold UINT64_MAX MAX_BLOB at *; omega) le_rfl]
  rw [if_congr hcond rfl rfl]
  split_ifs
  · exact .error _
  · refine (tracked_take hb "truncated input" (leNat count) ho₂).bind fun bytes o₃ ho₃ => ?_
    exact .ok _ o₃ ho₃

end Tracking

/-! ### The checks do not wrap -/

theorem invalidHeader64_eq (h : Header) : invalidHeader64 h = invalidHeader h := by
  unfold invalidHeader64 invalidHeader
  by_cases hbig : MAX_BUFFER < h.length
  · rw [decide_eq_true hbig]
    simp only [Bool.or_true, Bool.true_or]
  · have hadd : h.length + (PAGE - 1) ≤ UINT64_MAX := by
      unfold MAX_BUFFER PAGE UINT64_MAX at *
      omega
    have hround : rounded64 h.length = rounded h.length := by
      unfold rounded64 rounded
      rw [add64_eq hadd]
      rfl
    have hle : rounded h.length ≤ UINT64_MAX := by
      have := rounded_lt h.length
      unfold MAX_BUFFER PAGE UINT64_MAX at *
      omega
    rw [hround, sub64_eq hle le_rfl]

theorem neighbours_congr {α : Type} {f g : α → α → Bool} : ∀ {xs : List α},
    (∀ a ∈ xs, ∀ b, f a b = g a b) → neighbours f xs = neighbours g xs
  | [], _ => rfl
  | [a], _ => rfl
  | a :: b :: xs, h => by
    rw [neighbours, neighbours, h a List.mem_cons_self b,
      neighbours_congr fun x hx => h x (List.mem_cons_of_mem _ hx)]

/-- `lower_bound` over sorted, disjoint instructions: everything before the result ends at or below
the input, and nothing from it on does. -/
theorem overlapping64_eq {code : List Instruction} {s : Segment}
    (hsorted : code.Pairwise fun a b => a.address + a.size ≤ b.address)
    (hc : ∀ c ∈ code, InstructionOk c) (hs : SegmentOk s) :
    overlapping64 code s = overlapping code s := by
  have hend : ∀ c ∈ code, add64 c.address c.size = c.address + c.size := fun c hcm =>
    add64_eq (hc c hcm).fits
  unfold overlapping64 overlapping
  dsimp only
  rw [add64_eq hs.fits]
  congr 1
  -- the predicate of the search holds on an initial segment
  have hp : ∀ k (hk : k < code.length), endsBelow code s k =
      decide ((code.get ⟨k, hk⟩).address + (code.get ⟨k, hk⟩).size ≤ s.address) := by
    intro k hk
    unfold endsBelow
    rw [List.getElem?_eq_getElem hk]
    dsimp only
    rw [hend _ (List.getElem_mem hk)]
    rfl
  have hseg : Segmented (endsBelow code s) 0 code.length := by
    intro i j _ hij hj hpj
    have hi : i < code.length := by omega
    rw [hp j hj, decide_eq_true_iff] at hpj
    rw [hp i hi, decide_eq_true_iff]
    rcases Nat.eq_or_lt_of_le hij with rfl | hlt
    · exact hpj
    · have := List.pairwise_iff_get.mp hsorted ⟨i, hi⟩ ⟨j, hj⟩ hlt
      omega
  obtain ⟨-, hle, hbelow, habove⟩ := bisect_spec _ code.length 0 code.length (Nat.zero_le _)
    (by omega) hseg
  generalize bisect _ code.length 0 code.length = first at hle hbelow habove
  have hskip : ∀ c ∈ code.take first, decide (c.address + c.size ≤ s.address) = true := by
    intro c hcm
    obtain ⟨k, hk, rfl⟩ := List.getElem_of_mem hcm
    rw [List.length_take] at hk
    have := hbelow k (Nat.zero_le _) (by omega)
    rw [hp k (by omega)] at this
    rw [List.getElem_take]
    exact this
  have hstop : (code.drop first).dropWhile (fun c => decide (c.address + c.size ≤ s.address)) =
      code.drop first := by
    by_cases hlt : first < code.length
    · have := habove first le_rfl hlt
      rw [hp first hlt] at this
      rw [List.drop_eq_getElem_cons hlt, List.dropWhile_cons_of_neg]
      rw [Bool.not_eq_true]
      exact this
    · rw [List.drop_eq_nil_of_le (by omega)]
      rfl
  conv_rhs => rw [← List.take_append_drop first code, List.dropWhile_append_of_pos hskip, hstop]

theorem conflicts64_eq {s : Segment} {c : Instruction} (hs : SegmentOk s) (hc : InstructionOk c)
    (h1 : s.address < c.address + c.size) (h2 : c.address < s.address + s.bytes.length) :
    conflicts64 s c = conflicts s c := by
  have hsf := hs.fits
  have hcf := hc.fits
  have hspos := hs.pos
  have hcpos := hc.pos
  unfold conflicts64 conflicts
  dsimp only
  rw [add64_eq hsf, add64_eq hcf, sub64_eq (by omega) (by omega)]
  rw [Bool.eq_iff_iff, List.any_eq_true, List.any_eq_true]
  refine exists_congr fun i => and_congr_right fun hi => ?_
  have hlt := List.mem_range.mp hi
  rw [add64_eq (by omega), sub64_eq (by omega) (by omega), sub64_eq (by omega) (by omega)]

/-- **The comparison of inputs and code** in 64 bits. -/
theorem compared64_eq {code : List Instruction} {inputs : List Segment}
    (hsorted : code.Pairwise fun a b => a.address + a.size ≤ b.address)
    (hc : ∀ c ∈ code, InstructionOk c) (hi : ∀ s ∈ inputs, SegmentOk s) :
    (inputs.any fun s => (overlapping64 code s).any (conflicts64 s)) =
      inputs.any fun s => (overlapping code s).any (conflicts s) := by
  rw [Bool.eq_iff_iff, List.any_eq_true, List.any_eq_true]
  refine exists_congr fun s => and_congr_right fun hs => ?_
  rw [overlapping64_eq hsorted hc (hi s hs), List.any_eq_true, List.any_eq_true]
  refine exists_congr fun c => and_congr_right fun hcm => ?_
  have hmem := overlapping_subset hcm
  obtain ⟨h1, h2⟩ := overlapping_bounds hsorted hcm
  rw [conflicts64_eq (hi s hs) (hc c hmem) h1 h2]

/-- **The end of `decode`** in 64 bits. -/
theorem arrange64_eq (h : Header) (pages : List ℕ) {code : List Instruction} {inputs : List Segment}
    (hc : ∀ c ∈ code, InstructionOk c) (hi : ∀ s ∈ inputs, SegmentOk s) :
    arrange64 h pages code inputs = arrange h pages code inputs := by
  have hc' : ∀ c ∈ code.mergeSort fun a b => decide (a.address ≤ b.address), InstructionOk c :=
    fun c hcm => hc c ((List.mergeSort_perm _ _).subset hcm)
  have hi' : ∀ s ∈ inputs.mergeSort fun a b => decide (a.address ≤ b.address), SegmentOk s :=
    fun s hs => hi s ((List.mergeSort_perm _ _).subset hs)
  have nc := (@neighbours_congr _ (fun a b => decide (add64 a.address a.size ≤ b.address))
      (fun a b => decide (a.address + a.size ≤ b.address))
      (code.mergeSort fun a b => decide (a.address ≤ b.address)))
    fun a ha b => by rw [add64_eq (hc' a ha).fits]
  have ni := (@neighbours_congr _ (fun a b => decide (add64 a.address a.bytes.length ≤ b.address))
      (fun a b => decide (a.address + a.bytes.length ≤ b.address))
      (inputs.mergeSort fun a b => decide (a.address ≤ b.address)))
    fun a ha b => by rw [add64_eq (hi' a ha).fits]
  unfold arrange64 arrange
  dsimp only
  rw [nc, ni]
  split_ifs with h1 h2 h3 h4 h5 h5
  all_goals first
    | rfl
    | skip
  all_goals
    rw [Bool.not_eq_true', Bool.not_eq_false] at h2
    have hsorted := ((@neighbours_iff _ (fun c : Instruction => c.address)
        (fun c => c.address + c.size)) fun x _ => Nat.le_add_right _ _).mp h2
    have hcmp := compared64_eq hsorted hc' hi'
  · rw [hcmp] at h4
    exact absurd h4 h5
  · rw [hcmp] at h4
    exact absurd h5 h4

theorem Tracked.cases {α : Type} {blob : List UInt8} {a : Except String (α × List UInt8)}
    {b : Except String (α × ℕ)} (h : Tracked blob a b) :
    (∃ e, a = .error e ∧ b = .error e) ∨
      ∃ x o, o ≤ blob.length ∧ a = .ok (x, blob.drop o) ∧ b = .ok (x, o) := by
  cases h with
  | error e => exact Or.inl ⟨e, rfl, rfl⟩
  | ok x o ho => exact Or.inr ⟨x, o, ho, rfl, rfl⟩

theorem foldl_add64 : ∀ (inputs : List Segment) (t : ℕ),
    t + (inputs.map fun s => s.bytes.length).sum ≤ UINT64_MAX →
    inputs.foldl (fun t s => add64 t s.bytes.length) t =
      t + (inputs.map fun s => s.bytes.length).sum
  | [], t, _ => rfl
  | s :: inputs, t, h => by
    rw [List.map_cons, List.sum_cons] at h ⊢
    rw [List.foldl_cons, add64_eq (by omega), foldl_add64 inputs _ (by omega), Nat.add_assoc]

theorem sum_le_flatMap : ∀ inputs : List Segment,
    (inputs.map fun s => s.bytes.length).sum ≤ (inputs.flatMap segmentBytes).length
  | [] => Nat.zero_le _
  | s :: inputs => by
    have := sum_le_flatMap inputs
    have hlen : s.bytes.length ≤ (segmentBytes s).length := by
      unfold segmentBytes
      rw [List.length_append, List.length_append]
      omega
    rw [List.map_cons, List.sum_cons, List.flatMap_cons, List.length_append]
    omega

/-- **Nothing wraps**: for every byte string that fits the address space, the 64-bit arithmetic of
the source and the arithmetic of `decode` come to the same result. -/
theorem decode64_eq {b : List UInt8} (hb : b.length ≤ UINT64_MAX) : decode64 b = decode b := by
  have h0 := tracked_take hb "truncated recipe" HEADER_SIZE (Nat.zero_le b.length)
  rw [List.drop_zero] at h0
  unfold decode64 decode
  rcases h0.cases with ⟨e, h1, h2⟩ | ⟨image, o, ho, h1, h2⟩
  · rw [h1, h2]
    rfl
  rw [h1, h2, ok_bind, ok_bind]
  dsimp only
  rw [invalidHeader64_eq]
  split_ifs with hbad
  · rfl
  rcases (tracked_many (fun _ => tracked_page hb) (Header.ofBytes image).pageCount o ho).cases with
    ⟨e, h3, h4⟩ | ⟨pages, op, hop, h3, h4⟩
  · rw [h3, h4]
    rfl
  rw [h3, h4, ok_bind, ok_bind]
  dsimp only
  rcases (tracked_many (fun _ => tracked_instruction hb) (Header.ofBytes image).codeCount op
    hop).cases with ⟨e, h5, h6⟩ | ⟨code, oc, hoc, h5, h6⟩
  · rw [h5, h6]
    rfl
  rw [h5, h6, ok_bind, ok_bind]
  dsimp only
  rcases (tracked_many (fun _ => tracked_segment hb) (Header.ofBytes image).inputCount oc
    hoc).cases with ⟨e, h7, h8⟩ | ⟨inputs, oi, hoi, h7, h8⟩
  · rw [h7, h8]
    rfl
  rw [h7, h8, ok_bind, ok_bind]
  dsimp only
  obtain ⟨-, okc, -⟩ := (reads_instruction.takeMany _ _ _ _).mp h5
  obtain ⟨-, oki, hrest⟩ := (reads_segment.takeMany _ _ _ _).mp h7
  -- the inputs are part of the blob, so their sizes add up to no more than its size
  have hsum : 0 + (inputs.map fun s => s.bytes.length).sum ≤ UINT64_MAX := by
    have h9 := congrArg List.length hrest
    rw [List.length_append, List.length_drop] at h9
    have := sum_le_flatMap inputs
    omega
  have hend : b.drop oi = [] ↔ oi = b.length := by
    rw [List.drop_eq_nil_iff]
    omega
  rw [foldl_add64 inputs 0 hsum, Nat.zero_add, arrange64_eq _ _ okc oki]
  exact if_congr (or_congr (not_congr hend.symm) Iff.rfl) rfl rfl

/-! ### Round trips -/

/-- The sections of a recipe may be in any order. -/
def sorted (r : Recipe) : Recipe :=
  { r with
    pages := r.pages.mergeSort fun a b => decide (a ≤ b)
    code := r.code.mergeSort fun a b => decide (a.address ≤ b.address)
    inputs := r.inputs.mergeSort fun a b => decide (a.address ≤ b.address) }

/-- **Encoding and decoding** a recipe whose sections, once sorted, are well formed. -/
theorem decode_encode {r : Recipe} {b : List UInt8} (hw : WellFormed (sorted (counted r)))
    (he : encode r = .ok b) : decode b = .ok (sorted (counted r)) := by
  unfold encode at he
  dsimp only at he
  split_ifs at he
  cases he
  exact decode_iff.mpr ⟨hw, _, _, _, rfl, List.mergeSort_perm _ _, List.mergeSort_perm _ _,
    List.mergeSort_perm _ _⟩

theorem counted_of_wellFormed {r : Recipe} (hw : WellFormed r) : counted r = r := by
  unfold counted
  rw [← hw.page_count, ← hw.code_count, ← hw.input_count]

theorem sorted_of_wellFormed {r : Recipe} (hw : WellFormed r) : sorted r = r := by
  have hp := ((@mergeSort_eq_iff _ (fun p : ℕ => p) (fun p => p + 1) r.pages)
    fun x _ => Nat.lt_succ_self x).mpr ⟨List.Perm.refl _, hw.pages_sorted⟩
  have hc := ((@mergeSort_eq_iff _ (fun c : Instruction => c.address) (fun c => c.address + c.size)
      r.code) fun x hx => by
      have := (hw.code x hx).pos
      omega).mpr ⟨List.Perm.refl _, hw.code_sorted⟩
  have hi := ((@mergeSort_eq_iff _ (fun s : Segment => s.address)
    (fun s => s.address + s.bytes.length)
      r.inputs) fun x hx => by
      have := (hw.inputs x hx).pos
      omega).mpr ⟨List.Perm.refl _, hw.inputs_sorted⟩
  unfold sorted
  rw [hp.1, hc.1, hi.1]

theorem serialize_length_of_perm {h : Header} {pages pages' : List ℕ}
    {code code' : List Instruction} {inputs inputs' : List Segment} (hp : pages.Perm pages')
    (hc : code.Perm code') (hi : inputs.Perm inputs') :
    (serialize h pages code inputs).length = (serialize h pages' code' inputs').length := by
  have ep := (hp.flatMap_right pageBytes).length_eq
  have ec := (hc.flatMap_right instructionBytes).length_eq
  have ei := (hi.flatMap_right segmentBytes).length_eq
  unfold serialize
  simp only [List.length_append]
  rw [ep, ec, ei]

/-- **The recipe codec.** For every byte string (a vector is at most `UINT64_MAX` bytes long): the
arithmetic of the source does not wrap; `decode` succeeds with `r` exactly when `r` is well formed
and the string lists its records, each section in some order; what encodes to the string decodes to
the recipe with its sections sorted; and a decoded recipe encodes again, unless the string itself is
above the limit of `encode`, to a string that decodes to the same recipe. -/
theorem codec (b : List UInt8) (hb : b.length ≤ UINT64_MAX) :
    decode64 b = decode b ∧
    (∀ r, decode b = .ok r ↔ WellFormed r ∧ ∃ pages code inputs,
      b = serialize r.h pages code inputs ∧ r.pages.Perm pages ∧ r.code.Perm code ∧
        r.inputs.Perm inputs) ∧
    (∀ r, WellFormed (sorted (counted r)) → encode r = .ok b →
      decode b = .ok (sorted (counted r))) ∧
    ∀ r, decode b = .ok r → (b.length ≤ MAX_BLOB → ∃ b', encode r = .ok b') ∧
      ∀ b', encode r = .ok b' → decode b' = .ok r := by
  refine ⟨decode64_eq hb, fun r => decode_iff, fun r => decode_encode, fun r hd => ?_⟩
  obtain ⟨hw, pages, code, inputs, rfl, hp, hc, hi⟩ := decode_iff.mp hd
  have hk := counted_of_wellFormed hw
  have hs : sorted (counted r) = r := by rw [hk, sorted_of_wellFormed hw]
  constructor
  · intro hfit
    refine ⟨serialize r.h r.pages r.code r.inputs, ?_⟩
    rw [← serialize_length_of_perm hp hc hi] at hfit
    unfold encode
    rw [hk]
    exact if_neg (Nat.not_lt.mpr hfit)
  · intro b' he
    have h := decode_encode (r := r) (by rwa [hs]) he
    rwa [hs] at h

/-- A recipe with a scratch page, two instructions and an input that overlaps the second of them. -/
def sampleRecipe : Recipe where
  h :=
    { magic := MAGIC, version := 1, entry := 0x5000, stop := 0, output := 0x10000, length := 1,
      result := 0, steps := 2, inputBytes := 2, fsBase := 0, gsBase := 0,
      regs := List.replicate 18 0, xmm := List.replicate 16 (List.replicate 16 0), mxcsr := 0x1f80,
      pageCount := 1, codeCount := 2, inputCount := 1, digest := List.replicate 32 0 }
  pages := [0x5000]
  code := [⟨0x5000, 1, 0x90 :: List.replicate 14 0⟩, ⟨0x5001, 1, 0xc3 :: List.replicate 14 0⟩]
  inputs := [⟨0x5001, [0xc3, 7]⟩]

/-- Its instructions listed in the wrong order. -/
def sampleBytes : List UInt8 :=
  serialize sampleRecipe.h sampleRecipe.pages sampleRecipe.code.reverse sampleRecipe.inputs

theorem codec_sample : decode64 sampleBytes = .ok sampleRecipe ∧ WellFormed sampleRecipe := by
  have hw : WellFormed sampleRecipe := by decide +kernel
  have h := codec sampleBytes (by decide +kernel)
  have hd := (h.2.1 sampleRecipe).mpr ⟨hw, _, _, _, rfl, List.Perm.refl _,
    (List.reverse_perm _).symm, List.Perm.refl _⟩
  exact ⟨h.1.trans hd, hw⟩

end Afterfree.Wrapping
