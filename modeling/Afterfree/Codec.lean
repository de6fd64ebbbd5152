import Afterfree.Common

/-!
# Recipes and their binary form

The data model of a recipe and `decode` of `common.hpp`: the reader that takes records off the
front of the image, the checks on each record, and the checks on the whole recipe after sorting.
-/

namespace Afterfree.Codec

open Afterfree.Common

/-- `UINT64_MAX`. -/
def UINT64_MAX : ℕ := 2 ^ 64 - 1

/-- `struct Instruction`: `size` of the fifteen bytes count. -/
structure Instruction where
  address : ℕ
  size : ℕ
  bytes : List UInt8
deriving DecidableEq, Repr

/-- `struct Segment`. -/
structure Segment where
  address : ℕ
  bytes : List UInt8
deriving DecidableEq, Repr

/-- `struct Recipe`. -/
structure Recipe where
  h : Header
  pages : List ℕ
  code : List Instruction
  inputs : List Segment
deriving DecidableEq, Repr

/-! ### The reader -/

/-- `Reader::take` and `Reader::bytes`: the next `n` bytes. -/
def take (message : String) (n : ℕ) (rest : List UInt8) :
    Except String (List UInt8 × List UInt8) :=
  if rest.length < n then .error message else .ok (rest.take n, rest.drop n)

/-- `count` records, one after the other. -/
def takeMany {α : Type} (item : List UInt8 → Except String (α × List UInt8)) :
    ℕ → List UInt8 → Except String (List α × List UInt8)
  | 0, rest => .ok ([], rest)
  | count + 1, rest => do
    let (x, rest) ← item rest
    let (xs, rest) ← takeMany item count rest
    .ok (x :: xs, rest)

/-- One page of the recipe. -/
def takePage (rest : List UInt8) : Except String (ℕ × List UInt8) := do
  let (image, rest) ← take "truncated recipe" 8 rest
  let p := leNat image
  if p % PAGE ≠ 0 ∨ UINT64_MAX - PAGE < p then .error "invalid page" else .ok (p, rest)

/-- One instruction of the recipe: 24 bytes. -/
def takeInstruction (rest : List UInt8) : Except String (Instruction × List UInt8) := do
  let (image, rest) ← take "truncated recipe" 24 rest
  let c : Instruction :=
    { address := fieldAt image 0 8, size := fieldAt image 8 1, bytes := (image.drop 9).take 15 }
  if c.size = 0 ∨ 15 < c.size ∨ UINT64_MAX - c.size < c.address then .error "invalid instruction"
  else .ok (c, rest)

/-- One input of the recipe: its address, its length and its bytes. -/
def takeSegment (rest : List UInt8) : Except String (Segment × List UInt8) := do
  let (image, rest) ← take "truncated recipe" 8 rest
  let p := leNat image
  let (image, rest) ← take "truncated recipe" 8 rest
  let n := leNat image
  if n = 0 ∨ MAX_BLOB < n ∨ UINT64_MAX - n < p then .error "invalid input range"
  else
    let (bytes, rest) ← take "truncated input" n rest
    .ok (⟨p, bytes⟩, rest)

/-! ### The checks on the whole -/

/-- The header checks of `decode`. -/
def invalidHeader (h : Header) : Bool :=
  h.magic ≠ MAGIC || h.version ≠ 1 || h.length = 0 || MAX_BUFFER < h.length ||
    h.output % PAGE ≠ 0 || UINT64_MAX - rounded h.length < h.output || 262144 < h.pageCount ||
    1000000 < h.codeCount || 1000000 < h.inputCount || 500000000 < h.steps ||
    0xffff < h.mxcsr

/-- Every two neighbours of the list are related. -/
def neighbours {α : Type} (related : α → α → Bool) : List α → Bool
  | a :: b :: rest => related a b && neighbours related (b :: rest)
  | _ => true

/-- The instructions `decode` compares with an input: those from `lower_bound` on that start below
its end. -/
def overlapping (code : List Instruction) (s : Segment) : List Instruction :=
  (code.dropWhile fun c => c.address + c.size ≤ s.address).takeWhile fun c =>
    c.address < s.address + s.bytes.length

/-- The input and the instruction differ in a byte they share. -/
def conflicts (s : Segment) (c : Instruction) : Bool :=
  let first := max s.address c.address
  let last := min (s.address + s.bytes.length) (c.address + c.size)
  (List.range (last - first)).any fun i =>
    s.bytes.getD (first + i - s.address) 0 ≠ c.bytes.getD (first + i - c.address) 0

/-- The end of `decode`: sort the records and check them against each other. -/
def arrange (h : Header) (pages : List ℕ) (code : List Instruction) (inputs : List Segment) :
    Except String Recipe :=
  let pages := pages.mergeSort fun a b => decide (a ≤ b)
  let code := code.mergeSort fun a b => decide (a.address ≤ b.address)
  let inputs := inputs.mergeSort fun a b => decide (a.address ≤ b.address)
  if !neighbours (fun a b => decide (a ≠ b)) pages then .error "duplicate recipe page"
  else if !neighbours (fun a b : Instruction => decide (a.address + a.size ≤ b.address)) code then
    .error "overlapping recipe instructions"
  else if !neighbours (fun a b : Segment => decide (a.address + a.bytes.length ≤ b.address))
      inputs then .error "overlapping recipe inputs"
  else if inputs.any fun s => (overlapping code s).any (conflicts s) then
    .error "input conflicts with recipe code"
  else .ok { h, pages, code, inputs }

/-- `decode`. -/
def decode (blob : List UInt8) : Except String Recipe := do
  let (image, rest) ← take "truncated recipe" HEADER_SIZE blob
  let h := Header.ofBytes image
  if invalidHeader h then .error "invalid recipe header"
  else
    let (pages, rest) ← takeMany takePage h.pageCount rest
    let (code, rest) ← takeMany takeInstruction h.codeCount rest
    let (inputs, rest) ← takeMany takeSegment h.inputCount rest
    if rest ≠ [] ∨ (inputs.map fun s => s.bytes.length).sum ≠ h.inputBytes then
      .error "recipe length mismatch"
    else arrange h pages code inputs

/-! ### What an accepted recipe satisfies -/

theorem bind_ok {ε α β : Type} {x : Except ε α} {f : α → Except ε β} {b : β}
    (h : x >>= f = .ok b) : ∃ a, x = .ok a ∧ f a = .ok b := by
  cases x with
  | error e => cases h
  | ok a => exact ⟨a, rfl, h⟩

theorem take_ok {message : String} {n : ℕ} {rest : List UInt8} {x : List UInt8 × List UInt8}
    (h : take message n rest = .ok x) : n ≤ rest.length ∧ x = (rest.take n, rest.drop n) := by
  unfold take at h
  split_ifs at h with hn
  exact ⟨by omega, (Except.ok.inj h).symm⟩

theorem arrange_header {h : Header} {pages : List ℕ} {code : List Instruction}
    {inputs : List Segment} {r : Recipe} (ha : arrange h pages code inputs = .ok r) : r.h = h := by
  unfold arrange at ha
  simp only at ha
  split_ifs at ha
  cases ha
  rfl

/-- **The header of an accepted recipe** is that of the image and passes the header checks. -/
theorem decode_header {blob : List UInt8} {r : Recipe} (h : decode blob = .ok r) :
    HEADER_SIZE ≤ blob.length ∧ r.h = Header.ofBytes (blob.take HEADER_SIZE) ∧
      invalidHeader r.h = false := by
  unfold decode at h
  obtain ⟨x, hx, h⟩ := bind_ok h
  obtain ⟨hlen, rfl⟩ := take_ok hx
  simp only at h
  split_ifs at h with hbad
  obtain ⟨⟨pages, rest⟩, -, h⟩ := bind_ok h
  obtain ⟨⟨code, rest⟩, -, h⟩ := bind_ok h
  obtain ⟨⟨inputs, rest⟩, -, h⟩ := bind_ok h
  simp only at h
  split_ifs at h
  have hr := arrange_header h
  rw [hr]
  exact ⟨hlen, rfl, by simpa using hbad⟩

end Afterfree.Codec
