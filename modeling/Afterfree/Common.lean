import Mathlib.Tactic

/-!
# Constants and records shared by the application and its worker

`common.hpp` and the wire records. Lengths and addresses are natural numbers; every one of them is
below `2 ^ 64` where the source keeps it in a `uint64_t`, and the few places that pack or wrap say
so. The recipe header is read from its little-endian image with the offsets of `struct Header`.
-/

namespace Afterfree.Common

/-- `PAGE`. -/
def PAGE : ℕ := 4096

/-- `MAX_BLOB`: 64 MiB. -/
def MAX_BLOB : ℕ := 64 * 2 ^ 20

/-- `MAX_BUFFER`: 256 MiB. -/
def MAX_BUFFER : ℕ := 256 * 2 ^ 20

/-- `MAGIC`. -/
def MAGIC : ℕ := 0x314552464146

/-- `base`: the page an address lies in, as the address of its first byte. -/
def base (p : ℕ) : ℕ := p / PAGE * PAGE

/-- `rounded`: the next multiple of the page size. -/
def rounded (n : ℕ) : ℕ := (n + PAGE - 1) / PAGE * PAGE

theorem PAGE_pos : 0 < PAGE := by decide

theorem rounded_mod (n : ℕ) : rounded n % PAGE = 0 := by
  unfold rounded
  exact Nat.mul_mod_left _ _

theorem le_rounded (n : ℕ) : n ≤ rounded n := by
  unfold rounded PAGE
  omega

theorem rounded_lt (n : ℕ) : rounded n < n + PAGE := by
  unfold rounded PAGE
  omega

theorem rounded_mono {a b : ℕ} (h : a ≤ b) : rounded a ≤ rounded b := by
  unfold rounded PAGE
  omega

theorem rounded_of_mod {n : ℕ} (h : n % PAGE = 0) : rounded n = n := by
  unfold rounded PAGE at *
  omega

theorem rounded_pos {n : ℕ} (h : 0 < n) : 0 < rounded n := lt_of_lt_of_le h (le_rounded n)

theorem rounded_add {o n : ℕ} (h : o % PAGE = 0) : rounded (o + n) = o + rounded n := by
  unfold rounded PAGE at *
  omega

/-! ### Little-endian fields -/

/-- The number a little-endian byte string stands for. -/
def leNat : List UInt8 → ℕ
  | [] => 0
  | b :: bs => b.toNat + 256 * leNat bs

/-- The `n` low bytes of a number, least significant first. -/
def leBytes : ℕ → ℕ → List UInt8
  | 0, _ => []
  | n + 1, v => UInt8.ofNat (v % 256) :: leBytes n (v / 256)

theorem leBytes_length : ∀ n v : ℕ, (leBytes n v).length = n
  | 0, _ => rfl
  | n + 1, v => by rw [leBytes, List.length_cons, leBytes_length n]

theorem leNat_leBytes : ∀ {n v : ℕ}, v < 256 ^ n → leNat (leBytes n v) = v
  | 0, v, h => by
    obtain rfl : v = 0 := by simpa using h
    rfl
  | n + 1, v, h => by
    have hlow : (UInt8.ofNat (v % 256)).toNat = v % 256 := by
      rw [UInt8.toNat_ofNat']
      exact Nat.mod_eq_of_lt (Nat.mod_lt _ (by decide))
    have hhigh : v / 256 < 256 ^ n := by
      rw [Nat.div_lt_iff_lt_mul (by decide)]
      rwa [Nat.pow_succ] at h
    rw [leBytes, leNat, hlow, leNat_leBytes hhigh]
    omega

/-- The field of `n` bytes at `offset` of an image. -/
def fieldAt (image : List UInt8) (offset n : ℕ) : ℕ := leNat ((image.drop offset).take n)

/-- `sizeof(Header)`. -/
def HEADER_SIZE : ℕ := 536

/-- `struct Header`: the fixed part of a recipe. -/
structure Header where
  magic : ℕ
  version : ℕ
  entry : ℕ
  stop : ℕ
  output : ℕ
  length : ℕ
  result : ℕ
  steps : ℕ
  inputBytes : ℕ
  fsBase : ℕ
  gsBase : ℕ
  regs : List ℕ
  xmm : List (List UInt8)
  mxcsr : ℕ
  pageCount : ℕ
  codeCount : ℕ
  inputCount : ℕ
  digest : List UInt8
deriving DecidableEq, Repr

/-- `memcpy(&h, data, sizeof h)`. -/
def Header.ofBytes (data : List UInt8) : Header where
  magic := fieldAt data 0 8
  version := fieldAt data 8 8
  entry := fieldAt data 16 8
  stop := fieldAt data 24 8
  output := fieldAt data 32 8
  length := fieldAt data 40 8
  result := fieldAt data 48 8
  steps := fieldAt data 56 8
  inputBytes := fieldAt data 64 8
  fsBase := fieldAt data 72 8
  gsBase := fieldAt data 80 8
  regs := (List.range 18).map fun i => fieldAt data (88 + 8 * i) 8
  xmm := (List.range 16).map fun i => (data.drop (232 + 16 * i)).take 16
  mxcsr := fieldAt data 488 4
  pageCount := fieldAt data 492 4
  codeCount := fieldAt data 496 4
  inputCount := fieldAt data 500 4
  digest := (data.drop 504).take 32

theorem slice_take (image : List UInt8) {k offset n : ℕ} (h : offset + n ≤ k) :
    ((image.take k).drop offset).take n = (image.drop offset).take n := by
  rw [List.drop_take, List.take_take, min_eq_left (by omega)]

theorem fieldAt_take (image : List UInt8) {k offset n : ℕ} (h : offset + n ≤ k) :
    fieldAt (image.take k) offset n = fieldAt image offset n := by
  unfold fieldAt
  rw [slice_take image h]

theorem Header.ofBytes_take (data : List UInt8) :
    Header.ofBytes (data.take HEADER_SIZE) = Header.ofBytes data := by
  have hf : ∀ offset n, offset + n ≤ HEADER_SIZE →
      fieldAt (data.take HEADER_SIZE) offset n = fieldAt data offset n :=
    fun _ _ h => fieldAt_take data h
  have hregs : (List.range 18).map (fun i => fieldAt (data.take HEADER_SIZE) (88 + 8 * i) 8) =
      (List.range 18).map fun i => fieldAt data (88 + 8 * i) 8 := by
    refine List.map_congr_left fun i hi => hf _ _ ?_
    have := List.mem_range.mp hi
    unfold HEADER_SIZE
    omega
  have hxmm : (List.range 16).map
      (fun i => ((data.take HEADER_SIZE).drop (232 + 16 * i)).take 16) =
      (List.range 16).map fun i => (data.drop (232 + 16 * i)).take 16 := by
    refine List.map_congr_left fun i hi => slice_take data ?_
    have := List.mem_range.mp hi
    unfold HEADER_SIZE
    omega
  have hdigest := (@slice_take data HEADER_SIZE 504 32) (by decide)
  unfold Header.ofBytes
  rw [hregs, hxmm, hdigest, hf 0 8 (by decide), hf 8 8 (by decide), hf 16 8 (by decide),
    hf 24 8 (by decide), hf 32 8 (by decide), hf 40 8 (by decide), hf 48 8 (by decide),
    hf 56 8 (by decide), hf 64 8 (by decide), hf 72 8 (by decide), hf 80 8 (by decide),
    hf 488 4 (by decide), hf 492 4 (by decide), hf 496 4 (by decide), hf 500 4 (by decide)]

/-! ### Wire records -/

/-- `enum Command`. -/
inductive Command
  | put | restore | drop | quit | ping | policyProbe | register | restoreRange | peakRss
  | profile | restoreShared | registerStream | streamAck
deriving DecidableEq, Repr

/-- `struct Request`. -/
structure Request where
  command : Command
  id : ℕ
  size : ℕ
deriving DecidableEq, Repr

/-- `struct Response`. -/
structure Response where
  status : ℕ
  size : ℕ
  message : String
deriving DecidableEq, Repr

/-- `struct Registration`. -/
structure Registration where
  backend : ℕ
  pageBytes : ℕ
  retainedBytes : ℕ
deriving DecidableEq, Repr

/-- The size word of a range request: `((offset - recipe_offset) << 32) | length`. -/
def packRange (offset length : ℕ) : ℕ := (offset <<< 32) ||| length

/-- The worker's `q.size >> 32`. -/
def rangeOffset (word : ℕ) : ℕ := word >>> 32

/-- The worker's `uint32_t(q.size)`. -/
def rangeLength (word : ℕ) : ℕ := word % 2 ^ 32

theorem range_unpack {offset length : ℕ} (h : length < 2 ^ 32) :
    rangeOffset (packRange offset length) = offset ∧
      rangeLength (packRange offset length) = length := by
  have e : packRange offset length = 2 ^ 32 * offset + length := by
    unfold packRange
    rw [Nat.shiftLeft_eq, Nat.mul_comm, Nat.two_pow_add_eq_or_of_lt h]
  unfold rangeOffset rangeLength
  rw [e, Nat.shiftRight_eq_div_pow]
  omega

/-! ### The shared window -/

/-- `SharedArena`: a window the worker writes and the application reads. The receiver checks the
sealed size: whole pages, at least 16 and at most 256 of them. -/
structure Arena where
  capacity : ℕ
  aligned : capacity % PAGE = 0
  low : 16 * PAGE ≤ capacity
  high : capacity ≤ 256 * PAGE

theorem Arena.pos (a : Arena) : 0 < a.capacity :=
  lt_of_lt_of_le (by decide) a.low

end Afterfree.Common
