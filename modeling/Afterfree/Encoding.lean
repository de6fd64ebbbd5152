import Afterfree.Codec

/-!
# Encoding a recipe

`encode` of `common.hpp`, and what `decode` accepts. A reader and a writer of one kind of record
belong together (`Reads`): the reader takes exactly what the writer of an acceptable value puts
there. Sections of records follow by induction, and `decode_iff` says which byte strings are
recipes.
-/

namespace Afterfree.Encoding

open Afterfree.Common Afterfree.Codec

/-! ### Writers -/

/-- The bytes of a header, in the order of `struct Header`. -/
def headerBytes (h : Header) : List UInt8 :=
  leBytes 8 h.magic ++ (leBytes 8 h.version ++ (leBytes 8 h.entry ++ (leBytes 8 h.stop ++
    (leBytes 8 h.output ++ (leBytes 8 h.length ++ (leBytes 8 h.result ++ (leBytes 8 h.steps ++
      (leBytes 8 h.inputBytes ++ (leBytes 8 h.fsBase ++ (leBytes 8 h.gsBase ++
        (h.regs.flatMap (leBytes 8) ++ (h.xmm.flatten ++ (leBytes 4 h.mxcsr ++
          (leBytes 4 h.pageCount ++ (leBytes 4 h.codeCount ++ (leBytes 4 h.inputCount ++
            h.digest))))))))))))))))

/-- `append` of a page. -/
def pageBytes (p : ℕ) : List UInt8 := leBytes 8 p

/-- `append` of an instruction. -/
def instructionBytes (c : Instruction) : List UInt8 :=
  leBytes 8 c.address ++ (leBytes 1 c.size ++ c.bytes)

/-- What `encode` puts for an input. -/
def segmentBytes (s : Segment) : List UInt8 :=
  leBytes 8 s.address ++ (leBytes 8 s.bytes.length ++ s.bytes)

/-- A header followed by the three sections. -/
def serialize (h : Header) (pages : List ℕ) (code : List Instruction) (inputs : List Segment) :
    List UInt8 :=
  headerBytes h ++ (pages.flatMap pageBytes ++ (code.flatMap instructionBytes ++
    inputs.flatMap segmentBytes))

/-- The counts `encode` puts into the header. -/
def counted (r : Recipe) : Recipe :=
  { r with h := { r.h with
      pageCount := r.pages.length, codeCount := r.code.length, inputCount := r.inputs.length } }

/-- `encode`. -/
def encode (r : Recipe) : Except String (List UInt8) :=
  let r := counted r
  let v := serialize r.h r.pages r.code r.inputs
  if MAX_BLOB < v.length then .error "recipe exceeds 64 MiB limit" else .ok v

/-! ### One record -/

/-- A reader takes what a writer puts, for acceptable values and no others. -/
def Reads {α : Type} (item : List UInt8 → Except String (α × List UInt8)) (put : α → List UInt8)
    (ok : α → Prop) : Prop :=
  ∀ bytes x rest, item bytes = .ok (x, rest) ↔ ok x ∧ bytes = put x ++ rest

/-- **A section** of records. -/
theorem Reads.takeMany {α : Type} {item : List UInt8 → Except String (α × List UInt8)}
    {put : α → List UInt8} {ok : α → Prop} (h : Reads item put ok) :
    ∀ (n : ℕ) (bytes : List UInt8) (xs : List α) (rest : List UInt8),
      takeMany item n bytes = .ok (xs, rest) ↔
        xs.length = n ∧ (∀ x ∈ xs, ok x) ∧ bytes = xs.flatMap put ++ rest
  | 0, bytes, xs, rest => by
    rw [Codec.takeMany]
    constructor
    · intro he
      cases he
      exact ⟨rfl, fun x hx => absurd hx List.not_mem_nil, rfl⟩
    · rintro ⟨hlen, -, rfl⟩
      obtain rfl := List.eq_nil_of_length_eq_zero hlen
      rfl
  | n + 1, bytes, xs, rest => by
    rw [Codec.takeMany]
    constructor
    · intro he
      obtain ⟨⟨x, rest₁⟩, hx, he⟩ := bind_ok he
      obtain ⟨⟨ys, rest₂⟩, hys, he⟩ := bind_ok he
      cases he
      obtain ⟨hok, rfl⟩ := (h _ _ _).mp hx
      obtain ⟨hlen, hall, rfl⟩ := (Reads.takeMany h n _ _ _).mp hys
      refine ⟨by rw [List.length_cons, hlen], fun y hy => ?_, ?_⟩
      · rcases List.mem_cons.mp hy with rfl | hy
        · exact hok
        · exact hall y hy
      · rw [List.flatMap_cons, List.append_assoc]
    · rintro ⟨hlen, hall, rfl⟩
      cases xs with
      | nil => cases hlen
      | cons x xs =>
        have hx := (h (put x ++ (xs.flatMap put ++ rest)) x (xs.flatMap put ++ rest)).mpr
          ⟨hall x List.mem_cons_self, rfl⟩
        have hxs := (Reads.takeMany h n (xs.flatMap put ++ rest) xs rest).mpr
          ⟨by rw [List.length_cons] at hlen; omega,
            fun y hy => hall y (List.mem_cons_of_mem _ hy), rfl⟩
        rw [List.flatMap_cons, List.append_assoc, hx]
        simp only [bind, Except.bind, hxs]

theorem ok_bind {ε α β : Type} (a : α) (f : α → Except ε β) : (Except.ok a >>= f) = f a := rfl

theorem take_iff {message : String} {n : ℕ} {bytes a rest : List UInt8} :
    take message n bytes = .ok (a, rest) ↔ a.length = n ∧ bytes = a ++ rest := by
  unfold take
  split_ifs with hlt
  · constructor
    · intro h
      cases h
    · rintro ⟨rfl, rfl⟩
      rw [List.length_append] at hlt
      omega
  · constructor
    · intro h
      cases h
      exact ⟨by rw [List.length_take]; omega, (List.take_append_drop _ _).symm⟩
    · rintro ⟨rfl, rfl⟩
      rw [List.take_left, List.drop_left]

theorem leBytes_leNat : ∀ bytes : List UInt8, leBytes bytes.length (leNat bytes) = bytes
  | [] => rfl
  | b :: bs => by
    have hb : b.toNat < 256 := b.toNat_lt
    rw [List.length_cons, leNat, leBytes, Nat.add_mul_mod_self_left, Nat.mod_eq_of_lt hb,
      UInt8.ofNat_toNat, show (b.toNat + 256 * leNat bs) / 256 = leNat bs by
        omega, leBytes_leNat bs]

theorem leNat_lt : ∀ bytes : List UInt8, leNat bytes < 256 ^ bytes.length
  | [] => by decide
  | b :: bs => by
    have hb : b.toNat < 256 := b.toNat_lt
    have := leNat_lt bs
    rw [leNat, List.length_cons, Nat.pow_succ]
    omega

/-- **A number** of `n` bytes. -/
theorem take_number_iff {message : String} {n : ℕ} {bytes rest : List UInt8} {v : ℕ} :
    (∃ a, take message n bytes = .ok (a, rest) ∧ v = leNat a) ↔
      v < 256 ^ n ∧ bytes = leBytes n v ++ rest := by
  constructor
  · rintro ⟨a, ha, rfl⟩
    obtain ⟨rfl, rfl⟩ := take_iff.mp ha
    exact ⟨leNat_lt a, by rw [leBytes_leNat]⟩
  · rintro ⟨hv, rfl⟩
    exact ⟨leBytes n v, take_iff.mpr ⟨leBytes_length n v, rfl⟩, (leNat_leBytes hv).symm⟩

/-- A page `decode` accepts. -/
def PageOk (p : ℕ) : Prop := p % PAGE = 0 ∧ p + PAGE ≤ UINT64_MAX

/-- An instruction `decode` accepts. -/
@[mk_iff] structure InstructionOk (c : Instruction) : Prop where
  pos : 0 < c.size
  short : c.size ≤ 15
  fits : c.address + c.size ≤ UINT64_MAX
  bytes : c.bytes.length = 15

/-- An input `decode` accepts. -/
@[mk_iff] structure SegmentOk (s : Segment) : Prop where
  pos : 0 < s.bytes.length
  short : s.bytes.length ≤ MAX_BLOB
  fits : s.address + s.bytes.length ≤ UINT64_MAX

theorem reads_page : Reads takePage pageBytes PageOk := by
  intro bytes p rest
  unfold takePage PageOk
  constructor
  · intro h
    obtain ⟨⟨a, rest'⟩, ha, h⟩ := bind_ok h
    dsimp only at h
    split_ifs at h with hbad
    cases h
    obtain ⟨-, rfl⟩ := take_number_iff.mp ⟨a, ha, rfl⟩
    exact ⟨by unfold UINT64_MAX PAGE at *; omega, rfl⟩
  · rintro ⟨hok, rfl⟩
    have hlt : p < 256 ^ 8 := by
      have := hok.2
      unfold UINT64_MAX at this
      omega
    obtain ⟨a, ha, rfl⟩ := (@take_number_iff "truncated recipe").mpr ⟨hlt, rfl⟩
    unfold pageBytes
    rw [ha, ok_bind]
    dsimp only
    rw [if_neg]
    unfold UINT64_MAX PAGE at *
    omega

/-! ### Slices of an image -/

/-- `n` bytes of an image from `offset` on. -/
def slice (image : List UInt8) (offset n : ℕ) : List UInt8 := (image.drop offset).take n

theorem slice_length {image : List UInt8} {offset n : ℕ} (h : offset + n ≤ image.length) :
    (slice image offset n).length = n := by
  unfold slice
  rw [List.length_take, List.length_drop]
  omega

theorem slice_append (image : List UInt8) (offset n m : ℕ) :
    slice image offset n ++ slice image (offset + n) m = slice image offset (n + m) := by
  unfold slice
  rw [List.take_add, List.drop_drop]

theorem slice_all (image : List UInt8) {n : ℕ} (h : image.length = n) :
    slice image 0 n = image := by
  unfold slice
  rw [List.drop_zero, List.take_of_length_le h.le]

theorem leBytes_fieldAt {image : List UInt8} {offset n : ℕ} (h : offset + n ≤ image.length) :
    leBytes n (fieldAt image offset n) = slice image offset n := by
  have hlen := slice_length h
  have := leBytes_leNat (slice image offset n)
  rwa [hlen] at this

theorem flatten_slices (image : List UInt8) (offset w : ℕ) : ∀ k : ℕ,
    ((List.range k).map fun i => slice image (offset + w * i) w).flatten =
      slice image offset (w * k)
  | 0 => by
    rw [Nat.mul_zero]
    unfold slice
    rw [List.take_zero]
    rfl
  | k + 1 => by
    rw [List.range_succ, List.map_append, List.flatten_append, flatten_slices image offset w k,
      List.map_singleton, List.flatten_singleton, slice_append]
    rfl

theorem fieldAt_lt {image : List UInt8} {offset n : ℕ} : fieldAt image offset n < 256 ^ n := by
  refine (leNat_lt _).trans_le (Nat.pow_le_pow_right (by decide) ?_)
  rw [List.length_take]
  exact Nat.min_le_left _ _

/-! ### Instructions and inputs -/

theorem reads_instruction : Reads takeInstruction instructionBytes InstructionOk := by
  intro bytes c rest
  unfold takeInstruction
  constructor
  · intro h
    obtain ⟨⟨image, rest'⟩, ha, h⟩ := bind_ok h
    dsimp only at h
    split_ifs at h with hbad
    cases h
    obtain ⟨hlen, rfl⟩ := take_iff.mp ha
    have hbytes : ((image.drop 9).take 15).length = 15 := slice_length (by omega)
    have hpos : 0 < fieldAt image 8 1 := by omega
    have hshort : fieldAt image 8 1 ≤ 15 := by omega
    have hfits : fieldAt image 0 8 + fieldAt image 8 1 ≤ UINT64_MAX := by
      unfold UINT64_MAX at *
      omega
    refine ⟨⟨hpos, hshort, hfits, hbytes⟩, ?_⟩
    unfold instructionBytes
    dsimp only
    rw [leBytes_fieldAt (by omega), leBytes_fieldAt (by omega)]
    show image ++ rest = slice image 0 8 ++ (slice image (0 + 8) 1 ++ slice image (8 + 1) 15) ++
      rest
    rw [slice_append, slice_append, slice_all image (by omega)]
  · rintro ⟨hok, rfl⟩
    have hsize : c.size < 256 ^ 1 := by
      have := hok.short
      omega
    have haddr : c.address < 256 ^ 8 := by
      have := hok.fits
      unfold UINT64_MAX at this
      omega
    have hlen : (instructionBytes c).length = 24 := by
      unfold instructionBytes
      rw [List.length_append, List.length_append, leBytes_length, leBytes_length, hok.bytes]
    have h1 : fieldAt (instructionBytes c) 0 8 = c.address := by
      unfold fieldAt instructionBytes
      rw [List.drop_zero, List.take_left' (leBytes_length 8 _), leNat_leBytes haddr]
    have h2 : fieldAt (instructionBytes c) 8 1 = c.size := by
      unfold fieldAt instructionBytes
      rw [List.drop_left' (leBytes_length 8 _), List.take_left' (leBytes_length 1 _),
        leNat_leBytes hsize]
    have h3 : ((instructionBytes c).drop 9).take 15 = c.bytes := by
      unfold instructionBytes
      rw [← List.append_assoc, List.drop_left' (by
        rw [List.length_append, leBytes_length, leBytes_length]),
          List.take_of_length_le hok.bytes.le]
    rw [take_iff.mpr ⟨hlen, rfl⟩, ok_bind]
    dsimp only
    rw [h1, h2, h3, if_neg]
    have := hok.pos
    have := hok.short
    have := hok.fits
    unfold UINT64_MAX at *
    omega

theorem reads_segment : Reads takeSegment segmentBytes SegmentOk := by
  intro bytes s rest
  unfold takeSegment
  constructor
  · intro h
    obtain ⟨⟨a, rest₁⟩, ha, h⟩ := bind_ok h
    obtain ⟨⟨b, rest₂⟩, hb, h⟩ := bind_ok h
    dsimp only at h
    split_ifs at h with hbad
    obtain ⟨⟨data, rest₃⟩, hd, h⟩ := bind_ok h
    cases h
    obtain ⟨hp, rfl⟩ := take_number_iff.mp ⟨a, ha, rfl⟩
    obtain ⟨hn, rfl⟩ := take_number_iff.mp ⟨b, hb, rfl⟩
    obtain ⟨hlen, rfl⟩ := take_iff.mp hd
    refine ⟨⟨?_, ?_, ?_⟩, ?_⟩
    · show 0 < data.length
      omega
    · show data.length ≤ MAX_BLOB
      omega
    · show leNat a + data.length ≤ UINT64_MAX
      unfold UINT64_MAX MAX_BLOB at *
      omega
    · unfold segmentBytes
      dsimp only
      rw [hlen, List.append_assoc, List.append_assoc]
  · rintro ⟨hok, rfl⟩
    obtain ⟨hpos, hshort, hfits⟩ := hok
    have haddr : s.address < 256 ^ 8 := by
      unfold UINT64_MAX at hfits
      omega
    have hn : s.bytes.length < 256 ^ 8 := by
      unfold MAX_BLOB at hshort
      omega
    obtain ⟨a, ha, hav⟩ := (@take_number_iff "truncated recipe" 8 _
        (leBytes 8 s.bytes.length ++ (s.bytes ++ rest))).mpr ⟨haddr, rfl⟩
    obtain ⟨b, hb, hbv⟩ := (@take_number_iff "truncated recipe" 8 _ (s.bytes ++ rest)).mpr ⟨hn, rfl⟩
    have hd : take "truncated input" s.bytes.length (s.bytes ++ rest) = .ok (s.bytes, rest) :=
      take_iff.mpr ⟨rfl, rfl⟩
    unfold segmentBytes
    rw [List.append_assoc, List.append_assoc, ha, ok_bind]
    dsimp only
    rw [hb, ok_bind]
    dsimp only
    rw [← hbv, ← hav, if_neg (by unfold UINT64_MAX MAX_BLOB at *; omega), hd]
    rfl

/-! ### The header -/

/-- The ranges of the fields of `struct Header`, which the types of the source give. -/
@[mk_iff] structure HeaderFits (h : Header) : Prop where
  words : ∀ v ∈ [h.magic, h.version, h.entry, h.stop, h.output, h.length, h.result, h.steps,
    h.inputBytes, h.fsBase, h.gsBase], v < 256 ^ 8
  halves : ∀ v ∈ [h.mxcsr, h.pageCount, h.codeCount, h.inputCount], v < 256 ^ 4
  regs_length : h.regs.length = 18
  regs : ∀ v ∈ h.regs, v < 256 ^ 8
  xmm_length : h.xmm.length = 16
  xmm : ∀ x ∈ h.xmm, x.length = 16
  digest : h.digest.length = 32

theorem flatMap_leBytes_length (n : ℕ) : ∀ vs : List ℕ,
    (vs.flatMap (leBytes n)).length = n * vs.length
  | [] => rfl
  | v :: vs => by
    rw [List.flatMap_cons, List.length_append, leBytes_length, flatMap_leBytes_length n vs,
      List.length_cons, Nat.mul_succ, Nat.add_comm]

theorem flatten_length_of_forall {n : ℕ} : ∀ {xs : List (List UInt8)}, (∀ x ∈ xs, x.length = n) →
    xs.flatten.length = n * xs.length
  | [], _ => rfl
  | x :: xs, h => by
    rw [List.flatten_cons, List.length_append, h x List.mem_cons_self,
      flatten_length_of_forall fun y hy => h y (List.mem_cons_of_mem _ hy), List.length_cons,
      Nat.mul_succ, Nat.add_comm]

theorem headerBytes_length {h : Header} (hf : HeaderFits h) :
    (headerBytes h).length = HEADER_SIZE := by
  unfold headerBytes
  simp only [List.length_append, leBytes_length, flatMap_leBytes_length,
    flatten_length_of_forall hf.xmm, hf.regs_length, hf.xmm_length, hf.digest]
  rfl

theorem headerFits_ofBytes {image : List UInt8} (h : image.length = HEADER_SIZE) :
    HeaderFits (Header.ofBytes image) := by
  have h536 : image.length = 536 := h
  refine ⟨?_, ?_, ?_, ?_, ?_, ?_, ?_⟩
  · intro v hv
    simp only [Header.ofBytes, List.mem_cons, List.not_mem_nil, or_false] at hv
    rcases hv with rfl | rfl | rfl | rfl | rfl | rfl | rfl | rfl | rfl | rfl | rfl <;>
      exact fieldAt_lt
  · intro v hv
    simp only [Header.ofBytes, List.mem_cons, List.not_mem_nil, or_false] at hv
    rcases hv with rfl | rfl | rfl | rfl <;> exact fieldAt_lt
  · rw [Header.ofBytes, List.length_map, List.length_range]
  · intro v hv
    obtain ⟨i, -, rfl⟩ := List.mem_map.mp hv
    exact fieldAt_lt
  · rw [Header.ofBytes, List.length_map, List.length_range]
  · intro x hx
    obtain ⟨i, hi, rfl⟩ := List.mem_map.mp hx
    have := List.mem_range.mp hi
    exact slice_length (by omega)
  · exact slice_length (by omega)

/-- **An image is written back** as it was read. -/
theorem headerBytes_ofBytes {image : List UInt8} (h : image.length = HEADER_SIZE) :
    headerBytes (Header.ofBytes image) = image := by
  have h536 : image.length = 536 := h
  have hfield : ∀ {offset n}, offset + n ≤ 536 →
      leBytes n (fieldAt image offset n) = slice image offset n := fun ho =>
    leBytes_fieldAt (ho.trans h536.ge)
  have hregs : ((List.range 18).map fun i => fieldAt image (88 + 8 * i) 8).flatMap (leBytes 8) =
      slice image 88 (8 * 18) := by
    rw [← flatten_slices image 88 8 18, List.flatMap_def, List.map_map]
    refine congrArg List.flatten (List.map_congr_left fun i hi => ?_)
    have := List.mem_range.mp hi
    exact hfield (by omega)
  have hxmm : ((List.range 16).map fun i => (image.drop (232 + 16 * i)).take 16).flatten =
      slice image 232 (16 * 16) := flatten_slices image 232 16 16
  unfold headerBytes Header.ofBytes
  dsimp only
  rw [hregs, hxmm, hfield (by decide), hfield (by decide), hfield (by decide), hfield (by decide),
    hfield (by decide), hfield (by decide), hfield (by decide), hfield (by decide),
    hfield (by decide), hfield (by decide), hfield (by decide), hfield (by decide),
    hfield (by decide), hfield (by decide), hfield (by decide)]
  -- the slices are adjacent
  have hjoin : ∀ (offset n next m : ℕ), next = offset + n →
      slice image offset n ++ slice image next m = slice image offset (n + m) := by
    rintro offset n next m rfl
    exact slice_append image offset n m
  show slice image 0 8 ++ (slice image 8 8 ++ (slice image 16 8 ++ (slice image 24 8 ++
    (slice image 32 8 ++ (slice image 40 8 ++ (slice image 48 8 ++ (slice image 56 8 ++
      (slice image 64 8 ++ (slice image 72 8 ++ (slice image 80 8 ++ (slice image 88 (8 * 18) ++
        (slice image 232 (16 * 16) ++ (slice image 488 4 ++ (slice image 492 4 ++
          (slice image 496 4 ++ (slice image 500 4 ++ slice image 504 32)))))))))))))))) = image
  rw [hjoin 500 4 504 32 rfl, hjoin 496 4 500 _ rfl, hjoin 492 4 496 _ rfl, hjoin 488 4 492 _ rfl,
    hjoin 232 (16 * 16) 488 _ rfl, hjoin 88 (8 * 18) 232 _ rfl, hjoin 80 8 88 _ rfl,
    hjoin 72 8 80 _ rfl, hjoin 64 8 72 _ rfl, hjoin 56 8 64 _ rfl, hjoin 48 8 56 _ rfl,
    hjoin 40 8 48 _ rfl, hjoin 32 8 40 _ rfl, hjoin 24 8 32 _ rfl, hjoin 16 8 24 _ rfl,
    hjoin 8 8 16 _ rfl, hjoin 0 8 8 _ rfl]
  exact slice_all image h536

theorem leBytes_inj {n a b : ℕ} (ha : a < 256 ^ n) (hb : b < 256 ^ n)
    (h : leBytes n a = leBytes n b) : a = b := by
  rw [← leNat_leBytes ha, h, leNat_leBytes hb]

theorem flatMap_leBytes_inj {n : ℕ} : ∀ {as bs : List ℕ}, as.length = bs.length →
    (∀ v ∈ as, v < 256 ^ n) → (∀ v ∈ bs, v < 256 ^ n) →
    as.flatMap (leBytes n) = bs.flatMap (leBytes n) → as = bs
  | [], [], _, _, _, _ => rfl
  | a :: as, b :: bs, hl, ha, hb, h => by
    rw [List.flatMap_cons, List.flatMap_cons] at h
    obtain ⟨h1, h2⟩ := List.append_inj h (by rw [leBytes_length, leBytes_length])
    rw [leBytes_inj (ha a List.mem_cons_self) (hb b List.mem_cons_self) h1,
      flatMap_leBytes_inj (by simpa using hl) (fun v hv => ha v (List.mem_cons_of_mem _ hv))
        (fun v hv => hb v (List.mem_cons_of_mem _ hv)) h2]

theorem flatten_inj_of_forall {n : ℕ} : ∀ {as bs : List (List UInt8)}, as.length = bs.length →
    (∀ v ∈ as, v.length = n) → (∀ v ∈ bs, v.length = n) → as.flatten = bs.flatten → as = bs
  | [], [], _, _, _, _ => rfl
  | a :: as, b :: bs, hl, ha, hb, h => by
    rw [List.flatten_cons, List.flatten_cons] at h
    obtain ⟨h1, h2⟩ := List.append_inj h (by rw [ha a List.mem_cons_self, hb b List.mem_cons_self])
    rw [h1, flatten_inj_of_forall (by simpa using hl) (fun v hv => ha v (List.mem_cons_of_mem _ hv))
      (fun v hv => hb v (List.mem_cons_of_mem _ hv)) h2]

theorem word_inj {n a b : ℕ} {xs ys : List UInt8} (ha : a < 256 ^ n) (hb : b < 256 ^ n)
    (h : leBytes n a ++ xs = leBytes n b ++ ys) : a = b ∧ xs = ys := by
  obtain ⟨h1, h2⟩ := List.append_inj h (by rw [leBytes_length, leBytes_length])
  exact ⟨leBytes_inj ha hb h1, h2⟩

/-- **Headers that fit are told apart by their bytes.** -/
theorem headerBytes_inj {h h' : Header} (hf : HeaderFits h) (hf' : HeaderFits h')
    (he : headerBytes h = headerBytes h') : h = h' := by
  have w := hf.words
  have w' := hf'.words
  have q := hf.halves
  have q' := hf'.halves
  simp only [List.forall_mem_cons] at w w' q q'
  obtain ⟨w1, w2, w3, w4, w5, w6, w7, w8, w9, w10, w11, -⟩ := w
  obtain ⟨v1, v2, v3, v4, v5, v6, v7, v8, v9, v10, v11, -⟩ := w'
  obtain ⟨q1, q2, q3, q4, -⟩ := q
  obtain ⟨p1, p2, p3, p4, -⟩ := q'
  unfold headerBytes at he
  obtain ⟨e1, he⟩ := word_inj w1 v1 he
  obtain ⟨e2, he⟩ := word_inj w2 v2 he
  obtain ⟨e3, he⟩ := word_inj w3 v3 he
  obtain ⟨e4, he⟩ := word_inj w4 v4 he
  obtain ⟨e5, he⟩ := word_inj w5 v5 he
  obtain ⟨e6, he⟩ := word_inj w6 v6 he
  obtain ⟨e7, he⟩ := word_inj w7 v7 he
  obtain ⟨e8, he⟩ := word_inj w8 v8 he
  obtain ⟨e9, he⟩ := word_inj w9 v9 he
  obtain ⟨e10, he⟩ := word_inj w10 v10 he
  obtain ⟨e11, he⟩ := word_inj w11 v11 he
  obtain ⟨er, he⟩ := List.append_inj he (by
    rw [flatMap_leBytes_length, flatMap_leBytes_length, hf.regs_length, hf'.regs_length])
  obtain ⟨ex, he⟩ := List.append_inj he (by
    rw [flatten_length_of_forall hf.xmm, flatten_length_of_forall hf'.xmm, hf.xmm_length,
      hf'.xmm_length])
  obtain ⟨e12, he⟩ := word_inj q1 p1 he
  obtain ⟨e13, he⟩ := word_inj q2 p2 he
  obtain ⟨e14, he⟩ := word_inj q3 p3 he
  obtain ⟨e15, he⟩ := word_inj q4 p4 he
  have er' := flatMap_leBytes_inj (hf.regs_length.trans hf'.regs_length.symm) hf.regs hf'.regs er
  have ex' := flatten_inj_of_forall (hf.xmm_length.trans hf'.xmm_length.symm) hf.xmm hf'.xmm ex
  cases h
  cases h'
  simp only [Header.mk.injEq]
  exact ⟨e1, e2, e3, e4, e5, e6, e7, e8, e9, e10, e11, er', ex', e12, e13, e14, e15, he⟩

theorem ofBytes_headerBytes {h : Header} (hf : HeaderFits h) : Header.ofBytes (headerBytes h) = h :=
  headerBytes_inj (headerFits_ofBytes (headerBytes_length hf)) hf
    (headerBytes_ofBytes (headerBytes_length hf))

/-! ### Sorted sections -/

section Sorting

variable {α : Type} {key stop : α → ℕ}

/-- Neighbours that do not overlap: no two records do. -/
theorem neighbours_iff : ∀ {xs : List α}, (∀ x ∈ xs, key x ≤ stop x) →
    (neighbours (fun a b => decide (stop a ≤ key b)) xs = true ↔
      xs.Pairwise fun a b => stop a ≤ key b)
  | [], _ => by simp [neighbours]
  | [a], _ => by simp [neighbours]
  | a :: b :: xs, h => by
    have hrest := @neighbours_iff (b :: xs) fun x hx => h x (List.mem_cons_of_mem _ hx)
    rw [neighbours, Bool.and_eq_true, decide_eq_true_iff, hrest]
    constructor
    · rintro ⟨hab, hp⟩
      refine List.pairwise_cons.mpr ⟨fun x hx => ?_, hp⟩
      rcases List.mem_cons.mp hx with rfl | hx
      · exact hab
      · have hb := h b (List.mem_cons_of_mem _ List.mem_cons_self)
        have := (List.pairwise_cons.mp hp).1 x hx
        omega
    · intro hp
      obtain ⟨ha, hp⟩ := List.pairwise_cons.mp hp
      exact ⟨ha b List.mem_cons_self, hp⟩

theorem pairwise_mergeSort_key (key : α → ℕ) (xs : List α) :
    (xs.mergeSort fun a b => decide (key a ≤ key b)).Pairwise fun a b => key a ≤ key b := by
  have h := (@List.pairwise_mergeSort _ (fun a b => decide (key a ≤ key b)))
    (fun a b c h1 h2 => by
      simp only [decide_eq_true_iff] at *
      omega)
    (fun a b => by
      simp only [Bool.or_eq_true, decide_eq_true_iff]
      omega) xs
  exact h.imp fun hab => of_decide_eq_true hab

/-- **Sorting a section** of records that do not overlap. -/
theorem mergeSort_eq_iff {xs ys : List α} (hpos : ∀ x ∈ xs, key x < stop x) :
    ((xs.mergeSort fun a b => decide (key a ≤ key b)) = ys ∧
        neighbours (fun a b => decide (stop a ≤ key b)) ys = true) ↔
      ys.Perm xs ∧ ys.Pairwise fun a b => stop a ≤ key b := by
  constructor
  · rintro ⟨rfl, hn⟩
    have hperm := List.mergeSort_perm xs fun a b => decide (key a ≤ key b)
    refine ⟨hperm, (neighbours_iff fun x hx => ?_).mp hn⟩
    exact (hpos x (hperm.subset hx)).le
  · rintro ⟨hperm, hp⟩
    have hlt : ∀ x ∈ ys, key x < stop x := fun x hx => hpos x (hperm.subset hx)
    refine ⟨?_, (neighbours_iff fun x hx => (hlt x hx).le).mpr hp⟩
    have hsorted : ys.Pairwise fun a b => key a ≤ key b := by
      refine List.Pairwise.imp_of_mem (fun {a b} ha _ hab => ?_) hp
      have := hlt a ha
      omega
    refine List.Perm.eq_of_pairwise ?_ (pairwise_mergeSort_key key xs) hsorted
      ((List.mergeSort_perm xs _).trans hperm.symm)
    -- two records with one key are one record
    intro a b ha hb h1 h2
    have ha' : a ∈ ys := hperm.symm.subset ((List.mergeSort_perm xs _).subset ha)
    have hnodup : (ys.map key).Nodup := by
      refine List.pairwise_map.mpr (List.Pairwise.imp_of_mem (fun {a b} ha _ hab => ?_) hp)
      have := hlt a ha
      omega
    exact List.inj_on_of_nodup_map hnodup ha' hb (by omega)

end Sorting

theorem neighbours_ne_iff : ∀ {ps : List ℕ}, ps.Pairwise (fun a b => a ≤ b) →
    neighbours (fun a b => decide (a ≠ b)) ps = neighbours (fun a b => decide (a + 1 ≤ b)) ps
  | [], _ => rfl
  | [a], _ => rfl
  | a :: b :: ps, h => by
    obtain ⟨h1, h2⟩ := List.pairwise_cons.mp h
    have hab := h1 b List.mem_cons_self
    rw [neighbours, neighbours, neighbours_ne_iff h2]
    congr 1
    exact decide_eq_decide.mpr (by omega)

/-! ### Inputs against code -/

/-- The input and the instruction have the same byte at every address they share. -/
def Agree (s : Segment) (c : Instruction) : Prop :=
  ∀ a, s.address ≤ a → a < s.address + s.bytes.length → c.address ≤ a → a < c.address + c.size →
    s.bytes.getD (a - s.address) 0 = c.bytes.getD (a - c.address) 0

theorem conflicts_false_iff {s : Segment} {c : Instruction} :
    conflicts s c = false ↔ Agree s c := by
  unfold conflicts Agree
  dsimp only
  rw [List.any_eq_false]
  constructor
  · intro h a h1 h2 h3 h4
    have hi := h (a - max s.address c.address) (List.mem_range.mpr (by omega))
    rw [decide_eq_true_iff, not_not] at hi
    rwa [show max s.address c.address + (a - max s.address c.address) = a by omega] at hi
  · intro h i hi
    have hi' := List.mem_range.mp hi
    rw [decide_eq_true_iff, not_not]
    exact h _ (by omega) (by omega) (by omega) (by omega)

theorem overlapping_complete {code : List Instruction} {s : Segment} {c : Instruction}
    (hsorted : code.Pairwise fun a b => a.address + a.size ≤ b.address) (hc : c ∈ code)
    (h1 : s.address < c.address + c.size) (h2 : c.address < s.address + s.bytes.length) :
    c ∈ overlapping code s := by
  unfold overlapping
  induction code with
  | nil => cases hc
  | cons d code ih =>
    obtain ⟨hd, hrest⟩ := List.pairwise_cons.mp hsorted
    rw [List.dropWhile_cons]
    split_ifs with hskip
    · have hskip' := of_decide_eq_true hskip
      rcases List.mem_cons.mp hc with rfl | hc
      · omega
      · exact ih hrest hc
    · -- from here on everything up to `c` starts below the end of the input
      have htake : ∀ (pre : List Instruction) (post : List Instruction),
          d :: code = pre ++ c :: post →
          c ∈ (d :: code).takeWhile fun c => decide (c.address < s.address + s.bytes.length) := by
        intro pre post he
        have hbelow : ∀ x ∈ pre ++ [c], x.address < s.address + s.bytes.length := by
          intro x hx
          rcases List.mem_append.mp hx with hx | hx
          · rw [he] at hsorted
            have := (List.pairwise_append.mp hsorted).2.2 x hx c List.mem_cons_self
            omega
          · rw [List.mem_singleton.mp hx]
            exact h2
        rw [he, show pre ++ c :: post = (pre ++ [c]) ++ post by simp,
          List.takeWhile_append_of_pos fun x hx => decide_eq_true (hbelow x hx)]
        exact List.mem_append_left _ (List.mem_append_right _ List.mem_cons_self)
      obtain ⟨pre, post, he⟩ := List.append_of_mem hc
      exact htake pre post he

theorem overlapping_subset {code : List Instruction} {s : Segment} {c : Instruction}
    (hc : c ∈ overlapping code s) : c ∈ code :=
  (List.dropWhile_suffix _).subset ((List.takeWhile_prefix _).subset hc)

theorem overlapping_bounds {code : List Instruction} {s : Segment} {c : Instruction}
    (hsorted : code.Pairwise fun a b => a.address + a.size ≤ b.address)
    (hc : c ∈ overlapping code s) :
    s.address < c.address + c.size ∧ c.address < s.address + s.bytes.length := by
  unfold overlapping at hc
  refine ⟨?_, of_decide_eq_true (List.all_eq_true.mp List.all_takeWhile c hc)⟩
  have hdrop := (List.takeWhile_prefix _).subset hc
  clear hc
  induction code with
  | nil => cases hdrop
  | cons d code ih =>
    obtain ⟨hd, hrest⟩ := List.pairwise_cons.mp hsorted
    rw [List.dropWhile_cons] at hdrop
    split_ifs at hdrop with hskip
    · exact ih hrest hdrop
    · rw [decide_eq_true_iff] at hskip
      rcases List.mem_cons.mp hdrop with rfl | hin
      · omega
      · have := hd c hin
        omega

/-- **The comparison of inputs and code** finds every disagreement. -/
theorem compared_iff {code : List Instruction} {inputs : List Segment}
    (hsorted : code.Pairwise fun a b => a.address + a.size ≤ b.address) :
    (inputs.any fun s => (overlapping code s).any (conflicts s)) = false ↔
      ∀ s ∈ inputs, ∀ c ∈ code, Agree s c := by
  rw [List.any_eq_false]
  constructor
  · intro h s hs c hc
    have hs' := h s hs
    rw [List.any_eq_true] at hs'
    by_cases hin : s.address < c.address + c.size ∧ c.address < s.address + s.bytes.length
    · have hmem := overlapping_complete hsorted hc hin.1 hin.2
      refine conflicts_false_iff.mp (Bool.eq_false_iff.mpr fun ht => hs' ⟨c, hmem, ht⟩)
    · intro a h1 h2 h3 h4
      omega
  · intro h s hs ht
    obtain ⟨c, hc, hconf⟩ := List.any_eq_true.mp ht
    rw [conflicts_false_iff.mpr (h s hs c (overlapping_subset hc))] at hconf
    cases hconf

/-! ### What `decode` accepts -/

/-- **A well-formed recipe**: the header within its limits and with the counts of the sections,
pages aligned and strictly increasing, instructions and inputs sorted and disjoint, and one byte at
every address that an input and an instruction share. -/
@[mk_iff] structure WellFormed (r : Recipe) : Prop where
  fits : HeaderFits r.h
  header : invalidHeader r.h = false
  page_count : r.h.pageCount = r.pages.length
  code_count : r.h.codeCount = r.code.length
  input_count : r.h.inputCount = r.inputs.length
  pages : ∀ p ∈ r.pages, PageOk p
  code : ∀ c ∈ r.code, InstructionOk c
  inputs : ∀ s ∈ r.inputs, SegmentOk s
  total : (r.inputs.map fun s => s.bytes.length).sum = r.h.inputBytes
  pages_sorted : r.pages.Pairwise fun a b => a < b
  code_sorted : r.code.Pairwise fun a b => a.address + a.size ≤ b.address
  inputs_sorted : r.inputs.Pairwise fun a b => a.address + a.bytes.length ≤ b.address
  agree : ∀ s ∈ r.inputs, ∀ c ∈ r.code, Agree s c

instance (h : Header) : Decidable (HeaderFits h) := decidable_of_iff' _ (headerFits_iff h)

instance (p : ℕ) : Decidable (PageOk p) := inferInstanceAs (Decidable (_ ∧ _))

instance (c : Instruction) : Decidable (InstructionOk c) :=
  decidable_of_iff' _ (instructionOk_iff c)

instance (s : Segment) : Decidable (SegmentOk s) := decidable_of_iff' _ (segmentOk_iff s)

instance (s : Segment) (c : Instruction) : Decidable (Agree s c) :=
  decidable_of_iff (conflicts s c = false) conflicts_false_iff

instance (r : Recipe) : Decidable (WellFormed r) := decidable_of_iff' _ (wellFormed_iff r)

theorem WellFormed.bounds {r : Recipe} (hw : WellFormed r) :
    0 < r.h.length ∧ r.h.length ≤ MAX_BUFFER ∧ r.h.output % PAGE = 0 ∧
      r.h.output + rounded r.h.length ≤ UINT64_MAX ∧ r.h.steps ≤ 500000000 := by
  have hhead := hw.header
  unfold invalidHeader at hhead
  simp only [Bool.or_eq_false_iff, decide_eq_false_iff_not, not_not] at hhead
  have hround := rounded_lt r.h.length
  unfold MAX_BUFFER PAGE at *
  unfold UINT64_MAX at *
  omega

/-- **Sorting and checking** the sections. -/
theorem arrange_iff {h : Header} {pages : List ℕ} {code : List Instruction} {inputs : List Segment}
    {r : Recipe} (hc : ∀ c ∈ code, InstructionOk c) (hi : ∀ s ∈ inputs, SegmentOk s) :
    arrange h pages code inputs = .ok r ↔
      r.h = h ∧ (r.pages.Perm pages ∧ r.pages.Pairwise fun a b => a < b) ∧
      (r.code.Perm code ∧ r.code.Pairwise fun a b => a.address + a.size ≤ b.address) ∧
      (r.inputs.Perm inputs ∧
        r.inputs.Pairwise fun a b => a.address + a.bytes.length ≤ b.address) ∧
      ∀ s ∈ r.inputs, ∀ c ∈ r.code, Agree s c := by
  have hpages :=
    fun ys => (@mergeSort_eq_iff _ (fun p : ℕ => p) (fun p => p + 1) pages ys) fun x _ =>
      Nat.lt_succ_self x
  have hcode := fun ys => (@mergeSort_eq_iff _ (fun c : Instruction => c.address)
      (fun c => c.address + c.size) code ys) fun x hx => by
      have := (hc x hx).pos
      omega
  have hinputs := fun ys => (@mergeSort_eq_iff _ (fun s : Segment => s.address)
      (fun s => s.address + s.bytes.length) inputs ys) fun x hx => by
      have := (hi x hx).pos
      omega
  have hne := neighbours_ne_iff (pairwise_mergeSort_key (fun p : ℕ => p) pages)
  unfold arrange
  dsimp only
  constructor
  · intro hr
    split_ifs at hr with h1 h2 h3 h4
    rw [Bool.not_eq_true', Bool.not_eq_false] at h1 h2 h3
    rw [hne] at h1
    rw [Bool.not_eq_true] at h4
    cases hr
    exact ⟨rfl, (hpages _).mp ⟨rfl, h1⟩, (hcode _).mp ⟨rfl, h2⟩, (hinputs _).mp ⟨rfl, h3⟩,
      (compared_iff ((hcode _).mp ⟨rfl, h2⟩).2).mp h4⟩
  · rintro ⟨rfl, hp, hcs, his, hag⟩
    obtain ⟨ep, np⟩ := (hpages _).mpr hp
    obtain ⟨ec, nc⟩ := (hcode _).mpr hcs
    obtain ⟨ei, ni⟩ := (hinputs _).mpr his
    have hcmp := (compared_iff hcs.2).mpr hag
    have h1 : neighbours (fun a b => decide (a ≠ b)) (pages.mergeSort fun a b => decide (a ≤ b)) =
        true := by
      rw [hne, ep]
      exact np
    rw [h1, ec, nc, ei, ni, hcmp, ep]
    rfl

/-- **The byte strings `decode` accepts** are those that list the records of a well-formed recipe,
each section in some order. -/
theorem decode_iff {b : List UInt8} {r : Recipe} :
    decode b = .ok r ↔ WellFormed r ∧ ∃ pages code inputs,
      b = serialize r.h pages code inputs ∧ r.pages.Perm pages ∧ r.code.Perm code ∧
        r.inputs.Perm inputs := by
  unfold decode
  constructor
  · intro hdecode
    obtain ⟨⟨image, rest₀⟩, h₀, h⟩ := bind_ok hdecode
    clear hdecode
    obtain ⟨hlen, rfl⟩ := take_iff.mp h₀
    dsimp only at h
    split_ifs at h with hbad
    obtain ⟨⟨pages, rest₁⟩, h₁, h'⟩ := bind_ok h
    obtain ⟨⟨code, rest₂⟩, h₂, h''⟩ := bind_ok h'
    obtain ⟨⟨inputs, rest₃⟩, h₃, hend⟩ := bind_ok h''
    clear h h' h''
    dsimp only at hend
    split_ifs at hend with htotal
    obtain ⟨np, op, rfl⟩ := (reads_page.takeMany _ _ _ _).mp h₁
    obtain ⟨nc, oc, rfl⟩ := (reads_instruction.takeMany _ _ _ _).mp h₂
    obtain ⟨ni, oi, rfl⟩ := (reads_segment.takeMany _ _ _ _).mp h₃
    obtain ⟨hh, ⟨pp, sp⟩, ⟨pc, sc⟩, ⟨pi, si⟩, hag⟩ := (arrange_iff oc oi).mp hend
    rw [not_or, not_not, not_not] at htotal
    obtain ⟨rfl, hsum⟩ := htotal
    refine ⟨⟨?_, ?_, ?_, ?_, ?_, fun p hp => op p (pp.subset hp), fun c hc => oc c (pc.subset hc),
      fun s hs => oi s (pi.subset hs), ?_, sp, sc, si, hag⟩, pages, code, inputs, ?_, pp, pc, pi⟩
    · rw [hh]
      exact headerFits_ofBytes hlen
    · rw [hh]
      exact Bool.eq_false_iff.mpr hbad
    · rw [hh, ← np, pp.length_eq]
    · rw [hh, ← nc, pc.length_eq]
    · rw [hh, ← ni, pi.length_eq]
    · rw [hh, ← hsum]
      exact (pi.map _).sum_eq
    · unfold serialize
      rw [hh, headerBytes_ofBytes hlen, List.append_nil]
  · rintro ⟨hw, pages, code, inputs, rfl, pp, pc, pi⟩
    have op : ∀ p ∈ pages, PageOk p := fun p hp => hw.pages p (pp.symm.subset hp)
    have oc : ∀ c ∈ code, InstructionOk c := fun c hc => hw.code c (pc.symm.subset hc)
    have oi : ∀ s ∈ inputs, SegmentOk s := fun s hs => hw.inputs s (pi.symm.subset hs)
    unfold serialize
    rw [take_iff.mpr ⟨headerBytes_length hw.fits, rfl⟩, ok_bind]
    dsimp only
    have h₁ := (reads_page.takeMany r.h.pageCount
      (pages.flatMap pageBytes ++ (code.flatMap instructionBytes ++ inputs.flatMap segmentBytes))
      pages (code.flatMap instructionBytes ++ inputs.flatMap segmentBytes)).mpr
      ⟨by rw [hw.page_count, pp.length_eq], op, rfl⟩
    have h₂ := (reads_instruction.takeMany r.h.codeCount
      (code.flatMap instructionBytes ++ inputs.flatMap segmentBytes) code
      (inputs.flatMap segmentBytes)).mpr ⟨by rw [hw.code_count, pc.length_eq], oc, rfl⟩
    have h₃ := (reads_segment.takeMany r.h.inputCount (inputs.flatMap segmentBytes) inputs []).mpr
      ⟨by rw [hw.input_count, pi.length_eq], oi, (List.append_nil _).symm⟩
    have hsum : (inputs.map fun s => s.bytes.length).sum = r.h.inputBytes := by
      rw [← hw.total]
      exact (pi.symm.map _).sum_eq
    rw [ofBytes_headerBytes hw.fits, hw.header, if_neg (by decide), h₁, ok_bind, h₂, ok_bind, h₃,
      ok_bind]
    dsimp only
    rw [if_neg (by rw [not_or, not_not, not_not]; exact ⟨rfl, hsum⟩)]
    exact (arrange_iff oc oi).mpr ⟨rfl, ⟨pp, hw.pages_sorted⟩, ⟨pc, hw.code_sorted⟩,
      ⟨pi, hw.inputs_sorted⟩, hw.agree⟩

end Afterfree.Encoding
