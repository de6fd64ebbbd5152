import Afterfree.Native.Calls

/-!
# Alignment of loads

An input starts at any address, so that the host's address of a load can be less aligned than the
guest's. `compile` emits the unaligned form of `MOVDQA`, `MOVAPS` and `MOVAPD`. Other instructions
with a memory source of 16 bytes are emitted as they are, and the processor refuses an address that
is not aligned.

* `translated_mod`: the host's address is as aligned as the input's start;
* `loads_aligned`: a run meets aligned addresses as long as the inputs that serve such loads start
  at multiples of 16, and then never takes an alignment exception;
* `unaligned_input_faults`: a `pxor` that takes one.
-/

namespace Afterfree.Native.Alignment

open Afterfree.Common Afterfree.Codec Afterfree.Encoding Afterfree.Native.X86
  Afterfree.Native.Decode
open Afterfree.Native.Reference Afterfree.Native.Compile Afterfree.Native.Pieces
  Afterfree.Native.Calls

/-- The guest's address of a memory operand of 16 bytes is aligned. -/
def GuestAligned (c : Compiler) (d : Decoded) (h : Host) : Prop :=
  ∀ m, d.memory = some m → m.size = 128 → d.inst.mnemonic ≠ .lea →
    (operandOf c d m h.core).toNat % 16 = 0

/-- A load that the processor wants aligned is rewritten, or its host address is aligned. -/
def AccessAligned (c : Compiler) (d : Decoded) (h : Host) : Prop :=
  ∀ m s, d.returns = false → d.memory = some m → m.action = .read → d.inst.aligned = true →
    c.recipe.inputs.find? (Serves c (m.size / 8) (operandOf c d m h.core)) = some s →
    d.inst.mnemonic.unaligned.isSome = true ∨
      (translated c (operandOf c d m h.core) s).toNat % 16 = 0

/-- The input that serves a load that is not rewritten starts at a multiple of 16. -/
def InputAligned (c : Compiler) (d : Decoded) (h : Host) : Prop :=
  ∀ m s, d.returns = false → d.memory = some m → m.action = .read → d.inst.aligned = true →
    d.inst.mnemonic.unaligned = none →
    c.recipe.inputs.find? (Serves c (m.size / 8) (operandOf c d m h.core)) = some s →
    s.address % 16 = 0

/-- A property of every state between the pieces of a run. -/
def Along (c : Compiler) (i : ℕ) (h : Host) (p : Decoded → Host → Prop) : Prop :=
  ∀ n j g d, Reaches c i h n j g → c.plan.instructions[j]? = some d → p d g

theorem aligned_iff {i : Inst} {m : Mem} (hm : i.memory = some m) (h : i.aligned = true) :
    m.size = 128 ∧ i.mnemonic ≠ .lea := by
  unfold Inst.aligned at h
  rw [hm] at h
  simp only [Bool.and_eq_true, decide_eq_true_eq] at h
  exact ⟨h.1.1.1.1, h.1.1.1.2⟩

section
variable {c : Compiler}

theorem translated_mod {a : Word} {s : Segment} (ha : a.toNat % 16 = 0)
    (hd : (c.data s).toNat % 16 = 0) : (translated c a s).toNat % 16 = 0 ↔ s.address % 16 = 0 := by
  unfold translated
  rw [BitVec.toNat_add, BitVec.toNat_sub, BitVec.toNat_ofNat]
  omega

variable {r : Recipe} (ha : Admitted c.isa r c.plan)
include ha

/-- **One load**: it is aligned exactly if its input is. -/
theorem accessAligned_iff {d : Decoded} (hd : d ∈ c.plan.instructions) {h : Host}
    (hdata : ∀ s ∈ c.recipe.inputs, (c.data s).toNat % 16 = 0) (hg : GuestAligned c d h) :
    AccessAligned c d h ↔ InputAligned c d h := by
  have hmem : ∀ m, d.returns = false → d.memory = some m → d.inst.memory = some m :=
    fun m hr hm => by
    rw [← (ha.admissible d hd).memory hr, hm]
  constructor
  · intro h1 m s hr hm hread hal hnot hs
    obtain ⟨hsize, hlea⟩ := aligned_iff (hmem m hr hm) hal
    rcases h1 m s hr hm hread hal hs with hc | hc
    · rw [hnot] at hc
      cases hc
    · exact (translated_mod (hg m hm hsize hlea) (hdata s (List.mem_of_find?_eq_some hs))).mp hc
  · intro h1 m s hr hm hread hal hs
    obtain ⟨hsize, hlea⟩ := aligned_iff (hmem m hr hm) hal
    cases hu : d.inst.mnemonic.unaligned with
    | some x => exact .inl rfl
    | none =>
      exact .inr ((translated_mod (hg m hm hsize hlea) (hdata s (List.mem_of_find?_eq_some hs))).mpr
        (h1 m s hr hm hread hal hu hs))

omit ha in
theorem aligned_of_unaligned {i : Inst} (h : i.unaligned.aligned = true) :
    i.mnemonic.unaligned = none ∧ i.aligned = true := by
  have hrest : ∀ x y : Mnemonic, i.mnemonic = x → i.unaligned = { i with mnemonic := y } →
      x.unaligned = some y → (y = .movdqu ∨ y = .movups ∨ y = .movupd) → False := by
    intro x y _ he _ hy
    rw [he] at h
    unfold Inst.aligned at h
    split at h
    · cases h
    · rcases hy with rfl | rfl | rfl <;> simp at h
  cases hu : i.mnemonic.unaligned with
  | none =>
    have he : i.unaligned = i := by
      unfold Inst.unaligned
      rw [hu]
    rw [he] at h
    exact ⟨rfl, h⟩
  | some y =>
    have he : i.unaligned = { i with mnemonic := y } := by
      unfold Inst.unaligned
      rw [hu]
    refine (hrest i.mnemonic y rfl he hu ?_).elim
    revert hu
    cases i.mnemonic <;> intro hu <;> cases hu <;> simp

/-- **A piece whose input is aligned takes no exception.** -/
theorem piece_not_faulted {i : ℕ} {d : Decoded} (hi : c.plan.instructions[i]? = some d)
    {h h' : Host} (hdata : ∀ s ∈ c.recipe.inputs, (c.data s).toNat % 16 = 0)
    (hg : GuestAligned c d h) (hs : InputAligned c d h) : c.piece i d h ≠ .stop .faulted h' := by
  have hd : d ∈ c.plan.instructions := List.mem_of_getElem? hi
  intro hp
  have hbody : ∀ g, (∀ r ∈ c.regs.used, g.core.gpr r = h.core.gpr r) →
      ¬ Body c i d g (.stop .faulted h') := by
    intro g hgpr hb
    generalize hf : Flow.stop .faulted h' = f at hb
    cases hb with
    | returned | diverged | rejected | quiet | store | load => cases hf
    | branch _ _ =>
      unfold Compiler.jump at hf
      split at hf
      · cases hf
      · split_ifs at hf
    | @faulted _ m x hr hb hm hl hserved hal hx hv =>
      have hmem : d.inst.memory = some m := by rw [← (ha.admissible d hd).memory hr, hm]
      have haddr := operandOf_same ha hd hr hm hgpr
      obtain ⟨hnot, horig⟩ := aligned_of_unaligned hal
      obtain ⟨hsize, hlea⟩ := aligned_iff hmem horig
      rcases ((ha.admissible d hd).addressable m hm).action with hc | hread | hwrite
      · exact hl hc
      · unfold served at hserved
        rw [if_neg (by rw [hnot]; simp), if_neg (by rw [hread]; decide)] at hserved
        obtain ⟨s, hfind, rfl⟩ := Option.map_eq_some_iff.mp hserved
        rw [haddr] at hfind hx
        refine hx ((translated_mod (hg m hm hsize hlea)
          (hdata s (List.mem_of_find?_eq_some hfind))).mpr ?_)
        exact hs m s hr hm hread horig hnot hfind
      · have hperm := (ha.admissible d hd).permits hb hr
        have hno := c.isa.store_unaligned d.inst _ m (ha.admissible d hd).decoded hperm hmem hwrite
        rw [hal] at hno
        cases hno
  have hstep := piece_step ha i hd h
  rw [hp] at hstep
  cases hstep with
  | start _ _ _ hpass hb => exact hbody _ hpass.ready.gpr hb
  | inner _ hb => exact hbody h (fun _ _ => rfl) hb

end

/-- **Aligned loads.** For every admitted recipe and every run of its code in which the guest's
addresses of 16-byte operands are aligned, with the bytes of the inputs at multiples of 16: the
loads of the run are at aligned addresses, or rewritten, if and only if the inputs that serve the
others start at multiples of
16. Then the run takes no alignment exception. -/
theorem loads_aligned {isa : Isa} {cache : Bool} {r : Recipe} {p : Plan} (hw : WellFormed r)
    (hp : decode isa cache r = .ok p) (fast : Bool) (data : Segment → Word)
    (hdata : ∀ s ∈ r.inputs, (data s).toNat % 16 = 0) {i : ℕ} {h : Host}
    (hguest : Along ⟨isa, p, fast, data⟩ i h (GuestAligned ⟨isa, p, fast, data⟩)) :
    (Along ⟨isa, p, fast, data⟩ i h (AccessAligned ⟨isa, p, fast, data⟩) ↔
      Along ⟨isa, p, fast, data⟩ i h (InputAligned ⟨isa, p, fast, data⟩)) ∧
    (Along ⟨isa, p, fast, data⟩ i h (InputAligned ⟨isa, p, fast, data⟩) →
      ∀ fuel e h' n, Compiler.run ⟨isa, p, fast, data⟩ fuel i h = some (e, h', n) →
        e ≠ .faulted) := by
  have ha := decode_admitted hw hp
  have hrec : Compiler.recipe ⟨isa, p, fast, data⟩ = r := ha.recipe
  have hdata' : ∀ s ∈ Compiler.recipe ⟨isa, p, fast, data⟩ |>.inputs, (data s).toNat % 16 = 0 := by
    rw [hrec]
    exact hdata
  have hone : ∀ n j g d, Reaches ⟨isa, p, fast, data⟩ i h n j g → p.instructions[j]? = some d →
      (AccessAligned ⟨isa, p, fast, data⟩ d g ↔ InputAligned ⟨isa, p, fast, data⟩ d g) :=
    fun n j g d hr hj => accessAligned_iff (c := ⟨isa, p, fast, data⟩) ha
      (List.mem_of_getElem? hj) hdata'
      (hguest n j g d hr hj)
  refine ⟨⟨fun hall n j g d hr hj => ?_, fun hall n j g d hr hj => ?_⟩,
    fun hall fuel e h' n hrun he => ?_⟩
  · exact (hone n j g d hr hj).mp (hall n j g d hr hj)
  · exact (hone n j g d hr hj).mpr (hall n j g d hr hj)
  · obtain ⟨k, j, d, g, hs, -⟩ := reaches_of_run hrun
    subst he
    exact piece_not_faulted (c := ⟨isa, p, fast, data⟩) ha hs.at' hdata'
      (hguest k j g d hs.reaches hs.at') (hall k j g d hs.reaches hs.at') hs.stop

/-! ### A recipe with `pxor` -/

/-- `pxor xmm0, [rsi]`, `mov byte [rdi], 7` and `ret`, with sixteen bytes at `0x8010` that are part
of an input which starts at `start`. -/
def vectorRecipe (start : ℕ) : Recipe :=
  tinyRecipe 0x8010 0x7000 [[0x66, 0x0f, 0xef, 0x06], [0xc6, 0x07, 0x07], [0xc3]]
    [⟨0x7000, [0, 0x90, 0, 0, 0, 0, 0, 0]⟩, ⟨start, List.replicate (0x8020 - start) 1⟩]

/-- A host in front of it. -/
def vectorHost : Host where
  core := ⟨fun r => if r = 6 then 0x8010 else 0x10000, fun _ => 0, 2, 0x1f80⟩
  stack := []
  state _ :=
    { word := fun f => match f with
        | .cursor => 0x10000
        | .stop | .limit | .trigger => 0x10001
        | .remaining => 3
        | .validating => 1
        | _ => 0
      regs := fun _ => 0, flags := 2, xmm := fun _ => 0, mxcsr := 0x1f80, hostMxcsr := 0x1f80 }
  frames _ := ⟨0, 0, 0, 0, 0, [], []⟩
  mem _ := 0
  log := []

/-- What `decode` makes of its instructions. -/
def vectorMap : List Decoded :=
  [⟨⟨0x5000, 4, [0x66, 0x0f, 0xef, 0x06] ++ List.replicate 11 0⟩,
    ⟨4, true, false, .pxor, false, 0xef,
      [.register (.xmm 0), .memory ⟨.gp 6 false, .none, 0, 0, .other, 128, .read⟩], 2, 64, none⟩, 0,
      some ⟨.gp 6 false, .none, 0, 0, .other, 128, .read⟩, none, false, false⟩,
    ⟨⟨0x5004, 3, [0xc6, 0x07, 0x07] ++ List.replicate 12 0⟩, ⟨3, true, false, .mov, false, 0xc6,
      [.memory ⟨.gp 7 false, .none, 0, 0, .other, 8, .write⟩, .immediate false 7], 2, 64, none⟩, 0,
      some ⟨.gp 7 false, .none, 0, 0, .other, 8, .write⟩, none, false, false⟩,
    ⟨⟨0x5007, 1, 0xc3 :: List.replicate 14 0⟩, ⟨1, true, false, .ret, false, 0xc3, [], 0, 64, none⟩,
      0,
      none, none, false, true⟩]

theorem vectorRecipe_decode : ∃ p, decode tinyIsa false (vectorRecipe 0x8010) = .ok p ∧
    p.instructions = vectorMap := by
  have h : ((decode tinyIsa false (vectorRecipe 0x8010)).toOption.map Plan.instructions) =
      some vectorMap := by decide +kernel
  cases hd : decode tinyIsa false (vectorRecipe 0x8010) with
  | error _ => rw [hd] at h; cases h
  | ok p =>
    rw [hd] at h
    exact ⟨p, rfl, Option.some.inj h⟩

theorem reaches_straight {c : Compiler} {r : Recipe} (ha : Admitted c.isa r c.plan)
    (hb : ∀ d ∈ c.plan.instructions, d.branch = false) {h g : Host} {n j : ℕ}
    (hr : Reaches c 0 h n j g) : g = h ∨ 0 < j := by
  induction hr with
  | refl => exact .inl rfl
  | @snoc n i j d g g' _ hi hp _ =>
    have hd : d ∈ c.plan.instructions := List.mem_of_getElem? hi
    have hgoes : ∀ x, Body c i d x (.next j g') → 0 < j := by
      intro x hx
      rcases (hx.kept ha hd).goes with ⟨-, rfl⟩ | ⟨hc, -⟩
      · exact Nat.succ_pos i
      · rw [hb d hd] at hc
        cases hc
    have hstep := piece_step ha i hd g
    rw [hp] at hstep
    cases hstep with
    | start _ _ _ _ hx => exact .inr (hgoes _ hx)
    | inner _ hx => exact .inr (hgoes _ hx)

/-- With an input that starts at `0x8010`, no run of the recipe takes an exception. -/
theorem loads_aligned_vector : ∃ p, decode tinyIsa false (vectorRecipe 0x8010) = .ok p ∧
    ∀ fuel e h' n, Compiler.run ⟨tinyIsa, p, true, fun _ => 0x100000⟩ fuel 0 vectorHost =
      some (e, h', n) → e ≠ .faulted := by
  obtain ⟨p, hp, hmap⟩ := vectorRecipe_decode
  have hw : WellFormed (vectorRecipe 0x8010) := by decide +kernel
  have ha := decode_admitted hw hp
  have hrec : p.recipe = vectorRecipe 0x8010 := ha.recipe
  have hguest : Along ⟨tinyIsa, p, true, fun _ => 0x100000⟩ 0 vectorHost
      (GuestAligned ⟨tinyIsa, p, true, fun _ => 0x100000⟩) := by
    intro n j g d hr hj m hm hsize _
    have hpos := reaches_straight (c := ⟨tinyIsa, p, true, fun _ => 0x100000⟩) ha (by
      rw [hmap]
      decide) hr
    rw [hmap] at hj
    rcases hpos with rfl | hpos
    · have hfirst : ∀ d ∈ vectorMap, ∀ m, d.memory = some m → m.size = 128 →
          d = vectorMap.head (by decide) := by decide
      obtain rfl := hfirst d (List.mem_of_getElem? hj) m hm hsize
      obtain rfl := Option.some.inj hm
      simp [operandOf, operandAddress, effective, Register.value, vectorHost]
    · match j, hpos with
      | 1, _ =>
        obtain rfl := Option.some.inj hj
        obtain rfl := Option.some.inj hm
        cases hsize
      | 2, _ =>
        obtain rfl := Option.some.inj hj
        cases hm
      | j + 3, _ => cases hj
  have hinput : Along ⟨tinyIsa, p, true, fun _ => 0x100000⟩ 0 vectorHost
      (InputAligned ⟨tinyIsa, p, true, fun _ => 0x100000⟩) := by
    intro n j g d _ _ m s _ _ _ _ _ hs
    have hmem := List.mem_of_find?_eq_some hs
    have hall : ∀ s ∈ (vectorRecipe 0x8010).inputs, s.address % 16 = 0 := by decide +kernel
    exact hall s (hrec ▸ hmem)
  exact ⟨p, hp, (loads_aligned hw hp true (fun _ => 0x100000) (fun _ _ => rfl) hguest).2 hinput⟩

/-- The compiler of such a recipe, with the bytes of the inputs at `0x100000`. -/
def vectorCompiler (start : ℕ) : Option Compiler :=
  (decode tinyIsa false (vectorRecipe start)).toOption.map fun p =>
    ⟨tinyIsa, p, true, fun _ => 0x100000⟩

/-- **An input that starts at `0x8008`**: the first instruction wants 16 aligned bytes, the guest's
address `0x8010` is aligned, the bytes of all inputs are at multiples of 16, and the code takes an
alignment exception. -/
theorem unaligned_input_faults :
    WellFormed (vectorRecipe 0x8008) ∧ (0x100000 : Word).toNat % 16 = 0 ∧
    ((vectorCompiler 0x8008).bind fun c => c.plan.instructions[0]?.bind fun d =>
      d.memory.map fun m =>
      (d.inst.aligned, (operandOf c d m vectorHost.core).toNat)) = some (true, 0x8010) ∧
    ((vectorCompiler 0x8008).bind fun c => (c.run 1 0 vectorHost).map Prod.fst) =
      some .faulted := by
  refine ⟨by decide +kernel, by decide, by decide +kernel, by decide +kernel⟩

end Afterfree.Native.Alignment
