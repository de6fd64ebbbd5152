import Afterfree.Encoding
import Afterfree.Worker.Server

/-!
# No unverified bytes leave the worker

The outputs that were validated are read off the answers: a commit announces one for its id, a
`DROP` takes it away. Whatever the generated code and the emulator compute later, a restore that is
answered with bytes delivers a range of that output.
-/

namespace Afterfree.Worker.Verified

open Afterfree.Common Afterfree.Codec Afterfree.Encoding Afterfree.Worker.Checked
  Afterfree.Worker.Server

/-- What an answer says about the validated outputs. -/
def announce (v : ℕ → Option (List UInt8)) : Answer → ℕ → Option (List UInt8)
  | .committed id out _ _ => Function.update v id (some out)
  | .dropped id => Function.update v id none
  | _ => v

/-- The output that was validated for each id when its current recipe was committed. -/
def validatedAfter (answers : List Answer) : ℕ → Option (List UInt8) :=
  answers.foldl announce fun _ => none

/-- **The invariant of the store**: what is kept under an id was validated for the output last
announced for it. -/
def Certified (sha256 : List UInt8 → List UInt8) (v : ℕ → Option (List UInt8)) (s : State) : Prop :=
  ∀ id st, s.recipes id = some st →
    ∃ out, v id = some out ∧ Validated sha256 st.recipe.h st.native out

variable {sha256 : List UInt8 → List UInt8} {arena : Option Arena}

/-- **Every validation path** checks the digest of the output it returns, and the native ones keep
the digests of its pages. -/
theorem validate_validated {e : RegisterEnv} {window : Option ℕ} {h : Header}
    {native : Option Native} {out : List UInt8} {message : String}
    (hv : validate sha256 e window h = .ok (native, out, message)) :
    Validated sha256 h native out := by
  unfold validate at hv
  rcases hn : validateNative sha256 e window h with f | ⟨n, o⟩
  · rw [hn] at hv
    cases f with
    | protocol m => cases hv
    | other m =>
      simp only at hv
      rcases he : emulate sha256 h e.emulation with m1 | o
      · rw [he] at hv
        cases hv
      · rw [he] at hv
        simp only at hv
        have hval := emulate_validated he
        split at hv
        · cases hv
          exact hval
        · split_ifs at hv
          cases hv
          exact hval
  · rw [hn] at hv
    cases hv
    unfold validateNative at hn
    split at hn
    · cases hn
    split at hn
    · exact validateStream_validated hn
    · split at hn
      · cases hn
      · next x hx =>
        cases hn
        exact run_validated hx

/-- A registration is refused and leaves the store as it was, or what it has validated is kept. -/
theorem register_cases {e : RegisterEnv} {s s' : State} {streaming : Bool} {id : ℕ}
    {blob : List UInt8} {a : Answer} (h : register sha256 arena e s streaming id blob = (s', a))
    (ha : a ≠ .closed) :
    (s' = s ∧ ∃ message, a = .refused message) ∨
      ∃ recipe native out g message, decode blob = .ok recipe ∧
        (∃ window, validate sha256 e window recipe.h = .ok (native, out, message)) ∧
        a = .committed id out g message ∧
        s'.recipes = Function.update s.recipes id (some ⟨recipe, native, e.retained⟩) ∧
        g.backend = (if native.isSome then 1 else 0) ∧
        g.pageBytes = if native.any Native.pages then PAGE else 0 := by
  unfold register at h
  by_cases h1 : MAX_BLOB < blob.length ∨ blob.length < HEADER_SIZE
  · rw [if_pos h1] at h
    cases h
    exact absurd rfl ha
  rw [if_neg h1] at h
  by_cases h2 : BUDGET < s.bytes + blob.length
  · rw [if_pos h2] at h
    split_ifs at h
    · cases h
      exact Or.inl ⟨rfl, _, rfl⟩
    · cases h
      exact absurd rfl ha
  rw [if_neg h2] at h
  by_cases h3 : (!e.received) = true
  · rw [if_pos h3] at h
    cases h
    exact absurd rfl ha
  rw [if_neg h3] at h
  rcases hd : decode blob with m | recipe
  · rw [hd] at h
    cases h
    exact Or.inl ⟨rfl, _, rfl⟩
  rw [hd] at h
  simp only at h
  split at h
  · cases h
    exact Or.inl ⟨rfl, _, rfl⟩
  split at h
  · cases h
    exact Or.inl ⟨rfl, _, rfl⟩
  · cases h
    exact absurd rfl ha
  · next native out message hv =>
    by_cases h4 : BUDGET < s.bytes - s.retainedOf id + e.retained
    · rw [if_pos h4] at h
      cases h
      exact Or.inl ⟨rfl, _, rfl⟩
    rw [if_neg h4] at h
    by_cases h5 : e.sent = true
    · rw [if_pos h5] at h
      cases h
      refine Or.inr ⟨recipe, native, out, _, message, rfl, ⟨_, hv⟩, rfl, rfl, rfl, ?_⟩
      cases native <;> rfl
    · rw [if_neg h5] at h
      cases h
      exact absurd rfl ha

/-- A restore leaves the store as it was; it delivers a reconstruction, or refuses. -/
theorem restore_cases {e : RestoreEnv} {s s' : State} {q : Request} {a : Answer}
    (h : restore sha256 arena e s q = (s', a)) (ha : a ≠ .closed) :
    s' = s ∧ ((∃ message, a = .refused message) ∨ ∃ st bytes, s.recipes q.id = some st ∧
      reconstruct sha256 arena e st q = .ok bytes ∧ a = .restored q.id (rangeOf st q).1 bytes) := by
  unfold restore at h
  split_ifs at h
  · cases h
    exact absurd rfl ha
  · split at h
    · cases h
      exact ⟨rfl, Or.inl ⟨_, rfl⟩⟩
    · next st hs =>
      split at h
      · cases h
        exact ⟨rfl, Or.inl ⟨_, rfl⟩⟩
      · next bytes hb =>
        cases h
        exact ⟨rfl, Or.inr ⟨st, bytes, hs, hb, rfl⟩⟩

/-- **Every request keeps the invariant of the store.** -/
theorem step_certified {s s' : State} {i : Input} {a : Answer} {v : ℕ → Option (List UInt8)}
    (h : step sha256 arena s i = (s', a)) (ha : a ≠ .closed) (hv : Certified sha256 v s) :
    Certified sha256 (announce v a) s' := by
  cases i with
  | register e streaming id blob =>
    rcases register_cases h ha with ⟨rfl, m, rfl⟩ | ⟨recipe, native, out, g, m, -, ⟨_, hval⟩, rfl,
      hs, -⟩
    · exact hv
    · intro j st hj
      rw [hs] at hj
      show ∃ o, Function.update v id (some out) j = some o ∧ _
      by_cases hji : j = id
      · subst hji
        rw [Function.update_self] at hj ⊢
        cases hj
        exact ⟨out, rfl, validate_validated hval⟩
      · rw [Function.update_of_ne hji] at hj ⊢
        exact hv j st hj
  | drop sent id =>
    cases sent with
    | false =>
      cases h
      exact absurd rfl ha
    | true =>
      cases h
      intro j st hj
      change Function.update s.recipes id none j = some st at hj
      show ∃ o, Function.update v id none j = some o ∧ _
      by_cases hji : j = id
      · subst hji
        rw [Function.update_self] at hj
        cases hj
      · rw [Function.update_of_ne hji] at hj ⊢
        exact hv j st hj
  | restore e command id size =>
    obtain ⟨rfl, ⟨m, rfl⟩ | ⟨st, bytes, -, -, rfl⟩⟩ := restore_cases h ha
    · exact hv
    · exact hv

theorem Serves.certified {s s' : State} {answers : List Answer}
    (h : Serves sha256 arena s answers s') :
    ∀ {v : ℕ → Option (List UInt8)}, Certified sha256 v s →
      Certified sha256 (answers.foldl announce v) s' := by
  induction h with
  | nil => exact fun hv => hv
  | cons hs ha _ ih => exact fun hv => ih (step_certified hs ha hv)

/-- **A reconstruction is a range of the validated output.** -/
theorem reconstruct_verified {e : RestoreEnv} {st : Stored} {q : Request} {out bytes : List UInt8}
    (hsha : Set.InjOn sha256 (hashedStrings out ∪ hashedStrings bytes))
    (hv : Validated sha256 st.recipe.h st.native out)
    (h : reconstruct sha256 arena e st q = .ok bytes) :
    bytes.length = (rangeOf st q).2 ∧ (rangeOf st q).1 + (rangeOf st q).2 ≤ out.length ∧
      bytes = (out.drop (rangeOf st q).1).take (rangeOf st q).2 := by
  unfold reconstruct at h
  simp only at h
  split_ifs at h with h1
  rcases hn : st.native with _ | n
  · -- the emulator serves whole outputs only
    rw [hn] at h
    have hcmd : q.command = .restore := by
      by_contra hc
      simp [invalidRange, hn, hc] at h1
    have hrange : rangeOf st q = (0, st.recipe.h.length) := if_pos hcmd
    have hb := emulate_restored hsha hv h
    have hol := hv.length_eq
    rw [hrange, hb]
    refine ⟨hol, by show 0 + _ ≤ _; omega, ?_⟩
    show out = (out.drop 0).take _
    rw [List.drop_zero, ← hol, List.take_length]
  · rw [hn] at h hv
    simp only at h
    rcases hr : n.run sha256 st.recipe.h (rangeOf st q).1 (rangeOf st q).2 false e.call with
      m | ⟨n', b⟩
    · rw [hr] at h
      cases h
    · rw [hr] at h
      cases h
      exact run_restored hsha hv hr

/-- **No unverified bytes leave the worker.** After any requests, a restore that is answered with
bytes delivers the bytes `[offset, offset + length)` of the output that was validated when the
recipe now stored under the id was committed, unless two of the strings that were hashed for them,
these outputs and their pages, have one digest. -/
theorem restored_bytes_validated {answers : List Answer} {s s' : State}
    (hs : Serves sha256 arena State.initial answers s) {i : Input} {id offset : ℕ}
    {bytes : List UInt8}
    (hsha : ∀ out, validatedAfter answers id = some out →
      Set.InjOn sha256 (hashedStrings out ∪ hashedStrings bytes))
    (h : step sha256 arena s i = (s', .restored id offset bytes)) :
    ∃ out, validatedAfter answers id = some out ∧ offset + bytes.length ≤ out.length ∧
      bytes = (out.drop offset).take bytes.length ∧
      ∃ (e : RestoreEnv) (command : Command) (size : ℕ), i = .restore e command id size ∧
        (command ≠ .restore → offset = rangeOffset size ∧ bytes.length = rangeLength size) ∧
        (command = .restore → offset = 0 ∧ bytes.length = out.length) := by
  have hv : Certified sha256 (validatedAfter answers) s :=
    Serves.certified hs fun _ _ hst => Option.noConfusion rfl (heq_of_eq hst)
  cases i with
  | register e streaming j blob =>
    rcases register_cases h (by simp) with ⟨-, m, hm⟩ | ⟨_, _, _, _, _, -, -, hm, -⟩ <;> cases hm
  | drop sent j =>
    cases sent <;> cases h
  | restore e command j size =>
    obtain ⟨-, ⟨m, hm⟩ | ⟨st, b, hst, hb, ha⟩⟩ := restore_cases h (by simp)
    · cases hm
    cases ha
    obtain ⟨out, hout, hval⟩ := hv j st hst
    obtain ⟨h1, h2, h3⟩ := reconstruct_verified (hsha out hout) hval hb
    refine ⟨out, hout, by rw [h1]; exact h2, by rw [h1]; exact h3, e, command, size, rfl,
      fun hc => ?_, fun hc => ?_⟩
    · have hrange : rangeOf st ⟨command, j, size⟩ = (rangeOffset size, rangeLength size) :=
        if_neg hc
      rw [h1, hrange]
      exact ⟨rfl, rfl⟩
    · have hrange : rangeOf st ⟨command, j, size⟩ = (0, st.recipe.h.length) := if_pos hc
      rw [h1, hrange, hval.length_eq]
      exact ⟨rfl, rfl⟩

/-! ### A recipe of two pages -/

/-- SHA-256 of 4096 and of 4097 sevens. -/
def pageDigest : List UInt8 :=
  [0xc9, 0xac, 0x7b, 0x06, 0x24, 0x82, 0x4f, 0x84, 0x4f, 0x6c, 0x7f,
    0x3d, 0x50, 0xfa, 0xb9, 0x74, 0x1a, 0x89, 0x14, 0xe8, 0x78, 0x46,
    0x7e, 0x8d, 0xaa, 0xed, 0xca, 0x14, 0x3a, 0x34, 0xd9, 0x0b]

def outputDigest : List UInt8 :=
  [0xf9, 0xec, 0xad, 0x1d, 0x08, 0x5b, 0x61, 0x90, 0x73, 0xe6, 0x7e,
    0x60, 0x33, 0x43, 0x0a, 0x0f, 0x92, 0xa8, 0x93, 0x28, 0x89, 0x0c,
    0xcb, 0xdf, 0x9e, 0x7c, 0x10, 0xc3, 0x46, 0x64, 0xad, 0x53]

/-- A function that agrees with SHA-256 on one, 4096 and 4097 sevens. -/
def sampleSha (x : List UInt8) : List UInt8 :=
  if x.length = 4097 then outputDigest
  else if x.length = 4096 then pageDigest
  else if x.length = 1 then sampleDigest
  else List.replicate 32 0

/-- A loop that stores a seven to each of 4097 bytes, and `ret`. -/
def sampleRecipe : Recipe where
  h :=
    { magic := MAGIC, version := 1, entry := 0x5000, stop := 0x9000, output := 0x10000,
      length := 4097, result := 0, steps := 16389, inputBytes := 8, fsBase := 0, gsBase := 0,
      regs := [0, 0, 4097, 0, 0, 0x10000, 0, 0, 0, 0, 0, 0, 0, 0, 0, 0x7000, 0x5000, 2],
      xmm := List.replicate 16 (List.replicate 16 0), mxcsr := 0x1f80,
      pageCount := 0, codeCount := 5, inputCount := 1, digest := outputDigest }
  pages := []
  code := [⟨0x5000, 3, [0xc6, 0x07, 0x07] ++ List.replicate 12 0⟩,
    ⟨0x5003, 3, [0x48, 0xff, 0xc7] ++ List.replicate 12 0⟩,
    ⟨0x5006, 3, [0x48, 0xff, 0xc9] ++ List.replicate 12 0⟩,
    ⟨0x5009, 2, [0x75, 0xf5] ++ List.replicate 13 0⟩, ⟨0x500b, 1, 0xc3 :: List.replicate 14 0⟩]
  inputs := [⟨0x7000, leBytes 8 0x9000⟩]

/-- Its image. -/
def sampleImage : List UInt8 :=
  serialize sampleRecipe.h sampleRecipe.pages sampleRecipe.code sampleRecipe.inputs

/-- A call of the generated code that leaves sevens, with a checkpoint for every page. -/
def sampleCall : Call := ⟨true, true, fun _ => 7, true, true, true, true⟩

/-- A registration by the generated code. -/
def sampleRegister : RegisterEnv :=
  ⟨true, none, sampleCall, fun _ => sampleCall, fun _ => true, sampleCall,
    ⟨some "unused", fun _ => 0, true⟩, true, fun _ => true, 1000, true⟩

/-- A restore by it. -/
def sampleRestore : RestoreEnv := ⟨sampleCall, ⟨some "unused", fun _ => 0, true⟩, true⟩

theorem sample_decode : decode sampleImage = .ok sampleRecipe := by
  have hw : WellFormed sampleRecipe := by decide +kernel
  exact decode_iff.mpr ⟨hw, _, _, _, rfl, .refl _, .refl _, .refl _⟩

theorem sample_content (n : ℕ) : content sampleCall.written n = List.replicate n 7 := by
  simp [content, sampleCall, List.map_const']

theorem sample_pages :
    pageDigests sampleSha (List.replicate 4097 7) = [pageDigest, sampleDigest] := by
  have hround : rounded 4097 / PAGE = 2 := by decide
  unfold pageDigests
  rw [List.length_replicate, hround]
  simp [-List.reduceReplicate, List.range_succ, pageOf, PAGE, sampleSha]

theorem sample_whole : Native.fresh.run sampleSha sampleRecipe.h 0 4097 true sampleCall =
    .ok (⟨true, [pageDigest, sampleDigest]⟩, List.replicate 4097 7) := by
  unfold Native.run
  simp only [sample_content, sample_pages]
  simp [-List.reduceReplicate, sampleRecipe, sampleCall, sampleSha]

theorem sample_register :
    step sampleSha none State.initial (.register sampleRegister false 1 sampleImage) =
    (⟨Function.update (fun _ => none) 1
      (some ⟨sampleRecipe, some ⟨true, [pageDigest, sampleDigest]⟩, 1000⟩),
        1000⟩,
      .committed 1 (List.replicate 4097 7) ⟨1, PAGE, 1000⟩ "native replay validated") := by
  have hlen : sampleImage.length ≤ MAX_BLOB ∧ HEADER_SIZE ≤ sampleImage.length ∧
      State.initial.bytes + sampleImage.length ≤ BUDGET := by decide +kernel
  have hnative : validateNative sampleSha sampleRegister none sampleRecipe.h =
      .ok (⟨true, [pageDigest, sampleDigest]⟩, List.replicate 4097 7) := by
    have hlength : sampleRecipe.h.length = 4097 := rfl
    unfold validateNative
    simp only [sampleRegister]
    rw [hlength, sample_whole]
  have hvalid : validate sampleSha sampleRegister none sampleRecipe.h =
      .ok (some ⟨true, [pageDigest, sampleDigest]⟩, List.replicate 4097 7,
        "native replay validated") := by
    unfold validate
    rw [hnative]
  change register sampleSha none sampleRegister State.initial false 1 sampleImage = _
  unfold register
  rw [if_neg (not_or.mpr ⟨Nat.not_lt.mpr hlen.1, Nat.not_lt.mpr hlen.2.1⟩),
    if_neg (Nat.not_lt.mpr hlen.2.2), if_neg (by decide), sample_decode]
  simp only [Bool.false_eq_true, if_false, hvalid]
  rfl

/-- The worker after the registration. -/
def sampleRegistered : State × Answer :=
  step sampleSha none State.initial (.register sampleRegister false 1 sampleImage)

/-- The restore of its last page, which has one byte. -/
def sampleRestored : State × Answer :=
  step sampleSha none sampleRegistered.1 (.restore sampleRestore .restoreRange 1 (packRange 4096 1))

theorem sample_restore : sampleRestored.2 = .restored 1 4096 [7] := by
  unfold sampleRestored sampleRegistered
  rw [sample_register]
  decide +kernel

theorem sampleSha_inj {S : Set (List UInt8)}
    (hS : ∀ x ∈ S, ∃ n ∈ [1, 4096, 4097], x = List.replicate n 7) : Set.InjOn sampleSha S := by
  intro x hx y hy h
  obtain ⟨m, hm, rfl⟩ := hS x hx
  obtain ⟨n, hn, rfl⟩ := hS y hy
  have hvalues : ∀ m ∈ [1, 4096, 4097], ∀ n ∈ [1, 4096, 4097],
      sampleSha (List.replicate m 7) = sampleSha (List.replicate n 7) → m = n := by
    unfold sampleSha
    simp only [List.length_replicate]
    decide
  rw [hvalues m hm n hn h]

/-- A recipe of two pages is registered by the generated code, and its last page is restored. -/
theorem restored_bytes_validated_sample :
    Serves sampleSha none State.initial [sampleRegistered.2] sampleRegistered.1 ∧
      sampleRegistered.2 = .committed 1 (List.replicate 4097 7)
        ⟨1, PAGE, 1000⟩ "native replay validated" ∧
      sampleRestored.2 = .restored 1 4096 [7] ∧
      ∃ out, validatedAfter [sampleRegistered.2] 1 = some out ∧ [7] = (out.drop 4096).take 1 := by
  have ha : sampleRegistered.2 = .committed 1 (List.replicate 4097 7) ⟨1, PAGE, 1000⟩
      "native replay validated" := congrArg Prod.snd sample_register
  have hs : Serves sampleSha none State.initial [sampleRegistered.2] sampleRegistered.1 :=
    .cons (i := .register sampleRegister false 1 sampleImage)
      (Prod.mk.eta (p := sampleRegistered)).symm (by rw [ha]; exact nofun) (.nil _)
  have hstep : sampleRestored = (sampleRestored.1, .restored 1 4096 [7]) := by rw [← sample_restore]
  have hsha : ∀ out, validatedAfter [sampleRegistered.2] 1 = some out →
      Set.InjOn sampleSha (hashedStrings out ∪ hashedStrings [7]) := by
    intro out hout
    rw [ha] at hout
    obtain rfl : List.replicate 4097 7 = out := Option.some.inj hout
    refine sampleSha_inj fun x hx => ?_
    have hround : rounded 4097 / PAGE = 2 ∧ rounded 1 / PAGE = 1 := by decide
    rcases hx with (rfl | ⟨k, hk, rfl⟩) | (rfl | ⟨k, hk, rfl⟩)
    · exact ⟨4097, by simp, rfl⟩
    · rw [List.length_replicate, hround.1] at hk
      unfold pageOf
      rw [List.drop_replicate, List.take_replicate]
      interval_cases k
      · exact ⟨4096, by simp, rfl⟩
      · exact ⟨1, by simp, rfl⟩
    · exact ⟨1, by simp, rfl⟩
    · rw [List.length_singleton, hround.2] at hk
      interval_cases k
      exact ⟨1, by simp, rfl⟩
  obtain ⟨out, ho, -, hb, -⟩ := restored_bytes_validated hs hsha hstep
  exact ⟨hs, ha, sample_restore, out, ho, hb⟩

end Afterfree.Worker.Verified
