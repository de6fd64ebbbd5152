import Afterfree.Recording.Bounds

/-!
# Writes byte by byte

Two recorders that differ only in how their page maps are built (`Alike`) take the same steps. A
write inside the output leaves what writing its bytes one after the other leaves (`write_bytes`), so
that a span of the output may be written in pieces of any lengths.
-/

namespace Afterfree.Recording.Writes

open Afterfree.Common Afterfree.Codec Afterfree.Recording.Masks
open Afterfree.Recording.Capture Afterfree.Recording.Capture.Recorder Afterfree.Recording.Bounds

/-! ### Masks -/

theorem mask_ext {m m' : ByteMask} (h : ∀ i, m.test i = m'.test i) : m = m' := by
  have hwords : m.words = m'.words := by
    funext w
    refine BitVec.eq_of_getLsbD_eq fun b hb => ?_
    have hbit := h (w * 64 + b)
    unfold ByteMask.test at hbit
    rwa [show (w * 64 + b) / 64 = w by omega, show (w * 64 + b) % 64 = b by omega] at hbit
  cases m
  cases m'
  exact congrArg ByteMask.mk hwords

theorem mark_mark (m : ByteMask) (offset n k : ℕ) :
    (m.mark offset n).mark (offset + n) k = m.mark offset (n + k) := by
  refine mask_ext fun i => ?_
  rw [ByteMask.test_mark, ByteMask.test_mark, ByteMask.test_mark, Bool.or_assoc, ← Bool.decide_or]
  congr 1
  exact decide_eq_decide.mpr (by omega)

/-! ### Recorders that act alike -/

/-- The recorders differ at most in the plans, the code, the counters of blocks and steps, and in
how the page map is built. -/
structure Alike (r q : Recorder) : Prop where
  header : q.h = r.h
  pages : r.pages.Equiv q.pages
  live : q.liveBytes = r.liveBytes
  began : q.began = r.began
  frontier : q.outputFrontier = r.outputFrontier
  stored : q.lastStoreEnd = r.lastStoreEnd
  cached : q.cachedBase = r.cachedBase
  rejection : q.rejection = r.rejection

theorem Alike.refl (r : Recorder) : Alike r r := ⟨rfl, .rfl, rfl, rfl, rfl, rfl, rfl, rfl⟩

section Alike

variable {r q s : Recorder}

theorem Alike.symm (h : Alike r q) : Alike q r :=
  ⟨h.header.symm, h.pages.symm, h.live.symm, h.began.symm, h.frontier.symm, h.stored.symm,
    h.cached.symm, h.rejection.symm⟩

theorem Alike.trans (h : Alike r q) (h' : Alike q s) : Alike r s :=
  ⟨h'.header.trans h.header, h.pages.trans h'.pages, h'.live.trans h.live, h'.began.trans h.began,
    h'.frontier.trans h.frontier, h'.stored.trans h.stored, h'.cached.trans h.cached,
    h'.rejection.trans h.rejection⟩

theorem Alike.pageAt (h : Alike r q) (a : ℕ) : q.pageAt a = r.pageAt a := by
  unfold Recorder.pageAt
  rw [h.pages.getElem?_eq]

theorem Alike.setPage (h : Alike r q) (a : ℕ) (p : ObservedPage) :
    Alike (r.setPage a p) (q.setPage a p) :=
  { h with pages := h.pages.insert (base a) p }

theorem Alike.reject (h : Alike r q) (why : String) : Alike (r.reject why) (q.reject why) := by
  refine { h with rejection := ?_ }
  show some (q.rejection.getD why) = some (r.rejection.getD why)
  rw [h.rejection]

theorem setPage_setPage (r : Recorder) {a b : ℕ} (hb : base b = base a) (p p' : ObservedPage) :
    Alike ((r.setPage a p).setPage b p') (r.setPage a p') := by
  refine { Alike.refl r with pages := ?_ }
  refine Std.TreeMap.Equiv.of_forall_constGet?_eq fun k => ?_
  show ((r.pages.insert (base a) p).insert (base b) p')[k]? = (r.pages.insert (base a) p')[k]?
  rw [hb, Std.TreeMap.getElem?_insert, Std.TreeMap.getElem?_insert, Std.TreeMap.getElem?_insert]
  split_ifs <;> rfl

end Alike

/-- Both steps succeed alike, or both throw the same and leave recorders that act alike. -/
inductive Same : Result → Result → Prop
  | ok {r q : Recorder} (h : Alike r q) : Same (.ok r) (.ok q)
  | error {r q : Recorder} (h : Alike r q) (what : String) :
      Same (.error (r, what)) (.error (q, what))

section Same

variable {x y : Result} {r q : Recorder}

theorem Same.bind {f g : Recorder → Result} (h : Same x y)
    (hfg : ∀ r q, Alike r q → Same (f r) (g q)) : Same (x >>= f) (y >>= g) := by
  cases h with
  | ok h => exact hfg _ _ h
  | error h what => exact .error h what

theorem Same.caught (h : Same x y) : Alike (caught x) (caught y) := by
  cases h with
  | ok h => exact h
  | error h what => exact h.reject what

theorem Alike.page (h : Alike r q) (a : ℕ) : Same (r.page a) (q.page a) := by
  unfold Recorder.page
  rw [h.cached, ← h.pages.size_eq]
  split_ifs
  · exact .ok h
  · exact .error h _
  · exact .ok { h with
      pages := h.pages.insertIfNew (base a) ObservedPage.fresh
      cached := rfl }

theorem Alike.readWord {m : ℕ → UInt8} (h : Alike r q) (addr count : ℕ) :
    (r.readWord m addr count = none ∧ q.readWord m addr count = none) ∨
      ∃ r' q', r.readWord m addr count = some r' ∧ q.readWord m addr count = some q' ∧
        Alike r' q' := by
  have hneeded : q.needed addr count = r.needed addr count := by
    rw [needed_eq, needed_eq, h.pageAt, h.header, h.frontier]
  unfold Recorder.readWord copyWord
  dsimp only
  rw [hneeded, h.live, h.pageAt]
  split_ifs
  · exact Or.inr ⟨r, q, rfl, rfl, h⟩
  · exact Or.inl ⟨rfl, rfl⟩
  · refine Or.inr ⟨_, _, rfl, rfl, ?_⟩
    have hset : Alike { r with liveBytes := r.liveBytes + (bitsOf (r.needed addr count)).length }
        { q with liveBytes := r.liveBytes + (bitsOf (r.needed addr count)).length } :=
      { h with live := rfl }
    exact hset.setPage addr _

theorem Alike.readLoop {m : ℕ → UInt8} : ∀ (fuel : ℕ) {r q : Recorder} (addr n : ℕ), Alike r q →
    Same (r.readLoop m fuel addr n) (q.readLoop m fuel addr n)
  | 0, _, _, _, _, h => by
    rw [readLoop_zero, readLoop_zero]
    exact .ok h
  | fuel + 1, r, q, addr, n, h => by
    rw [readLoop_succ, readLoop_succ]
    split_ifs
    · exact .ok h
    refine (h.page addr).bind fun r₁ q₁ h₁ => ?_
    rcases h₁.readWord (m := m) addr (min n (64 - addr % PAGE % 64)) with ⟨hr, hq⟩ | ⟨r₂,
      q₂, hr, hq, h₂⟩
    · rw [hr, hq]
      exact .ok (h₁.reject _)
    · rw [hr, hq]
      exact Alike.readLoop fuel _ _ h₂

theorem Alike.writeLoop : ∀ (fuel : ℕ) {r q : Recorder} (addr n : ℕ), Alike r q →
    Same (r.writeLoop fuel addr n) (q.writeLoop fuel addr n)
  | 0, _, _, _, _, h => .ok h
  | fuel + 1, r, q, addr, n, h => by
    rw [Recorder.writeLoop, Recorder.writeLoop]
    split_ifs
    · exact .ok h
    refine (h.page addr).bind fun r₁ q₁ h₁ => ?_
    dsimp only
    rw [h₁.pageAt addr]
    exact Alike.writeLoop fuel _ _ (h₁.setPage addr _)

theorem Alike.read {m : ℕ → UInt8} (h : Alike r q) (addr n : ℕ) :
    Same (r.read m addr n) (q.read m addr n) := by
  unfold Recorder.read
  split_ifs
  · exact .ok (h.reject _)
  · exact h.readLoop n addr n

theorem Alike.write (h : Alike r q) (addr n : ℕ) : Same (r.write addr n) (q.write addr n) := by
  unfold Recorder.write
  dsimp only
  rw [h.header, h.frontier]
  split_ifs
  · exact .ok (h.reject _)
  · exact .ok { h with
      header := rfl
      stored := rfl
      frontier := rfl }
  · refine Alike.writeLoop n addr n { h with
      header := rfl
      stored := rfl
      frontier := rfl }

end Same

/-- Both steps succeed alike, or both throw. -/
inductive Both : Result → Result → Prop
  | ok {r q : Recorder} (h : Alike r q) : Both (.ok r) (.ok q)
  | error {x y : Recorder × String} : Both (.error x) (.error y)

section Both

variable {x y z : Result} {r q : Recorder}

theorem Same.both (h : Same x y) : Both x y := by
  cases h with
  | ok h => exact .ok h
  | error h what => exact .error

theorem Both.refl : ∀ x : Result, Both x x
  | .ok r => .ok (Alike.refl r)
  | .error _ => .error

theorem Both.symm (h : Both x y) : Both y x := by
  cases h with
  | ok h => exact .ok h.symm
  | error => exact .error

theorem Both.trans (h : Both x y) (h' : Both y z) : Both x z := by
  cases h with
  | ok h =>
    cases h' with
    | ok h' => exact .ok (h.trans h')
  | error =>
    cases h' with
    | error => exact .error

theorem Both.bind {f g : Recorder → Result} (h : Both x y)
    (hfg : ∀ r q, Alike r q → Both (f r) (g q)) : Both (x >>= f) (y >>= g) := by
  cases h with
  | ok h => exact hfg _ _ h
  | error => exact .error

theorem Both.ok_of (h : Both x (.ok q)) : ∃ r, x = .ok r ∧ Alike r q := by
  cases h with
  | ok h => exact ⟨_, rfl, h⟩

end Both

/-! ### Steps that may throw -/

section Notes

variable {r : Recorder}

theorem Notes.reject {V : Set ℕ} (why : String) : Notes V r (r.reject why) :=
  ⟨rfl, rfl, rfl, rfl, fun _ hp => Or.inl hp⟩

theorem Notes.caught_page {f : Recorder → Result} (addr : ℕ)
    (h : ∀ r', r.page addr = .ok r' → Notes Set.univ r' (caught (f r'))) :
    Notes Set.univ r (caught (r.page addr >>= f)) := by
  cases hp : r.page addr with
  | ok r' => exact (Notes.page (Set.mem_univ _) hp).trans (h r' hp)
  | error x =>
    unfold Recorder.page at hp
    split_ifs at hp
    cases hp
    exact Notes.reject _

theorem Notes.caught_readLoop {m : ℕ → UInt8} : ∀ (fuel : ℕ) {r : Recorder} (addr n : ℕ),
    Notes Set.univ r (caught (r.readLoop m fuel addr n))
  | 0, _, _, _ => by
    rw [readLoop_zero]
    exact Notes.refl
  | fuel + 1, r, addr, n => by
    rw [readLoop_succ]
    split_ifs
    · exact Notes.refl
    refine Notes.caught_page addr fun r' _ => ?_
    cases hw : r'.readWord m addr (min n (64 - addr % PAGE % 64)) with
    | none => exact Notes.reject _
    | some r₂ => exact (Notes.readWord (Set.mem_univ _) hw).trans (Notes.caught_readLoop fuel _ _)

theorem Notes.caught_writeLoop : ∀ (fuel : ℕ) {r : Recorder} (addr n : ℕ),
    Notes Set.univ r (caught (r.writeLoop fuel addr n))
  | 0, _, _, _ => Notes.refl
  | fuel + 1, r, addr, n => by
    rw [Recorder.writeLoop]
    split_ifs
    · exact Notes.refl
    refine Notes.caught_page addr fun r' _ => ?_
    exact (Notes.setPage (Set.mem_univ _) _).trans (Notes.caught_writeLoop fuel _ _)

theorem Notes.caught_read {m : ℕ → UInt8} (addr n : ℕ) :
    Notes Set.univ r (caught (r.read m addr n)) := by
  unfold Recorder.read
  split_ifs
  · exact Notes.reject _
  · exact Notes.caught_readLoop n addr n

theorem Notes.caught_write (addr n : ℕ) : Notes Set.univ r (caught (r.write addr n)) := by
  unfold Recorder.write
  dsimp only
  split_ifs
  · exact Notes.reject _
  · exact ⟨rfl, rfl, rfl, rfl, fun _ hp => Or.inl hp⟩
  · obtain ⟨h1, h2, h3, h4, h5⟩ :=
      Notes.caught_writeLoop (r := { r with lastStoreEnd := addr + n }) n addr n
    exact ⟨h1, h2, h3, h4, h5⟩

theorem writeLoop_quiet : ∀ (fuel : ℕ) {r r' : Recorder} (addr n : ℕ),
    r.writeLoop fuel addr n = .ok r' → r'.rejection = r.rejection ∧ r'.h = r.h
  | 0, r, r', _, _, h => by
    cases h
    exact ⟨rfl, rfl⟩
  | fuel + 1, r, r', addr, n, h => by
    rw [Recorder.writeLoop] at h
    split_ifs at h
    · cases h
      exact ⟨rfl, rfl⟩
    obtain ⟨r₁, hp, h⟩ := bind_ok h
    obtain ⟨h1, h2⟩ := writeLoop_quiet fuel _ _ h
    have hpage : r₁.rejection = r.rejection ∧ r₁.h = r.h := by
      unfold Recorder.page at hp
      split_ifs at hp
      · cases hp
        exact ⟨rfl, rfl⟩
      · cases hp
        exact ⟨rfl, rfl⟩
    exact ⟨h1.trans hpage.1, h2.trans hpage.2⟩

theorem write_quiet {r r' : Recorder} {addr n : ℕ} (hshort : n ≤ PAGE * 16)
    (hfits : addr + n ≤ UINT64_MAX) (h : r.write addr n = .ok r') :
    r'.rejection = r.rejection ∧ r'.h = r.h := by
  unfold Recorder.write at h
  dsimp only at h
  rw [if_neg (by omega)] at h
  split_ifs at h
  · cases h
    exact ⟨rfl, rfl⟩
  · exact writeLoop_quiet (r := { r with lastStoreEnd := addr + n }) n addr n h

end Notes

/-! ### Bytes one after the other -/

/-- Mark the byte of an address. -/
def markByte (r : Recorder) (a : ℕ) : Result := do
  let r ← r.page a
  .ok (r.setPage a { r.pageAt a with written := (r.pageAt a).written.mark (a % PAGE) 1 })

/-- Mark the bytes from an address on. -/
def markBytes : ℕ → Recorder → ℕ → Result
  | 0, r, _ => .ok r
  | n + 1, r, a => do
    let r ← markByte r a
    markBytes n r (a + 1)

/-- Write the bytes from an address on, one by one. -/
def writeBytes : ℕ → Recorder → ℕ → Result
  | 0, r, _ => .ok r
  | n + 1, r, a => do
    let r ← r.write a 1
    writeBytes n r (a + 1)

theorem markBytes_add : ∀ (n k : ℕ) (r : Recorder) (a : ℕ),
    markBytes (n + k) r a = markBytes n r a >>= fun r => markBytes k r (a + n)
  | 0, k, r, a => by
    rw [Nat.zero_add]
    rfl
  | n + 1, k, r, a => by
    rw [show n + 1 + k = (n + k) + 1 by omega, markBytes, markBytes]
    cases markByte r a with
    | error x => rfl
    | ok r₁ =>
      show markBytes (n + k) r₁ (a + 1) = markBytes n r₁ (a + 1) >>= _
      rw [markBytes_add n k, show a + 1 + n = a + (n + 1) by omega]

theorem writeBytes_add : ∀ (n k : ℕ) (r : Recorder) (a : ℕ),
    writeBytes (n + k) r a = writeBytes n r a >>= fun r => writeBytes k r (a + n)
  | 0, k, r, a => by
    rw [Nat.zero_add]
    rfl
  | n + 1, k, r, a => by
    rw [show n + 1 + k = (n + k) + 1 by omega, writeBytes, writeBytes]
    cases r.write a 1 with
    | error x => rfl
    | ok r₁ =>
      show writeBytes (n + k) r₁ (a + 1) = writeBytes n r₁ (a + 1) >>= _
      rw [writeBytes_add n k, show a + 1 + n = a + (n + 1) by omega]

theorem writeBytes_prefix {n k a : ℕ} {r s : Recorder} (h : writeBytes (n + k) r a = .ok s) :
    ∃ s', writeBytes n r a = .ok s' := by
  rw [writeBytes_add] at h
  obtain ⟨s', hs, -⟩ := bind_ok h
  exact ⟨s', hs⟩

section Bytes

variable {r q : Recorder}

theorem Alike.markBytes : ∀ (n : ℕ) {r q : Recorder} (a : ℕ), Alike r q →
    Both (Writes.markBytes n r a) (Writes.markBytes n q a)
  | 0, _, _, _, h => .ok h
  | n + 1, r, q, a, h => by
    have hbyte : Both (markByte r a) (markByte q a) := (h.page a).both.bind fun r₁ q₁ h₁ => by
      rw [h₁.pageAt a]
      exact .ok (h₁.setPage a _)
    exact hbyte.bind fun r₁ q₁ h₁ => Alike.markBytes n (a + 1) h₁

theorem Alike.writeBytes : ∀ (n : ℕ) {r q : Recorder} (a : ℕ), Alike r q →
    Both (Writes.writeBytes n r a) (Writes.writeBytes n q a)
  | 0, _, _, _, h => .ok h
  | n + 1, _, _, a, h => (h.write a 1).both.bind fun _ _ h₁ => Alike.writeBytes n (a + 1) h₁

theorem page_cached {a : ℕ} (h : r.cachedBase = base a) : r.page a = .ok r := by
  unfold Recorder.page
  rw [if_pos h.symm]

theorem page_caches {r' : Recorder} {a : ℕ} (h : r.page a = .ok r') : r'.cachedBase = base a := by
  unfold Recorder.page at h
  split_ifs at h with hc
  · cases h
    exact hc.symm
  · cases h
    rfl

/-- **A span of one page**, byte by byte on the page of the cache. -/
theorem markBytes_page : ∀ (n : ℕ) {r : Recorder} {a : ℕ}, r.cachedBase = base a →
    a % PAGE + (n + 1) ≤ PAGE →
    ∃ r', Writes.markBytes (n + 1) r a = .ok r' ∧
      Alike (r.setPage a { r.pageAt a with
        written := (r.pageAt a).written.mark (a % PAGE) (n + 1) }) r'
  | 0, r, a, hc, _ => by
    refine ⟨_, ?_, Alike.refl _⟩
    rw [Writes.markBytes, markByte, page_cached hc]
    rfl
  | n + 1, r, a, hc, hfit => by
    have hbase : base (a + 1) = base a := by
      unfold base PAGE at *
      omega
    have hmod : (a + 1) % PAGE = a % PAGE + 1 := by
      unfold PAGE at *
      omega
    have hbyte : markByte r a = .ok (r.setPage a
        { r.pageAt a with written := (r.pageAt a).written.mark (a % PAGE) 1 }) := by
      unfold markByte
      rw [page_cached hc]
      rfl
    obtain ⟨r', hr', halike⟩ := markBytes_page n (r := r.setPage a
        { r.pageAt a with written := (r.pageAt a).written.mark (a % PAGE) 1 }) (a := a + 1)
      (hc.trans hbase.symm) (by omega)
    refine ⟨r', ?_, ?_⟩
    · rw [Writes.markBytes, hbyte]
      exact hr'
    · rw [pageAt_setPage, if_pos hbase] at halike
      dsimp only at halike
      rw [hmod, mark_mark, Nat.add_comm 1] at halike
      exact (setPage_setPage r hbase _ _).symm.trans halike

/-- **The loop of `write`** marks the bytes one after the other. -/
theorem writeLoop_bytes : ∀ {fuel n : ℕ} {r : Recorder} {a : ℕ}, n ≤ fuel →
    Both (r.writeLoop fuel a n) (Writes.markBytes n r a)
  | 0, n, r, a, h => by
    obtain rfl : n = 0 := by omega
    exact .ok (Alike.refl r)
  | fuel + 1, n, r, a, h => by
    rw [Recorder.writeLoop]
    by_cases h0 : n = 0
    · rw [if_pos h0, h0]
      exact .ok (Alike.refl r)
    rw [if_neg h0]
    have hlt : a % PAGE < PAGE := Nat.mod_lt _ PAGE_pos
    obtain ⟨k, hk⟩ : ∃ k, min n (PAGE - a % PAGE) = k + 1 := ⟨min n (PAGE - a % PAGE) - 1, by omega⟩
    have hsplit : n = (k + 1) + (n - (k + 1)) := by omega
    rw [hk]
    conv => rhs; rw [hsplit, markBytes_add]
    -- the first page
    cases hpage : r.page a with
    | error x =>
      rw [Writes.markBytes, markByte, hpage]
      exact .error
    | ok r₁ =>
      have hc := page_caches hpage
      obtain ⟨r', hr', halike⟩ := markBytes_page k hc (by omega)
      have hfirst : Writes.markBytes (k + 1) r a = .ok r' := by
        rw [Writes.markBytes] at hr' ⊢
        unfold markByte at hr' ⊢
        rw [hpage]
        rwa [page_cached hc] at hr'
      rw [hfirst]
      exact (Alike.writeLoop fuel _ _ halike).both.trans (writeLoop_bytes (by omega))

/-- Marking a byte changes pages and the cache, whatever the end of the last store is. -/
theorem markByte_stored (r : Recorder) (a x : ℕ) :
    (∃ ps c, markByte r a = .ok { r with pages := ps, cachedBase := c } ∧
      markByte { r with lastStoreEnd := x } a =
        .ok { r with pages := ps, cachedBase := c, lastStoreEnd := x }) ∨
      ∃ e e', markByte r a = .error e ∧ markByte { r with lastStoreEnd := x } a = .error e' := by
  unfold markByte Recorder.page
  dsimp only
  split_ifs
  · exact Or.inl ⟨_, _, rfl, rfl⟩
  · exact Or.inr ⟨_, _, rfl, rfl⟩
  · exact Or.inl ⟨_, _, rfl, rfl⟩

theorem markBytes_room (ps : List ℕ) (hroom : ps.length ≤ 262144) :
    ∀ (n : ℕ) {r : Recorder} {a : ℕ},
    (∀ p ∈ r.pages, p ∈ ps) → (∀ b, a ≤ b → b < a + n → base b ∈ ps) →
    ∃ r', Writes.markBytes n r a = .ok r'
  | 0, r, _, _, _ => ⟨r, rfl⟩
  | n + 1, r, a, hps, hspan => by
    have hbase : base a ∈ {p | p ∈ ps} := hspan a le_rfl (by omega)
    obtain ⟨r₁, hbyte, hnotes⟩ : ∃ r₁, markByte r a = .ok r₁ ∧ Notes {p | p ∈ ps} r r₁ := by
      obtain ⟨pages, c, hpage⟩ := page_succeeds ((size_le_length hps).trans hroom) a
      rw [markByte, hpage]
      exact ⟨_, rfl, (Notes.page hbase hpage).trans (Notes.setPage hbase _)⟩
    rw [Writes.markBytes, hbyte]
    exact markBytes_room ps hroom n (fun p hp => (hnotes.pages p hp).elim (hps p) id)
      fun b hlow hhigh => hspan b (by omega) (by omega)

theorem writeBytes_behind :
    ∀ (n : ℕ) {r : Recorder} {a : ℕ}, r.h.output ≤ a → a ≤ r.outputFrontier →
    a + (n + 1) ≤ r.h.output + r.h.length → a + (n + 1) ≤ UINT64_MAX →
    Writes.writeBytes (n + 1) r a = .ok
      { r with lastStoreEnd := a + (n + 1), outputFrontier := max r.outputFrontier (a + (n + 1)) }
  | n, r, a, h1, h2, h3, h4 => by
    have hwrite : r.write a 1 =
        .ok { r with lastStoreEnd := a + 1, outputFrontier := max r.outputFrontier (a + 1) } := by
      unfold Recorder.write
      dsimp only
      rw [if_neg (by unfold PAGE; omega), if_pos ⟨h1, h2, by omega⟩]
    rw [Writes.writeBytes, hwrite]
    cases n with
    | zero => rfl
    | succ n =>
      have hrest := writeBytes_behind n (r := { r with
          lastStoreEnd := a + 1, outputFrontier := max r.outputFrontier (a + 1) }) (a := a + 1)
        (by dsimp only; omega) (by dsimp only; omega) (by dsimp only; omega) (by omega)
      refine hrest.trans ?_
      have hsum : a + 1 + (n + 1) = a + (n + 1 + 1) := by omega
      have hmax : max (max r.outputFrontier (a + 1)) (a + (n + 1 + 1)) =
          max r.outputFrontier (a + (n + 1 + 1)) := by omega
      dsimp only
      rw [hsum, hmax]

theorem writeBytes_past : ∀ (n : ℕ) {r : Recorder} {a : ℕ}, r.outputFrontier < a →
    a + (n + 1) ≤ UINT64_MAX →
    Both (Writes.writeBytes (n + 1) r a)
      (Writes.markBytes (n + 1) { r with lastStoreEnd := a + (n + 1) } a)
  | n, r, a, h1, h2 => by
    have hwrite : Both (r.write a 1) (markByte { r with lastStoreEnd := a + 1 } a) := by
      have hone : Writes.markBytes 1 { r with lastStoreEnd := a + 1 } a =
          markByte { r with lastStoreEnd := a + 1 } a := by
        rw [Writes.markBytes]
        cases markByte { r with lastStoreEnd := a + 1 } a <;> rfl
      unfold Recorder.write
      dsimp only
      rw [if_neg (by unfold PAGE; omega), if_neg (by omega), ← hone]
      exact writeLoop_bytes le_rfl
    rw [Writes.writeBytes, Writes.markBytes]
    rcases markByte_stored { r with lastStoreEnd := a + 1 } a (a + (n + 1)) with
      ⟨ps, c, h, h'⟩ | ⟨e, e', h, h'⟩
    · rw [h] at hwrite
      obtain ⟨r₁, hr₁, halike⟩ := hwrite.ok_of
      rw [hr₁]
      dsimp only at h'
      rw [h']
      show Both (Writes.writeBytes n r₁ (a + 1)) (Writes.markBytes n _ (a + 1))
      cases n with
      | zero => exact .ok halike
      | succ n =>
        have hfront : r₁.outputFrontier = r.outputFrontier := halike.frontier.symm
        have hrest := writeBytes_past n (r := r₁) (a := a + 1) (by omega) (by omega)
        refine hrest.trans (Alike.markBytes (n + 1) (a + 1) ?_)
        exact { halike with stored := by dsimp only; omega }
    · rw [h] at hwrite
      dsimp only at h'
      rw [h']
      cases hr : r.write a 1 with
      | ok r₁ =>
        rw [hr] at hwrite
        cases hwrite
      | error x => exact .error

/-- **A write inside the output** leaves what its bytes one after the other leave. -/
theorem write_bytes {n a : ℕ} (hpos : 0 < n) (hshort : n ≤ PAGE * 16) (hlow : r.h.output ≤ a)
    (hhigh : a + n ≤ r.h.output + r.h.length) (hfits : a + n ≤ UINT64_MAX) :
    Both (r.write a n) (Writes.writeBytes n r a) := by
  obtain ⟨n, rfl⟩ : ∃ k, n = k + 1 := ⟨n - 1, by omega⟩
  unfold Recorder.write
  dsimp only
  rw [if_neg (by omega)]
  by_cases hfront : a ≤ r.outputFrontier
  · rw [if_pos ⟨hlow, hfront, hhigh⟩, writeBytes_behind n hlow hfront hhigh hfits]
    exact .ok (Alike.refl _)
  · rw [if_neg fun h => hfront h.2.1]
    exact (writeLoop_bytes le_rfl).trans (writeBytes_past n (by omega) hfits).symm

end Bytes

end Afterfree.Recording.Writes
