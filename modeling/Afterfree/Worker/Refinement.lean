import Afterfree.Runtime.Pager
import Afterfree.Worker.Verified

/-!
# The worker refines the peer of the runtime

The runtime model sees the worker as a `Peer`: a map from ids to outputs, with `DROP`, commits and
restores on it. The command loop behaves so, with the outputs it has announced: each of its answers
is one the peer gives, and moves the announced outputs as it moves the peer.
-/

namespace Afterfree.Worker.Refinement

open Afterfree.Common Afterfree.Runtime.State Afterfree.Runtime.Pager
open Afterfree.Worker.Checked Afterfree.Worker.Server Afterfree.Worker.Verified

/-- A byte string as an output. -/
def outputOf (out : List UInt8) : Output := ⟨out.length, fun i => out.getD i 0⟩

/-- The announced outputs as a peer. -/
def peerOf (v : ℕ → Option (List UInt8)) : Peer := ⟨fun id => (v id).map outputOf⟩

theorem peerOf_committed (v : ℕ → Option (List UInt8)) (id : ℕ) (out : List UInt8)
    (g : Registration) (m : String) :
    peerOf (announce v (.committed id out g m)) = (peerOf v).commit id (outputOf out) := by
  unfold peerOf announce Peer.commit
  simp only [Peer.mk.injEq]
  funext i
  by_cases hi : i = id
  · subst hi
    simp
  · simp [hi]

theorem peerOf_dropped (v : ℕ → Option (List UInt8)) (id : ℕ) :
    peerOf (announce v (.dropped id)) = (peerOf v).drop id := by
  unfold peerOf announce Peer.drop
  simp only [Peer.mk.injEq]
  funext i
  by_cases hi : i = id
  · subst hi
    simp
  · simp [hi]

variable {sha256 : List UInt8 → List UInt8} {arena : Option Arena}

/-- **A restore of the worker is a restore of the peer**: it delivers the payload `handleRestore`
delivers, or refuses, which the peer may do as well. -/
theorem restore_refines {e : RestoreEnv} {s s' : State} {q : Request} {a : Answer}
    {v : ℕ → Option (List UInt8)} (hv : Certified sha256 v s)
    (hsha : ∀ out offset bytes, v q.id = some out → a = .restored q.id offset bytes →
      Set.InjOn sha256 (hashedStrings out ∪ hashedStrings bytes))
    (h : restore sha256 arena e s q = (s', a)) (ha : a ≠ .closed) :
    (∃ offset bytes, a = .restored q.id offset bytes ∧ bytes.length ≠ 0 ∧
        (handleRestore true q (peerOf v)).2.1 = ⟨0, bytes.length, "restored"⟩ ∧
        ∀ i < bytes.length, (handleRestore true q (peerOf v)).2.2 i = bytes.getD i 0) ∨
      ∃ message, a = .refused message ∧ (handleRestore false q (peerOf v)).2.1.status = 1 := by
  obtain ⟨-, ⟨m, rfl⟩ | ⟨st, bytes, hst, hb, rfl⟩⟩ := restore_cases h ha
  · refine Or.inr ⟨m, rfl, ?_⟩
    unfold handleRestore
    split
    · rfl
    · simp
  · obtain ⟨out, hout, hval⟩ := hv q.id st hst
    obtain ⟨h1, h2, h3⟩ := reconstruct_verified (hsha out _ bytes hout rfl) hval hb
    have hpeer : (peerOf v).store q.id = some (outputOf out) := by
      show (v q.id).map outputOf = _
      rw [hout]
      rfl
    -- the range of the request, in the words of the peer
    have hrange : rangeOf st q = (if q.command = .restore then 0 else rangeOffset q.size,
        if q.command = .restore then (outputOf out).length else rangeLength q.size) := by
      unfold rangeOf
      split_ifs
      · rw [← hval.length_eq]
        rfl
      · rfl
    have hne : (rangeOf st q).2 ≠ 0 := by
      unfold reconstruct at hb
      simp only at hb
      split_ifs at hb with hbad
      intro h0
      exact hbad (by simp [invalidRange, h0])
    have hans : handleRestore true q (peerOf v) = (peerOf v, ⟨0, (rangeOf st q).2, "restored"⟩,
        fun i => (outputOf out).byte ((rangeOf st q).1 + i)) := by
      unfold handleRestore
      rw [hpeer]
      simp only
      rw [hrange] at h2 hne ⊢
      rw [if_pos ⟨trivial, hne, by show _ ≤ out.length; omega,
        by show _ ≤ out.length - _; omega⟩]
    refine Or.inl ⟨_, bytes, rfl, by rw [h1]; exact hne, ?_, fun i hi => ?_⟩
    · rw [hans, h1]
    · rw [hans]
      show out.getD ((rangeOf st q).1 + i) 0 = _
      rw [h1] at hi
      rw [h3, List.getD_eq_getElem?_getD, List.getD_eq_getElem?_getD, List.getElem?_take,
        if_pos hi, List.getElem?_drop]

end Afterfree.Worker.Refinement
