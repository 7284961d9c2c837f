import Firebam.VoteProgram.Filter
import Firebam.VoteProgram.Merge

/-! The lockouts that the vote program enforces on a proposed vote state. -/
namespace Firebam.VoteProgram
open Lib List

variable {votes : List LandedVote} {slotHashes : List SlotHash} {s s' : VoteState} {p : Proposal} {epoch : Nat}
  {slot : Slot} {v : LandedVote}

structure VoteState.Formed (s : VoteState) : Prop where
  few : s.votes.length ≤ maxLockoutHistory
  stands : ∀ v ∈ s.votes, Stands s.rootSlot v.lockout
  follows : (lockouts s.votes).IsChain Follows

/-- The same without an exception for the root of slot 0. -/
structure VoteState.Valid (s : VoteState) : Prop extends s.Formed where
  above : ∀ root ∈ s.rootSlot, ∀ v ∈ s.votes, root < v.slot

structure Enforced (s : VoteState) (slotHashes : List SlotHash) (p : Proposal) (s' : VoteState) : Prop where
  formed : s'.Formed
  root : ∀ root ∈ s.rootSlot, ∃ root' ∈ s'.rootSlot, root ≤ root'
  last : ∃ last ∈ s'.votes.getLast?, (∀ v ∈ s.votes.getLast?, v.slot < last.slot) ∧
    ∃ h ∈ slotHashes, h.slot = last.slot ∧ h.hash = p.hash ∧ ∀ h' ∈ slotHashes, h'.slot = last.slot → h' = h
  known : ∀ w ∈ s'.votes, (∃ h ∈ slotHashes, h.slot = w.slot) ∨ ∃ v ∈ s.votes, v.slot = w.slot
  lockouts : ∀ v ∈ s.votes, (∀ root ∈ s'.rootSlot, root < v.slot) →
    (∃ w ∈ s'.votes, w.slot = v.slot ∧ v.lockout.confirmationCount ≤ w.lockout.confirmationCount) ∨
      ∃ w, s'.votes.find? (fun w => decide (v.slot < w.slot)) = some w ∧
        v.slot.val + 2 ^ v.lockout.confirmationCount < w.slot.val

lemma sorted_of_follows (hf : (lockouts votes).IsChain Follows) : votes.Pairwise fun a b => a.slot < b.slot := by
  have hs : (lockouts votes).IsChain fun a b => a.slot < b.slot := hf.imp fun _ _ hn => hn.slot
  have ht : IsTrans Lockout fun a b => a.slot < b.slot := ⟨fun _ _ _ => Fin.lt_trans⟩
  have hp := isChain_iff_pairwise.mp hs
  exact (pairwise_map (f := LandedVote.lockout)).mp hp

lemma le_getLast {last : LandedVote} (hs : votes.Pairwise fun a b => a.slot < b.slot) (hm : v ∈ votes)
    (ht : votes.getLast? = some last) : v.slot ≤ last.slot := by
  obtain ⟨front, rfl⟩ := getLast?_eq_some_iff.mp ht
  rcases mem_concat.mp hm with hb | hn
  · exact Fin.le_of_lt ((pairwise_append.mp hs).2.2 v hb last (mem_singleton_self last))
  · exact Fin.le_of_eq (hn ▸ rfl)

lemma unique_slot (hd : slotHashes.Pairwise fun a b => b.slot < a.slot) {h h' : SlotHash} (hl : h ∈ slotHashes)
    (hr : h' ∈ slotHashes) (hs : h'.slot = h.slot) : h' = h := by
  have hm : slotHashes.Pairwise fun a b => a.slot ≠ b.slot := hd.imp fun lt => (Fin.ne_of_lt lt).symm
  exact inj_on_of_nodup_map (pairwise_map.mpr hm) hr hl hs

lemma Keeps.first (hk : Keeps (lockouts votes) v.lockout) (hn : ∃ w ∈ votes, v.slot < w.slot) :
    (∃ w ∈ votes, w.slot = v.slot ∧ v.lockout.confirmationCount ≤ w.lockout.confirmationCount) ∨
      ∃ w, votes.find? (fun w => decide (v.slot < w.slot)) = some w ∧
        v.slot.val + 2 ^ v.lockout.confirmationCount < w.slot.val := by
  rcases hk with ⟨l, hm, hb⟩ | all
  · obtain ⟨w, ht, rfl⟩ := mem_map.mp hm
    exact .inl ⟨w, ht, hb⟩
  · obtain ⟨w, ht, lt⟩ := hn
    have hf : (votes.find? fun w => decide (v.slot < w.slot)).isSome := find?_isSome.mpr ⟨w, ht, decide_eq_true lt⟩
    obtain ⟨first, eq⟩ := Option.isSome_iff_exists.mp hf
    have hp := find?_some eq
    have ha : v.slot < first.slot := of_decide_eq_true hp
    exact .inr ⟨first, eq, all first.lockout (mem_map_of_mem (mem_of_find?_eq_some eq)) (Fin.le_of_lt ha)⟩

/-- A TowerSync or a VoteStateUpdate that is accepted leaves a vote state that is formed as before,
does not go back, is on the fork of SlotHashes, and does not break a lockout. -/
theorem proposal_enforced (formed : s.Formed) (decreasing : slotHashes.Pairwise fun a b => b.slot < a.slot)
    (done : s.processProposal slotHashes epoch slot p = .ok s') : Enforced s slotHashes p s' := by
  obtain ⟨⟨left, newRoot⟩, filtered, done⟩ := bind_ok.mp done
  obtain ⟨known, last, top, newest, h, there, same, hash⟩ := checkAndFilter_ok filtered
  obtain ⟨few, root, checked, set, merged, merge, eq⟩ := process_ok done
  obtain ⟨stands, follows⟩ := checkVotes_iff.mp checked
  let new : List LandedVote := left.map fun l => ⟨0, l⟩
  have plain : lockouts new = left := by simp [new, lockouts, Function.comp_def]
  have sorted := sorted_of_follows formed.follows
  have sorted' : new.Pairwise fun a b => a.slot < b.slot := sorted_of_follows follows
  have lastNew : (⟨0, last⟩ : LandedVote) ∈ new := mem_map_of_mem (mem_of_getLast? top)
  -- the newest vote is above all votes of the state, so each of them is compared
  have newer : ∀ v ∈ s.votes, v.slot < last.slot := by
    intro v mem
    have nonempty := ne_nil_of_mem mem
    have final := getLast?_eq_getLast_of_ne_nil nonempty
    exact Fin.lt_of_le_of_lt (le_getLast sorted mem final) (newest _ final)
  have dropped : ∀ v ∈ s.votes.drop (rootedCount s.votes newRoot), v ∈ s.votes := fun v => mem_of_mem_drop
  obtain ⟨same', keeps⟩ := mergeVotes_ok (sorted.sublist (drop_sublist _ _))
    (fun v mem => (formed.stands v (dropped v mem)).high) sorted'
    (fun v mem => ⟨_, lastNew, newer v (dropped v mem)⟩) merge
  have votes : lockouts s'.votes = left := (eq.trans same').trans plain
  have lockout : ∀ w ∈ s'.votes, w.lockout ∈ left := fun w mem => votes ▸ mem_map_of_mem mem
  have top' : s'.votes.getLast?.map LandedVote.lockout = some last := by
    rw [← getLast?_map]
    exact (congrArg List.getLast? votes).trans top
  obtain ⟨last', final, rfl⟩ := Option.map_eq_some_iff.mp top'
  refine ⟨⟨?_, fun w mem => ?_, ?_⟩, ?_, ⟨last', final, newest, h, there, same, hash, ?_⟩, fun w mem => ?_,
    fun v mem above => ?_⟩
  · have length := congrArg List.length (votes.trans plain.symm)
    rw [length_map, length_map] at length
    exact length ▸ few
  · rw [set]
    exact stands ⟨0, w.lockout⟩ (mem_map_of_mem (lockout w mem))
  · rw [votes, ← plain]
    exact follows
  · rw [set]
    exact root
  · exact fun h' mem eq' => unique_slot decreasing there mem (eq'.trans same.symm)
  · exact known w.lockout (lockout w mem)
  · rw [set] at above
    have kept := keeps v (mem_drop_rooted mem above)
    rw [plain, ← votes] at kept
    exact kept.first ⟨last', mem_of_getLast? final, newer v mem⟩

def twoVotes : VoteState := ⟨[⟨1, ⟨10, 2⟩⟩, ⟨1, ⟨11, 1⟩⟩], some 9, [], ⟨0, 0⟩⟩

def oneMore : Proposal := ⟨[⟨10, 3⟩, ⟨11, 2⟩, ⟨13, 1⟩], some 9, 7, none⟩

def threeHashes : List SlotHash := [⟨13, 7⟩, ⟨11, 5⟩, ⟨10, 4⟩, ⟨9, 3⟩]

theorem one_more_enforced : Enforced twoVotes threeHashes oneMore
    ⟨[⟨1, ⟨10, 3⟩⟩, ⟨1, ⟨11, 2⟩⟩, ⟨2, ⟨13, 1⟩⟩], some 9, [], ⟨0, 0⟩⟩ := by
  have formed : twoVotes.Formed := ⟨by decide, by decide, by decide⟩
  have done : twoVotes.processProposal threeHashes 0 15 oneMore =
      .ok ⟨[⟨1, ⟨10, 3⟩⟩, ⟨1, ⟨11, 2⟩⟩, ⟨2, ⟨13, 1⟩⟩], some 9, [], ⟨0, 0⟩⟩ := by decide +kernel
  exact proposal_enforced formed (by decide) done

def noVotes : VoteState := ⟨[], none, [], ⟨0, 0⟩⟩

def rootZero : Proposal := ⟨[⟨0, 1⟩], some 0, 7, none⟩

theorem vote_not_above_root : noVotes.Valid ∧ ∃ s', noVotes.processProposal [⟨0, 7⟩] 0 1 rootZero = .ok s' ∧ ¬ s'.Valid := by
  refine ⟨⟨⟨by decide, fun _ no => (nomatch no), .nil⟩, nofun⟩,
    ⟨[⟨1, ⟨0, 1⟩⟩], some 0, [⟨0, 0, 0⟩], ⟨0, 0⟩⟩, by decide +kernel, fun valid => ?_⟩
  exact absurd (valid.above 0 rfl ⟨1, ⟨0, 1⟩⟩ (.head _)) (by decide)

end Firebam.VoteProgram
