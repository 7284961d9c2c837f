import Firebam.Tower.Frames
import Firebam.Tower.Lineage

/-! The block ids that the tower keeps for a slot. -/
namespace Firebam.Choreo
open Lib List Marks Ghost
open Firebam.Ghost (Hash Pubkey SamePlaces)

variable {tree : List SlotCompleted} {ghost ghost' : Tree} {slot bit level stake totalStake total : Nat}
  {id blockId : Hash} {b : Blk} {s s' : Marks} {votes votes' : Votes} {voteAcc : Pubkey}

def Apart (ghost : Tree) (slot : Nat) (id : Hash) : Prop := ∀ g ∈ ghost.blks, g.id = id → g.slot = slot

def Delivered (tree : List SlotCompleted) (slot : Nat) (id : Hash) : Prop := ∃ x ∈ tree, x.blockId = id ∧ x.slot = slot

structure Blk.Honest (tree : List SlotCompleted) (ghost : Tree) (b : Blk) : Prop where
  confirmed : b.confirmed = true → Apart ghost b.slot b.confirmedBlockId
  voted : b.voted = true → Delivered tree b.slot b.votedBlockId
  replayed : Delivered tree b.slot b.replayedBlockId

structure Marks.Honest (tree : List SlotCompleted) (s : Marks) : Prop where
  known : ∀ g ∈ s.ghost.blks, Delivered tree g.slot g.id
  blks : ∀ b ∈ s.tower.blks, b.Honest tree s.ghost
  forward : ∀ v ∈ s.votes.blks, v.flags.testBit 5 = true → Apart s.ghost v.slot v.blockId

def Named (tree : List SlotCompleted) : Prop := ∀ x ∈ tree, ∀ y ∈ tree, x.blockId = y.blockId → x.slot = y.slot

lemma Apart.same (ne : Apart ghost slot id) (same : SamePlaces ghost ghost') : Apart ghost' slot id := by
  intro g hm eq
  obtain ⟨old, m, hp⟩ := same.blk hm
  simp only [Blk.place, Prod.mk.injEq] at hp
  rw [← hp.2.1]
  exact ne old m (hp.1.trans eq)

lemma Blk.Honest.same (hh : b.Honest tree ghost) (same : SamePlaces ghost ghost') : b.Honest tree ghost' :=
  ⟨fun hf => (hh.confirmed hf).same same, hh.voted, hh.replayed⟩

lemma Delivered.apart (hn : Named tree) (hk : ∀ g ∈ ghost.blks, Delivered tree g.slot g.id)
    (hd : Delivered tree slot id) : Apart ghost slot id := by
  intro g hm eq
  obtain ⟨x, m, ha, hx⟩ := hd
  obtain ⟨y, ht, hi, hy⟩ := hk g hm
  rw [← hx, ← hy]
  exact hn y ht x m (hi.trans (eq.trans ha.symm))

lemma apart_absent (hn : ghost.query id = none) : Apart ghost slot id := by
  intro g hm eq
  have := find?_eq_none.mp hn g hm
  simp [eq] at this

namespace Marks.Honest

lemma known_same (hh : s.Honest tree) (hs : SamePlaces s.ghost ghost) :
    ∀ g ∈ ghost.blks, Delivered tree g.slot g.id := by
  intro g hm
  obtain ⟨old, m, hp⟩ := hs.blk hm
  simp only [Blk.place, Prod.mk.injEq] at hp
  have hd := hh.known old m
  rw [hp.1, hp.2.1] at hd
  exact hd

lemma marked {tower : Tower} (hh : s.Honest tree)
    (hs : SamePlaces s.ghost ghost) (hb : ∀ b ∈ tower.blks, b.Honest tree s.ghost)
    (hf : ∀ v ∈ votes.blks, v.flags.testBit 5 = true → Apart s.ghost v.slot v.blockId) :
    Honest tree ⟨tower, ghost, votes⟩ :=
  ⟨hh.known_same hs, fun b hm => (hb b hm).same hs,
    fun v hm hl => (hf v hm hl).same hs⟩

end Marks.Honest

section
variable (ho : ∀ v ∈ votes.blks, v.flags.testBit 5 = true → Apart ghost v.slot v.blockId)
include ho

lemma setFlag_forward (he : bit = 5 → Apart ghost slot blockId) :
    ∀ v ∈ (votes.setFlag slot blockId bit).blks, v.flags.testBit 5 = true → Apart ghost v.slot v.blockId := by
  intro v hm hf
  obtain ⟨old, m, rfl⟩ := mem_map.mp hm
  split at hf
  · rename_i hh
    rw [if_pos hh]
    by_cases hi : bit = 5
    · simp only [hh.1, hh.2]
      exact he hi
    · simp only [Nat.testBit_or, Nat.one_shiftLeft, Nat.testBit_two_pow, Bool.or_eq_true, decide_eq_true_eq] at hf
      exact ho old m (hf.resolve_right hi)
  · rename_i ne
    rw [if_neg ne]
    exact ho old m hf

lemma addStake_forward :
    ∀ v ∈ (votes.addStake slot blockId stake).blks, v.flags.testBit 5 = true → Apart ghost v.slot v.blockId := by
  unfold Votes.addStake
  split
  · intro v hm hf
    obtain ⟨old, m, rfl⟩ := mem_map.mp hm
    split at hf
    · rename_i hh
      rw [if_pos hh]
      exact ho old m hf
    · rename_i ne
      rw [if_neg ne]
      exact ho old m hf
  · intro v hm hf
    rcases mem_concat.mp hm with hm | rfl
    · exact ho v hm hf
    · simp at hf

lemma countVote_forward (h : votes.countVote voteAcc stake slot blockId = some votes') :
    ∀ v ∈ votes'.blks, v.flags.testBit 5 = true → Apart ghost v.slot v.blockId := by
  unfold Votes.countVote at h
  split at h
  · cases h
  split at h
  · cases h
  split at h
  · cases h
    exact addStake_forward ho
  · split at h
    · cases h
    · cases h
      exact addStake_forward ho

end

lemma forward_honest (hh : s.Honest tree) (hn : s.ghost.query blockId = none)
    (h : s.forward level slot blockId = .ok s') : s'.Honest tree := by
  have ne : ∀ slot, Apart s.ghost slot blockId := fun _ => apart_absent hn
  have hf : ∀ v ∈ (s.votes.setFlag slot blockId (level + 4)).blks, v.flags.testBit 5 = true →
      Apart s.ghost v.slot v.blockId := setFlag_forward hh.forward fun _ => ne slot
  unfold forward at h
  dsimp only at h
  split at h
  · cases h
    exact hh.marked (.refl _) hh.blks hf
  · split at h
    · obtain ⟨-, h⟩ := check_ok.mp h
      cases h
      refine hh.marked (eqvoc_samePlaces _ _) ?_ hf
      exact setBlk_forall hh.blks fun b _ _ ho => ⟨fun _ => ne _, ho.voted, ho.replayed⟩
    · cases h
      exact hh.marked (.refl _) hh.blks hf

variable (ha : Named tree)
include ha

lemma mark_honest (ho : s.Honest tree) {anc : Ghost.Blk}
    (hm : anc ∈ s.ghost.blks) (towerAnc : Blk) : (s.mark level anc towerAnc).Honest tree := by
  have ne : Apart s.ghost anc.slot anc.id := (ho.known anc hm).apart ha ho.known
  have hf : ∀ v ∈ (s.votes.setFlag anc.slot anc.id level).blks, v.flags.testBit 5 = true →
      Apart s.ghost v.slot v.blockId := setFlag_forward ho.forward fun _ => ne
  unfold mark
  split
  · refine ho.marked (.refl _) ?_ hf
    exact setBlk_forall ho.blks fun b _ _ hl => ⟨hl.confirmed, hl.voted, hl.replayed⟩
  · split
    · have hb := setBlk_forall (f := fun b => { b with confirmed := true, confirmedBlockId := anc.id }) ho.blks
        fun b _ hh hl => ⟨fun _ => hh ▸ ne, hl.voted, hl.replayed⟩
      split
      · exact ho.marked (Ghost.confirm_samePlaces _ _) hb hf
      · exact ho.marked ((confirm_samePlaces _ _).trans (eqvoc_samePlaces _ _)) hb hf
    · exact ho.marked (.refl _) ho.blks hf

lemma walk_honest (ids : List Hash) (hh : s.Honest tree) : (walk level ids s).Honest tree := by
  induction ids generalizing s with
  | nil => exact hh
  | cons id rest ih =>
    unfold walk
    split
    · exact hh
    · rename_i anc hf
      split
      · split
        · exact hh
        · exact ih (mark_honest ha hh (mem_of_find?_eq_some hf) _)
      · exact hh

variable (hh : s.Honest tree)
include hh

lemma confirmLevel_honest {ratio : Nat × Ratio} {more : Bool}
    (h : s.confirmLevel slot blockId totalStake ratio = .ok (more, s')) : s'.Honest tree := by
  unfold confirmLevel at h
  split at h
  · cases h
    exact hh
  split at h
  · cases h
    exact hh
  split at h
  · cases h
    exact hh
  split at h
  · rename_i hn
    split at h
    · cases h
      exact hh
    · obtain ⟨next, hm, hs⟩ := map_ok.mp h
      cases hs
      exact forward_honest hh hn hm
  · cases h
    exact walk_honest ha _ hh

lemma confirmLevels_honest {levels : List (Nat × Ratio)}
    (h : confirmLevels slot blockId totalStake levels s = .ok s') : s'.Honest tree := by
  induction levels generalizing s with
  | nil =>
    cases h
    exact hh
  | cons level rest ih =>
    obtain ⟨⟨more, next⟩, hf, h⟩ := bind_ok.mp h
    dsimp only at h
    have hk := confirmLevel_honest ha hh hf
    split at h
    · exact ih hk h
    · cases h
      exact hk

lemma countSlot_honest (h : s.countSlot voteAcc stake total slot blockId = .ok s') : s'.Honest tree := by
  unfold countSlot at h
  split at h
  · cases h
    exact hh
  · rename_i votes hc
    have hf : Honest tree { s with votes := votes } :=
      hh.marked (.refl _) hh.blks (countVote_forward hh.forward hc)
    exact confirmLevels_honest ha hf h

lemma countVotes_honest {txn : VoteTxn} {last : Vote} {older : List Vote} (h : s.countVotes txn last older stake total = .ok s') :
    s'.Honest tree := by
  obtain ⟨mid, hi, h⟩ := bind_ok.mp h
  have hf := countSlot_honest ha hh hi
  split at h
  · cases h
    exact hf
  · split at h
    · refine foldlM_preserves (I := Honest tree) ?_ hf h
      intro a vote _ b hk hs
      unfold countIntermediate at hs
      split at hs
      · cases hs
        exact hk
      · split at hs
        · cases hs
          exact hk
        · exact countSlot_honest ha hk hs
    · cases h
      exact hf

end Firebam.Choreo
