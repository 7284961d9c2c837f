import Firebam.Ghost.Places
import Firebam.Tower.Replay

/-! What the messages of the tile leave alone. -/
namespace Firebam.Choreo
open Lib List Marks Ghost
open Firebam.Ghost (Hash Pubkey SamePlaces)

variable {f : Blk → Blk} {blks blks' : List Blk} {slot stake total level totalStake : Nat} {s s' s'' : Marks}
  {voteAcc : Pubkey} {blockId : Hash} {m : SlotCompleted} {votes : Votes}

def Blk.link (b : Blk) : Nat × Nat × Bool := (b.slot, b.parentSlot, b.voted)

structure Marks.Calm (s s' : Marks) : Prop where
  votes : s'.tower.votes = s.tower.votes
  root : s'.tower.root = s.tower.root
  blks : s'.tower.blks.map Blk.link = s.tower.blks.map Blk.link
  ghost : SamePlaces s.ghost s'.ghost
  votesRoot : s'.votes.root = s.votes.root

lemma setBlk_link (hk : ∀ b, (f b).link = b.link) : (setBlk blks slot f).map Blk.link = blks.map Blk.link := by
  simp only [setBlk, map_map]
  refine map_congr_left ?_
  intro b _
  simp only [Function.comp]
  split
  · exact hk b
  · rfl

lemma blk_of_link (hk : blks'.map Blk.link = blks.map Blk.link) {b : Blk}
    (hm : b ∈ blks') : ∃ old ∈ blks, old.link = b.link := by
  have hl := mem_map_of_mem (f := Blk.link) hm
  rw [hk] at hl
  exact mem_map.mp hl

def slots (blks : List Blk) : List Nat := blks.map Blk.slot

lemma query_isSome : (query blks slot).isSome = true ↔ slot ∈ slots blks := by
  rw [query, find?_isSome, slots]
  simp

lemma query_none : query blks slot = none ↔ slot ∉ slots blks := by
  rw [← query_isSome]
  cases query blks slot <;> simp

lemma slots_of_link (hk : blks'.map Blk.link = blks.map Blk.link) : slots blks' = slots blks := by
  have hf := congrArg (List.map Prod.fst) hk
  rw [map_map, map_map] at hf
  exact hf

lemma slots_setBlk (hk : ∀ b, (f b).slot = b.slot) : slots (setBlk blks slot f) = slots blks := by
  simp only [slots, setBlk, map_map]
  refine map_congr_left ?_
  intro b _
  simp only [Function.comp]
  split
  · exact hk b
  · rfl

lemma setBlk_forall {P : Blk → Prop} (all : ∀ b ∈ blks, P b)
    (hc : ∀ b ∈ blks, b.slot = slot → P b → P (f b)) : ∀ b ∈ setBlk blks slot f, P b := by
  intro b hm
  obtain ⟨old, m, rfl⟩ := mem_map.mp hm
  split_ifs with hh
  · exact hc old m hh (all old m)
  · exact all old m

namespace Marks.Calm

lemma refl (s : Marks) : Calm s s := ⟨rfl, rfl, rfl, .refl _, rfl⟩

lemma trans (hf : Calm s s') (hs : Calm s' s'') : Calm s s'' :=
  ⟨hs.votes.trans hf.votes, hs.root.trans hf.root, hs.blks.trans hf.blks,
    hf.ghost.trans hs.ghost, hs.votesRoot.trans hf.votesRoot⟩

lemma mark {ghost : Tree} (hk : blks.map Blk.link = s.tower.blks.map Blk.link) (hs : SamePlaces s.ghost ghost)
    (hr : votes.root = s.votes.root) : Calm s ⟨{ s.tower with blks := blks }, ghost, votes⟩ :=
  ⟨rfl, rfl, hk, hs, hr⟩

end Marks.Calm

lemma forward_calm (h : s.forward level slot blockId = .ok s') : s.Calm s' := by
  unfold forward at h
  dsimp only at h
  split at h
  · cases h
    exact ⟨rfl, rfl, rfl, .refl _, rfl⟩
  · split at h
    · obtain ⟨-, h⟩ := check_ok.mp h
      cases h
      exact .mark (setBlk_link fun _ => rfl) (eqvoc_samePlaces _ _) rfl
    · cases h
      exact ⟨rfl, rfl, rfl, .refl _, rfl⟩

lemma mark_calm (s : Marks) (level : Nat) (anc : Ghost.Blk) (towerAnc : Blk) : s.Calm (s.mark level anc towerAnc) := by
  unfold mark
  split
  · exact .mark (setBlk_link fun _ => rfl) (.refl _) rfl
  · split
    · refine .mark (setBlk_link fun _ => rfl) ?_ rfl
      split
      · exact confirm_samePlaces _ _
      · exact (confirm_samePlaces _ _).trans (eqvoc_samePlaces _ _)
    · exact .mark rfl (.refl _) rfl

lemma walk_calm (level : Nat) (ids : List Hash) (s : Marks) : s.Calm (walk level ids s) := by
  induction ids generalizing s with
  | nil => exact .refl s
  | cons id rest ih =>
    unfold walk
    split
    · exact .refl s
    · split
      · split
        · exact .refl s
        · exact (mark_calm s level _ _).trans (ih _)
      · exact .refl s

lemma confirmLevel_calm {ratio : Nat × Ratio} {more : Bool}
    (h : s.confirmLevel slot blockId totalStake ratio = .ok (more, s')) : s.Calm s' := by
  unfold confirmLevel at h
  split at h
  · cases h
    exact .refl _
  split at h
  · cases h
    exact .refl _
  split at h
  · cases h
    exact .refl _
  split at h
  · split at h
    · cases h
      exact .refl _
    · obtain ⟨next, hm, hs⟩ := map_ok.mp h
      cases hs
      exact forward_calm hm
  · cases h
    exact walk_calm _ _ _

lemma confirmLevels_calm {levels : List (Nat × Ratio)}
    (h : confirmLevels slot blockId totalStake levels s = .ok s') : s.Calm s' := by
  induction levels generalizing s with
  | nil =>
    cases h
    exact .refl _
  | cons level rest ih =>
    obtain ⟨⟨more, next⟩, hf, h⟩ := bind_ok.mp h
    dsimp only at h
    have hc := confirmLevel_calm hf
    split at h
    · exact hc.trans (ih h)
    · cases h
      exact hc

lemma addStake_root (votes : Votes) (slot : Nat) (blockId : Hash) (stake : Nat) :
    (votes.addStake slot blockId stake).root = votes.root := by
  unfold Votes.addStake
  split <;> rfl

lemma countVote_root {votes' : Votes}
    (h : votes.countVote voteAcc stake slot blockId = some votes') : votes'.root = votes.root := by
  unfold Votes.countVote at h
  split at h
  · cases h
  split at h
  · cases h
  split at h
  · cases h
    exact addStake_root _ _ _ _
  · split at h
    · cases h
    · cases h
      exact addStake_root _ _ _ _

lemma countSlot_calm (h : s.countSlot voteAcc stake total slot blockId = .ok s') : s.Calm s' := by
  unfold countSlot at h
  split at h
  · cases h
    exact .refl _
  · rename_i votes hc
    have hf : s.Calm { s with votes := votes } := .mark rfl (.refl _) (countVote_root hc)
    exact hf.trans (confirmLevels_calm h)

lemma countIntermediate_calm {vote : Vote} (h : s.countIntermediate voteAcc stake total vote = .ok s') : s.Calm s' := by
  unfold countIntermediate at h
  split at h
  · cases h
    exact .refl _
  · split at h
    · cases h
      exact .refl _
    · exact countSlot_calm h

lemma countVotes_calm {txn : VoteTxn} {last : Vote} {older : List Vote}
    (h : s.countVotes txn last older stake total = .ok s') : s.Calm s' := by
  obtain ⟨mid, hi, h⟩ := bind_ok.mp h
  have hf := countSlot_calm hi
  split at h
  · cases h
    exact hf
  · split at h
    · exact foldlM_preserves (I := s.Calm) (fun _ _ _ _ hc hs => hc.trans (countIntermediate_calm hs)) hf h
    · cases h
      exact hf

lemma resolve_calm (s : Marks) (m : SlotCompleted) : s.Calm (s.resolve m) := by
  have hp : s.Calm (if m.eqvocProof then { s with ghost := s.ghost.eqvoc m.blockId } else s) := by
    split
    · exact .mark rfl (eqvoc_samePlaces _ _) rfl
    · exact .refl s
  unfold resolve
  dsimp only
  split
  · exact hp
  · split
    · refine .mark (setBlk_link fun _ => rfl) ?_ rfl
      split
      · exact confirm_samePlaces _ _
      · exact eqvoc_samePlaces _ _
    · exact hp

lemma countVoteAcc_calm {vtr : Vtr} (h : s.countVoteAcc slot blockId vtr = .ok s') : s.Calm s' := by
  unfold countVoteAcc at h
  dsimp only at h
  split at h
  · cases h
    exact ⟨rfl, rfl, rfl, .refl _, rfl⟩
  · split at h
    · cases h
      exact ⟨rfl, rfl, rfl, .refl _, rfl⟩
    · split at h
      · cases h
      · obtain ⟨⟨r, ghost⟩, hc, h⟩ := bind_ok.mp h
        cases h
        refine ⟨rfl, rfl, rfl, ?_, rfl⟩
        cases ht : s.ghost.countVote _ vtr.voteAcc vtr.stake _ with
        | error fault =>
          rw [ht] at hc
          cases hc
        | ok pair =>
          rw [ht] at hc
          cases hc
          exact samePlaces_frame.countVote ht

lemma voteAccs_calm {vtrs : List Vtr} (h : vtrs.foldlM (countVoteAcc slot blockId) s = .ok s') : s.Calm s' :=
  foldlM_preserves (I := s.Calm) (fun _ _ _ _ hc hs => hc.trans (countVoteAcc_calm hs)) (.refl s) h

end Firebam.Choreo
