import Firebam.Tower.Honest
import Firebam.Tower.Stack

/-! The structures of the tower tile between two messages: the roots agree, every block of the
fork choice tree has its slot in the tower, and so has every vote of the tower. -/
namespace Firebam.Choreo
open Lib List Marks Ghost
open Firebam.Ghost (Hash Pubkey SamePlaces)

variable {tree : List SlotCompleted} {s s' : Marks} {votes : List Vote} {root slot bankSeq : Nat}
  {blks blks' : List Blk} {m : SlotCompleted} {ghost : Tree} {blockId : Hash}

structure Held (votes : List Vote) (root : Nat) (blks : List Blk) : Prop where
  sorted : votes.Pairwise fun newer older => older.slot < newer.slot
  above : ∀ vote ∈ votes, root < vote.slot
  present : ∀ vote ∈ votes, vote.slot ∈ slots blks
  voted : ∀ vote ∈ votes, ∀ b ∈ blks, b.slot = vote.slot → b.voted = true

structure Live (tree : List SlotCompleted) (s : Marks) : Prop where
  named : Named tree
  honest : s.Honest tree
  wf : s.ghost.Wf
  rising : s.ghost.Rising
  root : s.tower.root = some s.ghost.rootSlot
  votesRoot : s.votes.root = some s.ghost.rootSlot
  present : ∀ g ∈ s.ghost.blks, g.slot ∈ slots s.tower.blks
  held : Held s.tower.votes s.ghost.rootSlot s.tower.blks

lemma Held.links (he : Held votes root blks) (links : blks'.map Blk.link = blks.map Blk.link) :
    Held votes root blks' := by
  refine ⟨he.sorted, he.above, fun v m => slots_of_link links ▸ he.present v m, ?_⟩
  intro vote m b hm hh
  obtain ⟨old, hi, hl⟩ := blk_of_link links hm
  simp only [Blk.link, Prod.mk.injEq] at hl
  rw [← hl.2.2]
  exact he.voted vote m old hi (hl.1.trans hh)

lemma present_same {ghost' : Tree} (hp : ∀ g ∈ ghost.blks, g.slot ∈ slots blks)
    (hs : SamePlaces ghost ghost') : ∀ g ∈ ghost'.blks, g.slot ∈ slots blks := by
  intro g hm
  obtain ⟨old, hi, hl⟩ := hs.blk hm
  simp only [Blk.place, Prod.mk.injEq] at hl
  rw [← hl.2.1]
  exact hp old hi

lemma Live.calm (hl : Live tree s) (calm : s.Calm s') (hh : s'.Honest tree) : Live tree s' := by
  have hs := calm.ghost.rootSlot
  refine ⟨hl.named, hh, calm.ghost.wf hl.wf, calm.ghost.along hl.rising, ?_, ?_, ?_, ?_⟩
  · rw [calm.root, hs]
    exact hl.root
  · rw [calm.votesRoot, hs]
    exact hl.votesRoot
  · rw [slots_of_link calm.blks]
    exact present_same hl.present calm.ghost
  · rw [calm.votes, hs]
    exact hl.held.links calm.blks

@[mk_iff]
structure Fits (tree : List SlotCompleted) (tower : Tower) (votes : Votes) (m : SlotCompleted) : Prop where
  parent : ∀ p ∈ tree, p.blockId = m.parentBlockId → p.slot = m.parentSlot ∧ p.slot < m.slot
  same : ∀ x ∈ tree, x.blockId = m.blockId → x.slot = m.slot
  confirmed : ∀ b ∈ tower.blks, b.confirmed = true → b.confirmedBlockId = m.blockId → b.slot = m.slot
  forward : ∀ v ∈ votes.blks, v.flags.testBit 5 = true → v.blockId = m.blockId → v.slot = m.slot

lemma Fits.named (hf : Fits tree s.tower s.votes m) (named : Named tree) : Named (m :: tree) := by
  intro x hi y hn hs
  rcases mem_cons.mp hi with hx | ho <;> rcases mem_cons.mp hn with hy | hd
  · rw [hx, hy]
  · rw [hx] at hs ⊢
    exact (hf.same y hd hs.symm).symm
  · rw [hy] at hs ⊢
    exact hf.same x ho hs
  · exact named x ho y hd hs

lemma Delivered.cons {id : Hash} (hd : Delivered tree slot id) : Delivered (m :: tree) slot id := by
  obtain ⟨x, hi, hs⟩ := hd
  exact ⟨x, .tail _ hi, hs⟩

lemma Marks.Honest.grow (hh : s.Honest tree) (hi : Fits tree s.tower s.votes m)
    (hl : ∀ g ∈ ghost.blks, g ∈ s.ghost.blks ∨ g.id = m.blockId ∧ g.slot = m.slot) :
    Honest (m :: tree) ⟨s.tower, ghost, s.votes⟩ := by
  refine ⟨?_, ?_, ?_⟩
  · intro g hm
    rcases hl g hm with ho | ⟨id, hs⟩
    · exact (hh.known g ho).cons
    · exact ⟨m, .head _, id.symm, hs.symm⟩
  · intro b hm
    have ho := hh.blks b hm
    refine ⟨?_, fun hf => (ho.voted hf).cons, ho.replayed.cons⟩
    intro hf g ht eq
    rcases hl g ht with hb | ⟨id, hs⟩
    · exact ho.confirmed hf g hb eq
    · rw [hs]
      exact (hi.confirmed b hm hf (eq.symm.trans id)).symm
  · intro v hm hf g ht eq
    rcases hl g ht with hb | ⟨id, hs⟩
    · exact hh.forward v hm hf g hb eq
    · rw [hs]
      exact (hi.forward v hm hf (eq.symm.trans id)).symm

lemma queryForward_mem {votes : Votes} {fwd : VotesBlk} (hf : votes.queryForward slot = some fwd) :
    fwd ∈ votes.blks ∧ fwd.slot = slot := by
  have hp : ∀ (l : List VotesBlk) (best : Option VotesBlk), l.foldl (fun best b =>
      if (best.map fun b => b.flags >>> 4).getD 0 < b.flags >>> 4 then some b else best) best = some fwd →
      best = some fwd ∨ fwd ∈ l := by
    intro l
    induction l with
    | nil => exact fun best eq => .inl eq
    | cons b rest ih =>
      intro best eq
      rw [foldl_cons] at eq
      rcases ih _ eq with hh | ht
      · split at hh
        · cases hh
          exact .inr (.head _)
        · exact .inl hh
      · exact .inr (.tail _ ht)
  rcases hp _ none hf with none | hm
  · cases none
  · obtain ⟨hi, hh⟩ := mem_filter.mp hm
    exact ⟨hi, by simpa using hh⟩

lemma resolve_honest (ho : s.Honest tree) : (s.resolve m).Honest tree := by
  have hp : Honest tree (if m.eqvocProof then { s with ghost := s.ghost.eqvoc m.blockId } else s) := by
    split
    · exact ho.marked (eqvoc_samePlaces _ _) ho.blks ho.forward
    · exact ho
  unfold resolve
  dsimp only
  split
  · exact hp
  · rename_i fwd hf
    split
    · rename_i hl
      obtain ⟨hm, hs⟩ := queryForward_mem hf
      have ne := ho.forward fwd hm hl
      have hb : ∀ b ∈ setBlk s.tower.blks m.slot fun b =>
          { b with confirmed := true, confirmedBlockId := fwd.blockId }, b.Honest tree s.ghost :=
        setBlk_forall ho.blks fun b _ hh hd =>
          ⟨fun _ => (hh.trans hs.symm) ▸ ne, hd.voted, hd.replayed⟩
      refine ho.marked ?_ hb ho.forward
      split
      · exact confirm_samePlaces _ _
      · exact eqvoc_samePlaces _ _
    · exact hp

structure Marks.Absorbed (s : Marks) (m : SlotCompleted) (s' : Marks) : Prop where
  votes : s'.tower.votes = s.tower.votes
  root : s'.tower.root = s.tower.root
  ghost : SamePlaces s.ghost s'.ghost
  votesRoot : s'.votes.root = s.votes.root
  slots : ∀ slot, slot ∈ slots s'.tower.blks ↔ slot = m.slot ∨ slot ∈ slots s.tower.blks
  blks : ∀ b ∈ s'.tower.blks, (b.slot, b.parentSlot) = (m.slot, m.parentSlot) ∨
    ∃ old ∈ s.tower.blks, (old.slot, old.parentSlot) = (b.slot, b.parentSlot)
  voted : ∀ b ∈ s'.tower.blks, b.slot ∈ Choreo.slots s.tower.blks →
    ∃ old ∈ s.tower.blks, old.slot = b.slot ∧ old.voted = b.voted

lemma insertBlk_absorbed (h : s.insertBlk m = .ok s') : s.Absorbed m s' := by
  unfold insertBlk at h
  split at h
  · rename_i blk hf
    cases h
    have hp : SamePlaces s.ghost (s.replayAgain m blk).ghost :=
      (confirm_samePlaces _ _).trans (eqvoc_samePlaces _ _)
    have ht : m.slot ∈ slots s.tower.blks := query_isSome.mp (by rw [hf]; rfl)
    refine ⟨rfl, rfl, hp, rfl, ?_, ?_, ?_⟩
    · intro slot
      have hl : slots (s.replayAgain m blk).tower.blks = slots s.tower.blks := slots_setBlk fun _ => rfl
      rw [hl]
      exact ⟨.inr, fun he => he.elim (fun eq => eq ▸ ht) id⟩
    · refine setBlk_forall ?_ ?_
      · exact fun b hm => .inr ⟨b, hm, rfl⟩
      · intro b _ hh _
        exact .inl (by rw [hh])
    · intro b hm _
      obtain ⟨old, hi, rfl⟩ := mem_map.mp hm
      refine ⟨old, hi, ?_, ?_⟩ <;> split <;> rfl
  · rename_i hn
    obtain ⟨-, h⟩ := check_ok.mp h
    obtain ⟨prev, -, h⟩ := bind_ok.mp h
    cases h
    have hr := query_none.mp hn
    generalize hh : Blk.mk m.slot m.parentSlot m.epoch m.bankHash m.blockId false 0 false 0 m.isLeader false prev = blk
    have slot : blk.slot = m.slot := hh ▸ rfl
    have hc := resolve_calm { s with tower := { s.tower with blks := s.tower.blks ++ [blk] } } m
    refine ⟨hc.votes, hc.root, hc.ghost, hc.votesRoot, ?_, ?_, ?_⟩
    · intro x
      rw [slots_of_link hc.blks]
      simp only [slots, map_append, map_cons, map_nil, mem_append, mem_singleton, slot]
      exact or_comm
    · intro b hm
      obtain ⟨old, hi, ha⟩ := blk_of_link hc.blks hm
      simp only [Blk.link, Prod.mk.injEq] at ha
      rw [← ha.1, ← ha.2.1]
      rcases mem_concat.mp hi with hi | rfl
      · exact .inr ⟨old, hi, rfl⟩
      · subst hh
        exact .inl rfl
    · intro b hm hk
      obtain ⟨old, hi, ha⟩ := blk_of_link hc.blks hm
      simp only [Blk.link, Prod.mk.injEq] at ha
      rcases mem_concat.mp hi with hi | rfl
      · exact ⟨old, hi, ha.1, ha.2.2⟩
      · exact absurd (slot ▸ ha.1 ▸ hk) hr

lemma insertBlk_honest (ho : s.Honest tree) (hi : m ∈ tree) (h : s.insertBlk m = .ok s') : s'.Honest tree := by
  have hd : Delivered tree m.slot m.blockId := ⟨m, hi, rfl, rfl⟩
  unfold insertBlk at h
  split at h
  · cases h
    refine ho.marked ((confirm_samePlaces _ _).trans (eqvoc_samePlaces _ _)) ?_ ho.forward
    refine setBlk_forall ho.blks ?_
    intro b _ hh hl
    exact ⟨hl.confirmed, hl.voted, hh ▸ hd⟩
  · obtain ⟨-, h⟩ := check_ok.mp h
    obtain ⟨prev, -, h⟩ := bind_ok.mp h
    cases h
    refine resolve_honest (ho.marked (.refl _) ?_ ho.forward)
    intro b hm
    rcases mem_concat.mp hm with hm | rfl
    · exact ho.blks b hm
    · exact ⟨fun hf => Bool.noConfusion hf, fun hf => Bool.noConfusion hf, hd⟩

section
variable (hl : Live tree s) (fits : Fits tree s.tower s.votes m) (hn : m.parentBlockId ∈ nodes s.ghost.shape)
include hl fits hn

lemma Live.parent :
    ∃ p ∈ tree, p.blockId = m.parentBlockId ∧ p.slot = m.parentSlot ∧ p.slot < m.slot ∧
      s.ghost.slotAt m.parentBlockId = p.slot := by
  rw [s.ghost.nodes_shape] at hn
  obtain ⟨g, hm, id⟩ := mem_map.mp hn
  obtain ⟨p, hd, hi, hp⟩ := hl.honest.known g hm
  have hk := hi.trans id
  obtain ⟨hs, ha⟩ := fits.parent p hd hk
  refine ⟨p, hd, hk, hs, ha, ?_⟩
  rw [← id, hl.wf.slotAt_blk hm, hp]

lemma Live.insert (hi : s.ghost.insert bankSeq m.slot m.blockId m.parentBlockId = .ok ghost)
    (h : insertBlk ⟨s.tower, ghost, s.votes⟩ m = .ok s') : Live (m :: tree) s' := by
  obtain ⟨p, -, -, -, ha, he⟩ := hl.parent fits hn
  have hf := (insert_ok hi).1
  have hd : m.parentBlockId ≠ m.blockId := fun hs => hf (hs ▸ hn)
  have wf := (insert_wf hl.wf hi hd).1
  have hr := insert_along hl.wf hl.rising hi hn (by rw [he]; exact ha)
  have hk : ∀ g ∈ ghost.blks, g ∈ s.ghost.blks ∨ g.id = m.blockId ∧ g.slot = m.slot := by
    obtain ⟨-, -, rfl⟩ := insert_ok hi
    intro g hx
    rcases mem_concat.mp hx with old | rfl
    · exact .inl old
    · exact .inr ⟨rfl, rfl⟩
  have ho : ghost.rootSlot = s.ghost.rootSlot := by
    have hj : ghost.root = s.ghost.root := by
      obtain ⟨-, -, rfl⟩ := insert_ok hi
      rfl
    have ne : s.ghost.root ≠ m.blockId := fun hs => hf (hs ▸ hl.wf.root_spec.1)
    have hc := insert_slotAt (x := s.ghost.root) hi
    rw [if_neg ne] at hc
    unfold Tree.rootSlot
    rw [hj]
    exact hc
  have hb := insertBlk_absorbed h
  have hm := insertBlk_honest (hl.honest.grow fits hk) (.head _) h
  have hc := hb.ghost.rootSlot.trans ho
  refine ⟨fits.named hl.named, hm, hb.ghost.wf wf, hb.ghost.along hr, ?_, ?_, ?_, ?_⟩
  · rw [hb.root, hc]
    exact hl.root
  · rw [hb.votesRoot, hc]
    exact hl.votesRoot
  · refine present_same ?_ hb.ghost
    intro g hx
    rw [hb.slots]
    rcases hk g hx with old | ⟨-, hw⟩
    · exact .inr (hl.present g old)
    · exact .inl hw
  · rw [hb.votes, hc]
    refine ⟨hl.held.sorted, hl.held.above, fun v hx => (hb.slots _).mpr (.inr (hl.held.present v hx)), ?_⟩
    intro vote hx b ht hh
    obtain ⟨old, hn, he, hg⟩ := hb.voted b ht (hh ▸ hl.held.present vote hx)
    rw [← hg]
    exact hl.held.voted vote hx old hn (he.trans hh)

end

lemma live_boot {blkMax vtrMax : Nat} {tower : Tower} {votes : Votes}
    (he : tower.votes = [] ∧ tower.blks = [] ∧ votes.root = none ∧ votes.blks = [])
    (hi : Tree.init blkMax vtrMax bankSeq m.slot m.blockId = .ok ghost)
    (h : insertBlk ⟨tower, ghost, votes⟩ m = .ok s') : Live [m] (s'.bootRoot m.slot) := by
  obtain ⟨hs, hc, hn, ho⟩ := he
  have hb : ∀ g ∈ ghost.blks, g.id = m.blockId ∧ g.slot = m.slot := by
    rw [init_ok hi]
    intro g hm
    cases mem_singleton.mp hm
    exact ⟨rfl, rfl⟩
  have hr : ghost.rootSlot = m.slot := by
    rw [init_ok hi]
    simp [Tree.rootSlot, Tree.query]
  have hh : Honest [m] ⟨tower, ghost, votes⟩ := by
    refine ⟨fun g hm => ⟨m, mem_singleton_self m, (hb g hm).1.symm, (hb g hm).2.symm⟩, ?_, ?_⟩
    · rw [hc]
      exact forall_mem_nil _
    · rw [ho]
      exact forall_mem_nil _
  have ha := insertBlk_absorbed h
  have hh := insertBlk_honest hh (mem_singleton_self m) h
  have hl : s'.ghost.rootSlot = m.slot := ha.ghost.rootSlot.trans hr
  have hn : s'.votes.root = none := ha.votesRoot.trans hn
  refine ⟨?_, ⟨hh.known, hh.blks, ?_⟩, ha.ghost.wf (init_wf hi),
    ha.ghost.along (init_along hi), ?_, ?_, ?_, ?_⟩
  · intro x hx y hy _
    rw [mem_singleton.mp hx, mem_singleton.mp hy]
  · simp only [bootRoot, Votes.publish, hn]
    exact hh.forward
  · simp only [bootRoot, hl]
  · simp only [bootRoot, Votes.publish, hn, hl]
  · refine present_same ?_ ha.ghost
    intro g hm
    exact (ha.slots _).mpr (.inl (hb g hm).2)
  · have none : s'.tower.votes = [] := ha.votes.trans hs
    simp only [bootRoot, none]
    exact ⟨.nil, forall_mem_nil _, forall_mem_nil _, forall_mem_nil _⟩

lemma countVoteAcc_honest {vtr : Vtr} (hh : s.Honest tree)
    (h : s.countVoteAcc slot blockId vtr = .ok s') : s'.Honest tree := by
  have hc := countVoteAcc_calm h
  have hr : s'.tower.blks = s.tower.blks ∧ s'.votes = s.votes := by
    unfold countVoteAcc at h
    dsimp only at h
    split at h
    · cases h
      exact ⟨rfl, rfl⟩
    · split at h
      · cases h
        exact ⟨rfl, rfl⟩
      · split at h
        · cases h
        · obtain ⟨pair, -, h⟩ := bind_ok.mp h
          cases h
          exact ⟨rfl, rfl⟩
  refine hh.marked hc.ghost ?_ ?_
  · rw [hr.1]
    exact hh.blks
  · rw [hr.2]
    exact hh.forward

lemma Live.voteAccs {vtrs : List Vtr} (hl : Live tree s)
    (h : vtrs.foldlM (countVoteAcc slot blockId) s = .ok s') : Live tree s' := by
  refine foldlM_preserves (I := Live tree) ?_ hl h
  intro a vtr _ b hk hs
  exact hk.calm (countVoteAcc_calm hs) (countVoteAcc_honest hk.honest hs)

end Firebam.Choreo
