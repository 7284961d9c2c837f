import Firebam.Tower.System

/-! The ancestor and purge tests of the tower look up the slots of the fork choice tree and of the
votes without asking whether they are there. -/
namespace Firebam.Choreo
open Lib List Marks Outcome Run Option
open Firebam.Ghost (Hash Pubkey SamePlaces)

variable {s : Marks} {m : SlotCompleted} {tree : List SlotCompleted} {blk : Ghost.Blk} {tile : Tile}
  {ghost : Ghost.Tree} {r : Run} {msg : Msg} {totalStake switchSlot voteSlot : Nat}

def Fault.missing : Fault → Bool
  | .nullBlk | .slotNotFound => true
  | _ => false

abbrev Whole {α : Type} (x : Except Fault α) : Prop := Outcome (fun _ => True) (fun fault => fault.missing = false) x

lemma liftGhost_whole {α : Type} (x : Except Ghost.Fault α) : Whole (liftGhost x) := by
  cases x with
  | ok a => trivial
  | error fault => rfl

lemma confirmLevels_whole (slot : Nat) (blockId : Hash) (totalStake : Nat) (levels : List (Nat × Ratio)) (s : Marks) :
    Whole (confirmLevels slot blockId totalStake levels s) := by
  induction levels generalizing s with
  | nil => trivial
  | cons level rest ih =>
    have hf : Whole (s.confirmLevel slot blockId totalStake level) := by
      unfold confirmLevel
      split
      · trivial
      split
      · trivial
      split
      · trivial
      split
      · split
        · trivial
        · refine map ?_
          unfold forward
          dsimp only
          split
          · trivial
          · split
            · exact check (fun _ => rfl) fun _ => trivial
            · trivial
      · trivial
    refine hf.chain fun next _ => ?_
    dsimp only
    split
    · exact ih next.2
    · trivial

lemma countSlot_whole (s : Marks) (voteAcc : Pubkey) (stake total slot : Nat) (blockId : Hash) :
    Whole (s.countSlot voteAcc stake total slot blockId) := by
  unfold countSlot
  split
  · trivial
  · exact confirmLevels_whole _ _ _ _ _

lemma countVotes_whole (s : Marks) (txn : VoteTxn) (last : Vote) (older : List Vote) (stake total : Nat) :
    Whole (s.countVotes txn last older stake total) := by
  refine (countSlot_whole _ _ _ _ _ _).chain fun mid _ => ?_
  split
  · trivial
  · split
    · refine foldlM trivial fun s vote _ _ => ?_
      unfold countIntermediate
      split
      · trivial
      · split
        · trivial
        · exact countSlot_whole _ _ _ _ _ _
    · trivial

lemma insertBlk_whole (s : Marks) (m : SlotCompleted) : Whole (s.insertBlk m) := by
  unfold insertBlk
  split
  · trivial
  · refine check (fun _ => rfl) fun _ => ?_
    have hp : Whole (s.prevLeader m) := by
      unfold prevLeader
      split
      · trivial
      split
      · trivial
      split
      · rfl
      · trivial
    exact hp.chain fun _ _ => trivial

lemma reconcile_whole (tower : Tower) (onchain : Onchain) : Whole (tower.reconcile onchain) := by
  unfold Tower.reconcile
  split
  · split
    · rfl
    · refine chain (foldlM trivial fun blks vote _ _ => ?_) fun blks _ => ?_
      · exact check (fun _ => rfl) fun _ => trivial
      · exact foldlM trivial fun tower vote _ _ => check (fun _ => rfl) fun _ => trivial
  · trivial

lemma queryTowers_whole (s : Marks) (skip : Bool) (m : SlotCompleted) : Whole (s.queryTowers skip m) := by
  refine chain (foldlM trivial fun s vtr _ _ => ?_) fun mid _ => ?_
  · unfold countVoteAcc
    dsimp only
    split
    · trivial
    split
    · trivial
    split
    · rfl
    · exact (liftGhost_whole _).chain fun _ _ => trivial
  · unfold reconcile
    split
    · trivial
    · split
      · trivial
      · exact (reconcile_whole _ _).chain fun _ _ => trivial

lemma castVote_whole {tower : Tower} (hp : blk.slot ∈ slots tower.blks) : Whole (tower.castVote blk) := by
  obtain ⟨fork, hf⟩ := isSome_iff_exists.mp (query_isSome.mpr hp)
  have hu : Whole (pushVote tower.votes blk.slot) := by
    refine check (fun _ => rfl) fun _ => ?_
    dsimp only
    split <;> trivial
  refine hu.chain fun next _ => ?_
  rw [hf]
  trivial

section
variable (hl : Live tree s)
include hl

lemma voteFor_whole (hm : blk ∈ s.ghost.blks) (flags : List Flag) (reset : Ghost.Blk) :
    Whole (s.tower.voteFor flags reset blk) := by
  refine (castVote_whole (hl.present blk hm)).chain fun next hc => ?_
  obtain ⟨tower, bankHash, root⟩ := next
  cases root with
  | none => trivial
  | some slot =>
    -- the slot that is rooted is one of a vote, and a vote removes no block
    obtain ⟨votes, hp, rfl⟩ := castVote_ok hc
    obtain ⟨-, below, ha, -⟩ := pushVote_ok hl.held.sorted hp
    obtain ⟨-, bottom, rfl, ha⟩ := ha
    have hk : bottom ∈ s.tower.votes := (simulateVote_sublist _ _).subset (by rw [ha]; simp)
    have he : slots (setBlk s.tower.blks blk.slot fun b => { b with voted := true, votedBlockId := blk.id }) =
        slots s.tower.blks := slots_setBlk fun _ => rfl
    have hr := hl.held.present bottom hk
    rw [← he] at hr
    obtain ⟨fork, hf⟩ := isSome_iff_exists.mp (query_isSome.mpr hr)
    refine chain ?_ fun _ _ => trivial
    unfold Tower.rootBlockId
    rw [hf]
    trivial

lemma liveChildren_whole {children : List Ghost.Blk} (hi : ∀ g ∈ children, g ∈ s.ghost.blks) :
    Outcome (fun l => ∀ g ∈ l, g ∈ s.ghost.blks) (fun fault => fault.missing = false) (s.tower.liveChildren children) := by
  induction children with
  | nil => exact forall_mem_nil _
  | cons child rest ih =>
    have hh := hi child (.head _)
    obtain ⟨fork, hf⟩ := isSome_iff_exists.mp (query_isSome.mpr (hl.present child hh))
    have purged : Whole (s.tower.isPurged child) := by
      unfold Tower.isPurged
      rw [hf]
      trivial
    refine purged.chain fun purged _ => ?_
    refine (ih fun g hm => hi g (.tail _ hm)).bind fun l hk => ?_
    intro g hm
    split at hm
    · exact hk g hm
    · rcases mem_cons.mp hm with rfl | hm
      · exact hh
      · exact hk g hm

lemma switchLeaf_whole (hm : blk ∈ s.ghost.blks) (hv : voteSlot ∈ slots s.tower.blks) (count : Switch) :
    Whole (s.tower.switchLeaf totalStake switchSlot voteSlot blk.slot count) := by
  obtain ⟨fork1, found1⟩ := isSome_iff_exists.mp (query_isSome.mpr (hl.present blk hm))
  obtain ⟨fork2, found2⟩ := isSome_iff_exists.mp (query_isSome.mpr hv)
  have hc : Whole (lowestCommonAncestor s.tower.blks blk.slot voteSlot) := by
    unfold lowestCommonAncestor
    rw [found1, found2]
    trivial
  refine hc.chain fun lca _ => ?_
  split
  · trivial
  split
  · trivial
  split <;> trivial

lemma switchFrom_whole {n : Nat} {queue : List Ghost.Blk}
    (hv : voteSlot ∈ slots s.tower.blks) (hi : ∀ g ∈ queue, g ∈ s.ghost.blks) (count : Switch) :
    Whole (s.tower.switchFrom s.ghost totalStake switchSlot voteSlot n queue count) := by
  induction n generalizing queue count with
  | zero =>
    cases queue with
    | nil => trivial
    | cons blk queue => trivial
  | succ n ih =>
    cases queue with
    | nil => trivial
    | cons blk queue =>
      have hr : ∀ g ∈ queue, g ∈ s.ghost.blks := fun g hm => hi g (.tail _ hm)
      have hs : ∀ g ∈ s.ghost.children blk.id, g ∈ s.ghost.blks := fun g hm => (mem_filter.mp hm).1
      have hc := liveChildren_whole hl hs
      refine hc.bind fun l hk => ?_
      split
      · refine (switchLeaf_whole hl (hi blk (.head _)) hv count).chain fun next _ => ?_
        split
        · trivial
        · exact ih hr next
      · refine ih ?_ count
        intro g hm
        rcases mem_append.mp hm with hm | hm
        · exact hr g hm
        · exact hk g hm

lemma choose_whole {prevVoteSlot : Nat} {best : Ghost.Blk}
    (hv : prevVoteSlot ∈ slots s.tower.blks) : Whole (s.tower.choose s.ghost totalStake best prevVoteSlot) := by
  obtain ⟨fork, hf⟩ := isSome_iff_exists.mp (query_isSome.mpr hv)
  unfold Tower.choose
  rw [hf]
  dsimp only
  split
  · trivial
  split
  · trivial
  split
  · trivial
  · have hs : Whole (s.tower.switchCheck s.ghost totalStake best.slot prevVoteSlot) := by
      unfold Tower.switchCheck
      split
      · rfl
      · rename_i root ht
        refine switchFrom_whole hl hv ?_ _
        intro g hm
        cases mem_singleton.mp hm
        exact mem_of_find?_eq_some ht
    refine hs.chain fun pass _ => ?_
    split
    · trivial
    · split
      · rfl
      · split <;> trivial

lemma voteAndReset_whole (total : Ghost.Blk → Nat) : Whole (s.tower.voteAndReset s.ghost total) := by
  unfold Tower.voteAndReset
  split
  · rfl
  · rename_i root hf
    have hi : s.ghost.best root ∈ s.ghost.blks := Ghost.bestFrom_mem (mem_of_find?_eq_some hf)
    dsimp only
    split
    · split
      · exact (castVote_whole (hl.present _ hi)).chain fun _ _ => trivial
      · trivial
    · rename_i last older hv
      have hp := hl.held.present last (by rw [hv]; exact mem_cons_self)
      refine (choose_whole hl hp).chain fun choice hc => ?_
      unfold Tower.settle
      split
      · trivial
      · rename_i blk hd
        have hg : Whole (s.tower.gate (total blk) blk.slot) := by
          unfold Tower.gate
          split
          · trivial
          split
          · trivial
          · refine chain ?_ fun _ _ => trivial
            unfold Tower.propagatedCheck
            split
            · rfl
            split
            · trivial
            split <;> trivial
        refine hg.chain fun fail _ => ?_
        split
        · trivial
        · have hm : blk ∈ s.ghost.blks := choose_best hc blk hd ▸ hi
          exact voteFor_whole hl hm _ _

end

lemma publishRoot_whole (tile : Tile) (m : SlotCompleted) (ghost : Ghost.Tree) (slot : Nat) (id : Hash) :
    Whole (tile.publishRoot m ghost slot id) := by
  refine check (fun _ => rfl) fun _ => ?_
  have hb : Whole (tile.tower.rootBlks slot) := by
    unfold Tower.rootBlks
    split
    · rfl
    · split
      · trivial
      · rfl
  refine hb.chain fun roots _ => ?_
  have he : Whole (tile.advanceEpoch m roots.2.1 roots.2.2) := by
    unfold Tile.advanceEpoch
    split
    · exact check (fun _ => rfl) fun _ => trivial
    · exact check (fun _ => rfl) fun _ => trivial
  refine he.chain fun mid _ => ?_
  exact check (fun _ => rfl) fun _ => trivial

lemma conclude_whole (hl : Live tree ⟨tile.tower, ghost, tile.votes⟩) : Whole (tile.conclude m ghost) := by
  refine (voteAndReset_whole hl tile.total).chain fun next _ => ?_
  dsimp only
  split
  · trivial
  · exact (publishRoot_whole _ _ _ _ _).chain fun _ _ => trivial

lemma absorb_whole (tile : Tile) (m : SlotCompleted) (ghost : Ghost.Tree) : Whole (tile.absorb m ghost) := by
  refine (insertBlk_whole _ _).chain fun s _ => ?_
  exact (queryTowers_whole _ _ _).chain fun _ _ => trivial

lemma insertGhost_whole (tile : Tile) (m : SlotCompleted) : Whole (tile.insertGhost m) := by
  unfold Tile.insertGhost
  split
  · exact map (liftGhost_whole _)
  · split
    · exact map (liftGhost_whole _)
    · trivial

lemma step_whole (hg : Agreed r.tree r.tile) (hp : r.Promise msg) (hk : r.RootKept msg) : Whole (r.step msg) := by
  refine chain ?_ fun _ _ => trivial
  cases msg with
  | slotCompleted m =>
    obtain ⟨hf, hs⟩ := hp
    have hf : Fits r.tree (r.tile.cleared m.slot).tower (r.tile.cleared m.slot).votes m :=
      ⟨hf.parent, hf.same, hf.confirmed, hf.forward⟩
    change Whole (r.tile.slotCompleted m)
    unfold Tile.slotCompleted
    split
    · trivial
    · refine check (fun _ => rfl) fun _ => ?_
      refine (insertGhost_whole (r.tile.cleared m.slot) m).chain fun inserted hn => ?_
      split
      · trivial
      · rename_i ghost
        refine (absorb_whole (r.tile.cleared m.slot) m ghost).chain fun next ha => ?_
        have hl := (absorb_live (hg.cleared m.slot) hf hs hk hn ha).2
        exact (conclude_whole hl).chain fun _ _ => trivial
  | voteTxn txn =>
    refine map ?_
    unfold Tile.voteTxn
    split
    · split
      · trivial
      · exact (countVotes_whole _ _ _ _ _ _).chain fun _ _ => trivial
    · trivial
  | slotDuplicate slot => trivial

@[mk_iff]
structure Run.Consistent (r : Run) : Prop where
  roots : ∀ ghost ∈ r.tile.ghost, r.tile.tower.root = some ghost.rootSlot ∧ r.tile.votes.root = some ghost.rootSlot
  blks : ∀ ghost ∈ r.tile.ghost, ∀ g ∈ ghost.blks, (query r.tile.tower.blks g.slot).isSome = true
  votes : ∀ vote ∈ r.tile.tower.votes, (query r.tile.tower.blks vote.slot).isSome = true

instance : DecidablePred Consistent := fun r => decidable_of_iff' _ r.consistent_iff

lemma Agreed.consistent (ha : Agreed r.tree r.tile) : r.Consistent := by
  cases ha with
  | fresh _ fresh =>
    refine ⟨?_, ?_, ?_⟩
    · rw [fresh.ghost]
      exact nofun
    · rw [fresh.ghost]
      exact nofun
    · rw [fresh.votes]
      exact forall_mem_nil _
  | @live ghost ht live =>
    refine ⟨?_, ?_, fun vote hm => query_isSome.mpr (live.held.present vote hm)⟩
    · rw [ht]
      intro g hs
      cases hs
      exact ⟨live.root, live.votesRoot⟩
    · rw [ht]
      intro g hs blk hm
      cases hs
      exact query_isSome.mpr (live.present blk hm)

/-- In every run in which no vote account advances the root, the structures agree between any
two messages, and no missing block is looked up. -/
theorem structures_agree (slotMax blkMax vtrMax : Nat) (wfs : Bool) (msgs : List Msg)
    (promised : Allowed step Promise (new slotMax blkMax vtrMax wfs) msgs)
    (kept : Allowed step RootKept (new slotMax blkMax vtrMax wfs) msgs) :
    Outcome Consistent (fun fault => fault.missing = false) (run step (new slotMax blkMax vtrMax wfs) msgs) := by
  have each : ∀ r msg, Agreed r.tree r.tile → (r.Promise msg ∧ r.RootKept msg) →
      Outcome (fun r => Agreed r.tree r.tile) (fun fault => fault.missing = false) (step r msg) := by
    intro r msg agreed may
    have whole := step_whole agreed may.1 may.2
    cases stepped : r.step msg with
    | ok next => exact step_agreed agreed may.1 may.2 stepped
    | error fault =>
      rw [stepped] at whole
      exact whole
  have reached := run_allowed_outcome step _ (fun r => Agreed r.tree r.tile) _ each
    (new_agreed slotMax blkMax vtrMax wfs) (allowed_and promised kept)
  exact reached.mono fun r agreed => agreed.consistent

def ledSlots : List Msg :=
  [.slotCompleted (plain 1 1 0 0), .slotCompleted { plain 2 2 1 1 with isLeader := true },
    .slotCompleted (plain 3 3 2 2), .slotCompleted (plain 4 4 3 3), .slotCompleted (plain 5 5 4 4)]

def sharedAccount (root : Nat) : Msg :=
  .slotCompleted { plain 6 6 5 5 with onchain := some ⟨[⟨5, 1⟩, ⟨4, 2⟩], some root⟩ }

theorem shared_account_agrees :
    (∃ r, run step (new 16 32 8 false) (ledSlots ++ [sharedAccount 1]) = .ok r ∧
      r.tile.tower.votes = [⟨5, 1⟩, ⟨4, 2⟩]) ∧
    Outcome Consistent (fun fault => fault.missing = false)
      (run step (new 16 32 8 false) (ledSlots ++ [sharedAccount 1])) :=
  ⟨exists_of_endsIn (by decide +kernel),
    structures_agree 16 32 8 false (ledSlots ++ [sharedAccount 1]) (by decide +kernel) (by decide +kernel)⟩

def forkAt4 : List Msg :=
  [.slotCompleted (plain 7 7 4 4),
    .slotCompleted { plain 8 8 7 7 with vtrs := [⟨9, 100, [⟨7, 1⟩]⟩], totalStake := 100 }]

/-- With a root ahead of ours, the tower forgets slots that the tree still has, and the next
switch check follows the null pointer of one of them. -/
theorem reconcile_outruns_ghost :
    Allowed step Promise (new 16 32 8 false) (ledSlots ++ sharedAccount 3 :: forkAt4) ∧
    (∃ r, run step (new 16 32 8 false) (ledSlots ++ [sharedAccount 3]) = .ok r ∧ ¬ r.Consistent) ∧
    faultOf (run step (new 16 32 8 false) (ledSlots ++ sharedAccount 3 :: forkAt4)) = some .nullBlk :=
  ⟨by decide +kernel, exists_of_endsIn (by decide +kernel), by decide +kernel⟩

end Firebam.Choreo
