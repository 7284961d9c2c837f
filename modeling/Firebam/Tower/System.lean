import Firebam.Tower.Advance

/-! The tile over whole runs, with the blocks that were delivered to it and the votes it has
emitted. -/
namespace Firebam.Choreo
open Lib Ghost Tile
open Firebam.Ghost (Hash Pubkey SamePlaces)

variable {tree : List SlotCompleted} {tile tile' : Tile} {m : SlotCompleted} {ghost ghost' : Tree} {out : Out}
  {r r' : Run} {msg : Msg} {old : Blk} {slot : Nat}

structure Run where
  tile : Tile
  tree : List SlotCompleted
  votes : List (Nat × Hash)

def Run.new (slotMax blkMax vtrMax : Nat) (wfs : Bool) : Run := ⟨Tile.new slotMax blkMax vtrMax wfs, [], []⟩

def plain (slot id parentSlot parentId : Nat) : SlotCompleted :=
  ⟨slot, BitVec.ofNat 256 id, parentSlot, BitVec.ofNat 256 parentId, 0, 0, 0, false, 0, [], [], [], none, false⟩

section
variable (r : Run)

def Run.grow (msg : Msg) (out : Option Out) : List SlotCompleted :=
  match msg, out with
  | .slotCompleted m, some _ => m :: r.tree
  | _, _ => r.tree

def Run.emit (out : Option Out) : List (Nat × Hash) :=
  match out.bind Out.vote with
  | some (slot, id, _) => (slot, id) :: r.votes
  | none => r.votes

def Run.step (msg : Msg) : Except Fault Run := do
  let (tile, out) ← r.tile.step msg
  .ok ⟨tile, r.grow msg out, r.emit out⟩

/-- What replay, the votes and the vote program promise. -/
def Run.Promise : Msg → Prop
  | .slotCompleted m => Fits r.tree r.tile.tower r.tile.votes m ∧ ∀ onchain ∈ m.onchain, onchain.Sound
  | .voteTxn _ | .slotDuplicate _ => True

/-- A tower that is taken over from the vote account has no root above ours. -/
def Run.RootKept : Msg → Prop
  | .slotCompleted m => ∀ onchain ∈ m.onchain, r.tile.tower.behind onchain = true →
      ∀ root ∈ onchain.root, root ≤ r.tile.tower.root.getD m.slot
  | .voteTxn _ | .slotDuplicate _ => True

instance (tree : List SlotCompleted) (tower : Tower) (votes : Votes) (m : SlotCompleted) :
    Decidable (Fits tree tower votes m) :=
  decidable_of_iff' _ (fits_iff ..)

end

instance (onchain : Onchain) : Decidable onchain.Sound := decidable_of_iff' _ onchain.sound_iff

instance (r : Run) : ∀ msg, Decidable (r.Promise msg) := fun msg => by
  cases msg <;> unfold Run.Promise <;> infer_instance

instance (r : Run) : ∀ msg, Decidable (r.RootKept msg) := fun msg => by
  cases msg <;> unfold Run.RootKept <;> infer_instance

structure Tile.Fresh (tile : Tile) : Prop where
  ghost : tile.ghost = none
  root : tile.tower.root = none
  votes : tile.tower.votes = []
  blks : tile.tower.blks = []
  votesRoot : tile.votes.root = none
  marks : tile.votes.blks = []

inductive Agreed (tree : List SlotCompleted) (tile : Tile) : Prop
  | fresh (none : tree = []) (fresh : tile.Fresh)
  | live {ghost : Tree} (there : tile.ghost = some ghost) (live : Live tree ⟨tile.tower, ghost, tile.votes⟩)

lemma liftGhost_ok {α : Type} {x : Except Ghost.Fault α} {a : α} (h : liftGhost x = .ok a) : x = .ok a := by
  cases x with
  | ok b =>
    cases h
    rfl
  | error fault => cases h

lemma insertGhost_ok (h : tile.insertGhost m = .ok (some ghost)) :
    tile.ghost = none ∧ Tree.init tile.blkMax tile.vtrMax m.bankSeq m.slot m.blockId = .ok ghost ∨
      ∃ old, tile.ghost = some old ∧ m.parentBlockId ∈ nodes old.shape ∧
        old.insert m.bankSeq m.slot m.blockId m.parentBlockId = .ok ghost := by
  unfold insertGhost at h
  split at h
  · rename_i none
    obtain ⟨g, hn, hs⟩ := map_ok.mp h
    cases hs
    exact .inl ⟨none, liftGhost_ok hn⟩
  · rename_i old some
    split at h
    · rename_i hi
      obtain ⟨g, hn, hs⟩ := map_ok.mp h
      cases hs
      exact .inr ⟨old, some, Tree.query_isSome.mp hi, liftGhost_ok hn⟩
    · cases h

lemma absorb_ok (h : tile.absorb m ghost = .ok (tile', ghost')) : ∃ s mid : Marks,
    Marks.insertBlk ⟨tile.tower, ghost, tile.votes⟩ m = .ok s ∧
      Marks.queryTowers (if tile.ghost.isNone then s.bootRoot m.slot else s) (tile.ghost.isNone && tile.wfs) m = .ok mid ∧
      tile'.ghost = some ghost' ∧ ghost' = mid.ghost ∧ tile'.tower = mid.tower ∧
      (tile'.votes = mid.votes ∨ ∃ voteAccs, tile'.votes = mid.votes.updateVoters voteAccs) := by
  obtain ⟨s, hi, h⟩ := bind_ok.mp h
  obtain ⟨mid, ha, h⟩ := bind_ok.mp h
  have hp := Prod.mk.inj (Except.ok.inj h)
  refine ⟨s, mid, hi, ha, ?_⟩
  obtain ⟨hf, rfl⟩ := hp
  split at hf
  · subst hf
    exact ⟨rfl, rfl, rfl, .inr ⟨_, rfl⟩⟩
  · subst hf
    exact ⟨rfl, rfl, rfl, .inl rfl⟩

lemma Live.queryTowers {s s' : Marks} {skip : Bool} (hl : Live tree s)
    (hs : ∀ onchain ∈ m.onchain, s.tower.behind onchain = true →
      onchain.Sound ∧ ∀ r ∈ onchain.root, r ≤ s.ghost.rootSlot) (h : s.queryTowers skip m = .ok s') : Live tree s' := by
  obtain ⟨mid, hc, h⟩ := bind_ok.mp h
  have ha := voteAccs_calm hc
  have hf := hl.voteAccs hc
  unfold Marks.reconcile at h
  split at h
  · cases h
    exact hf
  · rename_i onchain hk
    split at h
    · cases h
      exact hf
    · obtain ⟨tower, hr, h⟩ := bind_ok.mp h
      cases h
      refine Live.reconcile hf ?_ hr
      intro he
      rw [ha.ghost.rootSlot]
      refine hs onchain hk ?_
      unfold Tower.behind at he ⊢
      rwa [ha.votes] at he

lemma absorb_live (hd : Agreed tree tile) (hf : Fits tree tile.tower tile.votes m)
    (hn : ∀ onchain ∈ m.onchain, onchain.Sound)
    (he : ∀ onchain ∈ m.onchain, tile.tower.behind onchain = true →
      ∀ root ∈ onchain.root, root ≤ tile.tower.root.getD m.slot)
    (hr : tile.insertGhost m = .ok (some ghost)) (h : tile.absorb m ghost = .ok (tile', ghost')) :
    tile'.ghost = some ghost' ∧ Live (m :: tree) ⟨tile'.tower, ghost', tile'.votes⟩ := by
  obtain ⟨s, mid, hj, ha, hy, rfl, hw, ho⟩ := absorb_ok h
  have live : Live (m :: tree) mid := by
    rcases insertGhost_ok hr with ⟨hq, hu⟩ | ⟨old, hc, hi, hg⟩
    · cases hd with
      | live ht _ =>
        rw [hq] at ht
        cases ht
      | fresh hm fresh =>
        subst hm
        rw [hq] at ha
        have hp := live_boot ⟨fresh.votes, fresh.blks, fresh.votesRoot, fresh.marks⟩ hu hj
        refine hp.queryTowers ?_ ha
        intro onchain hk hh
        have hv : (s.bootRoot m.slot).tower.votes = tile.tower.votes := (insertBlk_absorbed hj).votes
        refine ⟨hn onchain hk, ?_⟩
        have hl : (s.bootRoot m.slot).ghost.rootSlot = m.slot := Option.some.inj (hp.root.symm.trans rfl)
        have hb := he onchain hk (by unfold Tower.behind at hh ⊢; rwa [hv] at hh)
        rw [fresh.root] at hb
        rw [hl]
        exact hb
    · cases hd with
      | fresh _ fresh =>
        rw [fresh.ghost] at hc
        cases hc
      | live ht live =>
        rw [hc] at ht
        cases ht
        rw [hc] at ha
        have hx := live.insert hf hi hg hj
        refine hx.queryTowers ?_ ha
        intro onchain hk hh
        have hv : s.tower.votes = tile.tower.votes := (insertBlk_absorbed hj).votes
        refine ⟨hn onchain hk, ?_⟩
        have hb := he onchain hk (by unfold Tower.behind at hh ⊢; rwa [hv] at hh)
        have root : some s.ghost.rootSlot = tile.tower.root := hx.root.symm.trans (insertBlk_absorbed hj).root
        rw [← root] at hb
        exact hb
  refine ⟨hy, ?_⟩
  rw [hw]
  rcases ho with hs | ⟨voteAccs, hs⟩
  · rw [hs]
    exact live
  · rw [hs]
    exact live.voters voteAccs

structure Published (tile : Tile) (old : Tree) (slot : Nat) (id : Hash) (tile' : Tile) : Prop where
  tower : ∃ oldRoot, tile.tower.root = some oldRoot ∧
    tile'.tower = { tile.tower.prune oldRoot slot with root := some slot }
  ghost : tile'.ghost = some (old.publish id)
  inside : (old.query id).isSome = true
  votes : tile'.votes = tile.votes.publish slot ∨
    ∃ voteAccs, tile'.votes = (tile.votes.updateVoters voteAccs).publish slot

lemma advanceEpoch_ok {new : Blk} (h : tile.advanceEpoch m old new = .ok tile') :
    tile'.tower = tile.tower ∧ (tile'.votes = tile.votes ∨ ∃ voteAccs, tile'.votes = tile.votes.updateVoters voteAccs) := by
  unfold advanceEpoch at h
  split at h
  · obtain ⟨-, h⟩ := check_ok.mp h
    cases h
    exact ⟨rfl, .inr ⟨_, rfl⟩⟩
  · obtain ⟨-, h⟩ := check_ok.mp h
    cases h
    exact ⟨rfl, .inl rfl⟩

lemma rootBlks_ok {tower : Tower} {oldRoot : Nat} {new : Blk}
    (h : tower.rootBlks slot = .ok (oldRoot, old, new)) : tower.root = some oldRoot := by
  unfold Tower.rootBlks at h
  split at h
  · cases h
  · rename_i root hk
    split at h
    · cases h
      exact hk
    · cases h

lemma publishRoot_ok {id : Hash} (h : tile.publishRoot m ghost slot id = .ok tile') :
    Published tile ghost slot id tile' := by
  obtain ⟨-, h⟩ := check_ok.mp h
  obtain ⟨⟨oldRoot, old, new⟩, hb, h⟩ := bind_ok.mp h
  obtain ⟨mid, he, h⟩ := bind_ok.mp h
  obtain ⟨hi, h⟩ := check_ok.mp h
  obtain ⟨ht, hv⟩ := advanceEpoch_ok he
  cases h
  refine ⟨⟨oldRoot, rootBlks_ok hb, by rw [ht]⟩, rfl, hi, ?_⟩
  rcases hv with hs | ⟨voteAccs, hs⟩
  · exact .inl (by rw [hs])
  · exact .inr ⟨voteAccs, by rw [hs]⟩

inductive Concluded (tile : Tile) (ghost : Tree) (tile' : Tile) (out : Out) : Prop
  | quiet (vote : out.vote = none) (same : tile' = tile)
  | voted {blk : Ghost.Blk} {votes : List Vote} {tower : Tower} (inside : blk ∈ ghost.blks)
      (cast : Cast tile.tower blk votes none tower out) (same : tile' = { tile with tower := tower })
  | rooted {blk : Ghost.Blk} {votes : List Vote} {slot : Nat} {id : Hash} {tower : Tower} (inside : blk ∈ ghost.blks)
      (cast : Cast tile.tower blk votes (some slot) tower out) (named : tower.rootBlockId slot = .ok (slot, id))
      (published : Published { tile with tower := tower } ghost slot id tile')

lemma conclude_ok (h : tile.conclude m ghost = .ok (tile', out)) : Concluded tile ghost tile' out := by
  obtain ⟨⟨tower, o⟩, hd, h⟩ := bind_ok.mp h
  dsimp only at h
  rcases voteAndReset_ok hd with ⟨he, ho, rfl⟩ | ⟨blk, hi, votes, root, hc⟩
  · rw [ho] at h
    cases h
    exact .quiet he rfl
  · cases root with
    | none =>
      have ho : o.root = none := hc.root
      rw [ho] at h
      cases h
      exact .voted hi hc rfl
    | some slot =>
      obtain ⟨id, hr, hn⟩ := hc.root
      rw [hr] at h
      obtain ⟨last, hp, h⟩ := bind_ok.mp h
      cases h
      exact .rooted hi hc hn (publishRoot_ok hp)

lemma Concluded.live (hc : Concluded tile ghost tile' out) (ht : tile.ghost = some ghost)
    (live : Live tree ⟨tile.tower, ghost, tile.votes⟩) :
    ∃ ghost', tile'.ghost = some ghost' ∧ Live tree ⟨tile'.tower, ghost', tile'.votes⟩ := by
  cases hc with
  | quiet _ hs =>
    subst hs
    exact ⟨ghost, ht, live⟩
  | voted hi cast hs =>
    subst hs
    exact ⟨ghost, ht, (live.cast hi cast).1⟩
  | @rooted blk votes slot id tower hi cast hn hp =>
    obtain ⟨next, rooted⟩ := live.cast hi cast
    obtain ⟨ha, voted⟩ := rooted slot rfl
    obtain ⟨oldRoot, old, ho⟩ := hp.tower
    have hl : oldRoot = ghost.rootSlot := Option.some.inj (old.symm.trans next.root)
    refine ⟨ghost.publish id, hp.ghost, ?_⟩
    rw [ho, hl]
    rcases hp.votes with hs | ⟨voteAccs, hs⟩
    · rw [hs]
      exact next.publish ha voted hn hp.inside
    · rw [hs]
      exact (next.voters voteAccs).publish ha voted hn hp.inside

def Tile.cleared (tile : Tile) (slot : Nat) : Tile :=
  { tile with tower := { tile.tower with stks := tile.tower.stks.filter fun s => s.slot ≠ slot, vtrs := [] } }

inductive Completion (tile : Tile) (m : SlotCompleted) (tile' : Tile) : Option Out → Prop
  | again {ghost : Tree} (there : tile.ghost = some ghost)
      (same : tile' = { tile with ghost := some (ghost.setBlk m.blockId fun b => { b with bankSeq := m.bankSeq }) }) :
      Completion tile m tile' none
  | orphan (same : tile' = tile.cleared m.slot) : Completion tile m tile' none
  | done {ghost ghost' : Tree} {mid : Tile} {out : Out} (inserted : (tile.cleared m.slot).insertGhost m = .ok (some ghost))
      (absorbed : (tile.cleared m.slot).absorb m ghost = .ok (mid, ghost')) (concluded : Concluded mid ghost' tile' out) :
      Completion tile m tile' (some out)

lemma slotCompleted_ok {out : Option Out} (h : tile.slotCompleted m = .ok (tile', out)) :
    Completion tile m tile' out := by
  unfold slotCompleted at h
  split_ifs at h with hr
  · unfold Tile.replayed at hr
    split at hr
    · cases hr
    · rename_i ghost ht
      cases h
      exact .again ht (by rw [ht]; rfl)
  · obtain ⟨-, h⟩ := check_ok.mp h
    obtain ⟨inserted, hn, h⟩ := bind_ok.mp h
    split at h
    · cases h
      exact .orphan rfl
    · obtain ⟨⟨mid, ghost'⟩, ha, h⟩ := bind_ok.mp h
      obtain ⟨⟨last, o⟩, hc, h⟩ := bind_ok.mp h
      cases h
      exact .done hn ha (conclude_ok hc)

section
variable (ha : Agreed tree tile)
include ha

lemma Agreed.cleared (slot : Nat) : Agreed tree (tile.cleared slot) := by
  cases ha with
  | fresh empty fresh => exact .fresh empty ⟨fresh.ghost, fresh.root, fresh.votes, fresh.blks, fresh.votesRoot, fresh.marks⟩
  | @live ghost ht live =>
    have calm : Marks.Calm ⟨tile.tower, ghost, tile.votes⟩ ⟨(tile.cleared slot).tower, ghost, tile.votes⟩ :=
      ⟨rfl, rfl, rfl, .refl _, rfl⟩
    exact .live ht (live.calm calm ⟨live.honest.known, live.honest.blks, live.honest.forward⟩)

lemma Agreed.live_of (ht : tile.ghost = some ghost) : Live tree ⟨tile.tower, ghost, tile.votes⟩ := by
  cases ha with
  | fresh _ fresh =>
    rw [fresh.ghost] at ht
    cases ht
  | live hh live =>
    rw [ht] at hh
    cases hh
    exact live

lemma Agreed.remark (ht : tile.ghost = some ghost) (hp : SamePlaces ghost ghost') :
    Agreed tree { tile with ghost := some ghost' } := by
  have hl := ha.live_of ht
  have hc : Marks.Calm ⟨tile.tower, ghost, tile.votes⟩ ⟨tile.tower, ghost', tile.votes⟩ := ⟨rfl, rfl, rfl, hp, rfl⟩
  exact .live rfl (hl.calm hc (hl.honest.marked hp hl.honest.blks hl.honest.forward))

end

lemma step_agreed (hg : Agreed r.tree r.tile) (hp : r.Promise msg) (hk : r.RootKept msg)
    (done : r.step msg = .ok r') : Agreed r'.tree r'.tile := by
  obtain ⟨⟨tile, out⟩, hd, done⟩ := bind_ok.mp done
  cases done
  cases msg with
  | slotCompleted m =>
    obtain ⟨hf, hn⟩ := hp
    cases slotCompleted_ok hd with
    | again ht hs =>
      subst hs
      exact hg.remark ht (.setBlk fun _ => rfl)
    | orphan hs =>
      subst hs
      exact hg.cleared m.slot
    | done hi ha ho =>
      have hf : Fits r.tree (r.tile.cleared m.slot).tower (r.tile.cleared m.slot).votes m :=
        ⟨hf.parent, hf.same, hf.confirmed, hf.forward⟩
      obtain ⟨ht, hl⟩ := absorb_live (hg.cleared m.slot) hf hn hk hi ha
      obtain ⟨ghost, ht, hl⟩ := ho.live ht hl
      exact .live ht hl
  | voteTxn txn =>
    obtain ⟨last, hc, hs⟩ := map_ok.mp hd
    cases hs
    unfold voteTxn at hc
    split at hc
    · rename_i ghost newest older ht _
      split at hc
      · cases hc
        exact hg
      · obtain ⟨s, hm, hc⟩ := bind_ok.mp hc
        cases hc
        have hl := hg.live_of ht
        exact .live rfl (hl.calm (countVotes_calm hm) (countVotes_honest hl.named hl.honest hm))
    · cases hc
      exact hg
  | slotDuplicate slot =>
    cases hd
    unfold slotDuplicate
    split
    · rename_i ghost blk ht _
      split
      · exact hg.remark ht (eqvoc_samePlaces ghost blk.replayedBlockId)
      · exact hg
    · exact hg

lemma new_agreed (slotMax blkMax vtrMax : Nat) (wfs : Bool) :
    Agreed (Run.new slotMax blkMax vtrMax wfs).tree (Run.new slotMax blkMax vtrMax wfs).tile :=
  .fresh rfl ⟨rfl, rfl, rfl, rfl, rfl, rfl⟩

end Firebam.Choreo
