import Firebam.Tower.Tile

/-! The messages of the tower tile: a block that replay has completed, a vote transaction, and
a slot that is proved to be equivocating. -/
namespace Firebam.Choreo
open Lib
open Firebam.Ghost (Hash Pubkey)

section

variable (s : Marks)

variable (m : SlotCompleted)

def Marks.replayAgain (blk : Blk) : Marks :=
  { s with
    tower := { s.tower with
      lcks := s.tower.lcks.filter fun i => i.slot ≠ m.slot
      blks := setBlk s.tower.blks m.slot fun b =>
        { b with parentSlot := m.parentSlot, bankHash := m.bankHash, replayedBlockId := m.blockId } }
    ghost := (s.ghost.confirm m.blockId).eqvoc blk.replayedBlockId }

def Marks.prevLeader : Except Fault (Option Nat) :=
  if m.isLeader then .ok (some m.slot)
  else if m.blockId = s.ghost.root then .ok none
  else
    match query s.tower.blks m.parentSlot with
    | none => .error .noParentBlk
    | some parent => .ok parent.prevLeaderSlot

def Marks.resolve : Marks :=
  let proved := if m.eqvocProof then { s with ghost := s.ghost.eqvoc m.blockId } else s
  match s.votes.queryForward m.slot with
  | none => proved
  | some fwd =>
    if fwd.flags.testBit 5 then
      { s with
        tower := { s.tower with
          blks := setBlk s.tower.blks m.slot fun b => { b with confirmed := true, confirmedBlockId := fwd.blockId } }
        ghost := if m.blockId = fwd.blockId then s.ghost.confirm m.blockId else s.ghost.eqvoc m.blockId }
    else proved

def Marks.replayFirst : Except Fault Marks := do
  require .blkPoolEmpty (s.tower.blks.length < s.tower.slotMax)
  let prevLeaderSlot ← s.prevLeader m
  let blk : Blk := ⟨m.slot, m.parentSlot, m.epoch, m.bankHash, m.blockId, false, 0, false, 0, m.isLeader, false,
    prevLeaderSlot⟩
  .ok (Marks.resolve { s with tower := { s.tower with blks := s.tower.blks ++ [blk] } } m)

def Marks.insertBlk : Except Fault Marks :=
  match query s.tower.blks m.slot with
  | some blk => .ok (s.replayAgain m blk)
  | none => s.replayFirst m

end

section

def Marks.countVoteAcc (slot : Nat) (blockId : Hash) (s : Marks) (vtr : Vtr) : Except Fault Marks :=
  let s := { s with tower := { s.tower with
    vtrs := s.tower.vtrs ++ [vtr]
    lcks := lockosInsert slot vtr.voteAcc vtr.votes s.tower.lcks
    stks := s.tower.stks ++ [⟨slot, vtr.voteAcc, vtr.stake⟩] } }
  match vtr.votes with
  | [] => .ok s
  | last :: _ =>
    if last.slot < s.ghost.rootSlot then .ok s
    else
      match s.ghost.slotAncestor blockId last.slot with
      | none => .error .missingAncestor
      | some anc => do
        let (_, ghost) ← liftGhost (s.ghost.countVote anc vtr.voteAcc vtr.stake last.slot)
        .ok { s with ghost := ghost }

/-- The end of query_towers. The first block is not reconciled if we wait for a supermajority. -/
def Marks.reconcile (s : Marks) (skip : Bool) (onchain : Option Onchain) : Except Fault Marks :=
  match onchain with
  | none => .ok s
  | some onchain =>
    if skip then .ok s
    else do
      let tower ← s.tower.reconcile onchain
      .ok { s with tower := tower }

def Marks.queryTowers (s : Marks) (skip : Bool) (m : SlotCompleted) : Except Fault Marks := do
  let s ← m.vtrs.foldlM (Marks.countVoteAcc m.slot m.blockId) s
  s.reconcile skip m.onchain

def Tile.queryVoters (tile : Tile) (m : SlotCompleted) (epoch : Nat) : Tile :=
  { tile with
    rootEpoch := epoch
    rootVtrs := m.epochVtrs
    nextVtrs := m.nextVtrs
    votes := tile.votes.updateVoters ((m.epochVtrs.filter EpochVtr.readable).map EpochVtr.voteAcc) }

end

section

def Tile.advanceEpoch (tile : Tile) (m : SlotCompleted) (old new : Blk) : Except Fault Tile :=
  if old.epoch + 1 = new.epoch then do
    require .epochSkipped (new.epoch = m.epoch)
    .ok (tile.queryVoters m new.epoch)
  else do
    require .epochSkipped (old.epoch = new.epoch)
    .ok tile

def Tower.rootBlks (tower : Tower) (slot : Nat) : Except Fault (Nat × Blk × Blk) :=
  match tower.root with
  | none => .error .noRootBlk
  | some oldRoot =>
    match query tower.blks oldRoot, query tower.blks slot with
    | some old, some new => .ok (oldRoot, old, new)
    | _, _ => .error .noRootBlk

def Tile.publishRoot (tile : Tile) (m : SlotCompleted) (ghost : Ghost.Tree) (slot : Nat) (blockId : Hash) :
    Except Fault Tile := do
  require .nullRootId (blockId ≠ 0)
  let (oldRoot, old, new) ← tile.tower.rootBlks slot
  let tile ← tile.advanceEpoch m old new
  require .rootNotInGhost ((ghost.query blockId).isSome = true)
  .ok { tile with
    votes := tile.votes.publish slot
    tower := { tile.tower.prune oldRoot slot with root := some slot }
    ghost := some (ghost.publish blockId) }

end

section

def Tile.insertGhost (tile : Tile) (m : SlotCompleted) : Except Fault (Option Ghost.Tree) :=
  match tile.ghost with
  | none => some <$> liftGhost (Ghost.Tree.init tile.blkMax tile.vtrMax m.bankSeq m.slot m.blockId)
  | some ghost =>
    if (ghost.query m.parentBlockId).isSome then
      some <$> liftGhost (ghost.insert m.bankSeq m.slot m.blockId m.parentBlockId)
    else .ok none

def Marks.bootRoot (s : Marks) (slot : Nat) : Marks :=
  { s with tower := { s.tower with root := some slot }, votes := s.votes.publish slot }

variable (tile : Tile)

def Tile.absorb (m : SlotCompleted) (ghost : Ghost.Tree) : Except Fault (Tile × Ghost.Tree) := do
  let first := tile.ghost.isNone
  let s ← Marks.insertBlk ⟨tile.tower, ghost, tile.votes⟩ m
  let s := if first then s.bootRoot m.slot else s
  let s ← s.queryTowers (first && tile.wfs) m
  let tile := { tile with
    tower := s.tower, ghost := some s.ghost, votes := s.votes, totals := (m.blockId, m.totalStake) :: tile.totals }
  .ok (if first then tile.queryVoters m m.epoch else tile, s.ghost)

def Tile.conclude (m : SlotCompleted) (ghost : Ghost.Tree) : Except Fault (Tile × Out) := do
  let (tower, out) ← tile.tower.voteAndReset ghost tile.total
  let tile := { tile with tower := tower }
  match out.root with
  | none => .ok (tile, out)
  | some (slot, blockId) => do
    let tile ← tile.publishRoot m ghost slot blockId
    .ok (tile, out)

def Tile.replayed (blockId : Hash) : Bool :=
  match tile.ghost with
  | none => false
  | some ghost => (ghost.query blockId).isSome

def Tile.slotCompleted (m : SlotCompleted) : Except Fault (Tile × Option Out) :=
  if tile.replayed m.blockId then
    .ok ({ tile with ghost := tile.ghost.map fun g => g.setBlk m.blockId fun b => { b with bankSeq := m.bankSeq } }, none)
  else do
    require .nullBlockId (m.blockId ≠ 0)
    let tile := { tile with tower := { tile.tower with
      stks := tile.tower.stks.filter fun s => s.slot ≠ m.slot
      vtrs := [] } }
    let inserted ← tile.insertGhost m
    match inserted with
    | none => .ok (tile, none)
    | some ghost => do
      let (tile, ghost) ← tile.absorb m ghost
      let (tile, out) ← tile.conclude m ghost
      .ok (tile, some out)

end

section

def validTower : List Vote → Bool
  | [] => false
  | [vote] => decide (vote.conf ≤ voteMax)
  | newer :: older :: rest =>
    decide (older.slot < newer.slot) && decide (newer.conf < older.conf) && validTower (older :: rest)

def Tile.epochVtrs (tile : Tile) (epoch : Nat) : Option (List EpochVtr) :=
  if epoch = tile.rootEpoch then some tile.rootVtrs
  else if epoch = tile.rootEpoch + 1 then some tile.nextVtrs
  else none

def totalStake (vtrs : List EpochVtr) : Nat := (vtrs.map EpochVtr.stake).sum

def Marks.countSlot (s : Marks) (voteAcc : Pubkey) (stake total slot : Nat) (blockId : Hash) : Except Fault Marks :=
  match s.votes.countVote voteAcc stake slot blockId with
  | none => .ok s
  | some votes => Marks.publishConfirmed { s with votes := votes } slot blockId total

def Marks.countIntermediate (voteAcc : Pubkey) (stake total : Nat) (s : Marks) (vote : Vote) : Except Fault Marks :=
  if ∃ root ∈ s.tower.root, vote.slot ≤ root then .ok s
  else
    match query s.tower.blks vote.slot with
    | none => .ok s
    | some blk => s.countSlot voteAcc stake total vote.slot blk.canonicalBlockId

def Marks.countVotes (s : Marks) (txn : VoteTxn) (last : Vote) (older : List Vote) (stake total : Nat) :
    Except Fault Marks := do
  let s ← s.countSlot txn.voteAcc stake total last.slot txn.blockId
  match query s.tower.blks last.slot with
  | none => .ok s
  | some blk =>
    if blk.canonicalBlockId = txn.blockId then
      older.foldlM (Marks.countIntermediate txn.voteAcc stake total) s
    else .ok s

variable (tile : Tile)

local instance lawfulSigner : LawfulBEq Pubkey := inferInstance

def Tile.voterOf (txn : VoteTxn) (last : Vote) : Option (EpochVtr × Nat) :=
  if txn.votes.length ≤ voteMax ∧ validTower txn.votes = true ∧ txn.blockId ≠ 0 ∧
      ¬ ∃ root ∈ tile.tower.root, last.slot ≤ root then
    match txn.epoch.bind tile.epochVtrs with
    | none => none
    | some vtrs =>
      match vtrs.find? fun v => v.voteAcc = txn.voteAcc with
      | none => none
      | some vtr => if vtr.authVtr ≠ 0 ∧ vtr.authVtr ∈ txn.signers then some (vtr, totalStake vtrs) else none
  else none

def Tile.put (s : Marks) : Tile :=
  { tile with tower := s.tower, ghost := some s.ghost, votes := s.votes }

def Tile.voteTxn (txn : VoteTxn) : Except Fault Tile :=
  match tile.ghost, txn.votes with
  | some ghost, last :: older =>
    match tile.voterOf txn last with
    | none => .ok tile
    | some (vtr, total) => do
      let s ← Marks.countVotes ⟨tile.tower, ghost, tile.votes⟩ txn last older vtr.stake total
      .ok (tile.put s)
  | _, _ => .ok tile

def Tile.slotDuplicate (slot : Nat) : Tile :=
  match tile.ghost, query tile.tower.blks slot with
  | some ghost, some blk =>
    if blk.confirmed = false ∨ blk.replayedBlockId ≠ blk.confirmedBlockId then
      { tile with ghost := some (ghost.eqvoc blk.replayedBlockId) }
    else tile
  | _, _ => tile

end

def Tile.step (tile : Tile) : Msg → Except Fault (Tile × Option Out)
  | .slotCompleted m => tile.slotCompleted m
  | .voteTxn txn => (fun tile => (tile, none)) <$> tile.voteTxn txn
  | .slotDuplicate slot => .ok (tile.slotDuplicate slot, none)

end Firebam.Choreo
