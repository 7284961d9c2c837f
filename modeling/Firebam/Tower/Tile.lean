import Firebam.Tower.Basic

/-! The tower tile of fd_tower_tile.c, over fd_votes.c and the fork choice tree. The hard fork
detector, the chunks of the equivocation detector, metrics, events and published frags are left out;
what the equivocation detector has proved is part of the message. -/
namespace Firebam.Choreo
open Lib
open Firebam.Ghost (Hash Pubkey)

section

structure VotesBlk where
  slot : Nat
  blockId : Hash
  stake : Nat
  flags : Nat

structure Votes where
  slotMax : Nat
  root : Option Nat
  vtrs : List Pubkey
  slots : List (Nat × List Pubkey)
  blks : List VotesBlk

variable (votes : Votes)

def Votes.addStake (slot : Nat) (blockId : Hash) (stake : Nat) : Votes :=
  if votes.blks.any fun b => b.slot = slot ∧ b.blockId = blockId then
    { votes with blks := votes.blks.map fun b =>
        if b.slot = slot ∧ b.blockId = blockId then { b with stake := b.stake + stake } else b }
  else { votes with blks := votes.blks ++ [⟨slot, blockId, stake, 0⟩] }

local instance lawfulVoteAcc : LawfulBEq Pubkey := inferInstance

def Votes.countVote (voteAcc : Pubkey) (stake slot : Nat) (blockId : Hash) : Option Votes :=
  if votes.root.getD (wordSize - 1) + votes.slotMax ≤ slot then none
  else if voteAcc ∉ votes.vtrs then none
  else
    match votes.slots.find? fun s => s.1 = slot with
    | none => some (Votes.addStake { votes with slots := votes.slots ++ [(slot, [voteAcc])] } slot blockId stake)
    | some (_, voted) =>
      if voteAcc ∈ voted then none
      else
        let slots := votes.slots.map fun s => if s.1 = slot then (slot, voteAcc :: s.2) else s
        some (Votes.addStake { votes with slots := slots } slot blockId stake)

def Votes.query (slot : Nat) (blockId : Hash) : Option VotesBlk :=
  votes.blks.find? fun b => b.slot = slot ∧ b.blockId = blockId

def Votes.queryForward (slot : Nat) : Option VotesBlk :=
  (votes.blks.filter fun b => b.slot = slot).foldl
    (fun best b => if (best.map fun b => b.flags >>> 4).getD 0 < b.flags >>> 4 then some b else best) none

def Votes.setFlag (slot : Nat) (blockId : Hash) (bit : Nat) : Votes :=
  { votes with blks := votes.blks.map fun b =>
      if b.slot = slot ∧ b.blockId = blockId then { b with flags := b.flags ||| 1 <<< bit } else b }

def Votes.publish (root : Nat) : Votes :=
  match votes.root with
  | none => { votes with root := some root }
  | some old =>
    { votes with
      root := some root
      slots := votes.slots.filter fun s => ¬ (old ≤ s.1 ∧ s.1 < root)
      blks := votes.blks.filter fun b => ¬ (old ≤ b.slot ∧ b.slot < root) }

def Votes.updateVoters (voteAccs : List Pubkey) : Votes :=
  { votes with
    vtrs := voteAccs
    slots := votes.slots.map fun s => (s.1, s.2.filter fun v => v ∈ votes.vtrs ∧ v ∈ voteAccs) }

end

section

structure EpochVtr where
  voteAcc : Pubkey
  stake : Nat
  authVtr : Pubkey
  readable : Bool

structure Onchain where
  votes : List Vote
  root : Option Nat

structure SlotCompleted where
  slot : Nat
  blockId : Hash
  parentSlot : Nat
  parentBlockId : Hash
  bankSeq : Nat
  epoch : Nat
  bankHash : Hash
  isLeader : Bool
  totalStake : Nat
  vtrs : List Vtr
  epochVtrs : List EpochVtr
  nextVtrs : List EpochVtr
  onchain : Option Onchain
  eqvocProof : Bool

structure VoteTxn where
  voteAcc : Pubkey
  votes : List Vote
  blockId : Hash
  epoch : Option Nat
  signers : List Pubkey

inductive Msg where
  | slotCompleted (m : SlotCompleted)
  | voteTxn (txn : VoteTxn)
  | slotDuplicate (slot : Nat)

structure Tile where
  blkMax : Nat
  vtrMax : Nat
  wfs : Bool
  tower : Tower
  ghost : Option Ghost.Tree
  votes : Votes
  totals : List (Hash × Nat)
  rootEpoch : Nat
  rootVtrs : List EpochVtr
  nextVtrs : List EpochVtr

def Tile.new (slotMax blkMax vtrMax : Nat) (wfs : Bool) : Tile :=
  ⟨blkMax, vtrMax, wfs, ⟨slotMax, none, [], [], [], [], []⟩, none, ⟨slotMax, none, [], [], []⟩, [], 0, [], []⟩

def Tile.total (tile : Tile) (blk : Ghost.Blk) : Nat :=
  ((tile.totals.find? fun t => t.1 = blk.id).map Prod.snd).getD 0

def liftGhost {α : Type} : Except Ghost.Fault α → Except Fault α
  | .ok a => .ok a
  | .error fault => .error (.ghost fault)

end

section

def lockosInsert (slot : Nat) (addr : Pubkey) (votes : List Vote) (lcks : List Interval) : List Interval :=
  lcks ++ votes.reverse.map fun v => ⟨slot, v.slot % 2 ^ 32, v.expirationSlot % 2 ^ 32, addr⟩

def Tower.prune (tower : Tower) (old new : Nat) : Tower :=
  { tower with
    blks := tower.blks.filter fun b => ¬ (old ≤ b.slot ∧ b.slot < new)
    lcks := tower.lcks.filter fun i => ¬ (old ≤ i.slot ∧ i.slot < new)
    stks := tower.stks.filter fun s => ¬ (old ≤ s.slot ∧ s.slot < new) }

def Blk.canonicalBlockId (blk : Blk) : Hash :=
  if blk.confirmed then blk.confirmedBlockId else if blk.voted then blk.votedBlockId else blk.replayedBlockId

end

section

def Tower.behind (tower : Tower) (onchain : Onchain) : Bool :=
  match onchain.votes, tower.votes with
  | [], _ => false
  | _ :: _, [] => true
  | newest :: _, last :: _ => decide (last.slot < newest.slot)

def Onchain.adopted (onchain : Onchain) (localRoot : Nat) : Nat × List Vote :=
  match onchain.root with
  | none => (localRoot, onchain.votes.reverse.dropWhile fun v => decide (v.slot ≤ localRoot))
  | some root =>
    if root < localRoot then (localRoot, onchain.votes.reverse.dropWhile fun v => decide (v.slot ≤ localRoot))
    else (root, onchain.votes.reverse)

def unvote (blks : List Blk) (vote : Vote) : Except Fault (List Blk) := do
  require .voteNotReplayed ((query blks vote.slot).isSome = true)
  .ok (setBlk blks vote.slot fun b => { b with voted := false })

def Tower.adoptVote (tower : Tower) (vote : Vote) : Except Fault Tower := do
  require .voteNotReplayed ((query tower.blks vote.slot).isSome = true)
  .ok { tower with
    votes := vote :: tower.votes
    blks := setBlk tower.blks vote.slot fun b =>
      if b.voted then b else { b with voted := true, votedBlockId := b.replayedBlockId } }

def Tower.reconcile (tower : Tower) (onchain : Onchain) : Except Fault Tower :=
  if tower.behind onchain then
    match tower.root with
    | none => .error .rootNotSet
    | some localRoot => do
      let blks ← tower.votes.reverse.foldlM unvote tower.blks
      let (root, votes) := onchain.adopted localRoot
      let tower := Tower.prune { tower with blks := blks } localRoot root
      votes.foldlM Tower.adoptVote { tower with root := some root, votes := [] }
  else .ok tower

end

def confirmedRatios : List (Nat × Ratio) :=
  [(0, ⟨6004799503160661, 54⟩), (1, ⟨1170935903116329, 51⟩), (2, ⟨6004799503160661, 53⟩), (3, ⟨3602879701896397, 52⟩)]

structure Marks where
  tower : Tower
  ghost : Ghost.Tree
  votes : Votes

def Marks.forward (s : Marks) (level slot : Nat) (blockId : Hash) : Except Fault Marks :=
  let s := { s with votes := s.votes.setFlag slot blockId (level + 4) }
  match query s.tower.blks slot with
  | none => .ok s
  | some blk =>
    if level = 1 then do
      require .rootConflict (blk.replayedBlockId ≠ blockId)
      .ok { s with
        tower := { s.tower with
          blks := setBlk s.tower.blks slot fun b => { b with confirmed := true, confirmedBlockId := blockId } }
        ghost := s.ghost.eqvoc blk.replayedBlockId }
    else .ok s

def Marks.mark (s : Marks) (level : Nat) (anc : Ghost.Blk) (towerAnc : Blk) : Marks :=
  let s := { s with votes := s.votes.setFlag anc.slot anc.id level }
  if level = 0 then
    { s with tower := { s.tower with blks := setBlk s.tower.blks anc.slot fun b => { b with propagated := true } } }
  else if level = 1 then
    let ghost := s.ghost.confirm anc.id
    { s with
      tower := { s.tower with
        blks := setBlk s.tower.blks anc.slot fun b => { b with confirmed := true, confirmedBlockId := anc.id } }
      ghost := if towerAnc.replayedBlockId = anc.id then ghost else ghost.eqvoc towerAnc.replayedBlockId }
  else s

/-- The walk up the ancestry, up to the first block that is confirmed at the level. -/
def Marks.walk (level : Nat) : List Hash → Marks → Marks
  | [], s => s
  | id :: rest, s =>
    match s.ghost.query id with
    | none => s
    | some anc =>
      match query s.tower.blks anc.slot, s.votes.query anc.slot anc.id with
      | some towerAnc, some votesAnc =>
        if votesAnc.flags.testBit level then s else Marks.walk level rest (s.mark level anc towerAnc)
      | _, _ => s

def Marks.confirmLevel (slot : Nat) (blockId : Hash) (totalStake : Nat) (level : Nat × Ratio) (s : Marks) :
    Except Fault (Bool × Marks) :=
  match s.votes.query slot blockId with
  | none => .ok (false, s)
  | some blk =>
    if blk.flags.testBit level.1 then .ok (true, s)
    else if level.2.atLeast blk.stake totalStake then .ok (false, s)
    else
      match s.ghost.query blockId with
      | none =>
        if blk.flags.testBit (level.1 + 4) then .ok (true, s)
        else (fun s => (true, s)) <$> s.forward level.1 slot blockId
      | some _ => .ok (true, Marks.walk level.1 (s.ghost.ancestors blockId) s)

def Marks.confirmLevels (slot : Nat) (blockId : Hash) (totalStake : Nat) :
    List (Nat × Ratio) → Marks → Except Fault Marks
  | [], s => .ok s
  | level :: rest, s => do
    let (more, s) ← s.confirmLevel slot blockId totalStake level
    if more then Marks.confirmLevels slot blockId totalStake rest s else .ok s

def Marks.publishConfirmed (s : Marks) (slot : Nat) (blockId : Hash) (totalStake : Nat) : Except Fault Marks :=
  Marks.confirmLevels slot blockId totalStake confirmedRatios s

end Firebam.Choreo
