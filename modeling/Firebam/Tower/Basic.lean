import Firebam.Lib.Float
import Firebam.Ghost.Basic

/-! The tower of fd_tower.c: its votes, its blocks by slot, and the decision of
fd_tower_vote_and_reset. ULONG_MAX is none, except as the parent of a block, where no block has that
slot. The pools behind the lockout intervals and the stakes, and sums of stake that do not fit into
a ulong, are left out. -/
namespace Firebam.Choreo
open Lib
open Firebam.Ghost (Hash Pubkey)

def voteMax : Nat := 31

def thresholdDepth : Nat := 8
def thresholdRatio : Ratio := ⟨6004799503160661, 53⟩
def switchRatio : Ratio := ⟨3422735716801577, 53⟩

structure Vote where
  slot : Nat
  conf : Nat
  deriving DecidableEq

structure Blk where
  slot : Nat
  parentSlot : Nat
  epoch : Nat
  bankHash : Hash
  replayedBlockId : Hash
  voted : Bool
  votedBlockId : Hash
  confirmed : Bool
  confirmedBlockId : Hash
  leader : Bool
  propagated : Bool
  prevLeaderSlot : Option Nat

structure Vtr where
  voteAcc : Pubkey
  stake : Nat
  votes : List Vote

structure Interval where
  slot : Nat
  start : Nat
  stop : Nat
  addr : Pubkey

structure Stake where
  slot : Nat
  addr : Pubkey
  stake : Nat

structure Tower where
  slotMax : Nat
  root : Option Nat
  votes : List Vote
  blks : List Blk
  vtrs : List Vtr
  lcks : List Interval
  stks : List Stake

/-- The FD_TESTs and FD_LOG_CRITs on the way, and a null pointer that is followed. -/
inductive Fault where
  | nullBlk | slotNotFound | nullPrevVote | noGhostRoot
  | voteNotNewer | blkPoolEmpty | noBlk
  | ghost (fault : Ghost.Fault)
  | nullBlockId | noParentBlk | missingAncestor | rootNotSet | voteNotReplayed
  | nullRootId | noRootBlk | epochSkipped | rootNotInGhost | rootConflict
  deriving DecidableEq

section

def Vote.expirationSlot (vote : Vote) : Nat := (vote.slot + 2 ^ vote.conf) % 2 ^ 64

def simulateVote (votes : List Vote) (slot : Nat) : List Vote :=
  votes.dropWhile fun vote => decide (vote.expirationSlot < slot)

def doubled : Nat → List Vote → List Vote
  | _, [] => []
  | prevConf, vote :: older =>
    if vote.conf = prevConf + 1 then ⟨vote.slot, vote.conf + 1⟩ :: doubled (prevConf + 1) older
    else vote :: older

def pushVote (votes : List Vote) (slot : Nat) : Except Fault (List Vote × Option Nat) := do
  require .voteNotNewer (∀ vote ∈ votes.head?, vote.slot < slot)
  let kept := simulateVote votes slot
  if kept.length = voteMax then
    .ok (⟨slot, 1⟩ :: doubled 0 kept.dropLast, kept.getLast?.map Vote.slot)
  else .ok (⟨slot, 1⟩ :: doubled 0 kept, none)

end

section

def query (blks : List Blk) (slot : Nat) : Option Blk := blks.find? fun blk => blk.slot = slot

def setBlk (blks : List Blk) (slot : Nat) (f : Blk → Blk) : List Blk :=
  blks.map fun blk => if blk.slot = slot then f blk else blk

def ancestorFrom (blks : List Blk) (ancestorSlot : Nat) : Nat → Nat → Bool
  | 0, _ => false
  | n + 1, slot =>
    match query blks slot with
    | none => false
    | some anc => if anc.parentSlot = ancestorSlot then true else ancestorFrom blks ancestorSlot n anc.parentSlot

def isAncestor (blks : List Blk) (slot ancestorSlot : Nat) : Bool :=
  ancestorFrom blks ancestorSlot (slot + 1) slot

def commonFrom (blks : List Blk) : Nat → Blk → Blk → Option Nat
  | 0, _, _ => none
  | n + 1, fork1, fork2 =>
    if fork1.slot = fork2.slot then some fork1.slot
    else if fork2.slot < fork1.slot then
      (query blks fork1.parentSlot).bind fun fork1 => commonFrom blks n fork1 fork2
    else (query blks fork2.parentSlot).bind fun fork2 => commonFrom blks n fork1 fork2

def lowestCommonAncestor (blks : List Blk) (slot1 slot2 : Nat) : Except Fault (Option Nat) :=
  match query blks slot1, query blks slot2 with
  | some fork1, some fork2 => .ok (commonFrom blks (slot1 + slot2 + 1) fork1 fork2)
  | _, _ => .error .slotNotFound

end

section

def Tower.lockoutCheck (tower : Tower) (slot : Nat) : Bool :=
  match tower.votes with
  | [] => decide (∀ root ∈ tower.root, root < slot)
  | last :: _ =>
    if slot ≤ last.slot then false
    else
      match simulateVote tower.votes slot with
      | [] => true
      | vote :: _ => isAncestor tower.blks slot vote.slot

def Tower.isPurged (tower : Tower) (blk : Ghost.Blk) : Except Fault Bool :=
  match query tower.blks blk.slot with
  | none => .error .nullBlk
  | some towerBlk => .ok (towerBlk.confirmed && decide (towerBlk.confirmedBlockId ≠ blk.id))

def Tower.liveChildren (tower : Tower) : List Ghost.Blk → Except Fault (List Ghost.Blk)
  | [] => .ok []
  | child :: rest => do
    let purged ← tower.isPurged child
    let live ← tower.liveChildren rest
    .ok (if purged then live else child :: live)

structure Switch where
  used : List Pubkey
  stake : Nat
  enough : Bool

local instance lawfulVoter : LawfulBEq Pubkey := inferInstance

def Tower.countInterval (tower : Tower) (totalStake switchSlot voteSlot : Nat) (count : Switch)
    (interval : Interval) : Switch :=
  if count.enough then count
  else if isAncestor tower.blks voteSlot interval.start = false ∧ ∀ root ∈ tower.root, root < interval.start then
    match tower.stks.find? fun s => s.addr = interval.addr ∧ s.slot = switchSlot with
    | none => count
    | some voter =>
      if interval.addr ∈ count.used then count
      else
        let stake := count.stake + voter.stake
        ⟨interval.addr :: count.used, stake, switchRatio.below stake totalStake⟩
  else count

def Tower.countCandidate (tower : Tower) (totalStake switchSlot voteSlot candidateSlot : Nat) (count : Switch) :
    Switch :=
  (tower.lcks.filter fun i => i.slot = candidateSlot ∧ voteSlot ≤ i.stop).foldl
    (tower.countInterval totalStake switchSlot voteSlot) count

def Tower.switchLeaf (tower : Tower) (totalStake switchSlot voteSlot candidateSlot : Nat) (count : Switch) :
    Except Fault Switch := do
  let lca ← lowestCommonAncestor tower.blks candidateSlot voteSlot
  if candidateSlot = voteSlot then .ok count
  else
    match lca with
    | none => .ok count
    | some lca =>
      if isAncestor tower.blks switchSlot lca then
        .ok (tower.countCandidate totalStake switchSlot voteSlot candidateSlot count)
      else .ok count

def Tower.switchFrom (tower : Tower) (ghost : Ghost.Tree) (totalStake switchSlot voteSlot : Nat) :
    Nat → List Ghost.Blk → Switch → Except Fault Bool
  | _, [], _ => .ok false
  | 0, _ :: _, _ => .ok false
  | n + 1, blk :: queue, count => do
    let children ← tower.liveChildren (ghost.children blk.id)
    if children = [] then do
      let count ← tower.switchLeaf totalStake switchSlot voteSlot blk.slot count
      if count.enough then .ok true
      else tower.switchFrom ghost totalStake switchSlot voteSlot n queue count
    else tower.switchFrom ghost totalStake switchSlot voteSlot n (queue ++ children) count

def Tower.switchCheck (tower : Tower) (ghost : Ghost.Tree) (totalStake switchSlot voteSlot : Nat) : Except Fault Bool :=
  match ghost.query ghost.root with
  | none => .error .noGhostRoot
  | some root => tower.switchFrom ghost totalStake switchSlot voteSlot ghost.blks.length [root] ⟨[], 0, false⟩

def Tower.thresholdCheck (tower : Tower) (totalStake slot : Nat) : Bool :=
  match (simulateVote tower.votes slot)[thresholdDepth - 1]? with
  | none => true
  | some threshold =>
    let voters := tower.vtrs.filter fun vtr =>
      match simulateVote vtr.votes slot with
      | [] => false
      | vote :: _ => decide (threshold.slot ≤ vote.slot)
    thresholdRatio.below (voters.map Vtr.stake).sum totalStake

def Tower.propagatedCheck (tower : Tower) (slot : Nat) : Except Fault Bool :=
  match query tower.blks slot with
  | none => .error .noBlk
  | some blk =>
    if blk.leader then .ok true
    else
      match blk.prevLeaderSlot with
      | none => .ok true
      | some prevLeaderSlot => .ok (((query tower.blks prevLeaderSlot).map Blk.propagated).getD true)

end

inductive Flag where
  | ancestorRollback | siblingConfirmed | sameFork | switchPass | switchFail
  | lockoutFail | thresholdFail | propagatedFail

structure Out where
  flags : List Flag
  reset : Ghost.Blk
  vote : Option (Nat × Hash × Hash)
  root : Option (Nat × Hash)

structure Choice where
  flag : Flag
  reset : Ghost.Blk
  vote : Option Ghost.Blk

variable (tower : Tower)

namespace Tower

def chooseSwitch (ghost : Ghost.Tree) (totalStake : Nat) (best : Ghost.Blk)
    (prevVoteSlot : Nat) (prevVote : Option Ghost.Blk) (invalidAncestor : Bool) : Except Fault Choice := do
  let pass ← tower.switchCheck ghost totalStake best.slot prevVoteSlot
  if pass then .ok ⟨.switchPass, best, some best⟩
  else
    match prevVote with
    | none => .error .nullPrevVote
    | some prev =>
      if invalidAncestor then .ok ⟨.switchFail, ghost.deepest prev, none⟩
      else .ok ⟨.switchFail, ghost.best prev, none⟩

def choose (ghost : Ghost.Tree) (totalStake : Nat) (best : Ghost.Blk)
    (prevVoteSlot : Nat) : Except Fault Choice :=
  match query tower.blks prevVoteSlot with
  | none => .error .nullBlk
  | some fork =>
    let prevVote := ghost.query fork.votedBlockId
    let invalidAncestor := ghost.invalidAncestor fork.votedBlockId
    let ancestorRollback := decide (fork.votedBlockId ≠ best.id) && ghost.isAncestor best.id fork.votedBlockId
    let siblingConfirmed := fork.confirmed && decide (fork.votedBlockId ≠ fork.confirmedBlockId)
    if invalidAncestor && ancestorRollback then .ok ⟨.ancestorRollback, best, none⟩
    else if invalidAncestor && siblingConfirmed then .ok ⟨.siblingConfirmed, best, some best⟩
    else if best.slot = prevVoteSlot ∨ isAncestor tower.blks best.slot prevVoteSlot then
      .ok ⟨.sameFork, best, some best⟩
    else tower.chooseSwitch ghost totalStake best prevVoteSlot prevVote invalidAncestor

/-- The check that keeps us from voting for a block, if there is one. -/
def gate (totalStake slot : Nat) : Except Fault (Option Flag) :=
  if tower.lockoutCheck slot = false then .ok (some .lockoutFail)
  else if tower.thresholdCheck totalStake slot = false then .ok (some .thresholdFail)
  else do
    let propagated ← tower.propagatedCheck slot
    .ok (if propagated then none else some .propagatedFail)

def castVote (blk : Ghost.Blk) : Except Fault (Tower × Hash × Option Nat) := do
  let (votes, root) ← pushVote tower.votes blk.slot
  match query tower.blks blk.slot with
  | none => .error .nullBlk
  | some fork =>
    let blks := setBlk tower.blks blk.slot fun b => { b with voted := true, votedBlockId := blk.id }
    .ok ({ tower with votes := votes, blks := blks }, fork.bankHash, root)

def rootBlockId (slot : Nat) : Except Fault (Nat × Hash) :=
  match query tower.blks slot with
  | none => .error .nullBlk
  | some fork => .ok (slot, if fork.confirmed then fork.confirmedBlockId else fork.votedBlockId)

def voteFor (flags : List Flag) (reset blk : Ghost.Blk) : Except Fault (Tower × Out) := do
  let (tower, bankHash, root) ← tower.castVote blk
  match root with
  | none => .ok (tower, ⟨flags, reset, some (blk.slot, blk.id, bankHash), none⟩)
  | some slot => do
    let root ← tower.rootBlockId slot
    .ok (tower, ⟨flags, reset, some (blk.slot, blk.id, bankHash), some root⟩)

def settle (total : Ghost.Blk → Nat) (choice : Choice) : Except Fault (Tower × Out) :=
  match choice.vote with
  | none => .ok (tower, ⟨[choice.flag], choice.reset, none, none⟩)
  | some blk => do
    let fail ← tower.gate (total blk) blk.slot
    match fail with
    | some flag => .ok (tower, ⟨[choice.flag, flag], choice.reset, none, none⟩)
    | none => tower.voteFor [choice.flag] choice.reset blk

def firstVote (best : Ghost.Blk) : Except Fault (Tower × Out) := do
  let (tower, bankHash, root) ← tower.castVote best
  .ok (tower, ⟨[], best, some (best.slot, best.id, bankHash), root.map fun slot => (slot, 0)⟩)

def voteAndReset (ghost : Ghost.Tree) (total : Ghost.Blk → Nat) : Except Fault (Tower × Out) :=
  match ghost.query ghost.root with
  | none => .error .noGhostRoot
  | some root =>
    let best := ghost.best root
    match tower.votes with
    | [] =>
      if tower.lockoutCheck best.slot then tower.firstVote best
      else .ok (tower, ⟨[], best, none, none⟩)
    | last :: _ => do
      let choice ← tower.choose ghost (total best) best last.slot
      tower.settle total choice

end Tower

end Firebam.Choreo
