import Firebam.Votor.ParentReady

/-! ag_slot_state: the votes and certificates of a slot, the stake they carry, and the two fallback
conditions. -/
namespace Firebam.Votor
open Lib

structure EpochInfo where
  stakes : List Nat
  deriving DecidableEq

namespace EpochInfo

variable (info : EpochInfo)

def totalStake : Nat := info.stakes.sum

def stakeOf (rank : Nat) : Nat := info.stakes.getD rank 0

/- fraction_is_met, with the common denominator -/
def fractionIsMet (numer stake : Nat) : Bool := decide (info.totalStake * numer ≤ stake * 5)

variable (stake : Nat)

def isWeakestQuorum : Bool := info.fractionIsMet 1 stake
def isWeakQuorum : Bool := info.fractionIsMet 2 stake
def isQuorum : Bool := info.fractionIsMet 3 stake
def isStrongQuorum : Bool := info.fractionIsMet 4 stake

end EpochInfo

structure VotedStakes where
  notar : List (BlockHash × Nat) := []
  notarFallback : List (BlockHash × Nat) := []
  skip : Nat := 0
  skipFallback : Nat := 0
  finalize : Nat := 0
  notarOrSkip : Nat := 0
  topNotar : Nat := 0

structure SlotCerts where
  notar : Option (BlockHash × Nat) := none
  notarFallback : List (BlockHash × Nat) := []
  skip : Option Nat := none
  fastFinalize : Option (BlockHash × Nat) := none
  finalize : Option Nat := none

inductive ParentStatus where
  | known
  | certified

inductive Buffer where
  | curr
  | next
  deriving DecidableEq

/- ag_slot_state_t. The ranking is a pointer; the rank is that of this validator, or none if it
has no stake. -/
structure SlotState where
  slot : Nat
  epochInfo : Buffer
  ownRank : Option Nat
  votes : SlotVotes := {}
  stakes : VotedStakes := {}
  certs : SlotCerts := {}
  parents : List (BlockHash × ParentStatus) := []
  pendingSafeToNotar : List BlockHash := []
  sentSafeToNotar : List BlockHash := []
  sentSafeToSkip : Bool := false

inductive SlotFault where
  | hashStakesFull
  | hashSetFull
  | parentsFull
  | parentMissing
  | notarFallbackVotesFull
  | notarFallbackCertsFull
  | noVotes
  deriving DecidableEq

structure Outputs where
  certs : List Cert := []
  votorEvents : List PoolEvent := []
  repair : List BlockHash := []

inductive SafeToNotar where
  | safeToNotar
  | missingBlock
  | awaitingVotes

def vatMax : Nat := 2000

section
variable (stakes : List (BlockHash × Nat))

def stakeFor (hash : BlockHash) : Nat :=
  ((stakes.find? fun x => x.1 = hash).map Prod.snd).getD 0

def hashstakeAdd (cap : Nat) (hash : BlockHash) (stake : Nat) : Except SlotFault (List (BlockHash × Nat)) :=
  if (stakes.find? fun x => x.1 = hash).isSome then
    .ok (stakes.map fun x => if x.1 = hash then (hash, x.2 + stake) else x)
  else do
    require .hashStakesFull (stakes.length < cap)
    .ok (stakes ++ [(hash, stake)])

end

local instance lawfulBlockHash : LawfulBEq BlockHash := inferInstance

def setInsert (set : List BlockHash) (hash : BlockHash) : Except SlotFault (List BlockHash) :=
  if hash ∈ set then .ok set
  else do
    require .hashSetFull (set.length < eqvocBlockHashMax)
    .ok (set ++ [hash])

/- set_remove: the last element takes the place of the removed one. -/
def setRemove (set : List BlockHash) (hash : BlockHash) : List BlockHash :=
  match set.findIdx? fun h => h = hash with
  | none => set
  | some i =>
    match set.getLast? with
    | none => set
    | some last => if i + 1 = set.length then set.dropLast else (set.set i last).dropLast

namespace SlotState

variable (info : EpochInfo)

section
variable (s : SlotState)

section
variable (hash : BlockHash)

def isNotarFallback : Bool := s.certs.notarFallback.any fun x => x.1 = hash

def isNotarFallbackOrStronger : Bool :=
  s.certs.notar.map Prod.fst = some hash || s.certs.fastFinalize.map Prod.fst = some hash || s.isNotarFallback hash

def parentOf : Option ParentStatus :=
  (s.parents.find? fun x => x.1 = hash).map Prod.snd

end

def ownNotar : Option BlockHash := s.ownRank.bind s.votes.notarOf

def checkSafeToNotar (hash : BlockHash) : Except SlotFault (SafeToNotar × SlotState) :=
  let notarStake := stakeFor s.stakes.notar hash
  let pending : Except SlotFault (SafeToNotar × SlotState) := do
    let set ← setInsert s.pendingSafeToNotar hash
    .ok (.awaitingVotes, { s with pendingSafeToNotar := set })
  let safe : Except SlotFault (SafeToNotar × SlotState) := do
    let sent ← setInsert s.sentSafeToNotar hash
    .ok (.safeToNotar, { s with pendingSafeToNotar := setRemove s.pendingSafeToNotar hash, sentSafeToNotar := sent })
  if !info.isWeakestQuorum notarStake then .ok (.awaitingVotes, s)
  else if !info.isWeakQuorum notarStake && !info.isQuorum (notarStake + s.stakes.skip) then pending
  else match s.parentOf hash with
    | none => .ok (.missingBlock, s)
    | some .known => .ok (.awaitingVotes, s)
    | some .certified =>
      match s.ownRank with
      | none => pending
      | some own =>
        if own ∈ s.votes.skip then safe
        else match s.votes.notarOf own with
          | some voted => if voted ≠ hash then safe else .ok (.awaitingVotes, s)
          | none => pending

end

def recheck (acc : SlotState × Outputs) (hash : BlockHash) : Except SlotFault (SlotState × Outputs) := do
  if hash ∈ acc.1.sentSafeToNotar then .ok acc
  else
    let (status, s) ← acc.1.checkSafeToNotar info hash
    .ok (s, match status with
      | .safeToNotar => { acc.2 with votorEvents := acc.2.votorEvents ++ [.safeToNotar ⟨s.slot, hash⟩] }
      | .missingBlock => if hash ∈ acc.2.repair then acc.2 else { acc.2 with repair := acc.2.repair ++ [hash] }
      | .awaitingVotes => acc.2)

section
variable (s : SlotState)

def recheckPending (out : Outputs) : Except SlotFault (SlotState × Outputs) :=
  s.pendingSafeToNotar.foldlM (recheck info) (s, out)

/- The test for a safe-to-skip event, at the end of two of the counting functions -/
def checkSafeToSkip (out : Outputs) : SlotState × Outputs :=
  if !s.sentSafeToSkip && info.isWeakQuorum (s.stakes.notarOrSkip - s.stakes.topNotar)
      && s.ownNotar.isSome then
    ({ s with sentSafeToSkip := true }, { out with votorEvents := out.votorEvents ++ [.safeToSkip s.slot] })
  else (s, out)

/- The ranks of a ranking that voted to notarize the block, or for it as a fallback -/
def notarVoters (hash : BlockHash) : List Nat :=
  (List.range info.stakes.length).filter fun i => s.votes.notarOf i = some hash

def notarFallbackVoters (hash : BlockHash) : List Nat :=
  (List.range info.stakes.length).filter fun i => hash ∈ s.votes.notarFallbacksOf i

def skipVoters : List Nat := (List.range info.stakes.length).filter fun i => i ∈ s.votes.skip

def skipFallbackVoters : List Nat :=
  (List.range info.stakes.length).filter fun i => i ∈ s.votes.skipFallback

def finalVoters : List Nat := (List.range info.stakes.length).filter fun i => i ∈ s.votes.finalize

end

def stakeOfVoters (ranks : List Nat) : Nat := (ranks.map info.stakeOf).sum

variable (s : SlotState)

section
variable (hash : BlockHash)

/- A notar-fallback certificate is built when the stake of both kinds of votes is enough. -/
def buildNotarFallback (out : Outputs) : Except SlotFault Outputs :=
  if info.isQuorum (stakeFor s.stakes.notarFallback hash + stakeFor s.stakes.notar hash) && !s.isNotarFallback hash then do
    let notar := s.notarVoters info hash
    let fallback := s.notarFallbackVoters info hash
    require .noVotes (notar ≠ [] ∨ fallback ≠ [])
    let stake := stakeOfVoters info notar + stakeOfVoters info fallback
    .ok (if info.isQuorum stake then { out with certs := out.certs ++ [.notarFallback s.slot hash stake] } else out)
  else .ok out

def buildNotar (out : Outputs) : Except SlotFault Outputs :=
  if info.isQuorum (stakeFor s.stakes.notar hash) && s.certs.notar.isNone then do
    let notar := s.notarVoters info hash
    require .noVotes (notar ≠ [])
    .ok { out with certs := out.certs ++ [.notar s.slot hash (stakeOfVoters info notar)] }
  else .ok out

def buildFastFinal (out : Outputs) : Except SlotFault Outputs :=
  if info.isStrongQuorum (stakeFor s.stakes.notar hash) && s.certs.fastFinalize.isNone then do
    let notar := s.notarVoters info hash
    require .noVotes (notar ≠ [])
    .ok { out with certs := out.certs ++ [.fastFinal s.slot hash (stakeOfVoters info notar)] }
  else .ok out

def countNotarStake (stake : Nat) : Except SlotFault (SlotState × Outputs) := do
  let notar ← hashstakeAdd s.stakes.notar vatMax hash stake
  let s := { s with stakes := { s.stakes with
    notar := notar
    notarOrSkip := s.stakes.notarOrSkip + stake
    topNotar := max (stakeFor notar hash) s.stakes.topNotar } }
  let (s, out) ← recheck info (s, {}) hash
  let (s, out) := s.checkSafeToSkip info out
  let out ← s.buildNotarFallback info hash out
  let out ← s.buildNotar info hash out
  let out ← s.buildFastFinal info hash out
  .ok (s, out)

def countNotarFallbackStake (stake : Nat) :
    Except SlotFault (SlotState × Outputs) := do
  let fallback ← hashstakeAdd s.stakes.notarFallback (vatMax * notarFallbackVoteMax) hash stake
  let s := { s with stakes := { s.stakes with notarFallback := fallback } }
  let out ← s.buildNotarFallback info hash {}
  .ok (s, out)

end

def buildSkip (out : Outputs) : Except SlotFault Outputs :=
  if info.isQuorum (s.stakes.skip + s.stakes.skipFallback) && s.certs.skip.isNone then do
    let skip := s.skipVoters info
    let fallbacks := s.skipFallbackVoters info
    require .noVotes (skip ≠ [] ∨ fallbacks ≠ [])
    let stake := stakeOfVoters info skip + stakeOfVoters info fallbacks
    .ok (if info.isQuorum stake then { out with certs := out.certs ++ [.skip s.slot stake] } else out)
  else .ok out

def countSkipStake (stake : Nat) (fallback : Bool) : Except SlotFault (SlotState × Outputs) := do
  let s := { s with stakes :=
    if fallback then { s.stakes with skipFallback := s.stakes.skipFallback + stake }
    else { s.stakes with skip := s.stakes.skip + stake } }
  let (s, out) ← s.recheckPending info {}
  let out ← s.buildSkip info out
  .ok (s.checkSafeToSkip info out)

def countFinalizeStake (stake : Nat) : Except SlotFault (SlotState × Outputs) := do
  let s := { s with stakes := { s.stakes with finalize := s.stakes.finalize + stake } }
  if info.isQuorum s.stakes.finalize && s.certs.finalize.isNone then do
    let voters := s.finalVoters info
    require .noVotes (voters ≠ [])
    .ok (s, { certs := [.final s.slot (stakeOfVoters info voters)] })
  else .ok (s, {})

def addCert : Cert → Except SlotFault SlotState
  | .notar _ hash stake => .ok { s with certs := { s.certs with notar := some (hash, stake) } }
  | .notarFallback _ hash stake =>
    if s.isNotarFallback hash then .ok s
    else do
      require .notarFallbackCertsFull (s.certs.notarFallback.length < notarFallbackCertMax)
      .ok { s with certs := { s.certs with notarFallback := s.certs.notarFallback ++ [(hash, stake)] } }
  | .skip _ stake => .ok { s with certs := { s.certs with skip := some stake } }
  | .fastFinal _ hash stake => .ok { s with certs := { s.certs with fastFinalize := some (hash, stake) } }
  | .final _ stake => .ok { s with certs := { s.certs with finalize := some stake } }

def countVote (vote : Vote) (stake : Nat) : Except SlotFault (SlotState × Outputs) :=
  let voted := { s with votes := s.votes.record vote }
  match vote with
  | .notar _ hash _ => voted.countNotarStake info hash stake
  | .notarFallback _ hash rank => do
    require .notarFallbackVotesFull ((s.votes.notarFallbacksOf rank).length < notarFallbackVoteMax)
    voted.countNotarFallbackStake info hash stake
  | .skip _ _ =>
    { voted with stakes := { voted.stakes with notarOrSkip := voted.stakes.notarOrSkip + stake } }.countSkipStake
      info stake false
  | .skipFallback _ _ => voted.countSkipStake info stake true
  | .final _ _ => voted.countFinalizeStake info stake

/- ag_slot_state_add_vote: after a vote of our own, the pending blocks are checked again. -/
def addVote (vote : Vote) (stake : Nat) : Except SlotFault (SlotState × Outputs) := do
  let (s, out) ← s.countVote info vote stake
  if s.ownRank = some vote.rank then s.recheckPending info out else .ok (s, out)

def notifyParentKnown (hash : BlockHash) : Except SlotFault SlotState :=
  if (s.parentOf hash).isSome then .ok s
  else do
    require .parentsFull (s.parents.length < eqvocBlockHashMax)
    .ok { s with parents := s.parents ++ [(hash, .known)] }

/- ag_slot_state_notify_parent_certified, which returns 0 when a safe-to-notar event was sent before -/
def notifyParentCertified (hash : BlockHash) : Except SlotFault (SafeToNotar × SlotState) := do
  require .parentMissing ((s.parentOf hash).isSome = true)
  let s := { s with parents := s.parents.map fun x => if x.1 = hash then (hash, .certified) else x }
  if hash ∈ s.sentSafeToNotar then .ok (.awaitingVotes, s) else s.checkSafeToNotar info hash

end SlotState

end Firebam.Votor
