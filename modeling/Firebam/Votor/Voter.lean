import Firebam.Votor.Base

/-! ag_votor: the events of the pool, of blocks, of replay and of timers, and the votes they lead
to. -/
namespace Firebam.Votor
open Lib

def parentsReadyMax : Nat := slotsPerWindow * notarFallbackCertMax + 1

/- LONG_MAX, a timer that is not armed -/
def never : Int := 2 ^ 63 - 1

def deltaBlockNs : Int := 200000000
def deltaFirstSliceNs : Int := 10000000
def deltaTimeoutNs : Int := 3 * 250000000

structure VoterSlot where
  slot : Nat
  voted : Bool := false
  votedNotar : Bool := false
  votedNotarHash : BlockHash := 0
  badWindow : Bool := false
  blockNotarized : Bool := false
  blockNotarizedHash : BlockHash := 0
  parentsReady : List BlockId := []
  receivedShred : Bool := false
  pendingBlock : Bool := false
  pendingBlockInfo : BlockInfo := ⟨0, 0, 0⟩
  retired : Bool := false
  timeout : Int := never
  timeoutCrashedLeader : Int := never

inductive VoterFault where
  | slotStatePoolEmpty
  | notStartOfWindow
  | prunedSlot
  | voteEventsFull
  | certEventsFull
  | parentsReadyFull

/- ag_votor_t. The pending and the timer list hold slots, in the order of the links. -/
structure Voter where
  now : Int
  root : Nat
  slotMax : Nat
  slotStates : List VoterSlot
  highestFinalCertSlot : Nat
  currEpochRank : Nat
  currEpochSlot : Nat
  nextEpochRank : Nat
  nextEpochSlot : Nat
  voteEvents : List Vote
  votesPolled : Nat
  certEvents : List Cert
  certsPolled : Nat
  pending : List Nat
  timers : List Nat

section

def Voter.query (v : Voter) (slot : Nat) : Option VoterSlot := v.slotStates.find? fun e => e.slot = slot

def VoterSlot.timerIdle (e : VoterSlot) : Bool := e.timeout = never && e.timeoutCrashedLeader = never

section
variable (v : Voter)

namespace Voter

section
variable (slot : Nat)

def stateMut (write : VoterSlot → VoterSlot) : Except VoterFault Voter :=
  match v.query slot with
  | some _ => .ok { v with slotStates := v.slotStates.map fun e => if e.slot = slot then write e else e }
  | none => do
    require .slotStatePoolEmpty (v.slotStates.length < v.slotMax)
    .ok { v with slotStates := v.slotStates ++ [write { slot := slot }] }

/- What a reader finds: a missing element has no flag set. -/
def state : VoterSlot := (v.query slot).getD { slot := slot }

def isRetired : Bool := (v.state slot).retired

def hasVoted : Bool := (v.state slot).voted

def receivedShred : Bool := (v.state slot).receivedShred

end

def firstUnprunedSlot : Nat := firstSlotInWindow v.highestFinalCertSlot

def ownRank (slot : Nat) : Nat :=
  if v.nextEpochSlot ≤ slot then v.nextEpochRank else v.currEpochRank

def pushVote (vote : Vote) : Except VoterFault Voter := do
  require .voteEventsFull (v.voteEvents.length - v.votesPolled < 2 * v.slotMax)
  .ok { v with voteEvents := v.voteEvents ++ [vote] }

def pushCert (cert : Cert) : Except VoterFault Voter := do
  require .certEventsFull (v.certEvents.length - v.certsPolled < 2 * v.slotMax)
  .ok { v with certEvents := v.certEvents ++ [cert] }

def arm (slot : Nat) (write : VoterSlot → VoterSlot) : Except VoterFault Voter := do
  let idle := (v.state slot).timerIdle
  let v ← v.stateMut slot write
  .ok (if idle then { v with timers := v.timers ++ [slot] } else v)

end Voter

end

/- One round of the loop of set_timeouts, with the deadline of the round before. -/
def Voter.armTimeout (acc : Int × Voter) (slot : Nat) : Except VoterFault (Int × Voter) := do
  let deadline := acc.1 + if isStartOfWindow slot then max (deltaBlockNs - deltaFirstSliceNs) 0 else deltaBlockNs
  let v ← acc.2.arm slot fun e => { e with timeout := min e.timeout deadline }
  .ok (deadline, v)

def Voter.setTimeouts (v : Voter) (slot : Nat) : Except VoterFault Voter := do
  require .notStartOfWindow (isStartOfWindow slot = true)
  let deadline := v.now + deltaTimeoutNs + deltaFirstSliceNs
  let v ← v.arm slot fun e => { e with timeoutCrashedLeader := min e.timeoutCrashedLeader deadline }
  Prod.snd <$> (windowSlots slot).foldlM Voter.armTimeout (deadline, v)

end

section

variable (v : Voter)

def Voter.tryFinal (slot : Nat) (hash : BlockHash) : Except VoterFault Voter := do
  require .prunedSlot (v.firstUnprunedSlot ≤ slot)
  let state := v.state slot
  if state.blockNotarized && state.blockNotarizedHash = hash && (state.votedNotar && state.votedNotarHash = hash)
      && !state.badWindow then
    let v ← v.pushVote (.final slot (v.ownRank slot))
    v.stateMut slot fun e => { e with retired := true }
  else .ok v

/- The tests of try_notar on the parent: at the start of a window it must be ready, inside of it
we must have voted for it. -/
def Voter.validParent (slot : Nat) (parent : BlockId) : Bool :=
  if isStartOfWindow slot then parent ∈ (v.state slot).parentsReady
  else parent.slot = slot - 1 && (v.state parent.slot).votedNotar
    && (v.state parent.slot).votedNotarHash = parent.hash

def Voter.tryNotar (slot : Nat) (info : BlockInfo) : Except VoterFault (Bool × Voter) := do
  require .prunedSlot (v.firstUnprunedSlot ≤ slot)
  if v.hasVoted slot then .ok (false, v)
  else if !v.validParent slot info.parent then .ok (false, v)
  else
    let v ← v.pushVote (.notar slot info.hash (v.ownRank slot))
    let v ← v.stateMut slot fun e =>
      { e with voted := true, votedNotar := true, pendingBlock := false, votedNotarHash := info.hash }
    let v := { v with pending := v.pending.filter fun s => s ≠ slot }
    let v ← v.tryFinal slot info.hash
    .ok (true, v)

def Voter.skipSlot (s : Nat) : Except VoterFault Voter :=
  if v.hasVoted s then .ok v
  else do
    let v ← v.stateMut s fun e => { e with voted := true, badWindow := true }
    v.pushVote (.skip s (v.ownRank s))

def Voter.trySkipWindow (slot : Nat) : Except VoterFault Voter := do
  require .prunedSlot (v.firstUnprunedSlot ≤ slot)
  (windowSlots (firstSlotInWindow slot)).foldlM Voter.skipSlot v

def Voter.retryPending (slot : Nat) : Except VoterFault Voter :=
  let state := v.state slot
  if state.pendingBlock then Prod.snd <$> v.tryNotar slot state.pendingBlockInfo else .ok v

def Voter.checkPendingBlocks : Except VoterFault Voter :=
  ((v.pending.take v.slotMax).insertionSort (· ≤ ·)).foldlM Voter.retryPending v

def Voter.prune : Voter :=
  let dropped := fun slot => decide (v.root ≤ slot ∧ slot < v.firstUnprunedSlot)
  { v with
    slotStates := v.slotStates.filter fun e => !dropped e.slot
    pending := v.pending.filter fun slot => !dropped slot
    timers := v.timers.filter fun slot => !dropped slot
    root := v.firstUnprunedSlot }

def Voter.handleCertCreated (cert : Cert) : Except VoterFault Voter := do
  let v ← match cert with
    | .notar slot hash _ => do
      let v ← v.stateMut slot fun e => { e with blockNotarized := true, blockNotarizedHash := hash }
      v.tryFinal slot hash
    | .final slot _ | .fastFinal slot _ _ => do
      let v ← v.setTimeouts (firstSlotInWindow slot)
      .ok { v with highestFinalCertSlot := max v.highestFinalCertSlot slot }.prune
    | .skip _ _ | .notarFallback _ _ _ => .ok v
  v.pushCert cert

def Voter.shouldIgnorePoolEvent : PoolEvent → Bool
  | .standstill _ _ _ => false
  | .certCreated cert => cert.slot < v.firstUnprunedSlot
  | .parentReady slot _ | .safeToSkip slot => slot < v.firstUnprunedSlot || v.isRetired slot
  | .safeToNotar block => block.slot < v.firstUnprunedSlot || v.isRetired block.slot

/- The fallback vote of a safe-to-notar or safe-to-skip event, after which the slot cannot be
finalized by us. -/
def Voter.castFallback (slot : Nat) (vote : Vote) : Except VoterFault Voter := do
  let v ← v.pushVote vote
  let v ← v.trySkipWindow slot
  v.stateMut slot fun e => { e with badWindow := true }

def Voter.addParentReady (slot : Nat) (parent : BlockId) : Except VoterFault Voter := do
  let v ← v.stateMut slot id
  if parent ∈ (v.state slot).parentsReady then .ok v
  else do
    require .parentsReadyFull ((v.state slot).parentsReady.length < parentsReadyMax)
    v.stateMut slot fun e => { e with parentsReady := e.parentsReady ++ [parent] }

def Voter.handlePoolEvent (event : PoolEvent) (now : Int) : Except VoterFault Voter :=
  let v := { v with now := now }
  if v.shouldIgnorePoolEvent event then .ok v
  else match event with
    | .parentReady slot parent => do
      let v ← v.addParentReady slot parent
      let v ← v.checkPendingBlocks
      v.setTimeouts slot
    | .safeToNotar block => v.castFallback block.slot (.notarFallback block.slot block.hash (v.ownRank block.slot))
    | .safeToSkip slot => v.castFallback slot (.skipFallback slot (v.ownRank slot))
    | .certCreated cert => v.handleCertCreated cert
    | .standstill _ certs votes => do
      let v ← certs.foldlM Voter.pushCert v
      votes.foldlM Voter.pushVote v

def Voter.closed (slot : Nat) : Bool := slot ≤ v.highestFinalCertSlot || v.isRetired slot

end

inductive Event where
  | pool (event : PoolEvent) (now : Int)
  | firstShred (slot : Nat)
  | invalidBlock (slot : Nat)
  | replayCompleted (slot : Nat) (info : BlockInfo)
  | replayDead (slot : Nat)
  | timeout (slot : Nat)
  | timeoutCrashedLeader (slot : Nat)
  | pollTimeout (now : Int)
  | pollVote
  | pollCert
  | advanceEpoch (rank slot : Nat)

section
variable (v : Voter)

def Voter.pollTimeout (now : Int) : Except VoterFault Voter :=
  let v := { v with now := now }
  match v.timers.find? fun s => (v.state s).timeoutCrashedLeader ≤ now || (v.state s).timeout ≤ now with
  | none => .ok v
  | some s => do
    let v ← v.stateMut s fun e =>
      if e.timeoutCrashedLeader ≤ now then { e with timeoutCrashedLeader := never } else { e with timeout := never }
    .ok (if (v.state s).timerIdle then { v with timers := v.timers.filter fun t => t ≠ s } else v)

def Voter.advanceEpoch (rank slot : Nat) : Voter :=
  if v.currEpochSlot = wordSize - 1 then { v with currEpochRank := rank, currEpochSlot := slot }
  else if v.nextEpochSlot = wordSize - 1 then { v with nextEpochRank := rank, nextEpochSlot := slot }
  else { v with
    currEpochRank := v.nextEpochRank, currEpochSlot := v.nextEpochSlot
    nextEpochRank := rank, nextEpochSlot := slot }

def Voter.handleReplayCompleted (slot : Nat) (info : BlockInfo) : Except VoterFault Voter :=
  if v.hasVoted slot then .ok v
  else do
    let (voted, v) ← v.tryNotar slot info
    if voted then v.checkPendingBlocks
    else
      let wasPending := (v.state slot).pendingBlock
      let v ← v.stateMut slot fun e => { e with pendingBlock := true, pendingBlockInfo := info }
      .ok (if wasPending then v else { v with pending := v.pending ++ [slot] })

def Voter.step : Event → Except VoterFault Voter
  | .pool event now => v.handlePoolEvent event now
  | .firstShred slot =>
    if v.closed slot then .ok v else v.stateMut slot fun e => { e with receivedShred := true }
  | .invalidBlock slot | .replayDead slot => if v.closed slot then .ok v else v.trySkipWindow slot
  | .replayCompleted slot info => if v.closed slot then .ok v else v.handleReplayCompleted slot info
  | .timeout slot => if v.closed slot || v.hasVoted slot then .ok v else v.trySkipWindow slot
  | .timeoutCrashedLeader slot =>
    if v.closed slot || v.receivedShred slot || v.hasVoted slot then .ok v else v.trySkipWindow slot
  | .pollTimeout now => v.pollTimeout now
  | .pollVote => .ok { v with votesPolled := min (v.votesPolled + 1) v.voteEvents.length }
  | .pollCert => .ok { v with certsPolled := min (v.certsPolled + 1) v.certEvents.length }
  | .advanceEpoch rank slot => .ok (v.advanceEpoch rank slot)

end

/- ag_votor_new and ag_votor_init: the boot block counts as voted, notarized and retired, with
a hash of zeros. -/
def Voter.init (slotMax slot : Nat) (now : Int) : Except VoterFault Voter := do
  let v : Voter := ⟨now, slot, slotMax, [], slot, 0, wordSize - 1, 0, wordSize - 1, [], 0, [], 0, [], []⟩
  let v ← v.stateMut slot fun e => { e with
    voted := true, votedNotar := true, blockNotarized := true, parentsReady := [⟨slot, 0⟩], retired := true }
  v.setTimeouts (firstSlotInWindow slot)

end Firebam.Votor
