import Firebam.Lib.Check
import Firebam.Lib.Word

/-! The proof-of-history state machine of discof/poh/fd_poh.c. Every FD_TEST, FD_LOG_ERR and
FD_LOG_CRIT is a check that can stop the machine with a fault. -/
namespace Firebam.Poh
open Lib

abbrev Hash := BitVec 256

structure Sha256 where
  next : Hash → Hash
  mix : Hash → Hash → Hash

inductive State where
  | uninit | follower | waitingForBank | waitingForSlot | leader | waitingForReset
  deriving DecidableEq

inductive EndSlotReason where
  | time | microblock | abandoned
  deriving DecidableEq

structure DonePacking where
  microblocksInSlot : Nat
  blockCost : Nat
  voteCost : Nat
  blockDataBytes : Nat
  bundleTxnCount : Nat
  endSlotReason : EndSlotReason
  packStartNs : Int
  packEndNs : Int

structure TxnP where
  executeSuccess : Bool
  payload : List UInt8

structure EntryBatch where
  slot : Nat
  parentOffset : Nat
  referenceTick : Nat
  blockComplete : Bool
  parentBlockId : Hash
  hashcntDelta : Nat
  hash : Hash
  txns : List (List UInt8)

structure LeaderSlotEnded where
  completed : Bool
  slot : Nat
  blockhash : Hash
  summary : DonePacking

inductive Fault where
  | transitionState | transitionCompleted
  | hashesPerTickLastSlot | hashesPerTickLastHashcnt
  | resetBlockId | resetTicksPerSlot
  | beginLeaderState | beginLeaderSlot | beginLeaderTicksPerSlot | beginLeaderPastSlot
  | updateMaxNotLower | updateMaxBelowSeen
  | donePackingState | donePackingCount | donePackingMax | donePackingLowerBound
  | tickBeforeReset | tickHashcnt
  | skippedTickHashcnt | skippedTickLastHashcnt
  | targetBelowHashcnt | targetBelowMin | targetAboveRestricted
  | tickedOutWithMicroblocksRemaining | tooManySkippedTicks | pastLeaderSlot
  | mixinSlot | mixinTickSkipped | mixinState | mixinMax | mixinHashcnt | microblockBeforeReset
  | unexpectedLeaderState | packIdxOutOfOrder

structure Machine where
  state : State
  wfsPaused : Bool
  hashcntPerTick : Nat
  ticksPerSlot : Nat
  hashcntPerSlot : Nat
  maxMicroblocksPerSlot : Nat
  completedBlockId : Hash
  resetSlot : Nat
  slot : Nat
  hashcnt : Nat
  nextLeaderSlot : Nat
  lastSlot : Nat
  lastHashcnt : Nat
  microblocksLowerBound : Nat
  resetHash : Hash
  hash : Hash
  skippedTickHashes : Nat → Hash
  pack : DonePacking
  shredOut : List EntryBatch
  replayOut : List LeaderSlotEnded

/-- ULONG_MAX, which stands for "no leader slot" and "no hash count per tick yet". -/
def ulongMax : Nat := wordSize - 1

def ushortMax : Nat := 65535

def packMaxDataPerBlock : Nat := (1024 - 2) * 30816 - (512 * 30816 + 8192 + 8192)

def maxSkippedTicks : Nat := 1 + packMaxDataPerBlock / 48

def Machine.new : Machine where
  state := .uninit
  wfsPaused := false
  hashcntPerTick := ulongMax
  ticksPerSlot := 0
  hashcntPerSlot := 0
  maxMicroblocksPerSlot := 0
  completedBlockId := 0
  resetSlot := 0
  slot := 0
  hashcnt := 0
  nextLeaderSlot := 0
  lastSlot := 0
  lastHashcnt := 0
  microblocksLowerBound := 0
  resetHash := 0
  hash := 0
  skippedTickHashes := fun _ => 0
  pack := ⟨0, 0, 0, 0, 0, .time, 0, 0⟩
  shredOut := []
  replayOut := []

def transitionToFollower (p : Machine) (completed : Bool) : Except Fault Machine := do
  require .transitionState (p.state = .leader ∨ p.state = .waitingForBank ∨
    p.state = .waitingForSlot ∨ p.state = .waitingForReset)
  require .transitionCompleted (completed = true → p.state = .leader)
  -- Only a machine that holds a leader bank owes replay a message about it.
  let ended : LeaderSlotEnded :=
    { completed, slot := if completed then wsub p.slot 1 else p.slot
      blockhash := p.hash, summary := p.pack }
  let out := if p.state = .leader ∨ p.state = .waitingForSlot then
    p.replayOut ++ [ended] else p.replayOut
  return { p with state := .follower, replayOut := out }

def updateHashesPerTick (p : Machine) (hashcntPerTick : Nat) : Except Fault Machine := do
  if p.hashcntPerTick ≠ hashcntPerTick then
    require .hashesPerTickLastSlot (p.lastSlot = p.resetSlot)
    require .hashesPerTickLastHashcnt (p.lastHashcnt = 0)
    return { p with
      hashcntPerSlot := (p.ticksPerSlot * hashcntPerTick) % wordSize
      hashcntPerTick := hashcntPerTick
      slot := p.resetSlot
      hashcnt := 0
      hash := p.resetHash }
  else
    return p

structure Reset where
  hashcntPerTick : Nat
  ticksPerSlot : Nat
  completedSlot : Nat
  completedBlockhash : Hash
  nextLeaderSlot : Nat
  maxMicroblocksInSlot : Nat
  completedBlockId : Hash
  wfsPaused : Bool

structure BecameLeader where
  slot : Nat
  hashcntPerTick : Nat
  ticksPerSlot : Nat
  maxMicroblocksInSlot : Nat

variable (p : Machine)

def resetFields (r : Reset) : Machine :=
  { p with
    resetHash := r.completedBlockhash
    hash := r.completedBlockhash
    completedBlockId := r.completedBlockId
    slot := r.completedSlot + 1
    hashcnt := 0
    lastSlot := r.completedSlot + 1
    lastHashcnt := 0
    resetSlot := r.completedSlot + 1
    nextLeaderSlot := r.nextLeaderSlot
    maxMicroblocksPerSlot := r.maxMicroblocksInSlot }

def firstReset (r : Reset) : Machine :=
  if p.state = .uninit then { p with ticksPerSlot := r.ticksPerSlot, state := .follower } else p

def leaveForReset : Except Fault Machine :=
  if p.state ≠ .follower then transitionToFollower p false else .ok p

def reset (r : Reset) : Except Fault Machine := do
  require .resetBlockId (p.completedBlockId ≠ r.completedBlockId)
  let p := firstReset (resetFields p r) r
  require .resetTicksPerSlot (r.ticksPerSlot = p.ticksPerSlot)
  let p ← updateHashesPerTick p r.hashcntPerTick
  -- PoH may tick freely again; a later leader slot sets the bound anew.
  let p ← leaveForReset { p with microblocksLowerBound := p.maxMicroblocksPerSlot }
  return if p.slot = p.nextLeaderSlot then { p with state := .waitingForBank } else p

def beginLeader (b : BecameLeader) : Except Fault Machine := do
  require .beginLeaderState (p.state = .follower ∨ p.state = .waitingForBank)
  require .beginLeaderSlot (b.slot = p.nextLeaderSlot)
  -- One phantom microblock is reserved, so that the slot cannot end before done_packing.
  let p := { p with maxMicroblocksPerSlot := (b.maxMicroblocksInSlot + 1) % wordSize }
  require .beginLeaderTicksPerSlot (b.ticksPerSlot = p.ticksPerSlot)
  let p ← updateHashesPerTick p b.hashcntPerTick
  require .beginLeaderPastSlot (p.slot ≤ p.nextLeaderSlot)
  return { p with
    state := if p.slot < p.nextLeaderSlot then .waitingForSlot else .leader
    microblocksLowerBound := 0 }

def haveLeaderBank : Bool := p.state = .waitingForSlot ∨ p.state = .leader

def hashingToLeaderSlot : Bool := haveLeaderBank p && p.slot < p.nextLeaderSlot

def mustTick : Bool :=
  p.state = .leader ∧ p.hashcnt % p.hashcntPerTick = wsub p.hashcntPerTick 1

def mustPublishSkippedTick : Bool := p.state = .leader ∧ p.lastSlot < p.slot

def wfsDone : Machine := { p with wfsPaused := false }

def updateMaxMicroblocks (newMax : Nat) : Except Fault Machine := do
  let inflated := (newMax + 1) % wordSize
  require .updateMaxNotLower (inflated ≤ p.maxMicroblocksPerSlot)
  require .updateMaxBelowSeen (p.microblocksLowerBound ≤ inflated)
  return { p with maxMicroblocksPerSlot := inflated }

def donePacking (d : DonePacking) : Except Fault Machine := do
  require .donePackingState (p.state = .leader)
  require .donePackingCount (p.microblocksLowerBound = d.microblocksInSlot)
  require .donePackingMax (p.microblocksLowerBound ≤ p.maxMicroblocksPerSlot)
  let p := { p with pack := d }
  if d.endSlotReason = .abandoned then
    transitionToFollower p false
  else
    -- The phantom microblock, and the real ones that can no longer come.
    let lowerBound := wsub ((p.microblocksLowerBound + 1 + wsub p.maxMicroblocksPerSlot 1) % wordSize)
      d.microblocksInSlot
    require .donePackingLowerBound (lowerBound = p.maxMicroblocksPerSlot)
    return { p with microblocksLowerBound := lowerBound }

end Firebam.Poh
