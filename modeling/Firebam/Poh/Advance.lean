import Firebam.Poh.Basic

/-! Hashing, ticking and mixing: fd_poh_advance and fd_poh1_mixin. -/
namespace Firebam.Poh
open Lib

section
variable (p : Machine)

def nextTick : Nat := p.hashcntPerTick * (1 + p.lastHashcnt / p.hashcntPerTick)

def tickEntry (hash : Hash) (isSkipped : Bool) : EntryBatch :=
  let blockComplete := !isSkipped && nextTick p = p.hashcntPerSlot
  let slot := if blockComplete then wsub p.slot 1 else p.slot
  { slot, parentOffset := wsub (1 + slot) p.resetSlot
    referenceTick := if isSkipped then 0 else nextTick p / p.hashcntPerTick
    blockComplete, parentBlockId := p.completedBlockId
    hashcntDelta := nextTick p - p.lastHashcnt, hash, txns := [] }

def publishTick (hash : Hash) (isSkipped : Bool) : Except Fault Machine := do
  require .tickBeforeReset (p.resetSlot ≤ p.lastSlot)
  require .tickHashcnt (p.lastHashcnt < nextTick p)
  let out := p.shredOut ++ [tickEntry p hash isSkipped]
  return if nextTick p = p.hashcntPerSlot then
      { p with shredOut := out, lastSlot := p.lastSlot + 1, lastHashcnt := 0 }
    else { p with shredOut := out, lastHashcnt := nextTick p }

def maxRemainingMicroblocks : Nat :=
  if p.state = .leader then wsub p.maxMicroblocksPerSlot p.microblocksLowerBound else 0

def restrictedHashcnt : Nat :=
  let remaining := maxRemainingMicroblocks p
  let ticksOrMicroblocks := if p.hashcntPerTick = 1 then remaining
    else remaining + (remaining + p.hashcntPerTick - 2) / (p.hashcntPerTick - 1)
  if p.state = .leader then
    if p.hashcntPerSlot ≥ ticksOrMicroblocks then p.hashcntPerSlot - ticksOrMicroblocks else 0
  else p.hashcntPerSlot

/-- Rule (ii): one before a tick boundary, the tick must be taken. -/
def minHashcnt : Nat :=
  if p.hashcntPerTick ≠ 1 ∧ p.hashcnt % p.hashcntPerTick = wsub p.hashcntPerTick 1 then p.hashcnt + 1
  else p.hashcnt

def clockTarget (clock : Nat) : Nat :=
  if p.state = .leader then clock
  else wsub clock ((wsub p.slot p.resetSlot * p.hashcntPerSlot) % wordSize)

def clampedHashcnt (clock : Nat) : Nat :=
  min (max (min (clockTarget p clock) (restrictedHashcnt p)) (minHashcnt p))
    (p.hashcntPerTick * (1 + p.hashcnt / p.hashcntPerTick))

/-- Rule (i): never stop one before a tick boundary. -/
def targetHashcnt (clock : Nat) : Nat :=
  let target := clampedHashcnt p clock
  if p.hashcntPerTick ≠ 1 ∧ target % p.hashcntPerTick = wsub p.hashcntPerTick 1 then wsub target 1
  else target

end

def hashTo (sha : Sha256) (p : Machine) (target : Nat) : Machine :=
  let p := { p with hash := sha.next^[target - p.hashcnt] p.hash, hashcnt := target }
  if p.hashcnt = p.hashcntPerSlot then { p with slot := p.slot + 1, hashcnt := 0 } else p

section
variable (p : Machine)

def publishReachedTick : Except Fault Machine :=
  if p.hashcnt % p.hashcntPerTick = 0 then publishTick p p.hash false else .ok p

def tickOutOfLeader (remaining : Nat) : Except Fault Machine :=
  if p.nextLeaderSlot < p.slot then do
    require .tickedOutWithMicroblocksRemaining (remaining = 0)
    let p ← transitionToFollower p true
    return { p with state := .waitingForReset }
  else .ok p

def leaderTicked (remaining : Nat) : Except Fault Machine := do
  let p ← publishReachedTick p
  tickOutOfLeader p remaining

def tickIdx (slot hashcnt : Nat) : Nat :=
  (slot * p.ticksPerSlot + hashcnt / p.hashcntPerTick) % maxSkippedTicks

def saveSkippedTick : Except Fault Machine :=
  if p.hashcnt % p.hashcntPerTick = 0 ∧ p.nextLeaderSlot ≠ ulongMax then do
    require .tooManySkippedTicks
      (tickIdx p p.slot p.hashcnt ≠ tickIdx p p.lastSlot p.lastHashcnt)
    return { p with skippedTickHashes :=
      Function.update p.skippedTickHashes (tickIdx p p.slot p.hashcnt) p.hash }
  else .ok p

def followerTicked : Except Fault Machine := do
  let p ← saveSkippedTick p
  require .pastLeaderSlot (p.slot ≤ p.nextLeaderSlot)
  return if p.slot = p.nextLeaderSlot then
      { p with state := if p.state = .follower then .waitingForBank else .leader }
    else p

def ticked (remaining : Nat) : Except Fault Machine :=
  match p.state with
  | .leader => leaderTicked p remaining
  | .waitingForSlot | .follower => followerTicked p
  | .uninit | .waitingForBank | .waitingForReset => .ok p

end

lemma ticked_leader {p : Machine} (remaining : Nat) (hl : p.state = .leader) :
    ticked p remaining = leaderTicked p remaining := by
  unfold ticked
  rw [hl]

structure Advanced where
  poh : Machine
  pollIn : Bool
  chargeBusy : Bool

def tooFarFromLeaderSlot (p : Machine) : Prop :=
  p.nextLeaderSlot = ulongMax ∨
    min maxSkippedTicks (wsub ushortMax p.ticksPerSlot) / p.ticksPerSlot
      < wsub p.nextLeaderSlot p.slot

instance (p : Machine) : Decidable (tooFarFromLeaderSlot p) :=
  inferInstanceAs (Decidable (_ ∨ _))

def publishSkippedTick (p : Machine) : Except Fault Machine := do
  require .skippedTickHashcnt (p.hashcnt = 0)
  require .skippedTickLastHashcnt (p.lastHashcnt % p.hashcntPerTick = 0)
  publishTick p (p.skippedTickHashes (tickIdx p p.lastSlot (p.lastHashcnt + p.hashcntPerTick))) true

def advanceHashes (sha : Sha256) (p : Machine) (clock : Nat) : Except Fault Advanced := do
  let target := targetHashcnt p clock
  require .targetBelowHashcnt (p.hashcnt ≤ target)
  require .targetBelowMin (minHashcnt p ≤ target)
  require .targetAboveRestricted (target ≤ restrictedHashcnt p)
  if p.hashcnt = target then
    return ⟨p, true, false⟩
  else
    let remaining := maxRemainingMicroblocks p
    let p ← ticked (hashTo sha p target) remaining
    return ⟨p, true, true⟩

def advance (sha : Sha256) (p : Machine) (clock : Nat) : Except Fault Advanced := do
  if p.state = .uninit ∨ p.state = .waitingForReset ∨ p.wfsPaused ∨ p.state = .waitingForBank then
    return ⟨p, true, false⟩
  else if p.state = .follower ∧ tooFarFromLeaderSlot p then
    return ⟨p, true, false⟩
  else if mustPublishSkippedTick p then
    let p ← publishSkippedTick p
    return ⟨p, false, true⟩
  else
    advanceHashes sha p clock

def publishMicroblock (p : Machine) (slot hashcntDelta : Nat) (txns : List TxnP) :
    Except Fault Machine := do
  require .microblockBeforeReset (p.resetSlot ≤ slot)
  let entry : EntryBatch :=
    { slot, parentOffset := wsub (1 + slot) p.resetSlot
      referenceTick := (p.hashcnt / p.hashcntPerTick) % p.ticksPerSlot
      blockComplete := p.hashcnt = 0, parentBlockId := p.completedBlockId
      hashcntDelta, hash := p.hash
      txns := (txns.filter (·.executeSuccess)).map (·.payload) }
  return { p with shredOut := p.shredOut ++ [entry] }

def mixinOutOfLeader (p : Machine) : Except Fault Machine :=
  if p.hashcnt % p.hashcntPerTick = 0 ∧ p.nextLeaderSlot < p.slot then do
    let p ← transitionToFollower p true
    return { p with state := .waitingForReset }
  else .ok p

def recordMixin (p : Machine) : Machine :=
  let p := if p.hashcnt % p.hashcntPerSlot = 0 then { p with slot := p.slot + 1, hashcnt := 0 } else p
  { p with lastSlot := p.slot, lastHashcnt := p.hashcnt }

def mixinExecuted (sha : Sha256) (p : Machine) (slot : Nat) (hash : Hash) (txns : List TxnP) :
    Except Fault Machine := do
  let mixed := { p with hash := sha.mix p.hash hash, hashcnt := p.hashcnt + 1 }
  require .mixinHashcnt (mixed.lastHashcnt < mixed.hashcnt)
  let hashcntDelta := mixed.hashcnt - mixed.lastHashcnt
  let p ← mixinOutOfLeader (recordMixin mixed)
  publishMicroblock p slot hashcntDelta txns

def mixin (sha : Sha256) (p : Machine) (slot : Nat) (hash : Hash) (txns : List TxnP) :
    Except Fault Machine := do
  require .mixinSlot (slot = p.nextLeaderSlot ∧ slot = p.slot)
  require .mixinTickSkipped (p.hashcnt % p.hashcntPerTick ≠ wsub p.hashcntPerTick 1)
  require .mixinState (p.state = .leader)
  require .mixinMax (p.microblocksLowerBound < p.maxMicroblocksPerSlot)
  let p := { p with microblocksLowerBound := p.microblocksLowerBound + 1 }
  -- A microblock whose transactions all failed would look like a tick: it is only counted.
  if txns.any (·.executeSuccess) then mixinExecuted sha p slot hash txns
  else return p

end Firebam.Poh
