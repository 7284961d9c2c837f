import Firebam.Lib.Check

/-! The vote state of fd_vote_program.c and fd_vote_state_versioned.c, the checks of a TowerSync or
a VoteStateUpdate against it, and a single vote. The capacities of the deques, the versions of the
account and its authorities are left out. -/
namespace Firebam.VoteProgram
open Lib

abbrev Slot := Fin (2 ^ 64)

abbrev Hash := Nat

def maxLockoutHistory : Nat := 31
def maxEpochCreditsHistory : Nat := 64
def maximumPerSlot : Nat := 16
def graceSlots : Nat := 2

structure Lockout where
  slot : Slot
  confirmationCount : Nat
  deriving DecidableEq

structure LandedVote where
  latency : Nat
  lockout : Lockout
  deriving DecidableEq

structure EpochCredits where
  epoch : Nat
  credits : Nat
  prevCredits : Nat
  deriving DecidableEq

structure BlockTimestamp where
  slot : Nat
  timestamp : Int
  deriving DecidableEq

structure VoteState where
  votes : List LandedVote
  rootSlot : Option Slot
  epochCredits : List EpochCredits
  lastTimestamp : BlockTimestamp
  deriving DecidableEq

structure SlotHash where
  slot : Slot
  hash : Hash

structure Proposal where
  lockouts : List Lockout
  root : Option Slot
  hash : Hash
  timestamp : Option Int

inductive Err where
  | voteTooOld | slotsMismatch | slotsHashMismatch | emptySlots | timestampTooOld | lockoutConflict
  | newVoteStateLockoutMismatch | slotsNotOrdered | confirmationsNotOrdered | zeroConfirmations
  | confirmationTooLarge | rootRollBack | confirmationRollBack | slotSmallerThanRoot | tooManyVotes
  | rootOnDifferentFork | unsupportedProgramId | abort
  deriving DecidableEq

section

def satAdd (a b : Nat) : Nat := min (a + b) (2 ^ 64 - 1)

section
variable (l : Lockout)

def Lockout.getLockout : Nat := 2 ^ min l.confirmationCount maxLockoutHistory

def Lockout.lastLockedOutSlot : Nat := satAdd l.slot l.getLockout

def Lockout.isLockedOutAtSlot (slot : Slot) : Bool := decide (slot.val ≤ l.lastLockedOutSlot)

def Lockout.increaseConfirmationCount (more : Nat) : Lockout :=
  { l with confirmationCount := min (l.confirmationCount + more) (2 ^ 32 - 1) }

end

def LandedVote.slot (v : LandedVote) : Slot := v.lockout.slot

def computeVoteLatency (votedForSlot currentSlot : Slot) : Nat := min (currentSlot.val - votedForSlot.val) 255

def creditsForVoteAtIndex (votes : List LandedVote) (index : Nat) : Nat :=
  let latency := (votes[index]?.map LandedVote.latency).getD 0
  if latency = 0 then 1
  else if latency ≤ graceSlots then maximumPerSlot
  else if maximumPerSlot ≤ latency - graceSlots then 1
  else maximumPerSlot - (latency - graceSlots)

def searchFrom (votes : List LandedVote) (slot : Slot) : Nat → Nat → Nat → Nat
  | 0, base, _ => base
  | n + 1, base, size =>
    if 1 < size then
      let half := size / 2
      let mid := base + half
      let below := votes[mid]?.any fun v => decide (slot < v.slot)
      searchFrom votes slot n (if below then base else mid) (size - half)
    else base

def containsSlot (votes : List LandedVote) (slot : Slot) : Bool :=
  (votes[searchFrom votes slot votes.length 0 votes.length]?).any fun v => decide (v.slot = slot)

end

section

def VoteState.knownRoot (s : VoteState) (earliest : Slot) : Option Slot → Option Slot
  | none => none
  | some root =>
    if root < earliest then
      match s.votes.reverse.find? fun v => decide (v.slot ≤ root) with
      | some v => some v.slot
      | none => s.rootSlot
    else some root

structure Scan where
  rootToCheck : Option Slot
  lockoutsIndex : Nat
  slotHashesIndex : Nat
  toFilter : List Nat

def Scan.round (votes : List LandedVote) (lockouts : List Lockout) (slotHashes : List SlotHash) (earliest : Slot)
    (c : Scan) : Except Err Scan :=
  match lockouts[c.lockoutsIndex]?, slotHashes[c.slotHashesIndex - 1]? with
  | some lockout, some ancestor =>
    let slot := c.rootToCheck.getD lockout.slot
    if c.rootToCheck = none ∧ 0 < c.lockoutsIndex ∧
        (lockouts[c.lockoutsIndex - 1]?).any (fun previous => decide (slot ≤ previous.slot)) then .error .slotsNotOrdered
    else if slot < ancestor.slot then
      if c.slotHashesIndex = slotHashes.length then
        if earliest ≤ slot then .error .voteTooOld
        else if c.rootToCheck = none then
          .ok { c with
            lockoutsIndex := c.lockoutsIndex + 1
            toFilter := if containsSlot votes slot then c.toFilter else c.lockoutsIndex :: c.toFilter }
        else .ok { c with rootToCheck := none }
      else if c.rootToCheck = none then .error .slotsMismatch
      else .error .rootOnDifferentFork
    else if ancestor.slot < slot then .ok { c with slotHashesIndex := c.slotHashesIndex - 1 }
    else if c.rootToCheck = none then
      .ok { c with lockoutsIndex := c.lockoutsIndex + 1, slotHashesIndex := c.slotHashesIndex - 1 }
    else .ok { c with rootToCheck := none }
  | _, _ => .error .abort

def Scan.loop (votes : List LandedVote) (lockouts : List Lockout) (slotHashes : List SlotHash) (earliest : Slot) :
    Nat → Scan → Except Err Scan
  | 0, _ => .error .abort
  | n + 1, c =>
    if c.lockoutsIndex < lockouts.length ∧ 0 < c.slotHashesIndex then
      (c.round votes lockouts slotHashes earliest).bind (Scan.loop votes lockouts slotHashes earliest n)
    else .ok c

def popFiltered : List Nat → Nat → List Lockout → Except Err (List Lockout)
  | [], _, lockouts => .ok lockouts
  | index :: older, filterVotesIndex, lockouts =>
    if filterVotesIndex = 0 then .ok lockouts
    else if filterVotesIndex ≤ index then .error .unsupportedProgramId
    else popFiltered older (filterVotesIndex - 1) (lockouts.eraseIdx index)

def VoteState.filterProposed (s : VoteState) (slotHashes : List SlotHash) (earliest : Slot) (p : Proposal) :
    Except Err (List Lockout × Option Slot) := do
  let root := s.knownRoot earliest p.root
  let c ← Scan.loop s.votes p.lockouts slotHashes earliest (p.lockouts.length + slotHashes.length + 2)
    ⟨root, 0, slotHashes.length, []⟩
  require .slotsMismatch (c.lockoutsIndex = p.lockouts.length)
  require .slotsHashMismatch (slotHashes[c.slotHashesIndex]?.map SlotHash.hash = some p.hash)
  let lockouts ← popFiltered c.toFilter p.lockouts.length p.lockouts
  return (lockouts, root)

def VoteState.checkAndFilterProposedVoteState (s : VoteState) (slotHashes : List SlotHash) (p : Proposal) :
    Except Err (List Lockout × Option Slot) :=
  match p.lockouts.getLast? with
  | none => .error .emptySlots
  | some last =>
    if s.votes.getLast?.any fun v => decide (last.slot ≤ v.slot) then .error .voteTooOld
    else
      match slotHashes.getLast? with
      | none => .error .slotsMismatch
      | some oldest =>
        if last.slot < oldest.slot then .error .voteTooOld else s.filterProposed slotHashes oldest.slot p

end

section

def checkVotes (newRoot : Option Slot) : Option Lockout → List LandedVote → Except Err Unit
  | _, [] => .ok ()
  | previous, vote :: newer =>
    if vote.lockout.confirmationCount = 0 then .error .zeroConfirmations
    else if maxLockoutHistory < vote.lockout.confirmationCount then .error .confirmationTooLarge
    else if newRoot.any fun root => decide (vote.slot ≤ root ∧ root.val ≠ 0) then .error .slotSmallerThanRoot
    else if previous.any fun p => decide (vote.slot ≤ p.slot) then .error .slotsNotOrdered
    else if previous.any fun p => decide (p.confirmationCount ≤ vote.lockout.confirmationCount) then
      .error .confirmationsNotOrdered
    else if previous.any fun p => decide (p.lastLockedOutSlot < vote.slot.val) then .error .newVoteStateLockoutMismatch
    else checkVotes newRoot (some vote.lockout) newer

def rootedCount (votes : List LandedVote) (newRoot : Option Slot) : Nat :=
  match newRoot with
  | none => 0
  | some root => (votes.takeWhile fun v => decide (v.slot ≤ root)).length

def mergeFrom (current : LandedVote) (next : List LandedVote → Except Err (List LandedVote)) :
    List LandedVote → Except Err (List LandedVote)
  | [] => .ok []
  | new :: newer =>
    if current.slot < new.slot then
      if new.slot.val ≤ satAdd current.slot (2 ^ min current.lockout.confirmationCount maxLockoutHistory) then
        .error .lockoutConflict
      else next (new :: newer)
    else if current.slot = new.slot then
      if new.lockout.confirmationCount < current.lockout.confirmationCount then .error .confirmationRollBack
      else (next newer).map ({ new with latency := current.latency } :: ·)
    else (mergeFrom current next newer).map (new :: ·)

def mergeVotes : List LandedVote → List LandedVote → Except Err (List LandedVote)
  | [], new => .ok new
  | current :: later, new => mergeFrom current (mergeVotes later) new

variable (s : VoteState)

def VoteState.incrementCredits (epoch credits : Nat) : VoteState :=
  let history : List EpochCredits :=
    match s.epochCredits.getLast? with
    | none => [⟨epoch, 0, 0⟩]
    | some last =>
      if epoch = last.epoch then s.epochCredits
      else if last.credits ≠ last.prevCredits then
        (if maxEpochCreditsHistory ≤ s.epochCredits.length then s.epochCredits.tail else s.epochCredits) ++
          [⟨epoch, last.credits, last.credits⟩]
      else
        let renamed := s.epochCredits.dropLast ++ [{ last with epoch := epoch }]
        if maxEpochCreditsHistory < renamed.length then renamed.tail else renamed
  { s with epochCredits := history.modify (history.length - 1) fun e => { e with credits := satAdd e.credits credits } }

def VoteState.processTimestamp (slot : Slot) (timestamp : Int) : Except Err VoteState :=
  if slot.val < s.lastTimestamp.slot ∨ timestamp < s.lastTimestamp.timestamp ∨
      slot.val = s.lastTimestamp.slot ∧ timestamp ≠ s.lastTimestamp.timestamp ∧ s.lastTimestamp.slot ≠ 0 then
    .error .timestampTooOld
  else .ok { s with lastTimestamp := ⟨slot.val, timestamp⟩ }

def VoteState.land (merged : List LandedVote) (last : Slot) (newRoot : Option Slot)
    (timestamp : Option Int) (epoch : Nat) (currentSlot : Slot) : Except Err VoteState := do
  let earnedCredits := ((List.range (rootedCount s.votes newRoot)).map (creditsForVoteAtIndex s.votes)).sum
  let landed := merged.map fun v =>
    if v.latency = 0 then { v with latency := computeVoteLatency v.slot currentSlot } else v
  let credited := if s.rootSlot = newRoot then s else s.incrementCredits epoch earnedCredits
  let stamped ← timestamp.elim (.ok credited) (credited.processTimestamp last)
  return { stamped with votes := landed, rootSlot := newRoot }

def VoteState.processNewVoteState (newState : List LandedVote) (newRoot : Option Slot)
    (timestamp : Option Int) (epoch : Nat) (currentSlot : Slot) : Except Err VoteState :=
  match newState.getLast? with
  | none => .error .abort
  | some last => do
    require .tooManyVotes (newState.length ≤ maxLockoutHistory)
    require .rootRollBack (s.rootSlot.all fun root => newRoot.any fun new => decide (root ≤ new))
    checkVotes newRoot none newState
    let merged ← mergeVotes (s.votes.drop (rootedCount s.votes newRoot)) newState
    s.land merged last.slot newRoot timestamp epoch currentSlot

def VoteState.processProposal (slotHashes : List SlotHash) (epoch : Nat) (slot : Slot) (p : Proposal) :
    Except Err VoteState := do
  let (lockouts, root) ← s.checkAndFilterProposedVoteState slotHashes p
  s.processNewVoteState (lockouts.map fun l => ⟨0, l⟩) root p.timestamp epoch slot

end

def popExpiredVotes (votes : List LandedVote) (nextVoteSlot : Slot) : List LandedVote :=
  (votes.reverse.dropWhile fun v => !v.lockout.isLockedOutAtSlot nextVoteSlot).reverse

def doubleLockouts (votes : List LandedVote) : List LandedVote :=
  votes.mapIdx fun i v =>
    if i + v.lockout.confirmationCount < votes.length then { v with lockout := v.lockout.increaseConfirmationCount 1 }
    else v

def VoteState.processNextVoteSlot (s : VoteState) (nextVoteSlot : Slot) (epoch : Nat) (currentSlot : Slot) : VoteState :=
  if s.votes.getLast?.any fun v => decide (nextVoteSlot ≤ v.slot) then s
  else
    let votes := popExpiredVotes s.votes nextVoteSlot
    let landed : LandedVote := ⟨computeVoteLatency nextVoteSlot currentSlot, ⟨nextVoteSlot, 0⟩⟩
    match votes with
    | oldest :: later =>
      if votes.length = maxLockoutHistory then
        let s := { s with rootSlot := some oldest.slot }.incrementCredits epoch (creditsForVoteAtIndex votes 0)
        { s with votes := doubleLockouts (later ++ [landed]) }
      else { s with votes := doubleLockouts (votes ++ [landed]) }
    | [] => { s with votes := doubleLockouts [landed] }

end Firebam.VoteProgram
