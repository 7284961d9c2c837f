import Firebam.Votor.SlotState

/-! ag_pool: votes, certificates and blocks come in, and the slot states, the two trackers and the
blocks that wait for a certificate of their parent are kept together. -/
namespace Firebam.Votor
open Lib

inductive PoolFault where
  | tracker (fault : TrackerFault)
  | ready (fault : ReadyFault)
  | slot (fault : SlotFault)
  | slotStatePoolEmpty
  | waitingPoolEmpty
  | noEpochInfo
  deriving DecidableEq

/- ag_pool_t, with the buffers its pointers point to. The queues of events hold all that was
pushed. The last field is history: the slots for which stake was counted or a quorum tested,
each with the ranking that was used. -/
structure Pool where
  slotMax : Nat
  slotStates : List SlotState
  readyTracker : ReadyTracker
  finalityTracker : FinalityTracker
  waiting : List (BlockId × BlockId)
  currEpochInfo : Option Buffer
  currEpochRank : Option Nat
  currEpochSlot : Nat
  nextEpochInfo : Option Buffer
  nextEpochRank : Option Nat
  nextEpochSlot : Nat
  buffer : Buffer → EpochInfo
  poolEvents : List PoolEvent
  repairEvents : List BlockId
  judged : List (Nat × EpochInfo)

inductive PoolResult where
  | success
  | slotOutOfBounds
  | duplicate
  | slashable
  | hashCapacity

namespace Pool

def liftTracker {α : Type} : Except TrackerFault α → Except PoolFault α
  | .ok a => .ok a
  | .error e => .error (.tracker e)

def liftReady {α : Type} : Except ReadyFault α → Except PoolFault α
  | .ok a => .ok a
  | .error e => .error (.ready e)

def liftSlot {α : Type} : Except SlotFault α → Except PoolFault α
  | .ok a => .ok a
  | .error e => .error (.slot e)

section

variable (p : Pool)

section
variable (slot : Nat)

def querySlot : Option SlotState := p.slotStates.find? fun s => s.slot = slot

/- The ranking for a slot, chosen by the start of the next epoch only -/
def selectInfo : Option Buffer :=
  if p.nextEpochSlot ≤ slot then p.nextEpochInfo else p.currEpochInfo

def selectRank : Option Nat :=
  if p.nextEpochSlot ≤ slot then p.nextEpochRank else p.currEpochRank

def slotState : Except PoolFault (SlotState × Pool) :=
  match p.querySlot slot with
  | some state => .ok (state, p)
  | none => do
    require .slotStatePoolEmpty (p.slotStates.length < p.slotMax)
    match p.selectInfo slot with
    | none => .error .noEpochInfo
    | some info =>
      let state : SlotState := { slot := slot, epochInfo := info, ownRank := p.selectRank slot }
      .ok (state, { p with slotStates := p.slotStates ++ [state] })

end

def setSlot (state : SlotState) : Pool :=
  { p with slotStates := p.slotStates.map fun s => if s.slot = state.slot then state else s }

def infoOf (state : SlotState) : EpochInfo := p.buffer state.epochInfo

def judge (slot : Nat) (info : EpochInfo) : Pool := { p with judged := p.judged ++ [(slot, info)] }

def push (event : PoolEvent) : Pool := { p with poolEvents := p.poolEvents ++ [event] }

def repair (block : BlockId) : Pool := { p with repairEvents := p.repairEvents ++ [block] }

def pushReady (ready : List ParentReady) : Pool :=
  ready.foldl (fun p r => p.push (.parentReady r.slot r.parent)) p

end

section
variable (p : Pool)

def announce (event : FinalizationEvent) : Except PoolFault Pool := do
  let (tracker, ready) ← liftReady (p.readyTracker.handleFinalization event)
  .ok ({ p with readyTracker := tracker }.pushReady ready.toList)

/- The slot states that go when the pool is pruned, and the parent-ready states -/
def pruneBelow : Pool :=
  let first := p.finalityTracker.firstUnprunedSlot
  { p with
    slotStates := p.slotStates.filter fun s => !decide (p.readyTracker.root ≤ s.slot ∧ s.slot < first)
    readyTracker := p.readyTracker.prune first }

def handleFinalization (event : FinalizationEvent) : Except PoolFault Pool := do
  let p ← p.announce event
  .ok p.pruneBelow

/- A mark of the finality tracker and what follows from it -/
def mark (marked : Except TrackerFault (FinalityTracker × FinalizationEvent)) : Except PoolFault Pool := do
  let (tracker, event) ← liftTracker marked
  { p with finalityTracker := tracker }.handleFinalization event

section
variable (block : BlockId)

def notifyCertified : Except PoolFault (SafeToNotar × Pool) := do
  let (state, p) ← p.slotState block.slot
  let p := p.judge block.slot (p.infoOf state)
  let (output, state) ← liftSlot (state.notifyParentCertified (p.infoOf state) block.hash)
  let p := p.setSlot state
  .ok (output, match output with
    | .missingBlock => p.repair block
    | .awaitingVotes => p
    | .safeToNotar => p.push (.safeToNotar block))

def wakeChild : Except PoolFault Pool :=
  match p.waiting.find? fun x => x.1 = block with
  | none => .ok p
  | some (_, child) =>
    Prod.snd <$> { p with waiting := p.waiting.filter fun x => x.1 ≠ block }.notifyCertified child

def certifyBlock : Except PoolFault Pool := do
  let p ← p.wakeChild block
  let (tracker, ready) ← liftReady (p.readyTracker.markNotarFallback block)
  .ok (({ p with readyTracker := tracker }.pushReady ready).repair block)

end

def addValidCert (cert : Cert) : Except PoolFault Pool := do
  let (state, p) ← p.slotState cert.slot
  let state ← liftSlot (state.addCert cert)
  let p := p.setSlot state
  let p ← match cert with
    | .notar slot hash _ => do
      let p ← p.mark (p.finalityTracker.markNotarized ⟨slot, hash⟩)
      p.certifyBlock ⟨slot, hash⟩
    | .notarFallback slot hash _ => p.certifyBlock ⟨slot, hash⟩
    | .skip slot _ => do
      let (tracker, ready) ← liftReady (p.readyTracker.markSkipped slot)
      .ok ({ p with readyTracker := tracker }.pushReady ready)
    | .fastFinal slot hash _ => p.mark (p.finalityTracker.markFastFinalized ⟨slot, hash⟩)
    | .final slot _ => p.mark (p.finalityTracker.markFinalized slot)
  .ok (p.push (.certCreated cert))

def advanceEpoch (info : Buffer) (rank : Option Nat) (slot : Nat) : Pool :=
  if p.currEpochInfo = none then { p with currEpochInfo := some info, currEpochRank := rank, currEpochSlot := slot }
  else if p.nextEpochInfo = none then
    { p with nextEpochInfo := some info, nextEpochRank := rank, nextEpochSlot := slot }
  else { p with
    currEpochInfo := p.nextEpochInfo, currEpochRank := p.nextEpochRank, currEpochSlot := p.nextEpochSlot
    nextEpochInfo := some info, nextEpochRank := rank, nextEpochSlot := slot }

def inBounds (slot : Nat) : Bool :=
  p.finalityTracker.firstUnprunedSlot ≤ slot && slot < p.finalityTracker.highestFinalizedSlot + 2 * slotsPerEpoch

end

def isDuplicate (state : SlotState) : Cert → Bool
  | .notar _ _ _ => state.certs.notar.isSome
  | .notarFallback _ hash _ => state.isNotarFallback hash
  | .skip _ _ => state.certs.skip.isSome
  | .fastFinal _ _ _ => state.certs.fastFinalize.isSome
  | .final _ _ => state.certs.finalize.isSome

def addCert (p : Pool) (cert : Cert) : Except PoolFault (PoolResult × Pool) :=
  if !p.inBounds cert.slot then .ok (.slotOutOfBounds, p)
  else do
    let (state, p) ← p.slotState cert.slot
    if isDuplicate state cert then .ok (.duplicate, p)
    else do
      let p ← p.addValidCert cert
      .ok (.success, p)

def refuses (state : SlotState) (vote : Vote) : Option PoolResult :=
  if (state.votes.checkSlashableOffence vote).isSome then some .slashable
  else if state.votes.shouldIgnoreVote vote then some .duplicate
  else match vote with
    | .notarFallback _ _ rank =>
      if notarFallbackVoteMax ≤ (state.votes.notarFallbacksOf rank).length then some .hashCapacity else none
    | _ => none

section
variable (p : Pool)

def recordVote (vote : Vote) : Except PoolFault (PoolResult × Outputs × Pool) :=
  if !p.inBounds vote.slot then .ok (.slotOutOfBounds, {}, p)
  else match p.selectInfo vote.slot with
    | none => .error .noEpochInfo
    | some info => do
      let stake := (p.buffer info).stakeOf vote.rank
      let p := p.judge vote.slot (p.buffer info)
      let (state, p) ← p.slotState vote.slot
      match refuses state vote with
      | some result => .ok (result, {}, p)
      | none => do
        let p := p.judge vote.slot (p.infoOf state)
        let (state, out) ← liftSlot (state.addVote (p.infoOf state) vote stake)
        .ok (.success, out, p.setSlot state)

def addVote (vote : Vote) : Except PoolFault (PoolResult × Pool) := do
  let (result, out, p) ← p.recordVote vote
  let p ← out.certs.foldlM addValidCert p
  let p := out.votorEvents.foldl push p
  .ok (result, out.repair.foldl (fun p hash => p.repair ⟨vote.slot, hash⟩) p)

def parentCertified (parent : BlockId) : Bool :=
  match p.querySlot parent.slot with
  | some state => state.isNotarFallbackOrStronger parent.hash
  | none => false

variable (block : BlockId)

/- The block waits for the certificate of its parent. There is one entry per parent. -/
def awaitParent (parent : BlockId) : Except PoolFault Pool :=
  if (p.waiting.find? fun x => x.1 = parent).isSome then
    .ok { p with waiting := p.waiting.map fun x => if x.1 = parent then (parent, block) else x }
  else do
    require .waitingPoolEmpty (p.waiting.length < p.slotMax * eqvocBlockHashMax)
    .ok { p with waiting := p.waiting ++ [(parent, block)] }

def placeBlock (parent : BlockId) : Except PoolFault Pool :=
  if p.parentCertified parent then do
    let (output, p) ← p.notifyCertified block
    match output with
    | .missingBlock | .safeToNotar => .ok p
    | .awaitingVotes => p.awaitParent block parent
  else p.awaitParent block parent

def addBlock (parent : BlockId) : Except PoolFault Pool := do
  let (tracker, event) ← liftTracker (p.finalityTracker.addParent block parent)
  let p ← { p with finalityTracker := tracker }.announce event
  let (state, p) ← p.slotState block.slot
  let state ← liftSlot (state.notifyParentKnown block.hash)
  (p.setSlot state).placeBlock block parent

end

/- ag_pool_new and ag_pool_init. The trackers round the number of slots up to a power of two. -/
def init (slotMax slot : Nat) (buffer : Buffer → EpochInfo) : Pool :=
  { slotMax := slotMax, slotStates := []
    readyTracker := ⟨pow2Up slotMax, [], slot⟩
    finalityTracker := .init (pow2Up slotMax) slot
    waiting := []
    currEpochInfo := none, currEpochRank := none, currEpochSlot := wordSize - 1
    nextEpochInfo := none, nextEpochRank := none, nextEpochSlot := wordSize - 1
    buffer := buffer, poolEvents := [], repairEvents := [], judged := [] }

end Pool

end Firebam.Votor
