import Firebam.Votor.Base

/-! ag_finality_tracker: the status of each slot, the parent links of blocks, and what a
finalized block decides about its ancestors. -/
namespace Firebam.Votor
open Lib

inductive Status where
  | notarized (hash : BlockHash)
  | finalPendingNotar
  | finalized (hash : BlockHash)
  | implicitlyFinalized (hash : BlockHash)
  | implicitlySkipped
  deriving DecidableEq

structure FinalizationEvent where
  finalized : Option BlockId := none
  implicitlyFinalized : List BlockId := []
  implicitlySkipped : List Nat := []

inductive TrackerFault where
  | consensusSafetyViolation
  | parentNotBelow
  | otherParent
  | statusPoolEmpty
  | parentPoolEmpty
  deriving DecidableEq

/- ag_finality_tracker_t. Both pools are sized for slotMax slots. -/
structure FinalityTracker where
  slotMax : Nat
  status : List (Nat × Status)
  parents : List (BlockId × BlockId)
  highestFinalizedSlot : Nat
  firstUnprunedSlot : Nat

/- The kinds after which prune may move on. -/
def Status.Decided : Status → Prop
  | .finalized _ | .implicitlyFinalized _ | .implicitlySkipped => True
  | .notarized _ | .finalPendingNotar => False

instance : DecidablePred Status.Decided := fun status => by
  cases status <;> unfold Status.Decided <;> infer_instance

namespace FinalityTracker

def statusOf (t : FinalityTracker) (slot : Nat) : Option Status :=
  (t.status.find? fun x => x.1 = slot).map Prod.snd

def parentOf (t : FinalityTracker) (block : BlockId) : Option BlockId :=
  (t.parents.find? fun x => x.1 = block).map Prod.snd

/- status_insert, with the status it replaces -/
def statusInsert (t : FinalityTracker) (slot : Nat) (status : Status) :
    Except TrackerFault (Option Status × FinalityTracker) :=
  match t.statusOf slot with
  | some old => .ok (some old, { t with
      status := t.status.map fun x => if x.1 = slot then (slot, status) else x })
  | none => do
    require .statusPoolEmpty (t.status.length < t.slotMax)
    .ok (none, { t with status := t.status ++ [(slot, status)] })

/- The first loop of prune. There are no more rounds than there are statuses. -/
def advance (t : FinalityTracker) : Nat → Nat → Nat
  | 0, first => first
  | n + 1, first =>
    match t.statusOf (first + 1) with
    | some status => if status.Decided then t.advance n (first + 1) else first
    | none => first

def prune (t : FinalityTracker) : FinalityTracker :=
  let first := t.advance t.status.length t.firstUnprunedSlot
  { t with
    firstUnprunedSlot := first
    status := t.status.filter fun x => !decide (t.firstUnprunedSlot ≤ x.1 ∧ x.1 < first)
    parents := t.parents.filter fun x => !decide (x.1.slot < first) }

/- The loop over the slots between a block and its parent. It is left, and with it the walk, at
a slot that was skipped before. -/
def skipGap : List Nat → FinalityTracker → FinalizationEvent →
    Except TrackerFault (Bool × FinalityTracker × FinalizationEvent)
  | [], t, event => .ok (true, t, event)
  | slot :: rest, t, event => do
    let (old, t) ← t.statusInsert slot .implicitlySkipped
    match old with
    | some .implicitlySkipped => .ok (false, t, event)
    | some .finalPendingNotar | some (.finalized _) | some (.implicitlyFinalized _) =>
      .error .consensusSafetyViolation
    | none | some (.notarized _) =>
      skipGap rest t { event with implicitlySkipped := event.implicitlySkipped ++ [slot] }

/- What becomes of the slot of an ancestor: the walk goes on if the ancestor is new. -/
def finalizeImplicitly (t : FinalityTracker) (block : BlockId) (event : FinalizationEvent) :
    Except TrackerFault (Bool × FinalityTracker × FinalizationEvent) := do
  let (old, t) ← t.statusInsert block.slot (.implicitlyFinalized block.hash)
  let reported := { event with implicitlyFinalized := event.implicitlyFinalized ++ [block] }
  match old with
  | some (.finalized hash) => do
    require .consensusSafetyViolation (hash = block.hash)
    let (_, t) ← t.statusInsert block.slot (.finalized hash)
    .ok (false, t, event)
  | some (.implicitlyFinalized hash) => do
    require .consensusSafetyViolation (hash = block.hash)
    let (_, t) ← t.statusInsert block.slot (.implicitlyFinalized hash)
    .ok (false, t, event)
  | some (.notarized hash) => do
    require .consensusSafetyViolation (hash = block.hash)
    .ok (true, t, reported)
  | some .implicitlySkipped => .error .consensusSafetyViolation
  | some .finalPendingNotar | none => .ok (true, t, reported)

def between (low high : Nat) : List Nat := (List.range (high - (low + 1))).map fun i => low + 1 + i

/- handle_implicitly_finalized. The source slot falls in every round and bounds their number. -/
def handleImplicitlyFinalized : Nat → Nat → BlockId → FinalityTracker → FinalizationEvent →
    Except TrackerFault (FinalityTracker × FinalizationEvent)
  | 0, _, _, _, _ => .error .parentNotBelow
  | n + 1, source, block, t, event => do
    require .parentNotBelow (block.slot < source)
    if block.slot < t.firstUnprunedSlot then .ok (t, event)
    else
      let (more, t, event) ← skipGap (between block.slot source) t event
      if !more then .ok (t, event)
      else
        let (more, t, event) ← t.finalizeImplicitly block event
        if !more then .ok (t, event)
        else match t.parentOf block with
          | none => .ok (t, event)
          | some parent => handleImplicitlyFinalized n block.slot parent t event

def handleFinalizedBlock (t : FinalityTracker) (block : BlockId) (event : FinalizationEvent) :
    Except TrackerFault (FinalityTracker × FinalizationEvent) := do
  let event := { event with finalized := some block }
  let t := { t with highestFinalizedSlot := max block.slot t.highestFinalizedSlot }
  match t.parentOf block with
  | none => .ok (t.prune, event)
  | some parent => do
    let (t, event) ← handleImplicitlyFinalized block.slot block.slot parent t event
    .ok (t.prune, event)

def init (slotMax slot : Nat) : FinalityTracker := ⟨slotMax, [], [], slot, slot⟩

variable (t : FinalityTracker)

section
variable (block : BlockId)

def addParent (parent : BlockId) :
    Except TrackerFault (FinalityTracker × FinalizationEvent) := do
  require .parentNotBelow (parent.slot < block.slot)
  if block.slot < t.firstUnprunedSlot then .ok (t, {})
  else match t.parentOf block with
    | some known => do
      require .otherParent (known = parent)
      .ok (t, {})
    | none => do
      require .parentPoolEmpty (t.parents.length < t.slotMax * eqvocBlockHashMax)
      let t := { t with parents := t.parents ++ [(block, parent)] }
      match t.statusOf block.slot with
      | some (.finalized hash) | some (.implicitlyFinalized hash) =>
        if block.hash = hash then do
          let (t, event) ← handleImplicitlyFinalized block.slot block.slot parent t {}
          .ok (t.prune, event)
        else .ok (t, {})
      | some (.notarized _) | some .finalPendingNotar | some .implicitlySkipped | none => .ok (t, {})

def markFastFinalized :
    Except TrackerFault (FinalityTracker × FinalizationEvent) := do
  if block.slot < t.firstUnprunedSlot then .ok (t, {})
  else
    let (old, t) ← t.statusInsert block.slot (.finalized block.hash)
    match old with
    | some (.finalized hash) | some (.implicitlyFinalized hash) => do
      require .consensusSafetyViolation (hash = block.hash)
      .ok (t, {})
    | some (.notarized hash) => do
      require .consensusSafetyViolation (hash = block.hash)
      t.handleFinalizedBlock block {}
    | some .implicitlySkipped => .error .consensusSafetyViolation
    | some .finalPendingNotar | none => t.handleFinalizedBlock block {}

def markNotarized :
    Except TrackerFault (FinalityTracker × FinalizationEvent) := do
  if block.slot < t.firstUnprunedSlot then .ok (t, {})
  else
    let (old, t) ← t.statusInsert block.slot (.notarized block.hash)
    match old with
    | none | some .implicitlySkipped => .ok (t, {})
    | some (.notarized hash) | some (.finalized hash) | some (.implicitlyFinalized hash) => do
      require .consensusSafetyViolation (hash = block.hash)
      .ok (t, {})
    | some .finalPendingNotar => do
      let (_, t) ← t.statusInsert block.slot (.finalized block.hash)
      t.handleFinalizedBlock block {}

end

def markFinalized (slot : Nat) :
    Except TrackerFault (FinalityTracker × FinalizationEvent) := do
  if slot < t.firstUnprunedSlot then .ok (t, {})
  else
    let (old, t) ← t.statusInsert slot .finalPendingNotar
    match old with
    | none | some .finalPendingNotar | some (.finalized _) | some (.implicitlyFinalized _) => .ok (t, {})
    | some (.notarized hash) => do
      let (_, t) ← t.statusInsert slot (.finalized hash)
      t.handleFinalizedBlock ⟨slot, hash⟩ {}
    | some .implicitlySkipped => .error .consensusSafetyViolation

end FinalityTracker

end Firebam.Votor
