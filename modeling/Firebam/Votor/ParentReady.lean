import Firebam.Votor.Finality

/-! ag_parent_ready_tracker: which certified blocks the first slot of a window may build on. -/
namespace Firebam.Votor
open Lib

structure ReadyState where
  slot : Nat
  skip : Bool := false
  notarFallbacks : List BlockHash := []
  isReady : Bool := false
  readyIds : List BlockId := []

structure ParentReady where
  slot : Nat
  parent : BlockId

inductive ReadyFault where
  | statePoolExhausted
  | notarFallbacksOverflow
  | readyIdsOverflow
  | potentialParentsFull
  | newlyCertifiedFull
  deriving DecidableEq

structure ReadyTracker where
  slotMax : Nat
  states : List ReadyState
  root : Nat

namespace ReadyTracker

def readyIdsMax : Nat := slotsPerWindow * notarFallbackCertMax

section
variable (t : ReadyTracker)

def query (slot : Nat) : Option ReadyState := t.states.find? fun s => s.slot = slot

def slotState (slot : Nat) : Except ReadyFault (ReadyState × ReadyTracker) :=
  match t.query slot with
  | some state => .ok (state, t)
  | none => do
    require .statePoolExhausted (t.states.length < t.slotMax)
    .ok ({ slot := slot }, { t with states := t.states ++ [{ slot := slot }] })

def set (state : ReadyState) : ReadyTracker :=
  { t with states := t.states.map fun s => if s.slot = state.slot then state else s }

end

/- add_to_ready. The array is not checked for room. -/
def addToReady (state : ReadyState) (id : BlockId) : Except ReadyFault ReadyState :=
  if !state.isReady then .ok { state with readyIds := [id], isReady := true }
  else do
    require .readyIdsOverflow (state.readyIds.length < readyIdsMax)
    .ok { state with readyIds := state.readyIds ++ [id] }

/- The loops that pass parents on to the following slots, up to the first that is not skipped. -/
def passOn (parents : List BlockId) (room : Nat) : Nat → Nat → ReadyTracker → List ParentReady →
    Except ReadyFault (ReadyTracker × List ParentReady)
  | 0, _, t, certified => .ok (t, certified)
  | n + 1, slot, t, certified => do
    let (state, t) ← t.slotState slot
    let (state, certified) ←
      if isStartOfWindow slot then
        parents.foldlM (fun (acc : ReadyState × List ParentReady) id => do
          let state ← addToReady acc.1 id
          require .newlyCertifiedFull (acc.2.length < room)
          .ok (state, acc.2 ++ [⟨slot, id⟩])) (state, certified)
      else .ok (state, certified)
    let t := t.set state
    if !state.skip then .ok (t, certified) else passOn parents room n (slot + 1) t certified

local instance lawfulFallback : LawfulBEq BlockHash := inferInstance

def markNotarFallback (t : ReadyTracker) (id : BlockId) : Except ReadyFault (ReadyTracker × List ParentReady) :=
  if id.slot < t.root then .ok (t, [])
  else do
    let (state, t) ← t.slotState id.slot
    if id.hash ∈ state.notarFallbacks then .ok (t, [])
    else do
      require .notarFallbacksOverflow (state.notarFallbacks.length < notarFallbackCertMax)
      let t := t.set { state with notarFallbacks := state.notarFallbacks ++ [id.hash] }
      -- one round for each slot that may be skipped, and one for the last
      passOn [id] wordSize (t.states.length + 1) (id.slot + 1) t []

/- The slots from a marked one down to the start of its window or the root. From slot 0 the loop
counter wraps around once. -/
def downTo (marked low : Nat) : List Nat :=
  ((List.range (marked + 1 - low)).map fun i => marked - i) ++ if low = 0 then [wordSize - 1] else []

def potentialParents (marked : Nat) : List Nat → ReadyTracker → List BlockId →
    Except ReadyFault (ReadyTracker × List BlockId)
  | [], t, parents => .ok (t, parents)
  | slot :: rest, t, parents => do
    let (state, t) ← t.slotState slot
    let parents := parents ++ if slot ≠ marked then state.notarFallbacks.map fun hash => ⟨slot, hash⟩ else []
    require .potentialParentsFull (parents.length ≤ readyIdsMax)
    if !state.skip then .ok (t, parents)
    else do
      let parents := parents ++ state.readyIds
      require .potentialParentsFull (parents.length ≤ readyIdsMax)
      potentialParents marked rest t parents

def markSkipped (t : ReadyTracker) (marked : Nat) : Except ReadyFault (ReadyTracker × List ParentReady) :=
  if marked < t.root then .ok (t, [])
  else do
    let (state, t) ← t.slotState marked
    if state.skip then .ok (t, [])
    else do
      let t := t.set { state with skip := true }
      let (t, parents) ← potentialParents marked (downTo marked (max (firstSlotInWindow marked) t.root)) t []
      passOn parents t.slotMax (t.states.length + 1) (marked + 1) t []

def keepHighest (best : Option ParentReady) (ready : List ParentReady) : Option ParentReady :=
  ready.foldl (fun best r => match best with
    | none => some r
    | some b => if b.slot ≤ r.slot then some r else some b) best

def handleFinalization (t : ReadyTracker) (event : FinalizationEvent) :
    Except ReadyFault (ReadyTracker × Option ParentReady) := do
  let mark := fun (acc : ReadyTracker × Option ParentReady) (id : BlockId) => do
    let (t, ready) ← acc.1.markNotarFallback id
    .ok (t, keepHighest acc.2 ready)
  let skip := fun (acc : ReadyTracker × Option ParentReady) (slot : Nat) => do
    let (t, ready) ← acc.1.markSkipped slot
    .ok (t, keepHighest acc.2 ready)
  let acc ← event.finalized.toList.foldlM mark (t, none)
  let acc ← event.implicitlyFinalized.foldlM mark acc
  event.implicitlySkipped.foldlM skip acc

def prune (t : ReadyTracker) (newRoot : Nat) : ReadyTracker :=
  { t with
    states := t.states.filter fun s => !decide (t.root ≤ s.slot ∧ s.slot < newRoot)
    root := newRoot }

end ReadyTracker

end Firebam.Votor
