import Firebam.Lib.Check

/-! The stakes of the vote accounts. An epoch that is not there is none. -/
namespace Firebam.VoteStakes
open Lib

abbrev Pubkey := Nat

structure Vacc where
  pubkey : Pubkey
  nodeAccount : Pubkey
  stake : Nat
  commission : Nat
  deriving DecidableEq

structure State where
  lastVoteSlot : Nat
  lastVoteTs : Int
  isValid : Bool

def State.zero : State := ⟨0, 0, false⟩

def State.set (st : State) (slot : Nat) (ts : Int) (isValid : Bool) : State :=
  if isValid then ⟨slot, ts, true⟩ else { st with isValid := false }

def vatMax : Nat := 2000

/-- The epoch, the place of the set and the place of the states in one word. -/
abbrev ForkId := Nat

def forkIdBankId (id : ForkId) : Nat := id % 2 ^ 16
def forkIdWidthId (id : ForkId) : Nat := id / 2 ^ 16 % 2 ^ 16
def forkIdEpoch (id : ForkId) : Nat := id / 2 ^ 32 % 2 ^ 16

def forkId (bank width epoch : Nat) : ForkId := bank % 2 ^ 16 + width % 2 ^ 16 * 2 ^ 16 + epoch % 2 ^ 16 * 2 ^ 32

structure Stakes where
  minStakeWmark : Nat
  t2Epoch : Nat → Option Nat
  t2 : Nat → List Vacc
  freeForks : List Nat
  refCnt : Nat → Nat
  t1 : Nat → List Vacc
  heap : List Vacc
  freeStates : List Nat
  states : Nat → Nat → State

inductive Fault where
  | widthPoolExhausted | statePoolExhausted | epoch | refCnt

def update {β : Type} (f : Nat → β) (i : Nat) (b : β) : Nat → β := fun j => if j = i then b else f j

def lookup (l : List Vacc) (key : Pubkey) : Option Vacc := l.find? fun v => v.pubkey = key

def place (l : List Vacc) (key : Pubkey) : Nat := l.findIdx fun v => v.pubkey = key

namespace Stakes

def empty (maxLiveSlots maxForkWidth : Nat) : Stakes where
  minStakeWmark := 0
  t2Epoch := fun _ => none
  t2 := fun _ => []
  freeForks := List.range (maxForkWidth + 1)
  refCnt := fun _ => 0
  t1 := fun _ => []
  heap := []
  freeStates := List.range maxLiveSlots
  states := fun _ _ => .zero

section
variable (s : Stakes)

def init (epoch : Nat) : Except Fault (Stakes × ForkId) :=
  match s.freeForks, s.freeStates with
  | [], _ => .error .widthPoolExhausted
  | _ :: _, [] => .error .statePoolExhausted
  | width :: forks, bank :: states =>
    .ok ({ s with
      freeForks := forks
      refCnt := update s.refCnt width 1
      freeStates := states
      states := update s.states bank fun _ => .zero
      t2Epoch := update s.t2Epoch (epoch % 2) (some epoch) }, forkId bank width epoch)

def snapInsertT1 (id : ForkId) (v : Vacc) : Stakes :=
  if v.stake = 0 then s
  else { s with t1 := update s.t1 (forkIdWidthId id) (v :: s.t1 (forkIdWidthId id)) }

def snapInsertT2 (id : ForkId) (v : Vacc) : Stakes :=
  if v.stake = 0 then s
  else { s with t2 := update s.t2 (forkIdEpoch id % 2) (s.t2 (forkIdEpoch id % 2) ++ [v]) }

def snapInsertT3 (id : ForkId) (v : Vacc) : Stakes :=
  if forkIdEpoch id = 0 ∨ v.stake = 0 then s
  else
    let epoch := forkIdEpoch id - 1
    { s with
      t2 := update s.t2 (epoch % 2) (s.t2 (epoch % 2) ++ [v])
      t2Epoch := update s.t2Epoch (epoch % 2) (some epoch) }

def evict (width min : Nat) : Stakes :=
  { s with
    minStakeWmark := min
    heap := s.heap.filter (·.stake ≠ min)
    t1 := update s.t1 width ((s.t1 width).filter fun v => ¬s.heap.any fun w => w.stake = min ∧ w.pubkey = v.pubkey) }

def accept (width : Nat) (v : Vacc) : Stakes :=
  { s with heap := v :: s.heap, t1 := update s.t1 width (v :: s.t1 width) }

def insert (id : ForkId) (v : Vacc) : Stakes :=
  let width := forkIdWidthId id
  if v.stake = 0 ∨ v.stake ≤ s.minStakeWmark then s
  else if s.heap.length = vatMax then
    match (s.heap.map Vacc.stake).min? with
    | none => s
    | some min =>
      if v.stake < min then s
      else if v.stake = min then s.evict width min
      else (s.evict width min).accept width v
  else s.accept width v

def purgeFork (id : ForkId) : Except Fault Stakes := do
  let width := forkIdWidthId id
  require .refCnt (s.refCnt width ≠ 0)
  let s := { s with freeStates := forkIdBankId id :: s.freeStates, refCnt := update s.refCnt width (s.refCnt width - 1) }
  .ok (if s.refCnt width = 0 then { s with t1 := update s.t1 width [], freeForks := width :: s.freeForks } else s)

end

def rotate (order : List Vacc → List Vacc) (s : Stakes) (width epoch : Nat) : Stakes :=
  if s.t2Epoch (epoch % 2) = some epoch then s
  else { s with
    t2 := update s.t2 (epoch % 2) (order (s.t1 width))
    t2Epoch := update s.t2Epoch (epoch % 2) (some epoch) }

def enter (s : Stakes) (bank epoch : Nat) : Except Fault (Stakes × ForkId) :=
  match s.freeForks with
  | [] => .error .widthPoolExhausted
  | width :: forks =>
    .ok ({ s with
      freeForks := forks
      refCnt := update s.refCnt width 1
      t1 := update s.t1 width []
      states := update s.states bank fun _ => .zero
      heap := []
      minStakeWmark := 0 }, forkId bank width epoch)

def inherit (s : Stakes) (parent : ForkId) (bank epoch : Nat) : Stakes × ForkId :=
  let width := forkIdWidthId parent
  ({ s with
    refCnt := update s.refCnt width (s.refCnt width + 1)
    states := update s.states bank (s.states (forkIdBankId parent)) }, forkId bank width epoch)

def newFork (order : List Vacc → List Vacc) (s : Stakes) (parent : ForkId) (epoch : Nat) :
    Except Fault (Stakes × ForkId) := do
  require .epoch (epoch < 2 ^ 16)
  match s.freeStates with
  | [] => .error .statePoolExhausted
  | bank :: free =>
    let s := { s with freeStates := free }
    if epoch = forkIdEpoch parent then .ok (s.inherit parent bank epoch)
    else (s.rotate order (forkIdWidthId parent) epoch).enter bank epoch

variable (s : Stakes)

def updateState (id : ForkId) (key : Pubkey) (slot : Nat) (ts : Int) (isValid : Bool) : Stakes :=
  let set := s.t2 (forkIdEpoch id % 2)
  let bank := forkIdBankId id
  match lookup set key with
  | none => s
  | some _ =>
    let voted := (s.states bank (place set key)).set slot ts isValid
    { s with states := update s.states bank (update (s.states bank) (place set key) voted) }

def queryT1 (id : ForkId) (key : Pubkey) : Option Vacc := lookup (s.t1 (forkIdWidthId id)) key

def queryT2 (id : ForkId) (key : Pubkey) : Option (Vacc × State) :=
  let set := s.t2 (forkIdEpoch id % 2)
  (lookup set key).map fun v => (v, s.states (forkIdBankId id) (place set key))

def queryT3 (id : ForkId) (key : Pubkey) : Option Vacc :=
  let epoch := forkIdEpoch id - 1
  if forkIdEpoch id = 0 ∨ s.t2Epoch (epoch % 2) ≠ some epoch then none
  else lookup (s.t2 (epoch % 2)) key

end Stakes

end Firebam.VoteStakes
