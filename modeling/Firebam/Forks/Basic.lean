import Firebam.Lib.Check
import Firebam.Lib.Chain
import Firebam.Lib.Tree

/-! The fork tree of banks. Every null index is none. -/
namespace Firebam.Forks
open Lib

abbrev Idx := Nat

inductive State where
  | inactive | init | replayable | frozen | dead | prunable
  deriving DecidableEq

structure Bank where
  seq : Nat
  parent : Option Idx
  child : Option Idx
  sibling : Option Idx
  state : State
  refcnt : Nat
  isLeader : Bool
  costTracker : Option Nat
  delegations : Bool

structure Entry where
  idx : Idx
  seq : Nat

structure Banks where
  maxTotalBanks : Nat
  bank : Idx → Bank
  free : List Idx
  costTrackers : List Nat
  root : Idx
  bankSeq : Nat
  evictRrIdx : Nat
  prunable : Option Idx
  currForkWidth : Nat
  dead : List Entry

inductive Fault where
  | noFreeBank | notInactive | badParent | notInit | parentNotFrozen | noCostTracker | notReplayable
  | costTrackerNull | deadFull | notPrunable | prunableIdx | notLeaf | nullBank | forkWidth | refcnt
  | notDescendant | notFrozen | notEvictable | endless
  deriving DecidableEq

def deadMax : Nat := 4096

namespace Banks

section
variable (s : Banks)

def modify (i : Idx) (f : Bank → Bank) : Banks :=
  { s with bank := fun j => if j = i then f (s.bank j) else s.bank j }

def children (i : Idx) : List Idx := follow (fun j => (s.bank j).sibling) s.maxTotalBanks (s.bank i).child

def live : List Idx := (List.range s.maxTotalBanks).filter fun i => (s.bank i).state ≠ .inactive

def link (p i : Idx) : Banks :=
  let s := s.modify i fun b => { b with parent := some p }
  match (s.children p).getLast? with
  | none => s.modify p fun b => { b with child := some i }
  | some last => { s.modify last (fun b => { b with sibling := some i }) with currForkWidth := s.currForkWidth + 1 }

def acquire (i : Idx) (free : List Idx) (isLeader : Bool) : Banks :=
  { s.modify i fun b => ⟨s.bankSeq, none, none, none, .init, 0, isLeader, b.costTracker, false⟩ with
    free := free, bankSeq := s.bankSeq + 1 }

def newBank (p : Idx) (isLeader : Bool) : Except Fault Banks :=
  match s.free with
  | [] => .error .noFreeBank
  | i :: free => do
    require .notInactive ((s.bank i).state = .inactive)
    let s := s.acquire i free isLeader
    require .badParent ((s.bank p).state ≠ .inactive ∧ (s.bank p).state ≠ .dead ∧ (s.bank p).state ≠ .prunable)
    .ok (s.link p i)

variable (i : Idx)

def parentState : Option State := (s.bank i).parent.map fun p => (s.bank p).state

def cloneFromParent : Except Fault Banks := do
  require .notInit ((s.bank i).state = .init)
  require .parentNotFrozen (s.parentState i = some .frozen ∨ s.parentState i = some .prunable)
  match s.costTrackers with
  | [] => .error .noCostTracker
  | t :: rest =>
    .ok { s.modify i fun b => { b with costTracker := some t, delegations := true, state := .replayable } with
      costTrackers := rest }

def releaseCostTracker : Banks :=
  match (s.bank i).costTracker with
  | none => s
  | some t => { s.modify i (fun b => { b with costTracker := none }) with costTrackers := t :: s.costTrackers }

def markBankFrozen : Except Fault Banks := do
  require .notReplayable ((s.bank i).state = .replayable)
  require .costTrackerNull ((s.bank i).costTracker ≠ none)
  .ok ((s.modify i fun b => { b with state := .frozen }).releaseCostTracker i)

def clearPrunable : Except Fault Banks :=
  if (s.bank i).state = .prunable then do
    require .prunableIdx (s.prunable = some i)
    .ok { s with prunable := none }
  else .ok s

def markOne : Except Fault Banks := do
  let s ← s.clearPrunable i
  require .deadFull (s.dead.length < deadMax)
  .ok { s.modify i fun b => { b with state := .dead } with dead := ⟨i, (s.bank i).seq⟩ :: s.dead }

end

/-- The second component lists the banks that were marked. The first argument bounds the depth. -/
def subtreeMarkDead : Nat → Idx → Banks × List Idx → Except Fault (Banks × List Idx)
  | 0, _, _ => .error .endless
  | n + 1, i, (s, idxs) =>
    if (s.bank i).state = .dead then .ok (s, idxs) else do
      let s ← s.markOne i
      (s.children i).foldlM (fun r c => subtreeMarkDead n c r) (s, idxs ++ [i])

def markBankDead (s : Banks) (i : Idx) : Except Fault (Banks × List Idx) := subtreeMarkDead s.maxTotalBanks i (s, [])

def retire (s : Banks) (i : Idx) : Except Fault Banks := do
  let s ← ((s.releaseCostTracker i).modify i fun b => { b with delegations := false }).clearPrunable i
  .ok { s.modify i fun b => { b with state := .inactive } with free := i :: s.free }

def unlink (s : Banks) (p i : Idx) : Except Fault Banks :=
  let detach (s : Banks) : Banks := s.modify i fun b => { b with parent := none, sibling := none }
  if (s.bank p).child = some i then
    .ok (detach (s.modify p fun b => { b with child := (s.bank i).sibling }))
  else
    match (s.children p).find? fun j => (s.bank j).sibling = some i with
    | none => .error .nullBank
    | some j => .ok (detach (s.modify j fun b => { b with sibling := (s.bank i).sibling }))

def narrow (s : Banks) (isNewFork : Bool) : Except Fault Banks :=
  if isNewFork then do
    require .forkWidth (1 < s.currForkWidth)
    .ok { s with currForkWidth := s.currForkWidth - 1 }
  else .ok s

def pruneOneLeaf (s : Banks) (i : Idx) : Except Fault (Banks × Nat) :=
  match (s.bank i).parent with
  | none => .error .nullBank
  | some p => do
    require .notLeaf ((s.bank i).child = none)
    let started := (s.bank i).delegations
    let isNewFork := (s.bank p).child ≠ some i ∨ (s.bank i).sibling ≠ none
    let s ← s.unlink p i
    let s ← s.narrow (decide isNewFork)
    let s ← s.retire i
    .ok (s, 1 + started.toNat)

def stale (s : Banks) (e : Entry) : Bool := (s.bank e.idx).state = .inactive ∨ (s.bank e.idx).seq ≠ e.seq

def prunePrunable (s : Banks) : Except Fault (Banks × Nat) :=
  match s.prunable with
  | none => .ok (s, 0)
  | some i => do
    require .notPrunable ((s.bank i).state = .prunable)
    if (s.bank i).refcnt ≠ 0 then .ok (s, 0) else s.pruneOneLeaf i

def pruneOneBank (s : Banks) : Except Fault (Banks × Nat) :=
  match s.dead.dropWhile s.stale with
  | [] => prunePrunable { s with dead := [] }
  | e :: rest =>
    if (s.bank e.idx).refcnt ≠ 0 then prunePrunable { s with dead := e :: rest }
    else pruneOneLeaf { s with dead := rest } e.idx

def evictable (s : Banks) (guarded : Option Idx) (i : Idx) : Bool :=
  (s.bank i).child = none ∧ i ≠ s.root ∧ guarded ≠ some i ∧ (s.bank i).isLeader = false ∧
    (s.bank i).state ≠ .inactive ∧ (s.bank i).state ≠ .dead ∧ (s.bank i).state ≠ .prunable

def evictables (s : Banks) (guarded : Option Idx) : Nat → Idx → List Idx
  | 0, _ => []
  | n + 1, i => (s.children i).flatMap (evictables s guarded n) ++ (if s.evictable guarded i then [i] else [])

def pickEvictable (s : Banks) (candidates : List Idx) : Except Fault (Banks × Option Idx) :=
  match candidates[s.evictRrIdx % candidates.length]? with
  | none => .error .notEvictable
  | some i => do
    require .notLeaf ((s.bank i).child = none)
    .ok ({ s.modify i fun b => { b with state := .prunable } with
      evictRrIdx := (s.evictRrIdx + 1) % 2 ^ 64, prunable := some i }, some i)

def getEvictableBank (s : Banks) (guarded : Option Idx) : Except Fault (Banks × Option Idx) :=
  if s.prunable ≠ none then .ok (s, none)
  else if (s.bank s.root).child = none then .ok (s, none)
  else if s.evictables guarded s.maxTotalBanks s.root = [] then .ok (s, none)
  else s.pickEvictable (s.evictables guarded s.maxTotalBanks s.root)

def subtreeCanBePruned (s : Banks) : Nat → Idx → Bool
  | 0, _ => false
  | n + 1, i => (s.bank i).refcnt = 0 && (s.children i).all (subtreeCanBePruned s n)

def climb (s : Banks) : Nat → Idx → Except Fault Idx
  | 0, _ => .error .endless
  | n + 1, i =>
    match (s.bank i).parent with
    | none => .error .notDescendant
    | some p => if p = s.root then .ok i else climb s n p

def advanceRootPrepare (s : Banks) (target : Idx) : Except Fault (Option Idx) :=
  if s.root = target then .ok none
  else if (s.bank s.root).refcnt ≠ 0 then .ok none
  else do
    let r ← s.climb s.maxTotalBanks target
    if (s.children s.root).all fun c => c = r || s.subtreeCanBePruned s.maxTotalBanks c then do
      require .notFrozen ((s.bank r).state = .frozen)
      .ok (some r)
    else .ok none

def retireFrom (r : Idx) : Nat → List Idx → Banks × Nat → Except Fault (Banks × Nat)
  | _, [], t => .ok t
  | 0, _ :: _, _ => .error .endless
  | n + 1, i :: queue, (s, leaves) => do
    let kids := (s.children i).filter (· ≠ r)
    require .refcnt (∀ c ∈ kids, (s.bank c).refcnt = 0)
    let t ← s.retire i
    retireFrom r n (queue ++ kids) (t, if (s.bank i).child = none then leaves + 1 else leaves)

def reroot (s : Banks) (r : Idx) (currForkWidth : Nat) : Banks :=
  { s.modify r fun b => { b with parent := none, sibling := none } with root := r, currForkWidth := currForkWidth }

def advanceRoot (s : Banks) (r : Idx) : Except Fault Banks := do
  require .refcnt ((s.bank s.root).refcnt = 0)
  let s := s.modify r fun b => { b with delegations := false }
  let (s, leaves) ← retireFrom r s.maxTotalBanks [s.root] (s, 0)
  require .forkWidth (leaves < s.currForkWidth)
  .ok (s.reroot r (s.currForkWidth - leaves))

def advance (s : Banks) (target : Idx) : Except Fault Banks := do
  match ← s.advanceRootPrepare target with
  | none => .ok s
  | some r => s.advanceRoot r

end Banks

def Bank.empty : Bank := ⟨0, none, none, none, .inactive, 0, false, none, false⟩

def initBank (maxTotalBanks maxForkWidth seed : Nat) : Banks where
  maxTotalBanks := maxTotalBanks
  bank := fun i => if i = 0 then { Bank.empty with seq := 1, state := .frozen } else Bank.empty
  free := (List.range maxTotalBanks).tail
  costTrackers := List.range maxForkWidth
  root := 0
  bankSeq := 2
  evictRrIdx := seed
  prunable := none
  currForkWidth := 1
  dead := []

end Firebam.Forks
