import Firebam.Lib.Check

/-! The stake delegations: those of the root in a pool with a map, and for every fork a map of what
it has changed, with the elements of all forks in one pool. An index that is not there is none; the
largest epoch stands for one that has not come. -/
namespace Firebam.StakeDelegations
open Lib

abbrev Pubkey := Nat

abbrev Entry := UInt64 × UInt64 × UInt64

inductive Tag where
  | unknown | warming | warmed | cooling | cooled
  deriving DecidableEq

structure Delegation where
  voteAccount : Pubkey
  stake : UInt64
  lamports : UInt64
  creditsObserved : UInt64
  accDlen : UInt32
  activationEpoch : UInt16
  deactivationEpoch : UInt16
  warmupCooldownRate : UInt8
  deriving DecidableEq, Repr, Inhabited

structure RootEle where
  stakeAccount : Pubkey
  delegation : Delegation
  deltaIdx : Option Nat
  dneInRoot : Bool
  inUse : Bool
  state : Tag

structure DeltaEle where
  stakeAccount : Pubkey
  delegation : Delegation
  isTombstone : Bool

structure Values where
  voteAccount : Pubkey
  stake : UInt64
  activationEpoch : UInt64
  deactivationEpoch : UInt64
  creditsObserved : UInt64
  lamports : UInt64
  accDlen : UInt32
  warmupCooldownRate : UInt8

inductive Fault where
  | pubkeyPool | forkPool | activationEpoch | deactivationEpoch

/-- The order in which the map of a fork is walked over is left open. -/
structure Delegations where
  rootPool : Nat → RootEle
  rootFree : List Nat
  rootMap : List Nat
  poolIdxWmk : Nat
  deltaPool : Nat → DeltaEle
  deltaFree : List Nat
  forkMax : Nat
  forkFree : List Nat
  forkMap : Nat → List Nat
  refcnt : Pubkey → Nat
  pubkeyUsed : Nat
  maxPubkeys : Nat
  pubkeyFallback : Bool
  totals : Entry
  fpWarmedAwarded : Bool

def update {β : Type} (f : Nat → β) (i : Nat) (b : β) : Nat → β := fun j => if j = i then b else f j

section

structure Raw where
  voterPubkey : Pubkey
  stake : UInt64
  activationEpoch : UInt64
  deactivationEpoch : UInt64
  warmupCooldownRate : UInt8

structure Rule where
  epoch : Nat
  historyContiguous : Bool
  useFixedPointStakeMath : Bool
  status : Raw → Entry

def widen (e : UInt16) : UInt64 := if e = 65535 then 18446744073709551615 else e.toUInt64

def Delegation.values (d : Delegation) : Values where
  voteAccount := d.voteAccount
  stake := d.stake
  activationEpoch := widen d.activationEpoch
  deactivationEpoch := widen d.deactivationEpoch
  creditsObserved := d.creditsObserved
  lamports := d.lamports
  accDlen := d.accDlen
  warmupCooldownRate := d.warmupCooldownRate

def Values.delegation (v : Values) : Delegation where
  voteAccount := v.voteAccount
  stake := v.stake
  lamports := v.lamports
  creditsObserved := v.creditsObserved
  accDlen := v.accDlen
  activationEpoch := v.activationEpoch.toUInt16
  deactivationEpoch := v.deactivationEpoch.toUInt16
  warmupCooldownRate := v.warmupCooldownRate

def Delegation.raw (d : Delegation) : Raw where
  voterPubkey := d.voteAccount
  stake := d.stake
  activationEpoch := widen d.activationEpoch
  deactivationEpoch := widen d.deactivationEpoch
  warmupCooldownRate := d.warmupCooldownRate

def Rule.activationStatus (r : Rule) (d : Delegation) : Entry := r.status d.raw

def stakeHistoryCap : Nat := 512

def Rule.classify (r : Rule) (d : Delegation) (status : Entry) : Tag :=
  if d.activationEpoch ≠ 65535 ∧ r.epoch < d.activationEpoch.toNat then .unknown
  else if 0 < status.2.1 then .warming
  else if 0 < status.2.2 then .cooling
  else if status.1 = d.stake ∧ d.deactivationEpoch = 65535 then .warmed
  else if d.deactivationEpoch.toNat + stakeHistoryCap < r.epoch ∨ d.activationEpoch = d.deactivationEpoch ∨ d.stake = 0
  then .cooled
  else .unknown

def DeltaEle.worth (r : Rule) (e : DeltaEle) : Entry := if e.isTombstone then 0 else r.activationStatus e.delegation

def epochFits (e : UInt64) : Prop := 2 ^ 63 ≤ e.toNat ∨ e.toNat < 65535

instance (e : UInt64) : Decidable (epochFits e) := inferInstanceAs (Decidable (_ ∨ _))

end

namespace Delegations

def new (mem : Nat → RootEle) (deltaMem : Nat → DeltaEle) (maxStakeAccounts maxFallback maxLiveSlots : Nat) : Delegations where
  rootPool := mem
  rootFree := List.range maxStakeAccounts
  rootMap := []
  poolIdxWmk := 0
  deltaPool := deltaMem
  deltaFree := List.range maxStakeAccounts
  forkMax := maxLiveSlots
  forkFree := List.range maxLiveSlots
  forkMap := fun _ => []
  refcnt := fun _ => 0
  pubkeyUsed := 0
  maxPubkeys := maxFallback
  pubkeyFallback := false
  totals := 0
  fpWarmedAwarded := false

section

variable (s : Delegations)

def pubkeyRefAcquire (k : Pubkey) : Except Fault Delegations :=
  if s.refcnt k = 0 then do
    require .pubkeyPool (s.pubkeyUsed < s.maxPubkeys)
    .ok { s with pubkeyUsed := s.pubkeyUsed + 1, refcnt := update s.refcnt k 1 }
  else .ok { s with refcnt := update s.refcnt k (s.refcnt k + 1) }

def pubkeyRefRelease (k : Pubkey) : Delegations :=
  if s.pubkeyFallback ∨ s.refcnt k = 0 then s
  else { s with
    refcnt := update s.refcnt k (s.refcnt k - 1)
    pubkeyUsed := if s.refcnt k = 1 then s.pubkeyUsed - 1 else s.pubkeyUsed }

def pubkeyFallbackEnter (k : Pubkey) : Except Fault Delegations :=
  pubkeyRefAcquire { s with pubkeyFallback := true } k

def rootIdx (k : Pubkey) : Option Nat := s.rootMap.find? fun i => (s.rootPool i).stakeAccount = k

def rootQuery (k : Pubkey) : Option RootEle := (s.rootIdx k).map s.rootPool

def forkIdx (f : Nat) (k : Pubkey) : Option Nat :=
  (s.forkMap f).find? fun d => (s.deltaPool d).stakeAccount = k

def rootAcquire (i : Nat) (free : List Nat) (e : RootEle) : Delegations :=
  { s with
    rootFree := free
    rootPool := update s.rootPool i e
    poolIdxWmk := max s.poolIdxWmk (i + 1)
    rootMap := i :: s.rootMap }

def rootRelease (i : Nat) (e : RootEle) : Delegations :=
  { s with
    rootMap := s.rootMap.erase i
    rootPool := update s.rootPool i e
    rootFree := i :: s.rootFree }

def rootStore (i : Nat) (v : Values) : Except Fault Delegations := do
  require .activationEpoch (epochFits v.activationEpoch)
  require .deactivationEpoch (epochFits v.deactivationEpoch)
  .ok { s with rootPool := update s.rootPool i { s.rootPool i with
    delegation := v.delegation
    dneInRoot := false
    deltaIdx := none
    inUse := true
    state := .unknown } }

def rootUpdate (k : Pubkey) (v : Values) : Except Fault (Delegations × Option Nat) :=
  match s.rootIdx k with
  | some i => (s.rootStore i v).map (·, some i)
  | none =>
    match s.rootFree with
    | [] => (s.pubkeyFallbackEnter k).map (·, none)
    | i :: free =>
      (((s.rootAcquire i free { s.rootPool i with stakeAccount := k }).pubkeyRefAcquire k).bind
        (·.rootStore i v)).map (·, some i)

end

section

section
variable (s : Delegations)

def newFork : Except Fault (Delegations × Nat) :=
  match s.forkFree with
  | [] => .error .forkPool
  | f :: free => .ok ({ s with forkFree := free }, f)

def forkElement (f : Nat) (k : Pubkey) : Except Fault (Delegations × Option Nat) :=
  match s.forkIdx f k with
  | some d => .ok (s, some d)
  | none =>
    match s.deltaFree with
    | [] => (s.pubkeyFallbackEnter k).map (·, none)
    | d :: free =>
      ({ s with
        deltaFree := free
        deltaPool := update s.deltaPool d { s.deltaPool d with stakeAccount := k }
        forkMap := update s.forkMap f (d :: s.forkMap f) }.pubkeyRefAcquire k).map (·, some d)

def forkStore (v : Values) : Option Nat → Except Fault Delegations
  | none => .ok s
  | some d => do
    require .activationEpoch (epochFits v.activationEpoch)
    require .deactivationEpoch (epochFits v.deactivationEpoch)
    .ok { s with deltaPool := update s.deltaPool d { s.deltaPool d with delegation := v.delegation, isTombstone := false } }

def forkUpdate (f : Nat) (k : Pubkey) (v : Values) : Except Fault Delegations :=
  (s.forkElement f k).bind fun t => t.1.forkStore v t.2

def forkBury : Option Nat → Delegations
  | none => s
  | some d => { s with deltaPool := update s.deltaPool d { s.deltaPool d with
      delegation := { (s.deltaPool d).delegation with lamports := 0, accDlen := 0 }
      isTombstone := true } }

def forkRemove (f : Nat) (k : Pubkey) : Except Fault Delegations :=
  (s.forkElement f k).map fun t => t.1.forkBury t.2

def evictOne (d : Nat) : Delegations :=
  let s := s.pubkeyRefRelease (s.deltaPool d).stakeAccount
  { s with deltaFree := d :: s.deltaFree }

end

def evictFork (order : Delegations → Nat → List Nat) (s : Delegations) (f : Nat) : Delegations :=
  if f = 65535 then s
  else
    let s := (order s f).foldl evictOne s
    { s with forkMap := update s.forkMap f [], forkFree := f :: s.forkFree }

end

section

def award (r : Rule) (s : Delegations) (status : Entry) : Option Nat → Delegations
  | none => s
  | some i =>
    let state := if r.historyContiguous then r.classify (s.rootPool i).delegation status else .unknown
    { s with
      rootPool := update s.rootPool i { s.rootPool i with state := state }
      fpWarmedAwarded := s.fpWarmedAwarded || (state = .warmed && !r.useFixedPointStakeMath) }

def subtractOld (r : Rule) (s : Delegations) (i : Option Nat) : Delegations :=
  match i with
  | none => s
  | some i => { s with totals := s.totals - r.activationStatus (s.rootPool i).delegation }

def applyOne (r : Rule) (s : Delegations) (d : Nat) : Except Fault Delegations :=
  let e := s.deltaPool d
  let old := s.rootIdx e.stakeAccount
  if e.isTombstone then
    match old with
    | none => .ok s
    | some i => .ok (((s.subtractOld r old).rootRelease i { s.rootPool i with inUse := false }).pubkeyRefRelease e.stakeAccount)
  else
    ((s.subtractOld r old).rootUpdate e.stakeAccount e.delegation.values).map fun t =>
      award r { t.1 with totals := t.1.totals + r.activationStatus e.delegation } (r.activationStatus e.delegation) t.2

def applyForkDelta (r : Rule) (order : Delegations → Nat → List Nat) (s : Delegations) (f : Nat) : Except Fault Delegations :=
  (order s f).foldlM (applyOne r) s

end

def current (s : Delegations) (i : Nat) : Option (Pubkey × Delegation) :=
  match (s.rootPool i).deltaIdx with
  | none => if (s.rootPool i).dneInRoot then none else some ((s.rootPool i).stakeAccount, (s.rootPool i).delegation)
  | some d => if (s.deltaPool d).isTombstone then none else some ((s.deltaPool d).stakeAccount, (s.deltaPool d).delegation)

def worth (r : Rule) (s : Delegations) (i : Nat) : Entry :=
  match (s.rootPool i).deltaIdx with
  | none => r.activationStatus (s.rootPool i).delegation
  | some d => (s.deltaPool d).worth r

def project (s : Delegations) (i : Nat) (free : List Nat) (d : Nat) : Delegations :=
  s.rootAcquire i free { s.rootPool i with
    stakeAccount := (s.deltaPool d).stakeAccount
    delegation := { (s.rootPool i).delegation with lamports := 0, accDlen := 0 }
    dneInRoot := true
    deltaIdx := some d
    inUse := true
    state := .unknown }

def markOne (r : Rule) (s : Delegations) (d : Nat) : Except Fault Delegations :=
  let e := s.deltaPool d
  match s.rootIdx e.stakeAccount with
  | none =>
    match s.rootFree with
    | [] => s.pubkeyFallbackEnter e.stakeAccount
    | i :: free => .ok { s.project i free d with totals := s.totals + e.worth r }
  | some i => .ok { s with
      totals := s.totals - s.worth r i + e.worth r
      rootPool := update s.rootPool i { s.rootPool i with deltaIdx := some d } }

def markDelta (r : Rule) (order : Delegations → Nat → List Nat) (s : Delegations) (f : Nat) : Except Fault Delegations :=
  (order s f).foldlM (markOne r) s

def unmarkOne (r : Rule) (s : Delegations) (d : Nat) : Delegations :=
  let e := s.deltaPool d
  match s.rootIdx e.stakeAccount with
  | none => s
  | some i =>
    if (s.rootPool i).deltaIdx ≠ some d then s
    else if (s.rootPool i).dneInRoot then { s.rootRelease i { s.rootPool i with dneInRoot := false, deltaIdx := none, inUse := false } with
      totals := s.totals - e.worth r }
    else { s with
      totals := s.totals - e.worth r + r.activationStatus (s.rootPool i).delegation
      rootPool := update s.rootPool i { s.rootPool i with deltaIdx := none } }

def unmarkDelta (r : Rule) (order : Delegations → Nat → List Nat) (s : Delegations) (f : Nat) : Delegations :=
  (order s f).foldl (unmarkOne r) s

def iterate (s : Delegations) : List (Pubkey × Delegation) :=
  (List.range s.poolIdxWmk).filterMap fun i => if (s.rootPool i).inUse then s.current i else none

end Delegations

end Firebam.StakeDelegations
