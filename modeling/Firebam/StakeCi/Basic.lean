import Firebam.Lib.Check

/-! The shred destination tables of the shred tile (fd_stake_ci): one table for each of two epochs,
rebuilt or patched by epoch messages, contact infos from gossip and identity switches. -/
namespace Firebam.StakeCi

open Lib

/-- A public key as the number its bytes spell, so that memcmp is the order of numbers. -/
abbrev Pubkey := Nat

def nullPubkey : Pubkey := 0
def selfDummyIp : Nat := 1
def maxShredDests : Nat := 40200
def maxStakeWeights : Nat := 2000

structure Dest where
  pubkey : Pubkey
  stakeLamports : Nat
  ip4 : Nat
  port : Nat
  deriving DecidableEq

def nullDest : Dest := ⟨nullPubkey, 0, 0, 0⟩

structure Sdest where
  dests : List Dest
  source : Nat
  deriving DecidableEq

def Sdest.stakedCnt (d : Sdest) : Nat := d.dests.countP fun x => decide (0 < x.stakeLamports)

def StakedFirst (info : List Dest) : Prop :=
  info.Pairwise fun a b => 0 < b.stakeLamports → 0 < a.stakeLamports

instance (info : List Dest) : Decidable (StakedFirst info) := inferInstanceAs (Decidable (List.Pairwise _ _))

def sdestNew (info : List Dest) (source : Pubkey) : Option Sdest :=
  if StakedFirst info then
    (info.findIdx? fun x => decide (x.pubkey = source)).map fun idx => ⟨info, idx⟩
  else none

def Sdest.pubkeyToIdx (d : Sdest) (key : Pubkey) : Option Nat :=
  if key = nullPubkey then none else d.dests.findIdx? fun x => decide (x.pubkey = key)

def Sdest.idxToDest (d : Sdest) : Option Nat → Dest
  | none => nullDest
  | some idx => d.dests.getD idx nullDest

def Sdest.update (d : Sdest) (idx : Nat) (f : Dest → Dest) : Sdest :=
  { d with dests := d.dests.set idx (f (d.dests.getD idx nullDest)) }

structure EpochInfo where
  epoch : Nat
  sdest : Option Sdest
  deriving DecidableEq

structure Info where
  identityKey : Pubkey
  even : EpochInfo
  odd : EpochInfo
  deriving DecidableEq

inductive Fault where
  | malformed          -- FD_LOG_ERR: more stakes than MAX_STAKE_WEIGHTS
  | nullTable          -- a table that is NULL is read
  | identityMissing    -- FD_LOG_ERR: identity key is missing from the table
  | tooMany            -- FD_LOG_ERR: too many validators to add one with set-identity
  | oldIdentityMissing -- FD_TEST( old_idx!=FD_SHRED_DEST_NO_DEST )
  deriving DecidableEq

def table : Option Sdest → Except Fault Sdest
  | none => .error .nullTable
  | some d => .ok d

def new (identityKey : Pubkey) : Info :=
  let sdest := sdestNew [⟨identityKey, 0, selfDummyIp, 0⟩] identityKey
  ⟨identityKey, ⟨0, sdest⟩, ⟨1, sdest⟩⟩

def sortPubkey (dests : List Dest) : List Dest := dests.insertionSort fun a b => b.pubkey ≤ a.pubkey

structure StakeWeight where
  key : Pubkey
  stake : Nat

structure EpochMsg where
  epoch : Nat
  stakedVoteCnt : Nat
  weights : List StakeWeight

section
variable (existing : Sdest)

def stakedDest (w : StakeWeight) : Dest :=
  { existing.idxToDest (existing.pubkeyToIdx w.key) with pubkey := w.key, stakeLamports := w.stake }

def unhit (weights : List StakeWeight) : List Dest :=
  let hits := weights.filterMap fun w => existing.pubkeyToIdx w.key
  (existing.dests.zipIdx.filter fun x => decide (x.2 ∉ hits)).map Prod.fst

def stakeMsgDests (weights : List StakeWeight) : List Dest :=
  let kept := ((unhit existing weights).filter fun x => decide (x.ip4 ≠ 0)).take (maxShredDests - weights.length)
  let unstaked := kept.map fun x => { x with stakeLamports := 0 }
  let anyDestaked := kept.any fun x => decide (0 < x.stakeLamports)
  weights.map (stakedDest existing) ++ if anyDestaked then sortPubkey unstaked else unstaked

end

/-- fd_stake_ci_epoch_msg_init and fd_stake_ci_epoch_msg_fini. The existing destinations are taken
from the first table, whichever table is replaced; the result is not checked. -/
def epochMsg (s : Info) (msg : EpochMsg) : Except Fault Info := do
  require .malformed (msg.stakedVoteCnt ≤ maxStakeWeights)
  require .malformed (msg.weights.length ≤ maxStakeWeights)
  let existing ← table s.even.sdest
  let info := ⟨msg.epoch, sdestNew (stakeMsgDests existing msg.weights) s.identityKey⟩
  .ok (if msg.epoch % 2 = 0 then { s with even := info } else { s with odd := info })

section
variable (identityKey : Pubkey)

def refreshSdest (temp : List Dest) (stakedCnt : Nat) : Except Fault Sdest :=
  match sdestNew (temp.take stakedCnt ++ sortPubkey (temp.drop stakedCnt)) identityKey with
  | none => .error .identityMissing
  | some d => .ok d

def destAddOneUnstaked (d : Sdest) (entry : Dest) : Except Fault Sdest :=
  if maxShredDests ≤ d.dests.length then .ok d
  else refreshSdest identityKey (d.dests ++ [entry]) d.stakedCnt

def destUpdateImpl (key : Pubkey) (ip4 port : Nat) (d : Sdest) : Except Fault Sdest :=
  match d.pubkeyToIdx key with
  | none => destAddOneUnstaked identityKey d ⟨key, 0, ip4, port⟩
  | some idx => .ok (d.update idx fun x => { x with ip4 := ip4, port := port })

def destRemoveImpl (key : Pubkey) (d : Sdest) : Except Fault Sdest :=
  match d.pubkeyToIdx key with
  | none => .ok d
  | some idx =>
    if 0 < (d.idxToDest (some idx)).stakeLamports then .ok d
    else refreshSdest identityKey (d.dests.eraseIdx idx) d.stakedCnt

end

/-- What fd_stake_ci_set_identity does with one table. The entry of a new validator keeps the port
that was left in the scratch array. -/
def setIdentityImpl (oldKey newKey : Pubkey) (port : Nat) (d : Sdest) : Except Fault Sdest :=
  match d.pubkeyToIdx oldKey with
  | none => .error .oldIdentityMissing
  | some oldIdx =>
    match d.pubkeyToIdx newKey with
    | some newIdx =>
      let d := d.update oldIdx fun x => { x with ip4 := 0 }
      let d := d.update newIdx fun x => { x with ip4 := selfDummyIp }
      .ok { d with source := newIdx }
    | none =>
      if d.dests.length = maxShredDests then .error .tooMany
      else
        let unstaked := d.dests.drop d.stakedCnt
        let before := unstaked.takeWhile fun x => decide (newKey < x.pubkey)
        let after := unstaked.dropWhile fun x => decide (newKey < x.pubkey)
        match sdestNew (d.dests.take d.stakedCnt ++ before ++ ⟨newKey, 0, selfDummyIp, port⟩ :: after) newKey with
        | none => .error .nullTable
        | some d => .ok d

def both (s : Info) (f : Sdest → Except Fault Sdest) : Except Fault Info := do
  let even ← table s.even.sdest
  let even ← f even
  let odd ← table s.odd.sdest
  let odd ← f odd
  .ok { s with even := { s.even with sdest := some even }, odd := { s.odd with sdest := some odd } }

def destUpdate (s : Info) (key : Pubkey) (ip4 port : Nat) : Except Fault Info :=
  both s (destUpdateImpl s.identityKey key ip4 port)

def destRemove (s : Info) (key : Pubkey) : Except Fault Info := both s (destRemoveImpl s.identityKey key)

def setIdentity (s : Info) (key : Pubkey) (port : Nat) : Except Fault Info := do
  let s ← both s (setIdentityImpl s.identityKey key port)
  .ok { s with identityKey := key }

inductive Event where
  | epoch (msg : EpochMsg)
  | contactInfo (origin : Pubkey) (ip4 port : Nat)
  | contactInfoRemove (origin : Pubkey)
  | identity (key : Pubkey) (port : Nat)

def step (s : Info) : Event → Except Fault Info
  | .epoch msg => epochMsg s msg
  | .contactInfo origin ip4 port =>
    if ip4 = 0 ∧ port = 0 then destRemove s origin else destUpdate s origin ip4 port
  | .contactInfoRemove origin =>
    if s.identityKey = origin then destUpdate s origin selfDummyIp 0 else destRemove s origin
  | .identity key port => setIdentity s key port

end Firebam.StakeCi
