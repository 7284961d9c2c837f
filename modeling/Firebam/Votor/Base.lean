import Firebam.Lib.Check
import Firebam.Lib.Word

/-! Blocks, votes and certificates of Alpenglow, and the votes a slot state keeps for each
validator. Signatures are left out. -/
namespace Firebam.Votor
open Lib

abbrev BlockHash := BitVec 256

structure BlockId where
  slot : Nat
  hash : BlockHash
  deriving DecidableEq

structure BlockInfo where
  hash : BlockHash
  parent : BlockId

def slotsPerWindow : Nat := 4
def slotsPerEpoch : Nat := 18000
def eqvocBlockHashMax : Nat := 7
def notarFallbackVoteMax : Nat := 3
def notarFallbackCertMax : Nat := 4

def firstSlotInWindow (slot : Nat) : Nat := slot / slotsPerWindow * slotsPerWindow

def isStartOfWindow (slot : Nat) : Bool := slot % slotsPerWindow = 0

/-- The slots of a loop over a window. The bound of the loop wraps around in the last window of
all, where the loop does nothing. -/
def windowSlots (start : Nat) : List Nat :=
  if start + slotsPerWindow < wordSize then (List.range slotsPerWindow).map fun i => start + i else []

inductive Vote where
  | notar (slot : Nat) (hash : BlockHash) (rank : Nat)
  | final (slot rank : Nat)
  | skip (slot rank : Nat)
  | notarFallback (slot : Nat) (hash : BlockHash) (rank : Nat)
  | skipFallback (slot rank : Nat)

def Vote.slot : Vote → Nat
  | .notar slot _ _ | .final slot _ | .skip slot _ | .notarFallback slot _ _ | .skipFallback slot _ => slot

def Vote.rank : Vote → Nat
  | .notar _ _ rank | .final _ rank | .skip _ rank | .notarFallback _ _ rank | .skipFallback _ rank => rank

inductive Cert where
  | final (slot stake : Nat)
  | fastFinal (slot : Nat) (hash : BlockHash) (stake : Nat)
  | notar (slot : Nat) (hash : BlockHash) (stake : Nat)
  | notarFallback (slot : Nat) (hash : BlockHash) (stake : Nat)
  | skip (slot stake : Nat)

def Cert.slot : Cert → Nat
  | .final slot _ | .fastFinal slot _ _ | .notar slot _ _ | .notarFallback slot _ _ | .skip slot _ => slot

inductive PoolEvent where
  | parentReady (slot : Nat) (parent : BlockId)
  | safeToNotar (block : BlockId)
  | safeToSkip (slot : Nat)
  | certCreated (cert : Cert)
  | standstill (slot : Nat) (certs : List Cert) (votes : List Vote)

/- ag_slot_votes_t: for each rank the last vote written, and up to three notar-fallback votes. -/
structure SlotVotes where
  notar : List (Nat × BlockHash) := []
  notarFallback : List (Nat × BlockHash) := []
  skip : List Nat := []
  skipFallback : List Nat := []
  finalize : List Nat := []

def SlotVotes.notarOf (v : SlotVotes) (rank : Nat) : Option BlockHash :=
  (v.notar.find? fun x => x.1 = rank).map Prod.snd

def SlotVotes.notarFallbacksOf (v : SlotVotes) (rank : Nat) : List BlockHash :=
  (v.notarFallback.filter fun x => x.1 = rank).map Prod.snd

inductive Slashable where
  | notarDifferentHash
  | skipAndNotarize
  | skipAndFinalize
  | notarFallbackAndFinalize

def SlotVotes.checkSlashableOffence (v : SlotVotes) : Vote → Option Slashable
  | .notar _ hash rank =>
    if rank ∈ v.skip then some .skipAndNotarize
    else match v.notarOf rank with
      | some voted => if hash ≠ voted then some .notarDifferentHash else none
      | none => none
  | .notarFallback _ _ rank => if rank ∈ v.finalize then some .notarFallbackAndFinalize else none
  | .skip _ rank =>
    if rank ∈ v.finalize then some .skipAndFinalize
    else if (v.notarOf rank).isSome then some .skipAndNotarize
    else none
  | .skipFallback _ rank => if rank ∈ v.finalize then some .skipAndFinalize else none
  | .final _ rank =>
    if rank ∈ v.skip ∨ rank ∈ v.skipFallback then some .skipAndFinalize
    else if v.notarFallbacksOf rank ≠ [] then some .notarFallbackAndFinalize
    else none

def SlotVotes.shouldIgnoreVote (v : SlotVotes) : Vote → Bool
  | .notar _ hash rank => (v.notarOf rank).isSome || hash ∈ v.notarFallbacksOf rank
  | .notarFallback _ hash rank => hash ∈ v.notarFallbacksOf rank || v.notarOf rank = some hash
  | .skip _ rank | .skipFallback _ rank => rank ∈ v.skip || rank ∈ v.skipFallback
  | .final _ rank => rank ∈ v.finalize

/- The assignment to the array of the vote's kind, at the start of ag_slot_state_add_vote. -/
def SlotVotes.record (v : SlotVotes) : Vote → SlotVotes
  | .notar _ hash rank => { v with notar := (rank, hash) :: v.notar }
  | .notarFallback _ hash rank => { v with notarFallback := v.notarFallback ++ [(rank, hash)] }
  | .skip _ rank => { v with skip := rank :: v.skip }
  | .skipFallback _ rank => { v with skipFallback := rank :: v.skipFallback }
  | .final _ rank => { v with finalize := rank :: v.finalize }

end Firebam.Votor
