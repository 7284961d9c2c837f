import Firebam.Poh.Operations

/-! The PoH tile of discof/poh/fd_poh_tile.c: after_credit and returnable_frag over its links, and
the producers on the other side of them. -/
namespace Firebam.Poh
open Lib

structure ExecleSig where
  slot : Nat
  packIdx : BitVec 32

def execleSig (slot : Nat) (packIdx : BitVec 32) : ExecleSig := ⟨slot % 2 ^ 32, packIdx⟩

structure ExecleFrag where
  sig : ExecleSig
  hash : Hash
  txns : List TxnP

inductive PackFrag where
  | doneDraining
  | reduceMbBound (newMax : Nat)
  | donePacking (sig : ExecleSig) (d : DonePacking)

inductive ReplayFrag where
  | reset (r : Reset)
  | becameLeader (b : BecameLeader)
  | wfsDone

structure Tile where
  poh : Machine
  expectPackIdx : BitVec 32
  inCnt : Nat
  idleCnt : Nat
  started : Bool

def startupGateIdle (started replayStatus : Bool) : Bool := started || replayStatus

def afterCredit (sha : Sha256) (t : Tile) (replayStatus : Bool) (clock : Nat) :
    Except Fault Tile := do
  if startupGateIdle t.started replayStatus then
    let idleCnt := t.idleCnt + 1
    if idleCnt ≥ 2 * t.inCnt ∨ mustTick t.poh ∨ mustPublishSkippedTick t.poh then
      let a ← advance sha t.poh clock
      return { t with poh := a.poh, started := true, idleCnt := 0 }
    else return { t with started := true, idleCnt }
  else return t

inductive Verdict where
  | held
  | dropped (t : Tile)
  | processed (t : Tile)

def mustWait (p : Machine) : Bool := !haveLeaderBank p || hashingToLeaderSlot p

def returnableExecle (sha : Sha256) (t : Tile) (f : ExecleFrag) : Except Fault Verdict := do
  if f.sig.slot < t.poh.nextLeaderSlot then
    -- An execle result of a slot that replay abandoned: it must not reach a mixin any more.
    let expect := if 0 ≤ serialDiff f.sig.packIdx t.expectPackIdx then f.sig.packIdx + 1
      else t.expectPackIdx
    return .dropped { t with expectPackIdx := expect, idleCnt := 0 }
  else if mustWait t.poh || mustPublishSkippedTick t.poh then
    return .held
  else if serialDiff f.sig.packIdx t.expectPackIdx < 0 then
    throw .packIdxOutOfOrder
  else if f.sig.packIdx ≠ t.expectPackIdx then
    return .held
  else
    let p ← mixin sha t.poh f.sig.slot f.hash f.txns
    return .processed { t with poh := p, expectPackIdx := t.expectPackIdx + 1, idleCnt := 0 }

def returnablePack (t : Tile) (f : PackFrag) : Except Fault Verdict :=
  match f with
  | .doneDraining => return .dropped { t with idleCnt := 0 }
  | .reduceMbBound newMax => do
    if haveLeaderBank t.poh then
      let p ← updateMaxMicroblocks t.poh newMax
      return .processed { t with poh := p, idleCnt := 0 }
    else return .dropped { t with idleCnt := 0 }
  | .donePacking sig d => do
    if mustWait t.poh then
      return .held
    else if serialDiff sig.packIdx t.expectPackIdx < 0 then
      throw .packIdxOutOfOrder
    else if sig.packIdx ≠ t.expectPackIdx then
      return .held
    else
      let p ← donePacking t.poh d
      return .processed { t with poh := p, expectPackIdx := t.expectPackIdx + 1, idleCnt := 0 }

def returnableReplay (t : Tile) (f : ReplayFrag) : Except Fault Verdict :=
  match f with
  | .wfsDone => return .dropped { t with poh := wfsDone t.poh, idleCnt := 0 }
  | .reset r => do
    if haveLeaderBank t.poh then return .held
    else
      let p ← reset t.poh r
      return .processed { t with poh := { p with wfsPaused := r.wfsPaused }, idleCnt := 0 }
  | .becameLeader b => do
    if haveLeaderBank t.poh then return .held
    else
      let p ← beginLeader t.poh b
      return .processed { t with poh := p, idleCnt := 0 }

inductive Item where
  | microblock (execle : Nat) (f : ExecleFrag)
  | donePacking (sig : ExecleSig) (d : DonePacking)

inductive Event where
  | mixin (execle : Nat) (f : ExecleFrag)
  | donePacking (sig : ExecleSig) (d : DonePacking)
  | droppedExecle (execle : Nat) (f : ExecleFrag)
  | reset (r : Reset)
  | becameLeader (b : BecameLeader)

def Event.item : Event → Option Item
  | .mixin e f => some (.microblock e f)
  | .donePacking sig d => some (.donePacking sig d)
  | .droppedExecle _ _ | .reset _ | .becameLeader _ => none

structure PackSlot where
  slot : Nat
  sent : Nat
  bound : Nat
  closed : Bool

/-- The tile, its links, the producers, and the record of both sides. -/
structure Sys where
  tile : Tile
  execleQ : Nat → List ExecleFrag
  packQ : List PackFrag
  replayQ : List ReplayFrag
  leader : PackSlot
  isLeader : Bool
  slotsEnded : Nat
  issued : List Item
  consumed : Nat
  log : List Event

def Sys.init (inCnt : Nat) : Sys where
  tile := ⟨Machine.new, 0, inCnt, 0, false⟩
  execleQ := fun _ => []
  packQ := []
  replayQ := []
  leader := ⟨0, 0, 0, true⟩
  isLeader := false
  slotsEnded := 0
  issued := []
  consumed := 0
  log := []

inductive Action where
  | publishReset (r : Reset)
  | publishBecameLeader (b : BecameLeader)
  | publishWfsDone
  | readSlotEnded
  | sendMicroblock (execle : Nat) (hash : Hash) (txns : List TxnP)
  | sendDonePacking (d : DonePacking)
  | sendReduceMbBound (newMax : Nat)
  | sendDoneDraining
  | afterCredit (replayStatus : Bool) (clock : Nat)
  | pollExecle (execle : Nat)
  | pollPack
  | pollReplay

section
variable (s : Sys)

def Sys.nextSig : ExecleSig := execleSig s.leader.slot (serial s.issued.length)

def produce : Action → Sys
  | .publishReset r => { s with replayQ := s.replayQ ++ [.reset r] }
  | .publishBecameLeader b =>
    { s with replayQ := s.replayQ ++ [.becameLeader b], isLeader := true
             leader := ⟨b.slot, 0, b.maxMicroblocksInSlot, false⟩ }
  | .publishWfsDone => { s with replayQ := s.replayQ ++ [.wfsDone] }
  | .readSlotEnded => { s with isLeader := false, slotsEnded := s.slotsEnded + 1 }
  | .sendMicroblock e hash txns =>
    { s with execleQ := Function.update s.execleQ e (s.execleQ e ++ [⟨s.nextSig, hash, txns⟩])
             issued := s.issued ++ [.microblock e ⟨s.nextSig, hash, txns⟩]
             leader := { s.leader with sent := s.leader.sent + 1 } }
  | .sendDonePacking d =>
    { s with packQ := s.packQ ++ [.donePacking s.nextSig d]
             issued := s.issued ++ [.donePacking s.nextSig d]
             leader := { s.leader with closed := true } }
  | .sendReduceMbBound newMax =>
    { s with packQ := s.packQ ++ [.reduceMbBound newMax]
             leader := { s.leader with bound := newMax } }
  | .sendDoneDraining => { s with packQ := s.packQ ++ [.doneDraining] }
  | .afterCredit _ _ | .pollExecle _ | .pollPack | .pollReplay => s

def Sys.afterExecle (e : Nat) (f : ExecleFrag) (rest : List ExecleFrag) : Verdict → Sys
  | .held => s
  | .dropped t =>
    { s with tile := t, execleQ := Function.update s.execleQ e rest, consumed := s.consumed + 1
             log := s.log ++ [.droppedExecle e f] }
  | .processed t =>
    { s with tile := t, execleQ := Function.update s.execleQ e rest, consumed := s.consumed + 1
             log := s.log ++ [.mixin e f] }

def Sys.afterPack (f : PackFrag) (rest : List PackFrag) : Verdict → Sys
  | .held => s
  | .dropped t => { s with tile := t, packQ := rest }
  | .processed t =>
    match f with
    | .donePacking sig d =>
      { s with tile := t, packQ := rest, consumed := s.consumed + 1
               log := s.log ++ [.donePacking sig d] }
    | .reduceMbBound _ | .doneDraining => { s with tile := t, packQ := rest }

def Sys.afterReplay (f : ReplayFrag) (rest : List ReplayFrag) : Verdict → Sys
  | .held => s
  | .dropped t => { s with tile := t, replayQ := rest }
  | .processed t =>
    match f with
    | .reset r => { s with tile := t, replayQ := rest, log := s.log ++ [.reset r] }
    | .becameLeader b => { s with tile := t, replayQ := rest, log := s.log ++ [.becameLeader b] }
    | .wfsDone => { s with tile := t, replayQ := rest }

end

def sysStep (sha : Sha256) (s : Sys) (a : Action) : Except Fault Sys :=
  match a with
  | .afterCredit replayStatus clock =>
    (afterCredit sha s.tile replayStatus clock).map fun t => { s with tile := t }
  | .pollExecle e =>
    match s.execleQ e with
    | [] => .ok s
    | f :: rest => (returnableExecle sha s.tile f).map (s.afterExecle e f rest)
  | .pollPack =>
    match s.packQ with
    | [] => .ok s
    | f :: rest => (returnablePack s.tile f).map (s.afterPack f rest)
  | .pollReplay =>
    match s.replayQ with
    | [] => .ok s
    | f :: rest => (returnableReplay s.tile f).map (s.afterReplay f rest)
  | other => .ok (produce s other)

/-- What the producers promise: replay announces a leader slot only after PoH ended the one before, pack
keeps to its announced and lowered limits, and the links hold fewer frags than half the index range. -/
def EnvOk (s : Sys) : Action → Prop
  | .publishReset r => r.hashcntPerTick < wordSize ∧ r.ticksPerSlot * r.hashcntPerTick < wordSize
  | .publishBecameLeader b => s.isLeader = false ∧ b.slot < 2 ^ 32 ∧
    b.maxMicroblocksInSlot + 1 < wordSize ∧ b.hashcntPerTick < wordSize ∧
    b.ticksPerSlot * b.hashcntPerTick < wordSize
  | .readSlotEnded => s.slotsEnded < s.tile.poh.replayOut.length
  | .sendMicroblock _ _ _ => s.leader.closed = false ∧ s.leader.sent < s.leader.bound ∧
    s.issued.length < s.consumed + 2 ^ 31
  | .sendDonePacking _ => s.leader.closed = false ∧ s.issued.length < s.consumed + 2 ^ 31
  | .sendReduceMbBound newMax => s.leader.closed = false ∧ s.leader.sent ≤ newMax ∧
    newMax ≤ s.leader.bound
  | .publishWfsDone | .sendDoneDraining | .afterCredit _ _ | .pollExecle _ | .pollPack
  | .pollReplay => True

/-- The fast path for results of an abandoned slot is not taken: PoH does not know of a leader
slot beyond that of the microblock. -/
def LiveSlot (s : Sys) : Action → Prop
  | .pollExecle e => ∀ f ∈ (s.execleQ e).head?, s.tile.poh.nextLeaderSlot ≤ f.sig.slot
  | _ => True

end Firebam.Poh
