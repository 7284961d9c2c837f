import Firebam.VoteStakes.Basic

/-! The stakes together with what every bank should see. -/
namespace Firebam.VoteStakes
open Lib

structure Update where
  pubkey : Pubkey
  slot : Nat
  ts : Int
  isValid : Bool

def votedState (log : List Update) (key : Pubkey) : State where
  lastVoteSlot := ((log.find? fun u => u.pubkey = key ∧ u.isValid).map Update.slot).getD 0
  lastVoteTs := ((log.find? fun u => u.pubkey = key ∧ u.isValid).map Update.ts).getD 0
  isValid := ((log.find? fun u => u.pubkey = key).map Update.isValid).getD false

structure Bank where
  id : ForkId
  entry : Nat
  set2 : List Vacc
  set3 : Option (List Vacc)
  log : List Update

def Bank.epoch (b : Bank) : Nat := forkIdEpoch b.id
def Bank.width (b : Bank) : Nat := forkIdWidthId b.id
def Bank.place (b : Bank) : Nat := forkIdBankId b.id

structure System where
  stakes : Stakes
  banks : List Bank
  first : Nat
  entries : Nat
  sets : Nat → List Vacc
  origin : Nat → Option Nat

namespace System

def bank (s : System) (id : ForkId) : Option Bank := s.banks.find? fun b => b.id = id

def setBank (s : System) (id : ForkId) (f : Bank → Bank) : List Bank :=
  s.banks.map fun b => if b.id = id then f b else b

def fork (s : System) (parent : Bank) (epoch : Nat) (stakes : Stakes) (id : ForkId) : System :=
  if epoch = parent.epoch then { s with stakes := stakes, banks := { parent with id := id } :: s.banks }
  else { s with
    stakes := stakes
    banks := ⟨id, s.entries, s.sets parent.entry, some parent.set2, []⟩ :: s.banks
    entries := s.entries + 1
    sets := update s.sets s.entries []
    origin := update s.origin epoch (some parent.entry) }

end System

inductive Op where
  | newFork (parent : ForkId) (epoch : Nat)
  | purgeFork (id : ForkId)
  | updateState (id : ForkId) (u : Update)
  | insert (id : ForkId) (v : Vacc)
  | snapInsertT1 (id : ForkId) (v : Vacc)
  | snapInsertT2 (id : ForkId) (v : Vacc)
  | snapInsertT3 (id : ForkId) (v : Vacc)

def System.inserted (s : System) (id : ForkId) (stakes : Stakes) : System :=
  match s.bank id with
  | none => { s with stakes := stakes }
  | some b => { s with stakes := stakes, sets := update s.sets b.entry (stakes.t1 b.width) }

def step (order : List Vacc → List Vacc) (s : System) : Op → Except Fault System
  | .newFork parent epoch => (s.stakes.newFork order parent epoch).map fun t =>
      match s.bank parent with
      | none => { s with stakes := t.1 }
      | some b => s.fork b epoch t.1 t.2
  | .purgeFork id => (s.stakes.purgeFork id).map fun t =>
      { s with stakes := t, banks := s.banks.filter (·.id ≠ id) }
  | .updateState id u => .ok { s with
      stakes := s.stakes.updateState id u.pubkey u.slot u.ts u.isValid
      banks := s.setBank id fun b => { b with log := u :: b.log } }
  | .insert id v => .ok (s.inserted id (s.stakes.insert id v))
  | .snapInsertT1 id v => .ok (s.inserted id (s.stakes.snapInsertT1 id v))
  | .snapInsertT2 id v =>
    let t := s.stakes.snapInsertT2 id v
    .ok { s with stakes := t, banks := s.setBank id fun b => { b with set2 := t.t2 (b.epoch % 2) } }
  | .snapInsertT3 id v =>
    let t := s.stakes.snapInsertT3 id v
    .ok { s with stakes := t, banks := s.setBank id fun b =>
      { b with set3 := if t.t2Epoch ((b.epoch - 1) % 2) = some (b.epoch - 1) then some (t.t2 ((b.epoch - 1) % 2)) else b.set3 } }

def Loading (s : System) (id : ForkId) : Prop := s.entries = 1 ∧ s.banks.map Bank.id = [id] ∧ s.banks.all fun b => b.log = []

/-- One boundary is crossed at a time, and all banks that have entered an epoch come from the same
entry of the one before. -/
def Contract (s : System) : Op → Prop
  | .newFork parent epoch => s.stakes.freeStates ≠ [] ∧ ∃ b ∈ s.banks, b.id = parent ∧ (epoch = b.epoch ∨
      epoch = b.epoch + 1 ∧ epoch < 2 ^ 16 ∧ s.stakes.freeForks ≠ [] ∧
      (∀ c ∈ s.banks, c.epoch = b.epoch ∨ c.epoch = epoch) ∧
      (s.origin epoch = none ∨ s.origin epoch = some b.entry))
  | .purgeFork id => id ∈ s.banks.map Bank.id
  | .updateState id _ => id ∈ s.banks.map Bank.id
  | .insert id v => ∃ b ∈ s.banks, b.id = id ∧ b.entry + 1 = s.entries ∧ lookup (s.sets b.entry) v.pubkey = none
  | .snapInsertT1 id v => Loading s id ∧ lookup (s.sets 0) v.pubkey = none
  | .snapInsertT2 id v => Loading s id ∧ lookup (s.stakes.t2 (forkIdEpoch id % 2)) v.pubkey = none
  | .snapInsertT3 id v => Loading s id ∧ lookup (s.stakes.t2 ((forkIdEpoch id - 1) % 2)) v.pubkey = none

/-- The pools and the counts, as far as the live banks and their entries determine them. -/
structure Shape (s : System) : Prop where
  places : (s.banks.map Bank.place).Nodup
  freeStates : s.stakes.freeStates.Nodup
  freeState : ∀ i ∈ s.stakes.freeStates, i < 2 ^ 16 ∧ ∀ b ∈ s.banks, b.place ≠ i
  freeForks : s.stakes.freeForks.Nodup
  freeFork : ∀ w ∈ s.stakes.freeForks, w < 2 ^ 16 ∧ ∀ b ∈ s.banks, b.width ≠ w
  refCnt : ∀ w, s.stakes.refCnt w = s.banks.countP fun b => b.width = w
  widths : ∀ b ∈ s.banks, ∀ c ∈ s.banks, b.width = c.width ↔ b.entry = c.entry
  entry : ∀ b ∈ s.banks, b.entry < s.entries
  origin : ∀ e n, s.origin e = some n → n + 1 < s.entries
  first : ∀ b ∈ s.banks, s.first ≤ b.epoch

structure Agree (s : System) : Prop extends Shape s where
  t1 : ∀ b ∈ s.banks, s.stakes.t1 b.width = s.sets b.entry
  keys1 : ∀ n, ((s.sets n).map Vacc.pubkey).Nodup
  keys2 : ∀ p, ((s.stakes.t2 p).map Vacc.pubkey).Nodup
  t2 : ∀ b ∈ s.banks, s.stakes.t2Epoch (b.epoch % 2) = some b.epoch ∧
    ∀ k, lookup (s.stakes.t2 (b.epoch % 2)) k = lookup b.set2 k
  states : ∀ b ∈ s.banks, ∀ i, s.stakes.states b.place i =
    (((s.stakes.t2 (b.epoch % 2))[i]?).map fun v => votedState b.log v.pubkey).getD .zero
  t3 : ∀ b ∈ s.banks, s.stakes.t2Epoch ((b.epoch - 1) % 2) = some (b.epoch - 1) → b.epoch ≠ 0 →
    ∃ set, b.set3 = some set ∧ ∀ k, lookup (s.stakes.t2 ((b.epoch - 1) % 2)) k = lookup set k
  slot : ∀ p e, s.stakes.t2Epoch p = some e → p = e % 2 ∧ (e ≤ s.first ∨ ∃ n, s.origin e = some n ∧
    ∀ k, lookup (s.stakes.t2 p) k = lookup (s.sets n) k)

end Firebam.VoteStakes
