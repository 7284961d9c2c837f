import Firebam.StakeDelegations.Basic
import Firebam.Lib.Keyed

/-! What the pools and the maps have in common with each other, and what a bank sees of them. -/
namespace Firebam.StakeDelegations
open Lib

variable {s t : Delegations} {i j d f : Nat} {k : Pubkey} {l : List Nat} {key : Nat → Pubkey} {β : Type}

def Delegations.rootKey (s : Delegations) (i : Nat) : Pubkey := (s.rootPool i).stakeAccount
def Delegations.deltaKey (s : Delegations) (d : Nat) : Pubkey := (s.deltaPool d).stakeAccount

structure Roots (s : Delegations) : Prop where
  keys : (s.rootMap.map s.rootKey).Nodup
  free : s.rootFree.Nodup
  apart : ∀ i ∈ s.rootFree, i ∉ s.rootMap
  fresh : ∃ old n, s.rootFree = old ++ List.range' s.poolIdxWmk n ∧ ∀ i ∈ old, i < s.poolIdxWmk
  below : ∀ i ∈ s.rootMap, i < s.poolIdxWmk
  used : ∀ i, i < s.poolIdxWmk → ((s.rootPool i).inUse ↔ i ∈ s.rootMap)

structure Deltas (s : Delegations) : Prop where
  keys : ∀ f, ((s.forkMap f).map s.deltaKey).Nodup
  free : s.deltaFree.Nodup
  apart : ∀ d ∈ s.deltaFree, ∀ f, d ∉ s.forkMap f
  disjoint : ∀ f g d, d ∈ s.forkMap f → d ∈ s.forkMap g → f = g
  forks : s.forkFree.Nodup
  empty : ∀ f, f ∈ s.forkFree ∨ s.forkMax ≤ f → s.forkMap f = []

def Unmarked (s : Delegations) : Prop := ∀ i ∈ s.rootMap, (s.rootPool i).deltaIdx = none ∧ (s.rootPool i).dneInRoot = false

structure Marks (s : Delegations) : Prop where
  tied : ∀ i ∈ s.rootMap, ∀ d, (s.rootPool i).deltaIdx = some d → s.deltaKey d = s.rootKey i
  projected : ∀ i ∈ s.rootMap, (s.rootPool i).dneInRoot = true → (s.rootPool i).deltaIdx ≠ none

def Delegations.references (s : Delegations) (k : Pubkey) : Nat :=
  (if (s.rootIdx k).isSome then 1 else 0) + (List.range s.forkMax).countP fun f => (s.forkIdx f k).isSome

def Refs (s : Delegations) : Prop := ∀ k, s.refcnt k = s.references k

structure Sound (s : Delegations) : Prop where
  roots : Roots s
  deltas : Deltas s
  unmarked : Unmarked s
  refs : Refs s
  within : s.pubkeyFallback = false

/-- The delegations of the root with the changes that are marked. -/
def Delegations.view (s : Delegations) (k : Pubkey) : Option Delegation :=
  (s.rootIdx k).bind fun i => (s.current i).map Prod.snd

def DeltaEle.change (e : DeltaEle) : Option Delegation := if e.isTombstone then none else some e.delegation

/-- What a fork has changed: nothing, or an account that it has removed or updated. -/
def Delegations.forkView (s : Delegations) (f : Nat) (k : Pubkey) : Option (Option Delegation) :=
  (s.forkIdx f k).map fun d => (s.deltaPool d).change

lemma update_here (f : Nat → β) (i : Nat) (x : β) : update f i x i = x := if_pos rfl

lemma update_there {f : Nat → β} (x : β) (ne : j ≠ i) : update f i x j = f j := if_neg ne

lemma find_idx (hd : (l.map key).Nodup) : (l.find? fun i => key i = k) = some i ↔ i ∈ l ∧ key i = k := by
  constructor
  · intro hf
    have hh := List.find?_some hf
    exact ⟨List.mem_of_find?_eq_some hf, of_decide_eq_true hh⟩
  · rintro ⟨hm, rfl⟩
    exact find_eq_of_mem hd hm

lemma Roots.rootIdx (hr : Roots s) : s.rootIdx k = some i ↔ i ∈ s.rootMap ∧ s.rootKey i = k := find_idx hr.keys

lemma Roots.nodup (hr : Roots s) : s.rootMap.Nodup := hr.keys.of_map _

lemma Deltas.forkIdx (hd : Deltas s) : s.forkIdx f k = some d ↔ d ∈ s.forkMap f ∧ s.deltaKey d = k :=
  find_idx (hd.keys f)

end Firebam.StakeDelegations
