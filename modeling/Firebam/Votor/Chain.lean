import Firebam.Votor.Room

/-! The finalized chain behind the marks of the finality tracker. -/
namespace Firebam.Votor
open Lib

inductive Mark where
  | link (block parent : BlockId)
  | fastFinal (block : BlockId)
  | notar (block : BlockId)
  | final (slot : Nat)

/- The slot the tracker starts from, the block of the finalized chain in each slot, the one block
that is notarized in a slot, and the parent of each block -/
structure World where
  root : Nat
  chain : Nat → Option BlockHash
  notarized : Nat → BlockHash
  parent : BlockId → BlockId

namespace World

def OnChain (w : World) (block : BlockId) : Prop := w.chain block.slot = some block.hash

def Fits (w : World) : Mark → Prop
  | .link block parent => parent = w.parent block ∧ parent.slot < block.slot ∧ (w.OnChain block → w.root ≤ parent.slot →
        w.OnChain parent ∧ ∀ s, parent.slot < s → s < block.slot → w.chain s = none)
  | .fastFinal block => w.OnChain block
  | .notar block => block.hash = w.notarized block.slot ∧ ∀ hash, w.chain block.slot = some hash → hash = block.hash
  | .final slot => ∃ hash, w.chain slot = some hash

def Direct (seen : List Mark) (slot : Nat) : Prop :=
  (∃ hash, .fastFinal ⟨slot, hash⟩ ∈ seen) ∨ (∃ hash, .notar ⟨slot, hash⟩ ∈ seen) ∧ .final slot ∈ seen

/-- What a set of marks decides: the slots finalized by their own marks, and from each block of
the chain that is decided the slots down to its parent. -/
inductive Decided (w : World) (seen : List Mark) : Nat → Prop
  | direct {slot : Nat} (above : w.root ≤ slot) (marked : Direct seen slot) : Decided w seen slot
  | implied {block parent : BlockId} {slot : Nat} (decided : Decided w seen block.slot) (onChain : w.OnChain block)
      (linked : .link block parent ∈ seen) (above : w.root ≤ parent.slot) (low : parent.slot ≤ slot)
      (high : slot < block.slot) : Decided w seen slot

def Shows (w : World) (seen : List Mark) (D : Nat → Prop) (slot : Nat) : Option Status → Prop
  | some (.finalized hash) => w.chain slot = some hash ∧ D slot ∧ Direct seen slot
  | some (.implicitlyFinalized hash) => w.chain slot = some hash ∧ D slot ∧ ¬ Direct seen slot
  | some .implicitlySkipped => w.chain slot = none ∧ D slot
  | some (.notarized hash) => ¬ D slot ∧ .notar ⟨slot, hash⟩ ∈ seen ∧ .final slot ∉ seen
  | some .finalPendingNotar => ¬ D slot ∧ .final slot ∈ seen ∧ ∀ hash, .notar ⟨slot, hash⟩ ∉ seen
  | none => ¬ D slot ∧ .final slot ∉ seen ∧ ∀ hash, .notar ⟨slot, hash⟩ ∉ seen

variable {w : World} {seen seen' : List Mark} {D D' : Nat → Prop} {slot : Nat} {status status' : Option Status}

lemma OnChain.unique {b c : BlockId} (hf : w.OnChain b) (he : w.OnChain c) (hs : b.slot = c.slot) : b = c := by
  obtain ⟨slot, hash⟩ := b
  obtain ⟨slot', hash'⟩ := c
  cases hs
  have hh : hash = hash' := Option.some.inj (hf.symm.trans he)
  rw [hh]

lemma Direct.mono (ho : seen ⊆ seen') (hd : Direct seen slot) : Direct seen' slot := by
  rcases hd with ⟨hash, hm⟩ | ⟨⟨hash, hn⟩, hf⟩
  · exact .inl ⟨hash, ho hm⟩
  · exact .inr ⟨⟨hash, ho hn⟩, ho hf⟩

lemma Decided.mono (he : seen ⊆ seen') (hd : w.Decided seen slot) : w.Decided seen' slot := by
  induction hd with
  | direct ha hm => exact .direct ha (hm.mono he)
  | implied _ ho hl ha hw hh ih => exact .implied ih ho (he hl) ha hw hh

lemma Decided.exists_direct (hd : w.Decided seen slot) : ∃ top, slot ≤ top ∧ w.root ≤ top ∧ Direct seen top := by
  induction hd with
  | direct ha hm => exact ⟨_, le_rfl, ha, hm⟩
  | implied _ _ _ _ _ hh ih =>
    obtain ⟨top, le, ha, hm⟩ := ih
    exact ⟨top, by omega, ha, hm⟩

section

variable (hf : ∀ m ∈ seen, w.Fits m)
include hf

lemma links_apart {c c' p p' : BlockId} (hl : .link c p ∈ seen) (hi : .link c' p' ∈ seen)
    (ho : w.OnChain c) (hn : w.OnChain c') (ha : w.root ≤ p.slot) (hv : w.root ≤ p'.slot)
    (hc : p.slot < slot) (hh : slot < c.slot) (hw : p'.slot < slot) (hg : slot < c'.slot) : c.slot = c'.slot := by
  obtain ⟨_, _, hb⟩ := hf _ hl
  obtain ⟨_, _, ht⟩ := hf _ hi
  rcases lt_trichotomy c.slot c'.slot with he | hs | hm
  · have hk := (ht hn hv).2 c.slot (by omega) he
    rw [ho] at hk
    cases hk
  · exact hs
  · have hk := (hb ho ha).2 c'.slot (by omega) hm
    rw [hn] at hk
    cases hk

lemma Shows.unique (hi : w.Shows seen D slot status) (hs : w.Shows seen D slot status') : status = status' := by
  have hh : ∀ hash hash', .notar ⟨slot, hash⟩ ∈ seen → .notar ⟨slot, hash'⟩ ∈ seen → hash = hash' := by
    intro hash hash' hn ho
    have he : hash = w.notarized slot := (hf _ hn).1
    have ne : hash' = w.notarized slot := (hf _ ho).1
    rw [he, ne]
  -- decided and undecided statuses exclude each other, and so do the kinds of either
  cases status with
  | none => cases status' with
    | none => rfl
    | some ne => cases ne <;> simp_all [Shows]
  | some status => cases status' with
    | none => cases status <;> simp_all [Shows]
    | some ne =>
      cases status with
      | notarized h => cases ne with
        | notarized h' => rw [hh h h' hi.2.1 hs.2.1]
        | _ => simp_all [Shows]
      | _ => cases ne <;> simp_all [Shows]

end

lemma Shows.congr (hs : w.Shows seen D slot status) (hd : D slot ↔ D' slot)
    (hi : Direct seen slot ↔ Direct seen' slot) (hf : .final slot ∈ seen ↔ .final slot ∈ seen')
    (hn : ∀ hash, .notar ⟨slot, hash⟩ ∈ seen ↔ .notar ⟨slot, hash⟩ ∈ seen') : w.Shows seen' D' slot status := by
  match status with
  | none => exact ⟨hd.not.mp hs.1, hf.not.mp hs.2.1, fun h => (hn h).not.mp (hs.2.2 h)⟩
  | some (.finalized _) => exact ⟨hs.1, hd.mp hs.2.1, hi.mp hs.2.2⟩
  | some (.implicitlyFinalized _) => exact ⟨hs.1, hd.mp hs.2.1, hi.not.mp hs.2.2⟩
  | some .implicitlySkipped => exact ⟨hs.1, hd.mp hs.2⟩
  | some (.notarized h) => exact ⟨hd.not.mp hs.1, (hn h).mp hs.2.1, hf.not.mp hs.2.2⟩
  | some .finalPendingNotar => exact ⟨hd.not.mp hs.1, hf.mp hs.2.1, fun h => (hn h).not.mp (hs.2.2 h)⟩

end World

end Firebam.Votor
