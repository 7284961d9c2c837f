import Firebam.Tower.Replay

/-! The block tree that replay has delivered, newest block first, and what the parent slots in the
tower say about it. -/
namespace Firebam.Choreo
open Lib List
open Firebam.Ghost (Hash Pubkey)

variable {tree older : List SlotCompleted} {a b c s p slot ancestor : Nat} {m : SlotCompleted} {blks : List Blk}

def slotsAbove : List SlotCompleted → Hash → List Nat
  | [], _ => []
  | m :: older, id =>
    if m.blockId = id then
      match older.find? fun p => p.blockId = m.parentBlockId with
      | none => []
      | some p => p.slot :: slotsAbove older p.blockId
    else slotsAbove older id

def links : List SlotCompleted → List (Nat × Nat)
  | [] => []
  | [_] => []
  | m :: next :: older => (m.slot, m.parentSlot) :: links (next :: older)

inductive Grows : List SlotCompleted → Prop
  | boot (m : SlotCompleted) : Grows [m]
  | next {m p : SlotCompleted} {older : List SlotCompleted} (tree : Grows older) (inside : p ∈ older)
      (parent : p.blockId = m.parentBlockId) (slot : p.slot = m.parentSlot) (above : p.slot < m.slot) :
      Grows (m :: older)

inductive Above (tree : List SlotCompleted) (a : Nat) : Nat → Prop
  | parent {s : Nat} (link : (s, a) ∈ links tree) : Above tree a s
  | up {s p : Nat} (link : (s, p) ∈ links tree) (above : Above tree a p) : Above tree a s

lemma links_cons (ht : Grows older) : links (m :: older) = (m.slot, m.parentSlot) :: links older := by
  cases older with
  | nil => cases ht
  | cons next older => rfl

lemma Grows.links_sub (ht : Grows older) : links older ⊆ links (m :: older) := by
  rw [links_cons ht]
  exact subset_cons_self _ _

lemma Above.mono {tree' : List SlotCompleted} (ha : Above tree a s) (hs : links tree ⊆ links tree') :
    Above tree' a s := by
  induction ha with
  | parent hl => exact .parent (hs hl)
  | up hl _ ih => exact .up (hs hl) ih

lemma Above.trans (hf : Above tree a b) (hs : Above tree b c) : Above tree a c := by
  induction hs with
  | parent hl => exact .up hl hf
  | up hl _ ih => exact .up hl ih

lemma Above.cases_link (ha : Above tree a s) : ∃ p, (s, p) ∈ links tree ∧ (a = p ∨ Above tree a p) := by
  cases ha with
  | parent hl => exact ⟨a, hl, .inl rfl⟩
  | up hl hr => exact ⟨_, hl, .inr hr⟩

lemma getLast_older {boot x : SlotCompleted} (hi : x ∈ older) :
    boot ∈ (m :: older).getLast? ↔ boot ∈ older.getLast? := by
  cases older with
  | nil => cases hi
  | cons y ys => simp

lemma Grows.boot_le (hg : Grows tree) : ∀ boot ∈ tree.getLast?, ∀ m ∈ tree, boot.slot ≤ m.slot := by
  induction hg with
  | boot first =>
    intro boot hl m hi
    cases hl
    cases mem_singleton.mp hi
    exact le_refl _
  | @next m p older tree hi hp hs ha ih =>
    intro boot hl x hx
    have hr := (getLast_older hi).mp hl
    rcases mem_cons.mp hx with rfl | hx
    · exact le_of_lt (lt_of_le_of_lt (ih boot hr p hi) ha)
    · exact ih boot hr x hx

lemma Grows.link_above (hg : Grows tree) : ∀ boot ∈ tree.getLast?, ∀ s p, (s, p) ∈ links tree → boot.slot < s := by
  induction hg with
  | boot first =>
    intro boot _ s p hl
    cases hl
  | @next m p older tree hi hp hs ha ih =>
    intro boot ht s q hl
    have hr := (getLast_older hi).mp ht
    rw [links_cons tree] at hl
    rcases mem_cons.mp hl with hh | hl
    · cases hh
      exact lt_of_le_of_lt (tree.boot_le boot hr p hi) ha
    · exact ih boot hr s q hl

lemma Grows.mem_slotsAbove (hw : Grows older) (hb : ∀ x ∈ tree, ∀ y ∈ tree, x.blockId = y.blockId → x.slot = y.slot)
    (hu : ∀ s p q, (s, p) ∈ links tree → (s, q) ∈ links tree → p = q)
    (hx : ∀ boot ∈ older.getLast?, ∀ s p, (s, p) ∈ links tree → boot.slot < s) (hq : older ⊆ tree)
    (hv : links older ⊆ links tree) (hj : m ∈ older) (ha : Above tree a m.slot) : a ∈ slotsAbove older m.blockId := by
  induction hw generalizing m with
  | boot first =>
    cases mem_singleton.mp hj
    obtain ⟨p, hi, -⟩ := ha.cases_link
    exact absurd (hx first rfl _ _ hi) (lt_irrefl _)
  | @next top p older hc mem hr ho hg ih =>
    have he : ∀ boot ∈ older.getLast?, ∀ s p, (s, p) ∈ links tree → boot.slot < s :=
      fun boot hla => hx boot ((getLast_older mem).mpr hla)
    have hd : links older ⊆ links tree := fun x hi => hv (hc.links_sub hi)
    have hm : older ⊆ tree := fun x h => hq (.tail _ h)
    unfold slotsAbove
    by_cases hh : top.blockId = m.blockId
    · have hs : m.slot = top.slot := hb m (hq hj) top (hq (.head _)) hh.symm
      obtain ⟨q, hi, hy⟩ := ha.cases_link
      have hz : (top.slot, top.parentSlot) ∈ links tree := by
        refine hv ?_
        rw [links_cons hc]
        exact .head _
      have hp : q = top.parentSlot := hu top.slot q top.parentSlot (hs ▸ hi) hz
      cases hf : older.find? fun x => decide (x.blockId = top.parentBlockId) with
      | none =>
        have hn := find?_eq_none.mp hf p mem
        simp [hr] at hn
      | some x =>
        have hk : x.blockId = top.parentBlockId := by simpa using find?_some hf
        have ht := mem_of_find?_eq_some hf
        have hl : x.slot = q := by
          rw [hp, ← ho]
          exact hb x (hm ht) p (hm mem) (hk.trans hr.symm)
        rw [if_pos hh]
        dsimp only
        rcases hy with rfl | hy
        · rw [hl]
          exact .head _
        · exact .tail _ (ih he hm hd ht (hl ▸ hy))
    · rw [if_neg hh]
      rcases mem_cons.mp hj with rfl | hj
      · exact absurd rfl hh
      · exact ih he hm hd hj ha

structure Linked (tree : List SlotCompleted) (blks : List Blk) : Prop where
  link : ∀ b ∈ blks, (b.slot, b.parentSlot) ∈ links tree ∨
    ∃ boot ∈ tree.getLast?, b.slot = boot.slot ∧ (b.parentSlot < boot.slot ∨ b.parentSlot = wordSize - 1)

lemma query_some {b : Blk} (hf : query blks slot = some b) : b ∈ blks ∧ b.slot = slot :=
  ⟨mem_of_find?_eq_some hf, by simpa using find?_some hf⟩

variable (hg : Grows tree) (hli : Linked tree blks) (hin : ∀ boot ∈ tree.getLast?, boot.slot ≤ ancestor)
  (hd : ancestor < wordSize - 1) (hm : ∀ b ∈ blks, b.slot < wordSize - 1)
include hg hli hin hd hm

lemma ancestorFrom_above {n : Nat} (hf : ancestorFrom blks ancestor n slot = true) : Above tree ancestor slot := by
  induction n generalizing slot with
  | zero => cases hf
  | succ n ih =>
    unfold ancestorFrom at hf
    split at hf
    · cases hf
    · rename_i b hh
      obtain ⟨hx, rfl⟩ := query_some hh
      rcases hli.link b hx with hk | ⟨boot, hi, hs, ho⟩
      · split_ifs at hf with he
        · exact .parent (he ▸ hk)
        · exact .up hk (ih hf)
      · have hl := hin boot hi
        split at hf
        · omega
        · -- the walk has left the tree below its first block
          cases n with
          | zero => cases hf
          | succ n =>
            unfold ancestorFrom at hf
            split at hf
            · cases hf
            · rename_i c ht
              obtain ⟨hn, hv⟩ := query_some ht
              have hb := hm c hn
              rcases hli.link c hn with hk | ⟨boot', hr, ha, -⟩
              · have := hg.link_above boot hi _ _ hk
                omega
              · cases Option.mem_unique hi hr
                omega

lemma isAncestor_above (hf : isAncestor blks slot ancestor = true) : Above tree ancestor slot :=
  ancestorFrom_above hg hli hin hd hm hf

end Firebam.Choreo
