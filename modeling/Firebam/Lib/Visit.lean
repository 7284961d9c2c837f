import Mathlib

/-! Breadth first search of a tree, with a queue of the elements that are to be visited. -/
namespace Firebam.Lib
open List

variable {α : Type}

structure Forest (all : List α) (kids : α → List α) (below : α → Prop) : Prop where
  sub : ∀ x ∈ all, ∀ c ∈ kids x, c ∈ all
  nodup : ∀ x ∈ all, (kids x).Nodup
  unique : ∀ x ∈ all, ∀ y ∈ all, ∀ c, c ∈ kids x → c ∈ kids y → x = y
  down : ∀ x ∈ all, below x → ∀ c ∈ kids x, below c

/-- Seen are the elements that were in the queue. -/
structure Visit (all : List α) (kids : α → List α) (below : α → Prop) (seen queue : List α) : Prop where
  nodup : seen.Nodup
  sub : ∀ x ∈ seen, x ∈ all
  queued : ∀ x ∈ queue, x ∈ seen ∧ below x
  once : queue.Nodup
  fresh : ∀ x ∈ all, below x → x ∈ queue ∨ x ∉ seen → ∀ c ∈ kids x, c ∉ seen

namespace Visit
variable {all seen queue : List α} {kids : α → List α} {below : α → Prop} {x : α}

lemma start (m : x ∈ all) (hh : below x) (ht : ∀ y ∈ all, below y → x ∉ kids y) : Visit all kids below [x] [x] := by
  refine ⟨nodup_singleton x, ?_, ?_, nodup_singleton x, ?_⟩
  · intro y hm
    rw [mem_singleton.mp hm]
    exact m
  · intro y hm
    rw [mem_singleton.mp hm]
    exact ⟨mem_singleton_self x, hh⟩
  · intro y hm hl _ c hk ha
    rw [mem_singleton.mp ha] at hk
    exact ht y hm hl hk

lemma skip (hv : Visit all kids below seen (x :: queue)) : Visit all kids below seen queue where
  nodup := hv.nodup
  sub := hv.sub
  queued := fun y hm => hv.queued y (.tail _ hm)
  once := (nodup_cons.mp hv.once).2
  fresh := fun y hm hl he => hv.fresh y hm hl (he.imp_left (.tail _))

lemma expand (hv : Visit all kids below seen (x :: queue)) (hf : Forest all kids below) :
    Visit all kids below (seen ++ kids x) (queue ++ kids x) := by
  obtain ⟨ht, hl⟩ := hv.queued x (.head _)
  have m := hv.sub x ht
  obtain ⟨ho, hr⟩ := nodup_cons.mp hv.once
  have new := hv.fresh x m hl (.inl (.head _))
  refine ⟨?_, ?_, ?_, ?_, ?_⟩
  · refine nodup_append.mpr ⟨hv.nodup, hf.nodup x m, ?_⟩
    intro a hm b hk eq
    exact new b hk (eq ▸ hm)
  · intro y hm
    rcases mem_append.mp hm with hm | hk
    · exact hv.sub y hm
    · exact hf.sub x m y hk
  · intro y hm
    rcases mem_append.mp hm with hm | hk
    · obtain ⟨hm, hl⟩ := hv.queued y (.tail _ hm)
      exact ⟨mem_append_left _ hm, hl⟩
    · exact ⟨mem_append_right _ hk, hf.down x m hl y hk⟩
  · refine nodup_append.mpr ⟨hr, hf.nodup x m, ?_⟩
    intro a hm b hk eq
    exact new b hk (eq ▸ (hv.queued a (.tail _ hm)).1)
  · intro y hm hb he c hk ha
    -- an element that is still to be visited is not the one that is
    have ne : y ≠ x := by
      rintro rfl
      rcases he with hw | hn
      · rcases mem_append.mp hw with hw | hk
        · exact ho hw
        · exact new y hk ht
      · exact hn (mem_append_left _ ht)
    rcases mem_append.mp ha with ha | ha
    · refine hv.fresh y hm hb ?_ c hk ha
      rcases he with hw | hn
      · rcases mem_append.mp hw with hw | hk
        · exact .inl (.tail _ hw)
        · exact .inr (new y hk)
      · exact .inr fun seen => hn (mem_append_left _ seen)
    · exact ne (hf.unique y hm x m c hk ha)

lemma length_le (hv : Visit all kids below seen queue) : seen.length ≤ all.length :=
  (subperm_of_subset hv.nodup fun x hm => hv.sub x hm).length_le

end Visit

end Firebam.Lib
