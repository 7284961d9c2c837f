import Mathlib

/-! Lists that hold the elements with a property once each, and insertion into an ordered
list by a strict order. -/
namespace Firebam.Lib
open List

variable {α : Type}

/-- The list has exactly the elements with the property, each once. -/
structure Lists (l : List α) (P : α → Prop) : Prop where
  nodup : l.Nodup
  mem : ∀ x, x ∈ l ↔ P x

namespace Lists

variable {l : List α} {P Q : α → Prop} {x : α}

lemma congr (h : Lists l P) (hs : ∀ y, P y ↔ Q y) : Lists l Q :=
  ⟨h.nodup, fun y => (h.mem y).trans (hs y)⟩

lemma nil (none : ∀ y, ¬ P y) : Lists ([] : List α) P :=
  ⟨nodup_nil, fun y => by simp [none y]⟩

lemma cons (h : Lists l P) (hf : ¬ P x) : Lists (x :: l) fun y => y = x ∨ P y := by
  refine ⟨nodup_cons.mpr ⟨?_, h.nodup⟩, ?_⟩
  · intro hm
    exact hf ((h.mem x).mp hm)
  · intro y
    rw [mem_cons, h.mem]

lemma concat (h : Lists l P) (hf : ¬ P x) : Lists (l ++ [x]) fun y => y = x ∨ P y := by
  have hp := perm_append_singleton x l
  have hr := h.cons hf
  exact ⟨hp.nodup_iff.mpr hr.nodup, fun y => hp.mem_iff.trans (hr.mem y)⟩

lemma erase [DecidableEq α] (h : Lists l P) : Lists (l.erase x) fun y => y ≠ x ∧ P y := by
  refine ⟨h.nodup.erase x, ?_⟩
  intro y
  rw [h.nodup.mem_erase_iff, h.mem]

end Lists

end Firebam.Lib
