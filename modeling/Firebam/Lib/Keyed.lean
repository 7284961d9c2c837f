import Mathlib

/-! Lists that stand for maps: the keys are distinct, an element is replaced in place, and keys
from a bounded range leave room. -/
namespace Firebam.Lib
open List

variable {α κ : Type} {keys : List Nat} {low high : Nat} {key : α → κ} {l : List α}

lemma keys_replace [DecidableEq κ] (k : κ) (a : α) (hn : key a = k) :
    (l.map fun x => if key x = k then a else x).map key = l.map key := by
  rw [map_map]
  refine map_congr_left fun x _ => ?_
  dsimp only [Function.comp]
  split_ifs with hs
  · rw [hn, hs]
  · rfl

section
variable (hd : (l.map key).Nodup)
include hd

lemma modify_findIdx [DecidableEq κ] {k : κ} {j : Nat} {f : α → α}
    (hf : (l.findIdx? fun x => decide (key x = k)) = some j) :
    l.modify j f = l.map fun x => if key x = k then f x else x := by
  induction l generalizing j with
  | nil => simp at hf
  | cons x l ih =>
    rw [map_cons, nodup_cons] at hd
    rw [findIdx?_cons] at hf
    split at hf
    · rename_i hh
      cases hf
      have hh := of_decide_eq_true hh
      have ho : (l.map fun y => if key y = k then f y else y) = l := by
        refine (map_congr_left fun y hm => if_neg fun hs => ?_).trans (map_id l)
        exact hd.1 (hh ▸ hs ▸ mem_map_of_mem hm)
      simp [hh, ho]
    · rename_i ha
      obtain ⟨i, hl, rfl⟩ := Option.map_eq_some_iff.mp hf
      have ha : key x ≠ k := fun hs => ha (decide_eq_true hs)
      simp [ha, ih hd.2 hl]

lemma keys_concat {a : α} (hf : key a ∉ l.map key) : ((l ++ [a]).map key).Nodup := by
  rw [map_append, map_singleton]
  exact (perm_append_singleton _ _).nodup_iff.mpr (nodup_cons.mpr ⟨hf, hd⟩)

lemma keys_filter {p : α → Bool} : ((l.filter p).map key).Nodup :=
  hd.sublist (filter_sublist.map key)

end

lemma find_none_fresh [DecidableEq κ] {k : κ} (hn : l.find? (fun x => decide (key x = k)) = none) : k ∉ l.map key := by
  intro hm
  obtain ⟨x, hh, hs⟩ := mem_map.mp hm
  have := find?_eq_none.mp hn x hh
  simp [hs] at this

section

variable [DecidableEq κ]

lemma find_eq_of_mem {x : α} (hd : (l.map key).Nodup) (hm : x ∈ l) :
    (l.find? fun y => decide (key y = key x)) = some x := by
  induction l with
  | nil => cases hm
  | cons y rest ih =>
    rw [find?_cons]
    obtain ⟨hf, hd⟩ := nodup_cons.mp hd
    rcases mem_cons.mp hm with rfl | hm
    · simp
    · have ne : key y ≠ key x := fun eq => hf (eq ▸ mem_map_of_mem hm)
      simp only [ne, decide_false]
      exact ih hd hm

lemma perm_filter_ne {x : α} (hd : (l.map key).Nodup) (hm : x ∈ l) :
    l.Perm (x :: l.filter fun y => decide (key y ≠ key x)) := by
  obtain ⟨front, back, rfl⟩ := append_of_mem hm
  rw [map_append, map_cons] at hd
  have hf := (perm_middle.nodup_iff.mp hd).notMem
  rw [← map_append, mem_map, not_exists] at hf
  have ho : (front ++ x :: back).filter (fun y => decide (key y ≠ key x)) = front ++ back := by
    rw [filter_append, filter_cons_of_neg (by simp), ← filter_append, filter_eq_self]
    intro y hh
    exact decide_eq_true fun hs => hf y ⟨hh, hs⟩
  rw [ho]
  exact perm_middle

lemma find_replace {k : κ} {a : α} (hn : key a = k) (hp : (l.find? fun x => decide (key x = k)).isSome)
    (s : κ) : ((l.map fun x => if key x = k then a else x).find? fun x => decide (key x = s)) =
      if s = k then some a else l.find? fun x => decide (key x = s) := by
  have hk : (fun x => decide (key x = s)) ∘ (fun x => if key x = k then a else x) = fun x => decide (key x = s) := by
    funext x
    dsimp only [Function.comp]
    split_ifs with hs
    · rw [hn, hs]
    · rfl
  rw [find?_map, hk]
  by_cases hh : s = k
  · subst hh
    obtain ⟨x, hf⟩ := Option.isSome_iff_exists.mp hp
    have hs : key x = s := by simpa using find?_some hf
    rw [hf, Option.map_some, if_pos hs, if_pos rfl]
  · rw [if_neg hh]
    cases hf : l.find? fun x => decide (key x = s) with
    | none => rfl
    | some x =>
      have hs : key x = s := by simpa using find?_some hf
      rw [Option.map_some, if_neg (hs ▸ hh)]

lemma find_concat {a : α} (hn : (l.find? fun x => decide (key x = key a)) = none) (s : κ) :
    ((l ++ [a]).find? fun x => decide (key x = s)) =
      if s = key a then some a else l.find? fun x => decide (key x = s) := by
  rw [find?_append]
  by_cases hh : s = key a
  · subst hh
    rw [hn, if_pos rfl]
    simp
  · rw [if_neg hh]
    simp [Ne.symm hh]

lemma find_filter (key : α → κ) (l : List α) (keep : κ → Bool) (s : κ) : ((l.filter fun x => keep (key x)).find? fun x => decide (key x = s)) =
    if keep s then l.find? fun x => decide (key x = s) else none := by
  rw [find?_filter]
  by_cases hk : keep s = true
  · rw [if_pos hk]
    congr 1
    funext x
    by_cases hs : key x = s
    · simp [hs, hk]
    · simp [hs]
  · rw [if_neg hk, find?_eq_none]
    intro x _ hb
    obtain ⟨he, hs⟩ := by simpa using hb
    exact hk (hs ▸ he)

end

lemma length_le_range (hd : keys.Nodup) (m : ∀ k ∈ keys, low ≤ k ∧ k < high) : keys.length ≤ high - low := by
  have hc : keys ⊆ List.range' low (high - low) := by
    intro k hm
    have := m k hm
    exact List.mem_range'_1.mpr (by omega)
  have := (subperm_of_subset hd hc).length_le
  rwa [length_range'] at this

lemma length_lt_range {k : Nat} (hd : keys.Nodup)
    (hm : ∀ k ∈ keys, low ≤ k ∧ k < high) (hf : k ∉ keys) (ha : low ≤ k) (hb : k < high) :
    keys.length < high - low := by
  have := length_le_range (nodup_cons.mpr ⟨hf, hd⟩) (forall_mem_cons.mpr ⟨⟨ha, hb⟩, hm⟩)
  rw [length_cons] at this
  omega

end Firebam.Lib
