import Mathlib

/-! Linked lists in memory: every element knows the next one. -/
namespace Firebam.Lib
open List

variable {α : Type}

def Chain (next : α → Option α) : Option α → List α → Prop
  | first, [] => first = none
  | first, x :: rest => first = some x ∧ Chain next (next x) rest

def follow (next : α → Option α) : Nat → Option α → List α
  | 0, _ => []
  | _ + 1, none => []
  | n + 1, some x => x :: follow next n (next x)

namespace Chain
variable {next next' : α → Option α} {first : Option α} {l l' : List α} {x y : α}

section
variable (hc : Chain next first l)
include hc

lemma follow {n : Nat} (hl : l.length ≤ n) : follow next n first = l := by
  induction l generalizing n first with
  | nil =>
    cases hc
    cases n <;> rfl
  | cons x rest ih =>
    obtain ⟨rfl, ht⟩ := hc
    cases n with
    | zero => exact absurd hl (Nat.not_succ_le_zero _)
    | succ n => exact congrArg (x :: ·) (ih ht (Nat.le_of_succ_le_succ hl))

lemma congr (hs : ∀ x ∈ l, next' x = next x) : Chain next' first l := by
  induction l generalizing first with
  | nil => exact hc
  | cons x rest ih =>
    refine ⟨hc.1, ?_⟩
    rw [hs x mem_cons_self]
    exact ih hc.2 fun y hm => hs y (.tail _ hm)

lemma unique (ne : Chain next first l') : l = l' := by
  induction l generalizing first l' with
  | nil =>
    cases l' with
    | nil => rfl
    | cons x rest =>
      cases hc
      cases ne.1
  | cons x rest ih =>
    obtain ⟨rfl, ht⟩ := hc
    cases l' with
    | nil => cases ne
    | cons y more =>
      obtain ⟨eq, ha⟩ := ne
      cases eq
      rw [ih ht ha]

end

lemma suffix {a : List α} (hc : Chain next first (a ++ x :: l)) : Chain next (some x) (x :: l) := by
  induction a generalizing first with
  | nil => exact ⟨rfl, hc.2⟩
  | cons y a ih => exact ih hc.2

lemma nodup (hc : Chain next first l) : l.Nodup := by
  induction l generalizing first with
  | nil => exact nodup_nil
  | cons x rest ih =>
    refine nodup_cons.mpr ⟨?_, ih hc.2⟩
    intro ha
    -- behind its second place the element would be followed by fewer elements
    obtain ⟨a, b, rfl⟩ := append_of_mem ha
    have hw : Chain next (some x) (x :: (a ++ x :: b)) := hc.1 ▸ hc
    have eq := hw.unique (hc.2.suffix)
    have hl := congrArg List.length eq
    simp only [length_cons, length_append] at hl
    omega

lemma first_eq (hc : Chain next first l) : first = l.head? := by
  cases l with
  | nil => exact hc
  | cons x rest => exact hc.1

lemma head_mem (hc : Chain next (some x) l) : x ∈ l := mem_of_mem_head? hc.first_eq.symm

lemma eq_nil (hc : Chain next none l) : l = [] := by
  cases l with
  | nil => rfl
  | cons x rest => cases hc.1

lemma concat {last : α} (hc : Chain next first (l ++ [last])) (hp : next' last = some y)
    (he : next' y = none) (hs : ∀ x ∈ l, next' x = next x) : Chain next' first (l ++ [last] ++ [y]) := by
  induction l generalizing first with
  | nil =>
    refine ⟨hc.1, ?_⟩
    rw [hp]
    exact ⟨rfl, he⟩
  | cons x rest ih =>
    refine ⟨hc.1, ?_⟩
    rw [hs x mem_cons_self]
    exact ih hc.2 fun z hm => hs z (.tail _ hm)

lemma skip {a b : List α} {prev : α} (hc : Chain next first (a ++ prev :: x :: b)) (hp : next' prev = next x)
    (hs : ∀ z ∈ a ++ b, next' z = next z) : Chain next' first (a ++ prev :: b) := by
  induction a generalizing first with
  | nil =>
    refine ⟨hc.1, ?_⟩
    rw [hp]
    exact Chain.congr hc.2.2 hs
  | cons y a ih =>
    refine ⟨hc.1, ?_⟩
    rw [hs y mem_cons_self]
    exact ih hc.2 fun z hm => hs z (.tail _ hm)

lemma erase_next [DecidableEq α] {a b : List α} {prev : α} (hh : Chain next first (a ++ prev :: x :: b)) :
    prev ≠ x ∧ (∀ z ∈ a ++ b, z ≠ prev) ∧ (a ++ prev :: x :: b).erase x = a ++ prev :: b := by
  obtain ⟨-, hb, hc⟩ := nodup_append.mp hh.nodup
  obtain ⟨hn, -⟩ := nodup_cons.mp hb
  have ho : prev ≠ x := fun eq => hn (eq ▸ .head _)
  have hf : x ∉ a := fun ha => hc x ha x (.tail _ (.head _)) rfl
  refine ⟨ho, ?_, ?_⟩
  · rintro z ht rfl
    rcases mem_append.mp ht with ht | ht
    · exact hc z ht z (.head _) rfl
    · exact hn (.tail _ ht)
  · rw [erase_append_right _ hf, erase_cons_tail (by simpa using ho), erase_cons_head]

lemma after {a b : List α} (hc : Chain next first (a ++ x :: b)) (hp : next x = some y) : ∃ rest, b = y :: rest := by
  have ht := hc.suffix.2
  rw [hp] at ht
  cases b with
  | nil => cases ht
  | cons z rest =>
    cases ht.1
    exact ⟨rest, rfl⟩

lemma before {rest : List α} (hc : Chain next first (x :: rest)) (hm : y ∈ rest) :
    ∃ prev ∈ x :: rest, next prev = some y := by
  induction rest generalizing first x with
  | nil => cases hm
  | cons z more ih =>
    rcases mem_cons.mp hm with rfl | hm
    · exact ⟨x, .head _, hc.2.1⟩
    · obtain ⟨prev, m, hp⟩ := ih hc.2 hm
      exact ⟨prev, .tail _ m, hp⟩

end Chain

end Firebam.Lib
