import Mathlib

/-! Trees that are given by the children of each element. -/
namespace Firebam.Lib
open List Relation.ReflTransGen

variable {α : Type} {all : List α} {kids : α → List α} {rank : α → Nat} {x y a b c : α} {n : Nat}

def Reaches (kids : α → List α) : α → α → Prop := Relation.ReflTransGen fun p c => c ∈ kids p

def subtree (kids : α → List α) : Nat → α → List α
  | 0, _ => []
  | n + 1, x => x :: (kids x).flatMap (subtree kids n)

def sweep (kids : α → List α) : Nat → List α → List α
  | 0, _ => []
  | _ + 1, [] => []
  | n + 1, x :: queue => x :: sweep kids n (queue ++ kids x)

def Sweeps (kids : α → List α) : Nat → List α → Prop
  | _, [] => True
  | 0, _ :: _ => False
  | n + 1, x :: queue => Sweeps kids n (queue ++ kids x)

structure Branches (all : List α) (kids : α → List α) (rank : α → Nat) : Prop where
  sub : ∀ x ∈ all, ∀ c ∈ kids x, c ∈ all
  rises : ∀ x ∈ all, ∀ c ∈ kids x, rank x < rank c
  nodup : ∀ x ∈ all, (kids x).Nodup
  unique : ∀ x ∈ all, ∀ y ∈ all, ∀ c, c ∈ kids x → c ∈ kids y → x = y

def above (all : List α) (rank : α → Nat) (x : α) : Nat := (all.filter (rank x < rank ·)).length

lemma above_lt_length (mem : x ∈ all) : above all rank x < all.length := by
  refine length_filter_lt_length_iff_exists.mpr ⟨x, mem, ?_⟩
  simp

lemma above_lt (mem : c ∈ all) (lt : rank x < rank c) : above all rank c < above all rank x := by
  have hn : all.filter (rank c < rank ·) = (all.filter (rank x < rank ·)).filter (rank c < rank ·) := by
    rw [filter_filter]
    refine filter_congr fun y _ => ?_
    simp only [← Bool.decide_and, decide_eq_decide]
    omega
  unfold above
  rw [hn]
  refine length_filter_lt_length_iff_exists.mpr ⟨c, mem_filter.mpr ⟨mem, decide_eq_true lt⟩, ?_⟩
  simp

lemma Reaches.trans_kid (hb : Reaches kids x a) (hk : c ∈ kids a) : Reaches kids x c :=
  tail hb hk

namespace Branches

variable (ht : Branches all kids rank)
include ht

lemma below_mem (mem : x ∈ all) (hb : Reaches kids x y) : y ∈ all := by
  induction hb with
  | refl => exact mem
  | tail _ hk ih => exact ht.sub _ ih _ hk

lemma below_rank (mem : x ∈ all) (hl : Reaches kids x y) : rank x ≤ rank y := by
  induction hl with
  | refl => exact Nat.le_refl _
  | tail hb hk ih =>
    exact Nat.le_trans ih (Nat.le_of_lt (ht.rises _ (ht.below_mem mem hb) _ hk))

lemma below_total (left : a ∈ all) (right : b ∈ all) (hf : Reaches kids a y)
    (he : Reaches kids b y) : Reaches kids a b ∨ Reaches kids b a := by
  induction hf with
  | refl => exact .inr he
  | @tail z y hb hi ih =>
    rcases cases_tail he with rfl | ⟨w, hp, hk⟩
    · exact .inl (hb.tail hi)
    · have hs := ht.unique z (ht.below_mem left hb) w (ht.below_mem right hp) y hi hk
      exact ih (hs ▸ hp)

section
variable (mem : x ∈ all)
include mem

lemma not_below_parent (hk : c ∈ kids x) : ¬Reaches kids c x := by
  intro hb
  have ha := ht.below_rank (ht.sub x mem c hk) hb
  have up := ht.rises x mem c hk
  omega

lemma kids_apart (hf : a ∈ kids x) (he : b ∈ kids x) (hb : Reaches kids a y) (ho : Reaches kids b y) : a = b := by
  have hl := ht.sub x mem a hf
  have hr := ht.sub x mem b he
  have ne : ∀ {a b}, a ∈ kids x → b ∈ kids x → Reaches kids a b → a = b := by
    intro a b hf he hp
    rcases cases_tail hp with rfl | ⟨w, hp, hk⟩
    · rfl
    · have m := ht.sub x mem a hf
      have hs := ht.unique w (ht.below_mem m hp) x mem b hk he
      exact absurd (hs ▸ hp) (ht.not_below_parent mem hf)
  rcases ht.below_total hl hr hb ho with hp | hp
  · exact ne hf he hp
  · exact (ne he hf hp).symm

lemma above_kid (hk : c ∈ kids x) : above all rank c < above all rank x :=
  above_lt (ht.sub x mem c hk) (ht.rises x mem c hk)

lemma mem_subtree_of_above (hd : above all rank x < n) : y ∈ subtree kids n x ↔ Reaches kids x y := by
  induction n generalizing x with
  | zero => exact absurd hd (Nat.not_lt_zero _)
  | succ n ih =>
    have hk : ∀ c ∈ kids x, (y ∈ subtree kids n c ↔ Reaches kids c y) := fun c hi =>
      ih (ht.sub x mem c hi) (Nat.lt_of_lt_of_le (ht.above_kid mem hi) (Nat.le_of_lt_succ hd))
    rw [subtree, mem_cons, mem_flatMap]
    constructor
    · rintro (rfl | ⟨c, hi, m⟩)
      · exact refl
      · exact head hi ((hk c hi).mp m)
    · intro hb
      rcases cases_head hb with rfl | ⟨c, hi, hp⟩
      · exact .inl rfl
      · exact .inr ⟨c, hi, (hk c hi).mpr hp⟩

end

lemma mem_subtree (hl : all.length ≤ n) (mem : x ∈ all) : y ∈ subtree kids n x ↔ Reaches kids x y :=
  ht.mem_subtree_of_above mem (Nat.lt_of_lt_of_le (above_lt_length mem) hl)

lemma subtree_deeper (mem : x ∈ all) (hd : above all rank x < n) : subtree kids (n + 1) x = subtree kids n x := by
  induction n generalizing x with
  | zero => exact absurd hd (Nat.not_lt_zero _)
  | succ n ih =>
    rw [subtree, subtree]
    refine congrArg (x :: ·) (flatMap_congr fun c hk => ?_)
    exact ih (ht.sub x mem c hk) (Nat.lt_of_lt_of_le (ht.above_kid mem hk) (Nat.le_of_lt_succ hd))

section
variable (ho : all.length ≤ n) (mem : x ∈ all)
include ho mem

lemma subtree_eq : subtree kids n x = x :: (kids x).flatMap (subtree kids n) := by
  rw [← ht.subtree_deeper mem (Nat.lt_of_lt_of_le (above_lt_length mem) ho)]
  rfl

lemma subtree_nodup : (subtree kids n x).Nodup := by
  -- the induction is on the number of elements that can be further down
  induction size : above all rank x using Nat.strongRecOn generalizing x with
  | ind _ ih =>
    rw [ht.subtree_eq ho mem]
    refine nodup_cons.mpr ⟨?_, nodup_flatMap.mpr ⟨?_, ?_⟩⟩
    · intro ha
      obtain ⟨c, hk, m⟩ := mem_flatMap.mp ha
      exact ht.not_below_parent mem hk ((ht.mem_subtree ho (ht.sub x mem c hk)).mp m)
    · intro c hk
      exact ih _ (size ▸ ht.above_kid mem hk) (ht.sub x mem c hk) rfl
    · refine (ht.nodup x mem).imp_of_mem fun {a b} hf hs ne => ?_
      intro y hl hr
      have hb := (ht.mem_subtree ho (ht.sub x mem a hf)).mp hl
      have he := (ht.mem_subtree ho (ht.sub x mem b hs)).mp hr
      exact ne (ht.kids_apart mem hf hs hb he)

lemma subtree_order (hb : Reaches kids x a) (hk : c ∈ kids a) : [a, c].Sublist (subtree kids n x) := by
  induction hb using head_induction_on with
  | refl =>
    rw [ht.subtree_eq ho mem]
    refine (singleton_sublist.mpr (mem_flatMap.mpr ⟨c, hk, ?_⟩)).cons_cons a
    exact (ht.mem_subtree ho (ht.sub _ mem c hk)).mpr refl
  | @head x k hf _ ih =>
    rw [ht.subtree_eq ho mem, List.flatMap]
    refine ((ih (ht.sub x mem k hf)).trans ?_).cons x
    exact sublist_flatten_of_mem (mem_map.mpr ⟨k, hf, rfl⟩)

lemma flatMap_next (queue : List α) :
    ((x :: queue).flatMap (subtree kids n)).Perm (x :: (queue ++ kids x).flatMap (subtree kids n)) := by
  rw [flatMap_cons, ht.subtree_eq ho mem, flatMap_append, cons_append]
  exact perm_append_comm.cons x

end

lemma queue_next {queue : List α} (m : ∀ y ∈ x :: queue, y ∈ all) : ∀ y ∈ queue ++ kids x, y ∈ all := by
  intro y hw
  rcases mem_append.mp hw with hw | hk
  · exact m y (.tail _ hw)
  · exact ht.sub x (m x (.head _)) y hk

lemma sweeps (hl : all.length ≤ n) {m : Nat} {queue : List α}
    (hi : ∀ x ∈ queue, x ∈ all) (he : (queue.flatMap (subtree kids n)).length ≤ m) : Sweeps kids m queue := by
  induction m generalizing queue with
  | zero =>
    cases queue with
    | nil => trivial
    | cons x queue =>
      rw [(ht.flatMap_next hl (hi x mem_cons_self) queue).length_eq] at he
      exact absurd he (Nat.not_succ_le_zero _)
  | succ m ih =>
    cases queue with
    | nil => trivial
    | cons x queue =>
      rw [(ht.flatMap_next hl (hi x mem_cons_self) queue).length_eq] at he
      exact ih (ht.queue_next hi) (Nat.le_of_succ_le_succ he)

lemma sweep_perm (hl : all.length ≤ n) {m : Nat} {queue : List α}
    (hi : ∀ x ∈ queue, x ∈ all) (he : (queue.flatMap (subtree kids n)).length ≤ m) :
    (sweep kids m queue).Perm (queue.flatMap (subtree kids n)) := by
  induction m generalizing queue with
  | zero =>
    rw [length_eq_zero_iff.mp (Nat.le_zero.mp he)]
    rfl
  | succ m ih =>
    cases queue with
    | nil => rfl
    | cons x queue =>
      have hn := ht.flatMap_next hl (hi x (.head _)) queue
      rw [hn.length_eq] at he
      exact ((ih (ht.queue_next hi) (Nat.le_of_succ_le_succ he)).cons x).trans hn.symm

lemma cut [DecidableEq α] (r : α) : Branches all (fun x => (kids x).filter (· ≠ r)) rank where
  sub := fun x mem c hk => ht.sub x mem c (mem_of_mem_filter hk)
  rises := fun x mem c hk => ht.rises x mem c (mem_of_mem_filter hk)
  nodup := fun x mem => (ht.nodup x mem).filter _
  unique := fun x mem y hm c hk hi =>
    ht.unique x mem y hm c (mem_of_mem_filter hk) (mem_of_mem_filter hi)

lemma below_cut [DecidableEq α] {r : α} (mem : x ∈ all) (m : r ∈ all) (ho : ¬Reaches kids r x) :
    Reaches (fun x => (kids x).filter (· ≠ r)) x y ↔ Reaches kids x y ∧ ¬Reaches kids r y := by
  constructor
  · intro hb
    induction hb with
    | refl => exact ⟨refl, ho⟩
    | @tail z y hp hk ih =>
      obtain ⟨hk, ne⟩ := mem_filter.mp hk
      refine ⟨ih.1.tail hk, ?_⟩
      intro hb
      rcases cases_tail hb with rfl | ⟨w, hh, hi⟩
      · simp at ne
      · have hs := ht.unique w (ht.below_mem m hh) z (ht.below_mem mem ih.1) y hi hk
        exact ih.2 (hs ▸ hh)
  · rintro ⟨hb, ha⟩
    induction hb with
    | refl => exact refl
    | @tail z y hp hk ih =>
      refine (ih fun hb => ha (hb.tail hk)).tail (mem_filter.mpr ⟨hk, decide_eq_true ?_⟩)
      rintro rfl
      exact ha refl

end Branches

end Firebam.Lib
