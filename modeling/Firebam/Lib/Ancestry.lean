import Mathlib

/-! Trees that grow by leaves, kept as the list of nodes with their parents in the order of
insertion: ancestors, the walk to the root, children, and the cut to a subtree. -/
namespace Firebam.Lib
open List Function

variable {α : Type} {n : Nat} {par : α → Option α} {a b c p x r : α} {rank : α → Nat} {l : List (α × Option α)}

/-- The first node is `b` or an ancestor of it. -/
inductive Below (par : α → Option α) (a : α) : α → Prop
  | refl : Below par a a
  | step {b p : α} (link : par b = some p) (rest : Below par a p) : Below par a b

namespace Below

lemma trans (hf : Below par a b) (hs : Below par b c) : Below par a c := by
  induction hs with
  | refl => exact hf
  | step hl _ ih => exact .step hl ih

lemma cases_parent (hb : Below par a b) : a = b ∨ ∃ p, par b = some p ∧ Below par a p := by
  cases hb with
  | refl => exact .inl rfl
  | step hl hr => exact .inr ⟨_, hl, hr⟩

lemma cases_child (hb : Below par a b) : a = b ∨ ∃ c, par c = some a ∧ Below par c b := by
  induction hb with
  | refl => exact .inl rfl
  | @step b p hi hr ih =>
    rcases ih with rfl | ⟨c, hc, hl⟩
    · exact .inr ⟨b, hi, .refl⟩
    · exact .inr ⟨c, hc, .step hi hl⟩

lemma total (left : Below par a c) (hi : Below par b c) : Below par a b ∨ Below par b a := by
  induction left with
  | refl => exact .inr hi
  | step hl hr ih =>
    rcases hi.cases_parent with rfl | ⟨p, hn, ha⟩
    · exact .inl (.step hl hr)
    · rw [hl] at hn
      cases hn
      exact ih ha

lemma congr {par' : α → Option α} (hb : Below par a b) (hs : ∀ x, Below par x b → par' x = par x) : Below par' a b := by
  induction hb with
  | refl => exact .refl
  | @step b p hl hr ih =>
    have hh : par' b = some p := (hs b .refl).trans hl
    exact .step hh (ih fun x hb => hs x (.step hl hb))

end Below

section
variable (hd : ∀ b p, par b = some p → rank p < rank b)
include hd

lemma Below.rank_le (hb : Below par a b) : rank a ≤ rank b := by
  induction hb with
  | refl => exact Nat.le_refl _
  | step hl _ ih => exact Nat.le_trans ih (Nat.le_of_lt (hd _ _ hl))

lemma Below.antisymm (up : Below par a b) (ho : Below par b a) : a = b := by
  rcases up.cases_parent with hs | ⟨p, hi, ha⟩
  · exact hs
  · have hl := hd b p hi
    have := ha.rank_le hd
    have := ho.rank_le hd
    omega

def lineage (par : α → Option α) : Nat → α → List α
  | 0, _ => []
  | n + 1, a => a :: match par a with
    | none => []
    | some p => lineage par n p

lemma mem_lineage (hf : rank b < n) : a ∈ lineage par n b ↔ Below par a b := by
  induction n generalizing b with
  | zero => omega
  | succ n ih =>
    rw [lineage, mem_cons]
    cases hi : par b with
    | none =>
      constructor
      · rintro (rfl | none)
        · exact .refl
        · exact absurd none not_mem_nil
      · intro hb
        rcases hb.cases_parent with rfl | ⟨p, hn, _⟩
        · exact .inl rfl
        · simp [hi] at hn
    | some p =>
      have hl := hd b p hi
      simp only
      rw [ih (by omega)]
      constructor
      · rintro (rfl | ha)
        · exact .refl
        · exact .step hi ha
      · intro hb
        rcases hb.cases_parent with rfl | ⟨p', hn, ha⟩
        · exact .inl rfl
        · rw [hi] at hn
          cases hn
          exact .inr ha

lemma lineage_nodup (hf : rank b < n) : (lineage par n b).Nodup := by
  induction n generalizing b with
  | zero => omega
  | succ n ih =>
    rw [lineage]
    cases hi : par b with
    | none => simp
    | some p =>
      have hl := hd b p hi
      refine nodup_cons.mpr ⟨?_, ih (by omega)⟩
      intro hm
      have ha := (mem_lineage hd (a := b) (b := p) (by omega)).mp hm
      have := ha.rank_le hd
      omega

end

section

variable [DecidableEq α]

section
variable (l : List (α × Option α))

def nodes : List α := l.map Prod.fst

def parOf (a : α) : Option α := (l.find? fun x => x.1 = a).bind Prod.snd

def kids (a : α) : List α := (l.filter fun x => x.2 = some a).map Prod.fst

end

/-- A tree that started with its root and grew by leaves. -/
inductive Grown : List (α × Option α) → Prop
  | root (a : α) : Grown [(a, none)]
  | leaf {l : List (α × Option α)} {a p : α} (rest : Grown l) (inside : p ∈ nodes l) (fresh : a ∉ nodes l) :
      Grown (l ++ [(a, some p)])

omit [DecidableEq α] in
@[simp] theorem mem_nodes_leaf {y : α × Option α} : x ∈ nodes (l ++ [y]) ↔ x ∈ nodes l ∨ x = y.1 := by
  simp [nodes]

lemma parOf_leaf (hf : a ∉ nodes l) : parOf (l ++ [(a, some p)]) x = if x = a then some p else parOf l x := by
  unfold parOf
  rw [find?_append]
  by_cases hs : x = a
  · subst hs
    have hn : (l.find? fun y => decide (y.1 = x)) = none := by
      rw [find?_eq_none]
      intro y hm
      have : y.1 ∈ nodes l := mem_map_of_mem hm
      simpa using fun hs : y.1 = x => hf (hs ▸ this)
    simp [hn]
  · have ne : ¬ a = x := fun eq => hs eq.symm
    simp [hs, ne]

lemma parOf_absent (hn : x ∉ nodes l) : parOf l x = none := by
  have none : (l.find? fun y => decide (y.1 = x)) = none := by
    rw [find?_eq_none]
    intro y hm
    have : y.1 ∈ nodes l := mem_map_of_mem hm
    simpa using fun hs : y.1 = x => hn (hs ▸ this)
  simp [parOf, none]

namespace Grown

variable (hg : Grown l)
include hg

omit [DecidableEq α] in
lemma nodup : (nodes l).Nodup := by
  induction hg with
  | root a => simp [nodes]
  | @leaf l a p hr _ hf ih =>
    have ha : nodes (l ++ [(a, some p)]) = nodes l ++ [a] := by simp [nodes]
    rw [ha]
    refine nodup_append.mpr ⟨ih, by simp, ?_⟩
    rintro x hm y hl rfl
    exact hf (mem_singleton.mp hl ▸ hm)

lemma mem_of_parOf (hi : parOf l b = some p) : b ∈ nodes l ∧ p ∈ nodes l := by
  induction hg with
  | root a =>
    by_cases hs : a = b <;> simp [parOf, hs] at hi
  | @leaf l a q he hm hf ih =>
    rw [parOf_leaf hf] at hi
    split_ifs at hi with hs
    · cases hi
      subst hs
      simp [hm]
    · obtain ⟨hl, hr⟩ := ih hi
      exact ⟨mem_nodes_leaf.mpr (.inl hl), mem_nodes_leaf.mpr (.inl hr)⟩

lemma exists_rank : ∃ rank : α → Nat, (∀ b ∈ nodes l, rank b < l.length) ∧
    ∀ b p, parOf l b = some p → rank p < rank b := by
  induction hg with
  | root a =>
    refine ⟨fun _ => 0, by simp, ?_⟩
    intro b p hl
    by_cases hs : a = b <;> simp [parOf, hs] at hl
  | @leaf l a q hr m hf ih =>
    obtain ⟨rank, hm, he⟩ := ih
    refine ⟨update rank a l.length, ?_, ?_⟩
    · intro b hx
      rw [length_append, length_singleton]
      rcases mem_nodes_leaf.mp hx with ho | rfl
      · have hd : b ≠ a := fun hs => hf (hs ▸ ho)
        rw [update_of_ne hd]
        exact Nat.lt_succ_of_lt (hm b ho)
      · simp
    · intro b p hl
      rw [parOf_leaf hf] at hl
      split at hl
      · rename_i hs
        cases hl
        subst hs
        have hd : q ≠ b := fun hs => hf (hs ▸ m)
        rw [update_of_ne hd, update_self]
        exact hm q m
      · rename_i hd
        obtain ⟨_, hx⟩ := hr.mem_of_parOf hl
        have ne : p ≠ a := fun hs => hf (hs ▸ hx)
        rw [update_of_ne ne, update_of_ne hd]
        exact he b p hl

lemma mem_of_below (hb : Below (parOf l) a b) (hm : b ∈ nodes l) : a ∈ nodes l := by
  induction hb with
  | refl => exact hm
  | step hl _ ih => exact ih (hg.mem_of_parOf hl).2

lemma below_leaf_old (hf : a ∉ nodes l) (ho : b ∈ nodes l) :
    Below (parOf (l ++ [(a, some p)])) x b ↔ Below (parOf l) x b := by
  have hs : ∀ y, y ∈ nodes l → parOf (l ++ [(a, some p)]) y = parOf l y := by
    intro y hm
    have ne : y ≠ a := fun eq => hf (eq ▸ hm)
    rw [parOf_leaf hf, if_neg ne]
  constructor
  · intro hb
    induction hb with
    | refl => exact .refl
    | @step b q hl hr ih =>
      rw [hs b ho] at hl
      exact .step hl (ih (hg.mem_of_parOf hl).2)
  · intro hb
    exact hb.congr fun y ha => hs y (hg.mem_of_below ha ho)

lemma below_leaf_new (hm : p ∈ nodes l) (hf : a ∉ nodes l) :
    Below (parOf (l ++ [(a, some p)])) x a ↔ x = a ∨ Below (parOf l) x p := by
  have hl : parOf (l ++ [(a, some p)]) a = some p := by rw [parOf_leaf hf, if_pos rfl]
  constructor
  · intro hb
    rcases hb.cases_parent with rfl | ⟨q, hi, ha⟩
    · exact .inl rfl
    · rw [hl] at hi
      cases hi
      exact .inr ((hg.below_leaf_old hf hm).mp ha)
  · rintro (rfl | ha)
    · exact .refl
    · exact .step hl ((hg.below_leaf_old hf hm).mpr ha)

lemma exists_root : ∃ r, l.head? = some (r, none) ∧ r ∈ nodes l ∧ parOf l r = none ∧
    ∀ b ∈ nodes l, Below (parOf l) r b := by
  induction hg with
  | root a =>
    refine ⟨a, rfl, by simp [nodes], by simp [parOf], ?_⟩
    intro b hm
    cases mem_singleton.mp hm
    exact .refl
  | @leaf l a p hr m hf ih =>
    obtain ⟨r, ht, hm, hp, all⟩ := ih
    have ne : r ≠ a := fun hs => hf (hs ▸ hm)
    refine ⟨r, ?_, mem_nodes_leaf.mpr (.inl hm), ?_, ?_⟩
    · rw [head?_append, ht, Option.some_or]
    · rw [parOf_leaf hf, if_neg ne, hp]
    · intro b hi
      rcases mem_nodes_leaf.mp hi with ho | rfl
      · exact (hr.below_leaf_old hf ho).mpr (all b ho)
      · exact (hr.below_leaf_new m hf).mpr (.inr (all p m))

end Grown

def cut (l : List (α × Option α)) (keep : α → Bool) (a : α) : List (α × Option α) :=
  (l.filter fun x => keep x.1).map fun x => if x.1 = a then (x.1, none) else x

lemma nodes_cut {keep : α → Bool} : nodes (cut l keep a) = (nodes l).filter keep := by
  have hf : (Prod.fst ∘ fun x : α × Option α => if x.1 = a then (x.1, none) else x) = Prod.fst := by
    funext x
    simp only [comp]
    split <;> rfl
  rw [nodes, cut, map_map, hf, nodes, filter_map]
  rfl

lemma mem_nodes_cut {keep : α → Bool} : x ∈ nodes (cut l keep a) ↔ x ∈ nodes l ∧ keep x = true := by
  rw [nodes_cut, mem_filter]

lemma cut_append {keep : α → Bool} (m : List (α × Option α)) : cut (l ++ m) keep a = cut l keep a ++ cut m keep a := by
  simp [cut]

namespace Grown

lemma cut {keep : α → Bool} (hw : Grown l) (m : a ∈ nodes l)
    (hu : ∀ x ∈ nodes l, keep x = true ↔ Below (parOf l) a x) : Grown (cut l keep a) := by
  induction hw with
  | root r =>
    have hs : a = r := mem_singleton.mp m
    subst hs
    have hk : keep a = true := (hu a (by simp [nodes])).mpr .refl
    simpa [Lib.cut, hk] using Grown.root a
  | @leaf l b p hr hn hf ih =>
    have hd : ∀ x ∈ nodes l, keep x = true ↔ Below (parOf l) a x := by
      intro x hm
      rw [hu x (mem_nodes_leaf.mpr (.inl hm)), hr.below_leaf_old hf hm]
    have hc : keep b = true ↔ a = b ∨ Below (parOf l) a p := by
      rw [hu b (by simp), hr.below_leaf_new hn hf]
    rw [cut_append]
    by_cases hs : a = b
    · subst hs
      have ho : Lib.cut l keep a = [] := by
        simp only [Lib.cut, map_eq_nil_iff, filter_eq_nil_iff]
        intro x hm hk
        have ha : x.1 ∈ nodes l := mem_map_of_mem hm
        exact hf (hr.mem_of_below ((hd x.1 ha).mp hk) ha)
      have hk : keep a = true := hc.mpr (.inl rfl)
      rw [ho, nil_append]
      simpa [Lib.cut, hk] using Grown.root a
    · have hi : a ∈ nodes l := by
        rcases mem_nodes_leaf.mp m with hd | eq
        · exact hd
        · exact absurd eq hs
      have hg := ih hi hd
      by_cases hk : keep b = true
      · have he : keep p = true := by
          rcases hc.mp hk with eq | hb
          · exact absurd eq hs
          · exact (hd p hn).mpr hb
        have hl : Lib.cut [(b, some p)] keep a = [(b, some p)] := by
          have ne : ¬ b = a := fun eq => hs eq.symm
          simp [Lib.cut, hk, ne]
        rw [hl]
        exact .leaf hg (mem_nodes_cut.mpr ⟨hn, he⟩)
          fun hm => hf (mem_nodes_cut.mp hm).1
      · have hl : Lib.cut [(b, some p)] keep a = [] := by simp [Lib.cut, hk]
        rwa [hl, append_nil]

end Grown

lemma parOf_cut {keep : α → Bool} (hk : keep x = true) :
    parOf (cut l keep a) x = if x = a then none else parOf l x := by
  induction l with
  | nil => simp [cut, parOf]
  | cons y rest ih =>
    have hh : cut (y :: rest) keep a = cut [y] keep a ++ cut rest keep a := cut_append (l := [y]) rest
    by_cases hs : y.1 = x
    · subst hs
      have hf : (cut [y] keep a) = [if y.1 = a then (y.1, none) else y] := by simp [cut, hk]
      rw [hh, hf]
      by_cases hr : y.1 = a <;> simp [parOf, hr]
    · have hp : parOf (y :: rest) x = parOf rest x := by simp [parOf, hs]
      rw [hp, ← ih, hh]
      by_cases he : keep y.1 = true
      · have hf : (cut [y] keep a) = [if y.1 = a then (y.1, none) else y] := by simp [cut, he]
        have ht : (if y.1 = a then (y.1, none) else y).1 = y.1 := by split <;> rfl
        rw [hf, singleton_append, parOf, find?_cons]
        simp only [ht, hs, decide_false]
        rfl
      · have hf : (cut [y] keep a) = [] := by simp [cut, he]
        rw [hf, nil_append]

lemma Grown.below_cut {keep : α → Bool} (hg : Grown l)
    (hu : ∀ x ∈ nodes l, keep x = true ↔ Below (parOf l) a x) (hm : b ∈ nodes l) (hk : keep b = true) :
    Below (parOf (Lib.cut l keep a)) x b ↔ Below (parOf l) x b ∧ Below (parOf l) a x := by
  obtain ⟨rank, _, hd⟩ := hg.exists_rank
  have hb := (hu b hm).mp hk
  constructor
  · intro hn
    induction hn with
    | refl => exact ⟨.refl, hb⟩
    | @step b p hl hr ih =>
      rw [parOf_cut hk] at hl
      split at hl
      · simp at hl
      · rename_i ne
        have hi := (hg.mem_of_parOf hl).2
        have he : Below (parOf l) a p := by
          rcases hb.cases_parent with hs | ⟨q, hj, ha⟩
          · exact absurd hs.symm ne
          · rw [hl] at hj
            cases hj
            exact ha
        obtain ⟨ht, hc⟩ := ih hi ((hu p hi).mpr he) he
        exact ⟨.step hl ht, hc⟩
  · rintro ⟨ha, hf⟩
    induction ha with
    | refl => exact .refl
    | @step b p hl hr ih =>
      have ne : b ≠ a := by
        rintro rfl
        have := hd b p hl
        have := hr.rank_le hd
        have := hf.rank_le hd
        omega
      have hi := (hg.mem_of_parOf hl).2
      have he := hf.trans hr
      refine .step ?_ (ih hi ((hu p hi).mpr he) he)
      rw [parOf_cut hk, if_neg ne, hl]

lemma kids_leaf (y : α × Option α) : kids (l ++ [y]) x = kids l x ++ if y.2 = some x then [y.1] else [] := by
  by_cases hs : y.2 = some x <;> simp [kids, hs]

lemma Grown.mem_kids (hg : Grown l) : b ∈ kids l a ↔ parOf l b = some a := by
  induction hg with
  | root r => by_cases hs : r = b <;> simp [kids, parOf, hs]
  | @leaf l c p hr hm hf ih =>
    rw [kids_leaf, mem_append, ih, parOf_leaf hf]
    by_cases hn : b = c
    · subst hn
      rw [if_pos rfl, parOf_absent hf]
      by_cases hs : p = a <;> simp [hs]
    · by_cases hs : p = a <;> simp [hs, hn]

lemma Grown.kids_nodup (hg : Grown l) : (kids l a).Nodup :=
  hg.nodup.sublist (filter_sublist.map Prod.fst)

lemma Grown.kids_fresh (hg : Grown l) (hf : a ∉ nodes l) : kids l a = [] := by
  rw [eq_nil_iff_forall_not_mem]
  intro b hc
  exact hf (hg.mem_of_parOf (hg.mem_kids.mp hc)).2

lemma kids_cut_of {keep : α → Bool}
    (hc : ∀ y ∈ l, y.2 = some b → keep y.1 = true ∧ y.1 ≠ a) : kids (cut l keep a) b = kids l b := by
  unfold kids cut
  induction l with
  | nil => rfl
  | cons y rest ih =>
    have hl := ih fun z hm => hc z (mem_cons_of_mem y hm)
    by_cases hi : y.2 = some b
    · obtain ⟨he, ne⟩ := hc y (.head _) hi
      simp [he, ne, hi, hl]
    · by_cases he : keep y.1 = true
      · by_cases hr : y.1 = a
        · have hk : keep a = true := hr ▸ he
          simpa [hk, hr, hi] using hl
        · simpa [he, hr, hi] using hl
      · simpa [he, hi] using hl

lemma Grown.kids_cut {keep : α → Bool} (hg : Grown l) (hs : ∀ x ∈ nodes l, keep x = true ↔ Below (parOf l) a x)
    (m : b ∈ nodes l) (hk : keep b = true) : kids (Lib.cut l keep a) b = kids l b := by
  obtain ⟨rank, _, hd⟩ := hg.exists_rank
  have hb := (hs b m).mp hk
  refine kids_cut_of ?_
  intro y hm hi
  have hc : y.1 ∈ kids l b := mem_map.mpr ⟨y, by simp [hm, hi], rfl⟩
  have hn := hg.mem_kids.mp hc
  have hl := hd _ _ hn
  have le := hb.rank_le hd
  refine ⟨(hs y.1 (mem_map_of_mem hm)).mpr (.step hn hb), ?_⟩
  rintro rfl
  omega

end

section

variable [DecidableEq α]

def forks (l : List (α × Option α)) : Nat := ((nodes l).map fun x => (kids l x).length - 1).sum

def leaves (l : List (α × Option α)) : List α := (nodes l).filter fun x => kids l x = []

lemma sum_map_add_indicator (xs : List α) (f : α → Nat) (nd : xs.Nodup) (m : p ∈ xs) :
    (xs.map fun x => f x + if p = x then 1 else 0).sum = (xs.map f).sum + 1 := by
  have hp := perm_cons_erase m
  have ho : ((xs.erase p).map fun x => f x + if p = x then 1 else 0) = (xs.erase p).map f :=
    map_congr_left fun x hm => by rw [if_neg (nd.mem_erase_iff.mp hm).1.symm, Nat.add_zero]
  rw [(hp.map _).sum_nat, (hp.map f).sum_nat, map_cons, map_cons, sum_cons, sum_cons, ho, if_pos rfl]
  omega

lemma Grown.sum_kids (hg : Grown l) : ((nodes l).map fun x => (kids l x).length).sum + 1 = l.length := by
  induction hg with
  | root r => simp [nodes, kids]
  | @leaf l a p hr hm hf ih =>
    have ha : nodes (l ++ [(a, some p)]) = nodes l ++ [a] := by simp [nodes]
    have ho : ((nodes l).map fun x => (kids (l ++ [(a, some p)]) x).length) =
        (nodes l).map fun x => (kids l x).length + if p = x then 1 else 0 := by
      refine map_congr_left ?_
      intro x _
      rw [kids_leaf, length_append]
      by_cases hs : p = x <;> simp [hs]
    have hn : kids (l ++ [(a, some p)]) a = [] := by
      have ne : p ≠ a := fun hs => hf (hs ▸ hm)
      simp [kids_leaf, hr.kids_fresh hf, ne]
    rw [ha, map_append, sum_append, ho, sum_map_add_indicator _ _ hr.nodup hm]
    simp only [map_cons, map_nil, hn, length_nil, sum_cons, sum_nil, length_append, length_singleton]
    omega

lemma Grown.forks_leaf (hg : Grown l) (hm : p ∈ nodes l) (hf : a ∉ nodes l) :
    forks (l ++ [(a, some p)]) = forks l + if kids l p = [] then 0 else 1 := by
  have hn : kids (l ++ [(a, some p)]) a = [] := by
    have ne : ¬ p = a := fun eq => hf (eq ▸ hm)
    simp [kids_leaf, hg.kids_fresh hf, ne]
  have ha : nodes (l ++ [(a, some p)]) = nodes l ++ [a] := by simp [nodes]
  have hs : forks (l ++ [(a, some p)]) = ((nodes l).map fun x => (kids (l ++ [(a, some p)]) x).length - 1).sum := by
    simp [forks, ha, hn]
  rw [hs, forks]
  by_cases hc : kids l p = []
  · have ho : ∀ x ∈ nodes l, (kids (l ++ [(a, some p)]) x).length - 1 = (kids l x).length - 1 := by
      intro x _
      by_cases hh : p = x
      · subst hh
        simp [kids_leaf, hc]
      · simp [kids_leaf, hh]
    rw [map_congr_left ho, if_pos hc, Nat.add_zero]
  · have ho : ∀ x ∈ nodes l, (kids (l ++ [(a, some p)]) x).length - 1 =
        (kids l x).length - 1 + if p = x then 1 else 0 := by
      intro x _
      by_cases hh : p = x
      · subst hh
        have some : 0 < (kids l p).length := length_pos_iff.mpr hc
        simp only [kids_leaf, length_append, if_true, length_singleton]
        omega
      · simp [kids_leaf, hh]
    rw [map_congr_left ho, sum_map_add_indicator _ _ hg.nodup hm, if_neg hc]

omit [DecidableEq α] in
lemma sum_filter_add {p : α → Bool} (xs : List α) (f : α → Nat) :
    (xs.map f).sum = ((xs.filter p).map f).sum + ((xs.filter fun x => !p x).map f).sum := by
  induction xs with
  | nil => rfl
  | cons x rest ih =>
    by_cases hp : p x = true <;> simp [hp, ih] <;> omega

lemma Grown.forks_cut {keep : α → Bool} {gone : List α} (hg : Grown l)
    (hs : ∀ x ∈ nodes l, keep x = true ↔ Below (parOf l) a x) (nd : gone.Nodup)
    (ho : ∀ x, x ∈ gone ↔ x ∈ nodes l ∧ ¬ keep x = true) :
    forks l = forks (Lib.cut l keep a) + (gone.map fun x => (kids l x).length - 1).sum := by
  have hk : ∀ x ∈ (nodes l).filter keep, (kids (Lib.cut l keep a) x).length - 1 = (kids l x).length - 1 := by
    intro x hm
    obtain ⟨m, hp⟩ := mem_filter.mp hm
    rw [hg.kids_cut hs m hp]
  have hr : ((nodes l).filter fun x => !keep x).Perm gone := by
    refine (perm_ext_iff_of_nodup (hg.nodup.filter _) nd).mpr ?_
    intro x
    rw [ho, mem_filter]
    simp
  have hu := (hr.map fun x => (kids l x).length - 1).sum_nat
  rw [forks, sum_filter_add (p := keep), hu, forks, nodes_cut, map_congr_left hk]

lemma Grown.leaves_length (hg : Grown l) : (leaves l).length = forks l + 1 := by
  have he : ∀ xs : List α, (xs.filter fun x => kids l x = []).length +
      (xs.map fun x => (kids l x).length).sum = xs.length + (xs.map fun x => (kids l x).length - 1).sum := by
    intro xs
    induction xs with
    | nil => rfl
    | cons x rest ih =>
      cases hf : kids l x with
      | nil => simp [hf]; omega
      | cons y ys => simp [hf]; omega
  have ht := hg.sum_kids
  have hs := he (nodes l)
  have hl : (nodes l).length = l.length := by simp [nodes]
  unfold leaves forks
  omega

end

variable [DecidableEq α]

def bfs (next : α → List α) : Nat → List α → List α
  | 0, _ => []
  | _ + 1, [] => []
  | n + 1, x :: queue => x :: bfs next n (queue ++ next x)

structure Pruning (l : List (α × Option α)) (r a : α) (done queue : List α) : Prop where
  nodup : (done ++ queue).Nodup
  outside : ∀ x ∈ done ++ queue, x ∈ nodes l ∧ ¬ Below (parOf l) a x
  linked : ∀ x ∈ done ++ queue, x = r ∨ ∃ p ∈ done, parOf l x = some p
  closed : ∀ x ∈ done, ∀ c ∈ kids l x, c ≠ a → c ∈ done ++ queue
  start : r ∈ done ++ queue

lemma Pruning.finish {done : List α} (hw : Pruning l r a done []) (hg : Grown l)
    (ht : ∀ b ∈ nodes l, Below (parOf l) r b) (x : α) : x ∈ done ↔ x ∈ nodes l ∧ ¬ Below (parOf l) a x := by
  constructor
  · intro hm
    exact hw.outside x (by simpa using hm)
  · rintro ⟨m, hf⟩
    -- from the root down to `x`, no node is in the subtree
    have ha := ht x m
    induction ha with
    | refl => simpa using hw.start
    | @step x p hl hr ih =>
      have hi := (hg.mem_of_parOf hl).2
      have hp := ih hi fun hb => hf (.step hl hb)
      have ne : x ≠ a := fun hs => hf (hs ▸ .refl)
      simpa using hw.closed p hp x (hg.mem_kids.mpr hl) ne

lemma Pruning.next {done queue : List α} (hw : Pruning l r a done (x :: queue)) (hg : Grown l)
    (ho : parOf l r = none) : Pruning l r a (done ++ [x]) (queue ++ (kids l x).filter fun c => c ≠ a) := by
  have hq : x ∈ done ++ x :: queue := by simp
  have hf : x ∉ done := by
    have := (nodup_append.mp hw.nodup).2.2
    intro hx
    exact this x hx x (.head _) rfl
  have hj := (hw.outside x hq).2
  -- a child of `x` is new, since its parent has not been taken from the queue before
  have hn : ∀ c ∈ kids l x, c ∉ done ++ x :: queue := by
    intro c hc hx
    have hi := hg.mem_kids.mp hc
    rcases hw.linked c hx with rfl | ⟨p, he, hl⟩
    · simp [ho] at hi
    · rw [hi] at hl
      cases hl
      exact hf he
  have hm : ∀ y, y ∈ (done ++ [x]) ++ (queue ++ (kids l x).filter fun c => c ≠ a) ↔
      y ∈ done ++ x :: queue ∨ y ∈ kids l x ∧ y ≠ a := by
    intro y
    simp only [mem_append, mem_cons, mem_filter, decide_eq_true_eq, not_mem_nil, or_false]
    tauto
  constructor
  · have hr : (done ++ [x]) ++ (queue ++ (kids l x).filter fun c => c ≠ a) =
        (done ++ x :: queue) ++ (kids l x).filter fun c => c ≠ a := by simp
    rw [hr]
    refine nodup_append.mpr ⟨hw.nodup, hg.kids_nodup.filter _, ?_⟩
    rintro y hd z hp rfl
    exact hn y (mem_filter.mp hp).1 hd
  · intro y hx
    rcases (hm y).mp hx with hd | ⟨hc, ne⟩
    · exact hw.outside y hd
    · have hl := hg.mem_kids.mp hc
      refine ⟨(hg.mem_of_parOf hl).1, ?_⟩
      intro hb
      rcases hb.cases_parent with hs | ⟨q, hk, ha⟩
      · exact ne hs.symm
      · rw [hl] at hk
        cases hk
        exact hj ha
  · intro y hx
    rcases (hm y).mp hx with hd | ⟨hc, _⟩
    · rcases hw.linked y hd with hs | ⟨p, he, hl⟩
      · exact .inl hs
      · exact .inr ⟨p, mem_append_left _ he, hl⟩
    · exact .inr ⟨x, by simp, hg.mem_kids.mp hc⟩
  · intro y hx c hc ne
    rw [hm]
    rcases mem_append.mp hx with hd | hp
    · exact .inl (hw.closed y hd c hc ne)
    · cases mem_singleton.mp hp
      exact .inr ⟨hc, ne⟩
  · exact (hm r).mpr (.inl hw.start)

lemma bfs_pruning {h queue : List α} (hg : Grown l) (ho : parOf l r = none)
    (hw : Pruning l r a h queue) (hf : l.length ≤ h.length + n) :
    Pruning l r a (h ++ bfs (fun x => (kids l x).filter fun c => c ≠ a) n queue) [] := by
  induction n generalizing h queue with
  | zero =>
    cases queue with
    | nil => simpa [bfs] using hw
    | cons x rest =>
      have hs : (h ++ x :: rest).length ≤ (nodes l).length :=
        (subperm_of_subset hw.nodup fun y hm => (hw.outside y hm).1).length_le
      simp [nodes] at hs
      omega
  | succ n ih =>
    cases queue with
    | nil => simpa [bfs] using hw
    | cons x rest =>
      have hl := ih (hw.next hg ho) (by simp; omega)
      simpa [bfs] using hl

lemma Grown.bfs_outside (hg : Grown l) (m : r ∈ nodes l) (ho : parOf l r = none)
    (hp : ∀ b ∈ nodes l, Below (parOf l) r b) (ne : a ≠ r) :
    (bfs (fun x => (kids l x).filter fun c => c ≠ a) l.length [r]).Nodup ∧
      ∀ x, x ∈ bfs (fun x => (kids l x).filter fun c => c ≠ a) l.length [r] ↔ x ∈ nodes l ∧ ¬ Below (parOf l) a x := by
  have hf : ¬ Below (parOf l) a r := by
    intro hb
    rcases hb.cases_parent with hs | ⟨p, hl, _⟩
    · exact ne hs
    · simp [ho] at hl
  have ht : Pruning l r a [] [r] := by
    refine ⟨by simp, ?_, ?_, by simp, by simp⟩
    · intro x hm
      cases mem_singleton.mp hm
      exact ⟨m, hf⟩
    · intro x hm
      exact .inl (mem_singleton.mp hm)
  have hw := bfs_pruning (n := l.length) hg ho ht (Nat.le_add_left _ _)
  rw [nil_append] at hw
  exact ⟨by simpa using hw.nodup, hw.finish hg hp⟩

end Firebam.Lib
