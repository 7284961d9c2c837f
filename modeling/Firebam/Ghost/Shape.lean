import Firebam.Ghost.Basic

/-! The shape of the tree: what each operation does to it, and that it is a tree in every state. -/
namespace Firebam.Ghost
open Lib List Ghost.Tree

variable {g g' : Tree} {id x parentId newr : Hash} {blkMax vtrMax bankSeq slot : Nat} {b : Blk} {f : Blk → Blk}

namespace Tree

lemma nodes_shape (g : Tree) : nodes g.shape = g.blks.map Blk.id := by
  rw [nodes, shape, map_map]
  rfl

@[simp] theorem length_shape (g : Tree) : g.shape.length = g.blks.length := length_map _

lemma query_some (hf : g.query id = some b) : b ∈ g.blks ∧ b.id = id :=
  ⟨mem_of_find?_eq_some hf, by simpa using find?_some hf⟩

lemma query_isSome : (g.query id).isSome = true ↔ id ∈ nodes g.shape := by
  rw [nodes_shape, query, find?_isSome]
  simp

lemma query_none : g.query id = none ↔ id ∉ nodes g.shape := by
  rw [← query_isSome]
  cases g.query id <;> simp

lemma query_of_mem (nd : (nodes g.shape).Nodup) (hm : b ∈ g.blks) : g.query b.id = some b := by
  cases hf : g.query b.id with
  | none =>
    have : b.id ∈ nodes g.shape := by rw [nodes_shape]; exact mem_map_of_mem hm
    exact absurd this (query_none.mp hf)
  | some c =>
    obtain ⟨m, hs⟩ := query_some hf
    rw [nodes_shape] at nd
    rw [inj_on_of_nodup_map nd m hm hs]

lemma parent_eq (g : Tree) : g.parent = parOf g.shape := by
  funext id
  rw [parent, query, parOf, shape, find?_map]
  cases hf : g.blks.find? ((fun x : Hash × Option Hash => decide (x.1 = id)) ∘ Blk.link) with
  | none =>
    have hs : (g.blks.find? fun b => decide (b.id = id)) = none := hf
    simp [hs]
  | some b =>
    have hs : (g.blks.find? fun b => decide (b.id = id)) = some b := hf
    simp [hs, Blk.link]

lemma children_ids (g : Tree) (id : Hash) : (g.children id).map Blk.id = kids g.shape id := by
  rw [children, kids, shape, filter_map, map_map]
  rfl

lemma query_setBlk (hk : ∀ b, (f b).id = b.id) :
    (g.setBlk id f).query x = if x = id then (g.query x).map f else g.query x := by
  simp only [query, setBlk]
  induction g.blks with
  | nil => simp
  | cons b rest ih =>
    by_cases hh : b.id = x
    · subst hh
      by_cases ht : b.id = id
      · subst ht
        simp [hk]
      · simp [ht]
    · by_cases ht : b.id = id
      · have ne : ¬ id = x := fun eq => hh (ht.trans eq)
        simp [ht, hk, ne, ih]
      · simpa [hh, ht] using ih

lemma shape_setBlk (hk : ∀ b, (f b).link = b.link) : (g.setBlk id f).shape = g.shape := by
  simp only [shape, setBlk, map_map]
  refine map_congr_left ?_
  intro b _
  simp only [Function.comp]
  split
  · exact hk b
  · rfl

end Tree

structure Tree.Wf (g : Tree) : Prop where
  grown : Grown g.shape
  first : g.shape.head? = some (g.root, none)

namespace Tree.Wf

variable (wf : g.Wf)
include wf

lemma congr (hp : g'.shape = g.shape) (hr : g'.root = g.root) : g'.Wf :=
  ⟨hp ▸ wf.grown, by rw [hp, hr]; exact wf.first⟩

lemma root_spec : g.root ∈ nodes g.shape ∧ parOf g.shape g.root = none ∧
    ∀ b ∈ nodes g.shape, Below (parOf g.shape) g.root b := by
  obtain ⟨r, hf, hm, ho, ht⟩ := wf.grown.exists_root
  have hs : r = g.root := by
    have eq := hf.symm.trans wf.first
    exact congrArg Prod.fst (Option.some.inj eq)
  subst hs
  exact ⟨hm, ho, ht⟩

lemma mem_ancestors (hm : id ∈ nodes g.shape) : x ∈ g.ancestors id ↔ Below (parOf g.shape) x id := by
  obtain ⟨rank, hs, hd⟩ := wf.grown.exists_rank
  rw [ancestors, g.parent_eq]
  exact mem_lineage hd (g.length_shape ▸ hs id hm)

lemma ancestors_nodup (hm : id ∈ nodes g.shape) : (g.ancestors id).Nodup := by
  obtain ⟨rank, hs, hd⟩ := wf.grown.exists_rank
  rw [ancestors, g.parent_eq]
  exact lineage_nodup hd (g.length_shape ▸ hs id hm)

lemma isAncestor_iff (hm : id ∈ nodes g.shape) : g.isAncestor x id = true ↔ Below (parOf g.shape) x id := by
  rw [isAncestor, decide_eq_true_eq, wf.mem_ancestors hm]

end Tree.Wf

lemma acquire_ok {parent : Option Hash} (hd : g.acquire bankSeq slot id parent = .ok g') :
    id ∉ nodes g.shape ∧ g' = { g with blks := g.blks ++ [⟨id, slot, parent, 0, true, [], bankSeq⟩] } := by
  obtain ⟨hf, hd⟩ := check_ok.mp hd
  obtain ⟨_, hd⟩ := check_ok.mp hd
  exact ⟨query_none.mp hf, (Except.ok.inj hd).symm⟩

section
variable (hd : init blkMax vtrMax bankSeq slot id = .ok g)
include hd

lemma init_ok : g = ⟨blkMax, vtrMax, id, [⟨id, slot, none, 0, true, [], bankSeq⟩], [], 1⟩ := by
  obtain ⟨mid, ha, hd⟩ := bind_ok.mp hd
  obtain ⟨_, rfl⟩ := acquire_ok ha
  exact (Except.ok.inj hd).symm

lemma init_wf : g.Wf := by
  rw [init_ok hd]
  exact ⟨Grown.root id, rfl⟩

end

lemma insert_ok (hd : g.insert bankSeq slot id parentId = .ok g') :
    id ∉ nodes g.shape ∧ (parentId ∈ nodes g.shape ∨ parentId = id) ∧ g' = { g with
        blks := g.blks ++ [⟨id, slot, some parentId, 0, true, [], bankSeq⟩]
        width := if g.children parentId = [] then g.width else g.width + 1 } := by
  obtain ⟨mid, ha, hd⟩ := bind_ok.mp hd
  obtain ⟨hf, rfl⟩ := acquire_ok ha
  obtain ⟨hp, hd⟩ := check_ok.mp hd
  refine ⟨hf, ?_, (Except.ok.inj hd).symm⟩
  have hm := not_not.mp (mt query_none.mpr hp)
  simpa [shape, nodes, Blk.link] using hm

lemma shape_append (g : Tree) (b : Blk) : { g with blks := g.blks ++ [b] }.shape = g.shape ++ [b.link] := by
  simp [shape]

lemma insert_wf (wf : g.Wf) (hd : g.insert bankSeq slot id parentId = .ok g') (ne : parentId ≠ id) :
    g'.Wf ∧ g'.shape = g.shape ++ [(id, some parentId)] ∧ parentId ∈ nodes g.shape := by
  obtain ⟨hf, ha, rfl⟩ := insert_ok hd
  have hm := ha.resolve_right ne
  have hp := shape_append g ⟨id, slot, some parentId, 0, true, [], bankSeq⟩
  refine ⟨⟨?_, ?_⟩, hp, hm⟩
  · exact hp ▸ Grown.leaf wf.grown hm hf
  · have hh : (g.shape ++ [(id, some parentId)]).head? = some (g.root, none) := by
      rw [head?_append, wf.first]
      rfl
    exact hp ▸ hh

lemma releases_eq (tree g : Tree) (ids : List Hash) : ids.foldl (releaseBlk tree) g = { g with
    width := g.width - (ids.map fun id => (tree.children id).length - 1).sum
    vtrs := g.vtrs.filter fun v => ∀ id ∈ ids, v.addr ∉ ((tree.query id).map Blk.vtrs).getD []
    blks := g.blks.filter fun b => b.id ∉ ids } := by
  induction ids generalizing g with
  | nil => simp
  | cons id rest ih =>
    rw [foldl_cons, ih, releaseBlk]
    simp only [map_cons, sum_cons, filter_filter, mk.injEq, true_and]
    refine ⟨?_, ?_, by omega⟩
    · refine filter_congr ?_
      intro b _
      by_cases hh : b.id = id <;> simp [hh]
    · refine filter_congr ?_
      intro v _
      by_cases hh : v.addr ∈ ((tree.query id).map Blk.vtrs).getD [] <;> simp [hh]

section
variable (wf : g.Wf) (hd : newr ≠ g.root)
include wf hd

lemma Tree.Wf.mem_pruned (x : Hash) : x ∈ g.pruned newr ↔ x ∈ nodes g.shape ∧ ¬ Below (parOf g.shape) newr x := by
  obtain ⟨hm, ho, ht⟩ := wf.root_spec
  have hw := (wf.grown.bfs_outside hm ho ht hd).2 x
  rw [g.length_shape] at hw
  exact hw

lemma Tree.Wf.pruned_nodup : (g.pruned newr).Nodup := by
  obtain ⟨hm, ho, ht⟩ := wf.root_spec
  have hw := (wf.grown.bfs_outside hm ho ht hd).1
  rw [g.length_shape] at hw
  exact hw

local instance lawfulHash : LawfulBEq Hash := inferInstance

def Tree.keeps (g : Tree) (newr x : Hash) : Bool := decide (x ∉ g.pruned newr)

lemma Tree.Wf.keeps_iff : ∀ x ∈ nodes g.shape, g.keeps newr x = true ↔ Below (parOf g.shape) newr x := by
  intro x hm
  rw [keeps, decide_eq_true_eq, wf.mem_pruned hd]
  simp [hm]

end

section
variable (hd : newr ≠ g.root)
include hd

lemma publish_eq : g.publish newr = { g with
    root := newr
    width := g.width - ((g.pruned newr).map fun id => (g.children id).length - 1).sum
    vtrs := g.vtrs.filter fun v => ∀ id ∈ g.pruned newr, v.addr ∉ ((g.query id).map Blk.vtrs).getD []
    blks := (g.blks.filter fun b => g.keeps newr b.id).map fun b =>
      if b.id = newr then { b with parent := none } else b } := by
  have ne : ¬ g.root = newr := fun hs => hd hs.symm
  simp only [publish, if_neg ne, releases_eq]
  rfl

lemma publish_shape : (g.publish newr).shape = cut g.shape (g.keeps newr) newr := by
  rw [publish_eq hd, shape, cut, shape, filter_map, map_map, map_map]
  refine map_congr_left ?_
  intro b _
  by_cases hr : b.id = newr <;> simp [Blk.link, hr]

lemma query_publish (hk : g.keeps newr x = true) :
    (g.publish newr).query x = (g.query x).map fun b => if b.id = newr then { b with parent := none } else b := by
  have hi : ∀ b : Blk, (if b.id = newr then { b with parent := none } else b).id = b.id := by
    intro b
    split <;> rfl
  rw [publish_eq hd]
  simp only [query]
  rw [find?_map, find?_filter]
  congr 2
  funext b
  simp only [Function.comp, hi]
  by_cases hh : b.id = x
  · simp [hh, hk]
  · simp [hh]

end

lemma publish_wf (wf : g.Wf) (m : newr ∈ nodes g.shape) : (g.publish newr).Wf := by
  by_cases hs : newr = g.root
  · rw [publish, if_pos hs.symm]
    exact wf
  · have hg := wf.grown.cut m (wf.keeps_iff hs)
    refine ⟨by rw [publish_shape hs]; exact hg, ?_⟩
    obtain ⟨r, hf, hm, ho, ht⟩ := hg.exists_root
    -- the new root is the only block that lost its parent
    have hk : g.keeps newr newr = true := (wf.keeps_iff hs newr m).mpr .refl
    have ha := ht newr (mem_nodes_cut.mpr ⟨m, hk⟩)
    rcases ha.cases_parent with rfl | ⟨p, hl, _⟩
    · rw [publish_shape hs, hf, publish_eq hs]
    · rw [parOf_cut hk, if_pos rfl] at hl
      simp at hl

end Firebam.Ghost
