import Firebam.Ghost.Valid

/-! The places of the blocks in the tree: what votes and validity marks leave alone, and the
slots, which grow from a parent to its children. -/
namespace Firebam.Ghost
open Lib List Ghost.Tree

variable {g g' g'' : Tree} {id x newr parentId : Hash} {R : Nat → Nat → Prop} {b : Blk} {bankSeq slot : Nat}

def Tree.places (g : Tree) : List (Hash × Nat × Option Hash) := g.blks.map Blk.place

structure SamePlaces (g g' : Tree) : Prop where
  places : g'.places = g.places
  root : g'.root = g.root

namespace SamePlaces

lemma refl (g : Tree) : SamePlaces g g := ⟨rfl, rfl⟩

lemma trans (hf : SamePlaces g g') (hs : SamePlaces g' g'') : SamePlaces g g'' :=
  ⟨hs.places.trans hf.places, hs.root.trans hf.root⟩

lemma setBlk {f : Blk → Blk} (hk : ∀ b, (f b).place = b.place) : SamePlaces g (g.setBlk id f) := by
  refine ⟨?_, rfl⟩
  simp only [Tree.places, Tree.setBlk, map_map]
  refine map_congr_left ?_
  intro b _
  simp only [Function.comp]
  split
  · exact hk b
  · rfl

variable (hs : SamePlaces g g')
include hs

lemma shape : g'.shape = g.shape := by
  have hk (g : Tree) : g.shape = g.places.map fun p => (p.1, p.2.2) := by
    simp [Tree.shape, Tree.places, Blk.link, Blk.place, Function.comp_def]
  rw [hk, hk, hs.places]

lemma wf (ht : g.Wf) : g'.Wf := ht.congr hs.shape hs.root

lemma blk (hm : b ∈ g'.blks) : ∃ old ∈ g.blks, old.place = b.place := by
  have hp : b.place ∈ g'.places := mem_map_of_mem hm
  rw [hs.places] at hp
  exact mem_map.mp hp

end SamePlaces

lemma ValidOnly.samePlaces (ho : ValidOnly g g') : SamePlaces g g' := by
  obtain ⟨f, rfl⟩ := ho
  exact ⟨by simp [places, Blk.place, Function.comp_def], rfl⟩

lemma markInvalid_samePlaces (n : Nat) (g : Tree) (id : Hash) : SamePlaces g (markInvalid n g id) := by
  induction n generalizing g id with
  | zero => exact .refl g
  | succ n ih =>
    have hf : SamePlaces g (g.setBlk id fun b => { b with valid := false }) := .setBlk fun _ => rfl
    unfold markInvalid
    generalize kids g.shape id = cs
    generalize g.setBlk id (fun b => { b with valid := false }) = mid at hf
    induction cs generalizing mid with
    | nil => exact hf
    | cons c rest he => exact he _ (hf.trans (ih mid c))

lemma eqvoc_samePlaces (g : Tree) (id : Hash) : SamePlaces g (g.eqvoc id) := by
  unfold eqvoc
  split
  · exact .refl g
  · exact markInvalid_samePlaces _ g id

lemma confirm_samePlaces (g : Tree) (id : Hash) : SamePlaces g (g.confirm id) :=
  (confirm_only g id).samePlaces

lemma samePlaces_frame : VoteFrame SamePlaces where
  refl := .refl
  trans _ _ _ hf second := hf.trans second
  setBlk _ _ _ keeps := .setBlk fun b => (keeps b).1
  vtrs _ _ := ⟨rfl, rfl⟩

lemma bestFrom_mem {n : Nat} (hm : b ∈ g.blks) : g.bestFrom n b ∈ g.blks := by
  induction n generalizing b with
  | zero => exact hm
  | succ n ih =>
    unfold bestFrom
    split
    · exact hm
    · rename_i child hp
      rcases foldl_heavier_mem hp with hn | ⟨m, _⟩
      · cases hn
      · exact ih (mem_filter.mp m).1

def Tree.slotAt (g : Tree) (id : Hash) : Nat := ((g.query id).map Blk.slot).getD 0

def Tree.Along (R : Nat → Nat → Prop) (g : Tree) : Prop := ∀ b p, parOf g.shape b = some p → R (g.slotAt b) (g.slotAt p)

abbrev Tree.Rising (g : Tree) : Prop := g.Along fun child parent => parent < child

lemma Tree.Wf.slotAt_blk (wf : g.Wf) (hm : b ∈ g.blks) : g.slotAt b.id = b.slot := by
  rw [slotAt, query_of_mem wf.grown.nodup hm]
  rfl

section
variable (ha : SamePlaces g g')
include ha

lemma SamePlaces.slotAt (x : Hash) : g'.slotAt x = g.slotAt x := by
  have hf (g : Tree) : g.slotAt x = ((g.places.find? fun p => p.1 = x).map fun p => p.2.1).getD 0 := by
    rw [Tree.slotAt, Tree.query, Tree.places, find?_map, Option.map_map]
    rfl
  rw [hf, hf, ha.places]

lemma SamePlaces.rootSlot : g'.rootSlot = g.rootSlot := by
  have hs := ha.slotAt g'.root
  rw [ha.root] at hs
  unfold Tree.rootSlot
  rw [ha.root]
  exact hs

lemma SamePlaces.along (along : g.Along R) : g'.Along R := by
  intro b p hl
  rw [ha.shape] at hl
  rw [ha.slotAt, ha.slotAt]
  exact along b p hl

end

lemma insert_slotAt (h : g.insert bankSeq slot id parentId = .ok g') :
    g'.slotAt x = if x = id then slot else g.slotAt x := by
  obtain ⟨hf, -, rfl⟩ := insert_ok h
  have hn := query_none.mpr hf
  simp only [slotAt, query, find?_append] at hn ⊢
  by_cases hh : x = id
  · subst hh
    simp [hn]
  · have ne : ¬ id = x := fun hs => hh hs.symm
    simp [hh, ne]

lemma insert_along (wf : g.Wf) (hg : g.Along R) (h : g.insert bankSeq slot id parentId = .ok g')
    (hm : parentId ∈ nodes g.shape) (ha : R slot (g.slotAt parentId)) : g'.Along R := by
  have hf := (insert_ok h).1
  have hd : parentId ≠ id := fun hs => hf (hs ▸ hm)
  have hp := (insert_wf wf h hd).2.1
  intro b p hl
  rw [hp, parOf_leaf hf] at hl
  split at hl
  · rename_i hh
    cases hl
    rw [insert_slotAt h, insert_slotAt h, if_pos hh, if_neg hd]
    exact ha
  · rename_i ne
    have ht := (wf.grown.mem_of_parOf hl).2
    have ho : p ≠ id := fun hs => hf (hs ▸ ht)
    rw [insert_slotAt h, insert_slotAt h, if_neg ne, if_neg ho]
    exact hg b p hl

lemma init_along {blkMax vtrMax : Nat} (h : init blkMax vtrMax bankSeq slot id = .ok g) : g.Along R := by
  rw [init_ok h]
  intro b p hl
  simp only [shape, Blk.link, map_cons, map_nil, parOf] at hl
  by_cases hh : id = b <;> simp [hh] at hl

lemma publish_blks (wf : g.Wf) (hr : g.Rising) :
    ∀ b ∈ (g.publish newr).blks, ∃ old ∈ g.blks, old.id = b.id ∧ old.slot = b.slot ∧ g.slotAt newr ≤ b.slot := by
  intro b hm
  by_cases hs : newr = g.root
  · rw [publish, if_pos hs.symm] at hm
    refine ⟨b, hm, rfl, rfl, ?_⟩
    have hb := wf.root_spec.2.2 b.id (by rw [g.nodes_shape]; exact mem_map_of_mem hm)
    rw [hs, ← wf.slotAt_blk hm]
    exact hb.rank_le hr
  · rw [publish_eq hs] at hm
    obtain ⟨old, hk, rfl⟩ := mem_map.mp hm
    obtain ⟨ht, he⟩ := mem_filter.mp hk
    have hn : old.id ∈ nodes g.shape := by
      rw [g.nodes_shape]
      exact mem_map_of_mem ht
    have hb := (wf.keeps_iff hs old.id hn).mp he
    have ho := hb.rank_le hr
    rw [wf.slotAt_blk ht] at ho
    refine ⟨old, ht, ?_, ?_, ?_⟩ <;> split <;> first | rfl | exact ho

lemma publish_slotAt (ne : newr ≠ g.root) (hk : g.keeps newr x = true) : (g.publish newr).slotAt x = g.slotAt x := by
  rw [slotAt, query_publish ne hk, slotAt]
  cases g.query x with
  | none => rfl
  | some b =>
    simp only [Option.map_some, Option.getD_some]
    split <;> rfl

lemma publish_rootSlot (wf : g.Wf) (hm : newr ∈ nodes g.shape) : (g.publish newr).rootSlot = g.slotAt newr := by
  by_cases hs : newr = g.root
  · rw [publish, if_pos hs.symm, hs]
    rfl
  · have hk : g.keeps newr newr = true := (wf.keeps_iff hs newr hm).mpr .refl
    have hr : (g.publish newr).root = newr := by rw [publish_eq hs]
    rw [← publish_slotAt hs hk, rootSlot, hr]
    rfl

lemma publish_along (wf : g.Wf) (ha : g.Along R) (hm : newr ∈ nodes g.shape) : (g.publish newr).Along R := by
  by_cases hs : newr = g.root
  · rw [publish, if_pos hs.symm]
    exact ha
  · intro b p hl
    have ht := publish_wf wf hm
    have hn := ht.grown.mem_of_parOf hl
    rw [publish_shape hs] at hl hn
    have hk := (mem_nodes_cut.mp hn.1).2
    have he := (mem_nodes_cut.mp hn.2).2
    rw [parOf_cut hk] at hl
    split at hl
    · cases hl
    · rw [publish_slotAt hs hk, publish_slotAt hs he]
      exact ha b p hl

end Firebam.Ghost
