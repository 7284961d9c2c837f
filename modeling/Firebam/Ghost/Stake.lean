import Firebam.Ghost.Laws
import Firebam.Lib.Lists

/-! Stake accounting: every block carries the stake of the voters that are recorded on its
subtree, and every voter is recorded on one block. -/
namespace Firebam.Ghost
open Lib List Ghost.Tree

variable {g g' : Tree} {id x : Hash} {addr : Pubkey} {v : Vtr} {vs : List Vtr} {ids : List Hash} {stake : Nat}

def Tree.stakeAt (g : Tree) (id : Hash) : Nat := ((g.query id).map Blk.stake).getD 0

def Tree.vtrsAt (g : Tree) (id : Hash) : List Pubkey := ((g.query id).map Blk.vtrs).getD []

def Tree.stakeOf (g : Tree) (vs : List Vtr) (id : Hash) : Nat :=
  ((vs.filter fun v => g.isAncestor id v.prevBlockId).map Vtr.prevStake).sum

def Tree.others (g : Tree) (addr : Pubkey) : List Vtr := g.vtrs.filter fun v => v.addr ≠ addr

structure Tree.Carries (g : Tree) (vs : List Vtr) : Prop where
  stake : ∀ id ∈ nodes g.shape, g.stakeAt id = g.stakeOf vs id
  recorded : ∀ v ∈ vs, v.prevBlockId ∈ nodes g.shape
  parked : ∀ id ∈ nodes g.shape, Lists (g.vtrsAt id) fun a => ∃ v ∈ vs, v.addr = a ∧ v.prevBlockId = id

structure Tree.Accounted (g : Tree) : Prop where
  wf : g.Wf
  addrs : (g.vtrs.map Vtr.addr).Nodup
  carries : g.Carries g.vtrs
  width : g.width = forks g.shape + 1

lemma isAncestor_congr (hp : g'.shape = g.shape) (a b : Hash) : g'.isAncestor a b = g.isAncestor a b := by
  have hl : g'.blks.length = g.blks.length := by
    rw [← g'.length_shape, ← g.length_shape, hp]
  rw [isAncestor, ancestors, g'.parent_eq, hp, hl, ← g.parent_eq]
  rfl

lemma stakeOf_congr (hp : g'.shape = g.shape) (vs : List Vtr) (id : Hash) : g'.stakeOf vs id = g.stakeOf vs id := by
  simp only [stakeOf, isAncestor_congr hp]

def StakeOnly (g g' : Tree) : Prop :=
  ∃ f : Blk → Nat, g' = { g with blks := g.blks.map fun b => { b with stake := f b } }

namespace StakeOnly

lemma refl (g : Tree) : StakeOnly g g := ⟨Blk.stake, by simp⟩

lemma trans {g'' : Tree} (hf : StakeOnly g g') (hs : StakeOnly g' g'') : StakeOnly g g'' := by
  obtain ⟨f, rfl⟩ := hf
  obtain ⟨f', rfl⟩ := hs
  refine ⟨fun b => f' { b with stake := f b }, ?_⟩
  simp [Function.comp_def]

lemma setBlk (g : Tree) (id : Hash) (f : Nat → Nat) :
    StakeOnly g (g.setBlk id fun b => { b with stake := f b.stake }) := by
  refine ⟨fun b => if b.id = id then f b.stake else b.stake, ?_⟩
  simp only [Tree.setBlk, Tree.mk.injEq, true_and, and_true]
  refine map_congr_left ?_
  intro b _
  by_cases hh : b.id = id <;> simp [hh]

lemma shape (ho : StakeOnly g g') : g'.shape = g.shape := by
  obtain ⟨f, rfl⟩ := ho
  simp [shape, Function.comp_def, Blk.link]

lemma vtrsAt (only : StakeOnly g g') (x : Hash) : g'.vtrsAt x = g.vtrsAt x := by
  obtain ⟨f, rfl⟩ := only
  simp only [vtrsAt, query, find?_map, Function.comp_def, Option.map_map]

lemma rest (ho : StakeOnly g g') : g'.vtrs = g.vtrs ∧ g'.root = g.root ∧ g'.width = g.width := by
  obtain ⟨f, rfl⟩ := ho
  exact ⟨rfl, rfl, rfl⟩

end StakeOnly

lemma stakeAt_setBlk (f : Nat → Nat) (hm : id ∈ nodes g.shape) :
    (g.setBlk id fun b => { b with stake := f b.stake }).stakeAt x =
      if x = id then f (g.stakeAt x) else g.stakeAt x := by
  rw [stakeAt, query_setBlk (f := fun b => { b with stake := f b.stake }) fun _ => rfl]
  by_cases hh : x = id
  · subst hh
    obtain ⟨b, hf⟩ := Option.isSome_iff_exists.mp (query_isSome.mpr hm)
    simp [hf, stakeAt]
  · simp [hh, stakeAt]

lemma editStakes_ok (edit : Tree → Hash → Except Fault Tree) (op : Nat → Nat) (allowed : Nat → Prop)
    (hp : ∀ g id, allowed (g.stakeAt id) → edit g id = .ok (g.setBlk id fun b => { b with stake := op b.stake }))
    (nd : ids.Nodup) (all : ∀ id ∈ ids, id ∈ nodes g.shape ∧ allowed (g.stakeAt id)) :
    ∃ g', ids.foldlM edit g = .ok g' ∧ StakeOnly g g' ∧
      ∀ y, g'.stakeAt y = if y ∈ ids then op (g.stakeAt y) else g.stakeAt y := by
  induction ids generalizing g with
  | nil => exact ⟨g, rfl, .refl g, by simp⟩
  | cons id rest ih =>
    obtain ⟨hf, hn⟩ := nodup_cons.mp nd
    obtain ⟨m, hb⟩ := all id (.head _)
    have ho := StakeOnly.setBlk g id op
    have hs := fun y => stakeAt_setBlk (x := y) op m
    have hl : ∀ y ∈ rest, y ∈ nodes (g.setBlk id fun b => { b with stake := op b.stake }).shape ∧
        allowed ((g.setBlk id fun b => { b with stake := op b.stake }).stakeAt y) := by
      intro y hm
      obtain ⟨hc, hi⟩ := all y (mem_cons_of_mem id hm)
      have ne : y ≠ id := fun eq => hf (eq ▸ hm)
      refine ⟨ho.shape ▸ hc, ?_⟩
      rw [hs, if_neg ne]
      exact hi
    obtain ⟨g', h, ht, ha⟩ := ih hn hl
    refine ⟨g', ?_, ho.trans ht, ?_⟩
    · rw [foldlM_cons, hp g id hb]
      exact h
    · intro y
      rw [ha, hs]
      by_cases hh : y = id
      · subst hh
        simp [hf]
      · simp [hh]

lemma stakeOf_cons : g.stakeOf (v :: vs) id = g.stakeOf vs id + if g.isAncestor id v.prevBlockId then v.prevStake else 0 := by
  unfold stakeOf
  rw [filter_cons]
  split
  · rw [map_cons, sum_cons, Nat.add_comm]
  · rfl

lemma stakeOf_le (g : Tree) (vs : List Vtr) (id : Hash) : g.stakeOf vs id ≤ (vs.map Vtr.prevStake).sum := by
  induction vs with
  | nil => exact le_refl _
  | cons v rest ih =>
    rw [stakeOf_cons, map_cons, sum_cons, Nat.add_comm]
    split
    · exact Nat.add_le_add_left ih _
    · exact (Nat.zero_add _).trans_le (le_trans ih (Nat.le_add_left ..))

lemma perm_others (nd : (vs.map Vtr.addr).Nodup) (hm : v ∈ vs) : vs.Perm (v :: vs.filter fun w => w.addr ≠ v.addr) := by
  refine (perm_ext_iff_of_nodup nd.of_map (nodup_cons.mpr ⟨by simp, nd.of_map.filter _⟩)).mpr fun w => ?_
  by_cases hw : w.addr = v.addr
  · have he : w ∈ vs ↔ w = v := ⟨fun h => inj_on_of_nodup_map nd h hm hw, fun h => h ▸ hm⟩
    simp [hw, he]
  · have ne : w ≠ v := fun h => hw (h ▸ rfl)
    simp [hw, ne]

lemma Tree.Carries.perm {us : List Vtr} (h : g.Carries vs) (hp : vs.Perm us) : g.Carries us where
  stake := fun id hm => (h.stake id hm).trans ((hp.filter _).map _).sum_nat
  recorded := fun v hv => h.recorded v (hp.mem_iff.mpr hv)
  parked := fun id hm => (h.parked id hm).congr fun a => by simp only [hp.mem_iff]

section
variable (f : List Pubkey → List Pubkey)
include f

lemma vtrsAt_setBlk (hm : id ∈ nodes g.shape) :
    (g.setBlk id fun b => { b with vtrs := f b.vtrs }).vtrsAt x = if x = id then f (g.vtrsAt x) else g.vtrsAt x := by
  rw [vtrsAt, query_setBlk (f := fun b => { b with vtrs := f b.vtrs }) fun _ => rfl]
  by_cases hh : x = id
  · subst hh
    obtain ⟨b, hf⟩ := Option.isSome_iff_exists.mp (query_isSome.mpr hm)
    simp [hf, vtrsAt]
  · simp [hh, vtrsAt]

lemma stakeAt_setVtrs : (g.setBlk id fun b => { b with vtrs := f b.vtrs }).stakeAt x = g.stakeAt x := by
  rw [stakeAt, query_setBlk (f := fun b => { b with vtrs := f b.vtrs }) fun _ => rfl]
  by_cases hh : x = id
  · rw [if_pos hh, Option.map_map, stakeAt]
    rfl
  · rw [if_neg hh, stakeAt]

lemma shape_setVtrs : (g.setBlk id fun b => { b with vtrs := f b.vtrs }).shape = g.shape :=
  shape_setBlk (f := fun b => { b with vtrs := f b.vtrs }) fun _ => rfl

end

lemma ancestors_congr (hp : g'.shape = g.shape) (id : Hash) : g'.ancestors id = g.ancestors id := by
  have hl : g'.blks.length = g.blks.length := by
    rw [← g'.length_shape, ← g.length_shape, hp]
  rw [ancestors, ancestors, g'.parent_eq, g.parent_eq, hp, hl]

lemma mem_others {w : Vtr} : w ∈ g.others addr ↔ w ∈ g.vtrs ∧ w.addr ≠ addr := by
  simp [others]

lemma mem_ancestors_iff : x ∈ g.ancestors id ↔ g.isAncestor x id = true := by
  simp [isAncestor]

lemma restake_ok (f : List Pubkey → List Pubkey) (edit : Tree → Hash → Except Fault Tree) (op : Nat → Nat) (allowed : Nat → Prop)
    (he : ∀ g id, allowed (g.stakeAt id) → edit g id = .ok (g.setBlk id fun b => { b with stake := op b.stake })) (wf : g.Wf)
    (hm : id ∈ nodes g.shape) (ha : ∀ y ∈ nodes g.shape, g.isAncestor y id = true → allowed (g.stakeAt y)) :
    ∃ g', ((g.setBlk id fun b => { b with vtrs := f b.vtrs }).ancestors id).foldlM edit
        (g.setBlk id fun b => { b with vtrs := f b.vtrs }) = .ok g' ∧ g'.shape = g.shape ∧
      (g'.vtrs = g.vtrs ∧ g'.root = g.root ∧ g'.width = g.width) ∧
      (∀ y, g'.stakeAt y = if g.isAncestor y id then op (g.stakeAt y) else g.stakeAt y) ∧
      ∀ y, g'.vtrsAt y = if y = id then f (g.vtrsAt y) else g.vtrsAt y := by
  rw [ancestors_congr (shape_setVtrs f)]
  obtain ⟨g', h, hy, hk⟩ := editStakes_ok (g := g.setBlk id fun b => { b with vtrs := f b.vtrs }) edit op allowed he
    (wf.ancestors_nodup hm) fun y hy => by
      have hn := wf.grown.mem_of_below ((wf.mem_ancestors hm).mp hy) hm
      rw [shape_setVtrs f, stakeAt_setVtrs f]
      exact ⟨hn, ha y hn (mem_ancestors_iff.mp hy)⟩
  refine ⟨g', h, hy.shape.trans (shape_setVtrs f), hy.rest, fun y => ?_, fun y => (hy.vtrsAt y).trans (vtrsAt_setBlk f hm)⟩
  rw [hk, stakeAt_setVtrs f]
  exact if_congr mem_ancestors_iff rfl rfl

lemma moveOff_carries (hc : g.Accounted) (hx : v ∈ g.vtrs) :
    ∃ g', g.moveOff v = .ok g' ∧ g'.shape = g.shape ∧ g'.vtrs = g.vtrs ∧ g'.root = g.root ∧
      g'.width = g.width ∧ g'.Carries (g.others v.addr) := by
  have m := hc.carries.recorded v hx
  obtain ⟨prev, hf⟩ := Option.isSome_iff_exists.mp (query_isSome.mpr m)
  have hr := (query_some hf).2
  have hca : g.Carries (v :: g.others v.addr) := hc.carries.perm (perm_others hc.addrs hx)
  have hl := fun y hy => (hca.stake y hy).trans stakeOf_cons
  obtain ⟨g', h, hp, hrest, hk, hv⟩ := restake_ok (fun l => l.erase v.addr) (subStake v.prevStake)
    (· - v.prevStake) (v.prevStake ≤ ·) (fun _ _ hc => check_of _ hc _) hc.wf m fun y hy ha => by
      rw [hl y hy, if_pos ha]
      exact Nat.le_add_left ..
  refine ⟨g', ?_, hp, hrest.1, hrest.2.1, hrest.2.2, fun y hi => ?_, fun w hw => ?_, fun y hi => ?_⟩
  · rw [moveOff, hf]
    simp only [hr]
    exact h
  · rw [hp] at hi
    rw [hk, hl y hi, stakeOf_congr hp]
    split
    · exact Nat.add_sub_cancel ..
    · rfl
  · rw [hp]
    exact hca.recorded w (.tail _ hw)
  · rw [hp] at hi
    have hb := hca.parked y hi
    rw [hv]
    split_ifs with hh
    · refine hb.erase.congr fun a => ⟨?_, ?_⟩
      · rintro ⟨hd, w, hj, rfl, hg⟩
        exact ⟨w, (mem_cons.mp hj).resolve_left fun h => hd (h ▸ rfl), rfl, hg⟩
      · rintro ⟨w, hw, rfl, hg⟩
        exact ⟨(mem_others.mp hw).2, w, .tail _ hw, rfl, hg⟩
    · refine hb.congr fun a => ⟨?_, ?_⟩
      · rintro ⟨w, hj, hn, hg⟩
        refine ⟨w, (mem_cons.mp hj).resolve_left ?_, hn, hg⟩
        rintro rfl
        exact hh hg.symm
      · rintro ⟨w, hw, hn⟩
        exact ⟨w, .tail _ hw, hn⟩

lemma moveOn_accounted (stake slot : Nat) (wf : g.Wf) (hz : (g.vtrs.map Vtr.addr).Nodup)
    (hw : g.width = forks g.shape + 1) (hq : g.Carries (g.others addr)) (hk : addr ∈ g.vtrs.map Vtr.addr)
    (ha : id ∈ nodes g.shape) (hu : ((g.others addr).map Vtr.prevStake).sum + stake < wordSize) :
    ∃ g', g.moveOn id addr stake slot = .ok g' ∧ g'.vtrs.Perm (⟨addr, stake, slot, id⟩ :: g.others addr) ∧ g'.Accounted := by
  obtain ⟨g₂, h, hp, hrest, hst, hv⟩ := restake_ok (fun l => l ++ [addr]) (addStake stake) (· + stake)
    (· + stake < wordSize) (fun _ _ hi => check_of _ hi _) wf ha fun y hy _ => by
      rw [hq.stake y hy]
      exact lt_of_le_of_lt (Nat.add_le_add_right (stakeOf_le ..) _) hu
  let new : Vtr := ⟨addr, stake, slot, id⟩
  let vs := g.vtrs.map fun v => if v.addr = addr then new else v
  have hx : vs.map Vtr.addr = g.vtrs.map Vtr.addr := by
    rw [map_map]
    refine map_congr_left ?_
    intro w _
    by_cases hh : w.addr = addr <;> simp [hh, new]
  have hs : (vs.filter fun v => v.addr ≠ addr) = g.others addr := by
    rw [others, filter_map]
    have he : (fun v : Vtr => decide (v.addr ≠ addr)) ∘ (fun v => if v.addr = addr then new else v) =
        fun v => decide (v.addr ≠ addr) := by
      funext w
      by_cases hh : w.addr = addr <;> simp [hh, new]
    rw [he]
    refine (map_congr_left ?_).trans (map_id _)
    intro w hg
    have hd : w.addr ≠ addr := by simpa using of_mem_filter hg
    exact if_neg hd
  have hn : new ∈ vs := by
    obtain ⟨w, hg, hn⟩ := mem_map.mp hk
    exact mem_map.mpr ⟨w, hg, if_pos hn⟩
  have hp : ({ g₂ with vtrs := vs } : Tree).shape = g.shape := hp
  have hc : ({ g₂ with vtrs := vs } : Tree).Carries (new :: g.others addr) := by
    refine ⟨fun y hm => ?_, fun w hg => ?_, fun y hm => ?_⟩
    · have hj : y ∈ nodes g.shape := hp ▸ hm
      rw [stakeOf_cons, stakeOf_congr hp, isAncestor_congr hp, ← hq.stake y hj]
      refine (hst y).trans ?_
      split <;> rfl
    · have hg : w.prevBlockId ∈ nodes g.shape := by
        rcases mem_cons.mp hg with rfl | hg
        · exact ha
        · exact hq.recorded w hg
      exact hp ▸ hg
    · have hb := hq.parked y (hp ▸ hm)
      change Lists (g₂.vtrsAt y) _
      rw [hv]
      split_ifs with hh
      · have hf : ¬ ∃ w ∈ g.others addr, w.addr = addr ∧ w.prevBlockId = y := by
          rintro ⟨w, ne, hn, _⟩
          exact (mem_others.mp ne).2 hn
        refine (hb.concat hf).congr fun a => ?_
        simp [new, hh, eq_comm]
      · refine hb.congr fun a => ?_
        simp [new, Ne.symm hh]
  have hv : vs.Perm (new :: g.others addr) := hs ▸ perm_others (v := new) (hx ▸ hz) hn
  refine ⟨{ g₂ with vtrs := vs }, ?_, hv, wf.congr hp hrest.2.1, hx ▸ hz, hc.perm hv.symm, ?_⟩
  · refine (bind_ok.mpr ⟨g₂, h, ?_⟩ : g.moveOn id addr stake slot = _)
    rw [hrest.1]
  · exact hrest.2.2.trans (hw.trans (congrArg (fun l => forks l + 1) hp.symm))

end Firebam.Ghost
