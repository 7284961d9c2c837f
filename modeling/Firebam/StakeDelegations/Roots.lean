import Firebam.StakeDelegations.Shape

/-! An element of the root is new, is changed, or leaves. -/
namespace Firebam.StakeDelegations
open List Lib Delegations

variable {s t : Delegations} {i j d : Nat} {k : Pubkey} {e : RootEle} {free : List Nat}

structure Wrote (s t : Delegations) (i : Nat) (e : RootEle) : Prop where
  rootPool : t.rootPool = update s.rootPool i e
  deltaPool : t.deltaPool = s.deltaPool

structure Grown (s t : Delegations) (i : Nat) (e : RootEle) : Prop extends Wrote s t i e where
  free : s.rootFree = i :: t.rootFree
  rootMap : t.rootMap = i :: s.rootMap
  wmk : t.poolIdxWmk = max s.poolIdxWmk (i + 1)
  absent : s.rootIdx e.stakeAccount = none
  inUse : e.inUse = true

structure Changed (s t : Delegations) (i : Nat) (e : RootEle) : Prop extends Wrote s t i e where
  free : t.rootFree = s.rootFree
  rootMap : t.rootMap = s.rootMap
  wmk : t.poolIdxWmk = s.poolIdxWmk
  member : i ∈ s.rootMap
  key : e.stakeAccount = s.rootKey i
  inUse : e.inUse = true

structure Dropped (s t : Delegations) (i : Nat) (e : RootEle) : Prop extends Wrote s t i e where
  free : t.rootFree = i :: s.rootFree
  rootMap : t.rootMap = s.rootMap.erase i
  wmk : t.poolIdxWmk = s.poolIdxWmk
  member : i ∈ s.rootMap
  inUse : e.inUse = false

namespace Wrote

variable (hw : Wrote s t i e)
include hw

lemma here : t.rootPool i = e := by
  rw [hw.rootPool, update_here]

variable (ho : j ≠ i)
include ho

lemma there : t.rootPool j = s.rootPool j := by
  rw [hw.rootPool, update_there _ ho]

lemma rootKey_there : t.rootKey j = s.rootKey j := by
  rw [rootKey, hw.there ho]
  rfl

lemma current_there : t.current j = s.current j := by
  unfold current
  rw [hw.there ho, hw.deltaPool]

lemma worth_there {r : Rule} : t.worth r j = s.worth r j := by
  unfold worth
  rw [hw.there ho, hw.deltaPool]

end Wrote

namespace Grown

variable (hg : Grown s t i e)
include hg

lemma fresh (hr : Roots s) : i ∉ s.rootMap :=
  hr.apart i (hg.free ▸ .head _)

lemma keys (hr : Roots s) : s.rootMap.map t.rootKey = s.rootMap.map s.rootKey := by
  refine map_congr_left fun j hm => hg.rootKey_there ?_
  rintro rfl
  exact hg.fresh hr hm

lemma wmk_cases (hr : Roots s) :
    i < s.poolIdxWmk ∧ t.poolIdxWmk = s.poolIdxWmk ∨ i = s.poolIdxWmk ∧ t.poolIdxWmk = s.poolIdxWmk + 1 := by
  obtain ⟨old, n, hf, hb⟩ := hr.fresh
  rw [hg.free] at hf
  have hw := hg.wmk
  cases old with
  | nil =>
    cases n with
    | zero => cases hf
    | succ n =>
      rw [nil_append, range'_succ, List.cons.injEq] at hf
      omega
  | cons j old =>
    rw [cons_append, List.cons.injEq] at hf
    have := hb j (.head _)
    omega

lemma roots (roots : Roots s) : Roots t := by
  have hf := hg.fresh roots
  have nd := roots.free
  rw [hg.free, nodup_cons] at nd
  refine ⟨?_, nd.2, ?_, ?_, ?_, ?_⟩
  · rw [hg.rootMap, map_cons, hg.keys roots, nodup_cons, rootKey, hg.here]
    exact ⟨find_none_fresh hg.absent, roots.keys⟩
  · intro j hm
    rw [hg.rootMap, mem_cons, not_or]
    refine ⟨fun hs => nd.1 (hs ▸ hm), roots.apart j ?_⟩
    rw [hg.free]
    exact .tail _ hm
  · obtain ⟨old, n, hr, hb⟩ := roots.fresh
    rw [hg.free] at hr
    have hw := hg.wmk
    cases old with
    | nil =>
      cases n with
      | zero => cases hr
      | succ n =>
        rw [nil_append, range'_succ, List.cons.injEq] at hr
        refine ⟨[], n, ?_, nofun⟩
        rw [nil_append, hr.2, hw]
        congr 1
        omega
    | cons j old =>
      rw [cons_append, List.cons.injEq] at hr
      have le := hb j (.head _)
      have hs : t.poolIdxWmk = s.poolIdxWmk := by omega
      rw [hs]
      exact ⟨old, n, hr.2, fun j hm => hb j (.tail _ hm)⟩
  · intro j hm
    rw [hg.rootMap, mem_cons] at hm
    have hw := hg.wmk
    rcases hm with rfl | hm
    · omega
    · have := roots.below j hm
      omega
  · intro j hl
    rw [hg.rootMap, mem_cons]
    by_cases hs : j = i
    · rw [hs, hg.here]
      exact iff_of_true hg.inUse (.inl rfl)
    · rw [hg.there hs]
      have old : j < s.poolIdxWmk := by
        have := hg.wmk_cases roots
        omega
      rw [roots.used j old]
      exact ⟨.inr, fun he => he.resolve_left hs⟩

lemma rootIdx (hr : Roots s) (k : Pubkey) : t.rootIdx k = if k = e.stakeAccount then some i else s.rootIdx k := by
  have ht := hg.roots hr
  have hk : t.rootKey i = e.stakeAccount := by
    rw [rootKey, hg.here]
  split
  · rename_i hh
    exact ht.rootIdx.mpr ⟨hg.rootMap ▸ .head _, hk.trans hh.symm⟩
  · rename_i ho
    refine Option.ext fun j => ?_
    rw [ht.rootIdx, hr.rootIdx, hg.rootMap, mem_cons]
    by_cases hs : j = i
    · rw [hs, hk]
      exact iff_of_false (fun hb => ho hb.2.symm) fun hb => hg.fresh hr hb.1
    · rw [hg.rootKey_there hs, or_iff_right hs]

lemma rootMap_there (hr : Roots s) (hm : j ∈ s.rootMap) : j ≠ i := by
  rintro rfl
  exact hg.fresh hr hm

end Grown

namespace Changed

variable (hc : Changed s t i e)
include hc

lemma rootKey : t.rootKey = s.rootKey := by
  funext j
  by_cases hs : j = i
  · rw [hs, ← hc.key, Delegations.rootKey, hc.here]
  · exact hc.rootKey_there hs

lemma roots (roots : Roots s) : Roots t := by
  refine ⟨?_, ?_, ?_, ?_, ?_, fun j hl => ?_⟩
  · rw [hc.rootMap, hc.rootKey]
    exact roots.keys
  · rw [hc.free]
    exact roots.free
  · rw [hc.free, hc.rootMap]
    exact roots.apart
  · rw [hc.free, hc.wmk]
    exact roots.fresh
  · rw [hc.rootMap, hc.wmk]
    exact roots.below
  · rw [hc.wmk] at hl
    rw [hc.rootMap]
    by_cases hs : j = i
    · rw [hs, hc.here]
      exact iff_of_true hc.inUse hc.member
    · rw [hc.there hs]
      exact roots.used j hl

lemma rootIdx : t.rootIdx = s.rootIdx := by
  funext k
  change (t.rootMap.find? fun i => decide (t.rootKey i = k)) = s.rootMap.find? fun i => decide (s.rootKey i = k)
  rw [hc.rootMap, hc.rootKey]

end Changed

namespace Dropped

variable (hd : Dropped s t i e)
include hd

lemma mem_rootMap (hr : Roots s) : j ∈ t.rootMap ↔ j ≠ i ∧ j ∈ s.rootMap := by
  rw [hd.rootMap, hr.nodup.mem_erase_iff]

lemma keys (hr : Roots s) : t.rootMap.map t.rootKey = t.rootMap.map s.rootKey :=
  map_congr_left fun _ hm => hd.rootKey_there ((hd.mem_rootMap hr).mp hm).1

lemma roots (roots : Roots s) : Roots t := by
  refine ⟨?_, ?_, ?_, ?_, ?_, fun j hl => ?_⟩
  · rw [hd.keys roots, hd.rootMap]
    exact roots.keys.sublist (erase_sublist.map _)
  · rw [hd.free, nodup_cons]
    exact ⟨fun hf => roots.apart i hf hd.member, roots.free⟩
  · intro j hf
    rw [hd.mem_rootMap roots]
    rw [hd.free, mem_cons] at hf
    rintro ⟨ho, hm⟩
    exact roots.apart j (hf.resolve_left ho) hm
  · obtain ⟨old, n, hf, hb⟩ := roots.fresh
    refine ⟨i :: old, n, ?_, ?_⟩
    · rw [hd.free, hd.wmk, hf, cons_append]
    · rw [hd.wmk]
      exact forall_mem_cons.mpr ⟨roots.below i hd.member, hb⟩
  · intro j hm
    rw [hd.wmk]
    exact roots.below j ((hd.mem_rootMap roots).mp hm).2
  · rw [hd.wmk] at hl
    rw [hd.mem_rootMap roots]
    by_cases hs : j = i
    · rw [hs, hd.here, hd.inUse]
      exact iff_of_false Bool.false_ne_true fun hh => hh.1 rfl
    · rw [hd.there hs, roots.used j hl]
      exact (and_iff_right hs).symm

lemma rootIdx (hr : Roots s) (k : Pubkey) : t.rootIdx k = if k = s.rootKey i then none else s.rootIdx k := by
  have ht := hd.roots hr
  refine Option.ext fun j => ?_
  rw [ht.rootIdx, hd.mem_rootMap hr]
  split
  · rename_i hh
    refine iff_of_false ?_ nofun
    rintro ⟨⟨ho, hm⟩, hk⟩
    rw [hd.rootKey_there ho, hh] at hk
    exact ho (inj_on_of_nodup_map hr.keys hm hd.member hk)
  · rename_i ho
    rw [hr.rootIdx]
    constructor
    · rintro ⟨⟨ne, hm⟩, hk⟩
      exact ⟨hm, hd.rootKey_there ne ▸ hk⟩
    · rintro ⟨hm, hk⟩
      have ne : j ≠ i := by
        rintro rfl
        exact ho hk.symm
      exact ⟨⟨ne, hm⟩, (hd.rootKey_there ne).trans hk⟩

end Dropped

end Firebam.StakeDelegations
