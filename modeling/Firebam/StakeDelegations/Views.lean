import Firebam.StakeDelegations.Roots
import Firebam.Lib.Overlay

/-! What a change of the root does to the delegations that are seen and to their stake. -/
namespace Firebam.StakeDelegations
open List Lib Delegations

variable {s t : Delegations} {i j d : Nat} {k : Pubkey} {e : RootEle} {r : Rule}

def Delegations.stake (r : Rule) (s : Delegations) : Entry := (s.rootMap.map (s.worth r)).sum

def Delegations.balance (r : Rule) (s : Delegations) : Entry := s.totals - s.stake r

lemma Delegations.view_of (hf : s.rootIdx k = some i) : s.view k = (s.current i).map Prod.snd := by
  unfold view
  rw [hf]
  rfl

lemma Delegations.view_none (hn : s.rootIdx k = none) : s.view k = none := by
  unfold view
  rw [hn]
  rfl

lemma Wrote.view (hw : Wrote s t i e) (hs : t.rootIdx k = s.rootIdx k) (ho : s.rootIdx k ≠ some i) :
    t.view k = s.view k := by
  unfold Delegations.view
  rw [hs]
  cases hf : s.rootIdx k with
  | none => rfl
  | some j =>
    have ne : j ≠ i := by
      rintro rfl
      exact ho hf
    simp only [Option.bind_some]
    rw [hw.current_there ne]

lemma Grown.view (hg : Grown s t i e) (hr : Roots s) :
    t.view = Function.update s.view e.stakeAccount ((t.current i).map Prod.snd) := by
  funext k
  have hi := hg.rootIdx hr k
  by_cases hh : k = e.stakeAccount
  · rw [if_pos hh] at hi
    rw [hh, Function.update_self, ← hh, view_of hi]
  · rw [if_neg hh] at hi
    rw [Function.update_of_ne hh]
    refine hg.toWrote.view hi fun hf => ?_
    exact hg.fresh hr (hr.rootIdx.mp hf).1

lemma Changed.view (hc : Changed s t i e) (hr : Roots s) :
    t.view = Function.update s.view (s.rootKey i) ((t.current i).map Prod.snd) := by
  funext k
  by_cases hh : k = s.rootKey i
  · rw [hh, Function.update_self]
    refine view_of ?_
    rw [hc.rootIdx]
    exact hr.rootIdx.mpr ⟨hc.member, rfl⟩
  · rw [Function.update_of_ne hh]
    refine hc.toWrote.view (by rw [hc.rootIdx]) fun hf => ?_
    exact hh (hr.rootIdx.mp hf).2.symm

lemma Dropped.view (hd : Dropped s t i e) (hr : Roots s) : t.view = Function.update s.view (s.rootKey i) none := by
  funext k
  have hi := hd.rootIdx hr k
  by_cases hh : k = s.rootKey i
  · rw [if_pos hh] at hi
    rw [hh, Function.update_self, ← hh, view_none hi]
  · rw [if_neg hh] at hi
    rw [Function.update_of_ne hh]
    refine hd.toWrote.view hi fun hf => ?_
    exact hh (hr.rootIdx.mp hf).2.symm

lemma Grown.stake (hg : Grown s t i e) (hr : Roots s) : t.stake r = t.worth r i + s.stake r := by
  unfold Delegations.stake
  rw [hg.rootMap, map_cons, sum_cons]
  congr 2
  exact map_congr_left fun j hm => hg.worth_there (hg.rootMap_there hr hm)

lemma Changed.stake (hc : Changed s t i e) (hr : Roots s) : t.stake r + s.worth r i = s.stake r + t.worth r i := by
  unfold Delegations.stake
  rw [hc.rootMap]
  exact sum_change hr.nodup hc.member fun j _ ne => hc.worth_there ne

lemma Dropped.stake (hd : Dropped s t i e) (hr : Roots s) : t.stake r + s.worth r i = s.stake r := by
  unfold Delegations.stake
  have hs : t.rootMap.map (t.worth r) = t.rootMap.map (s.worth r) :=
    map_congr_left fun j hm => hd.worth_there ((hd.mem_rootMap hr).mp hm).1
  rw [hs, hd.rootMap, ((perm_cons_erase hd.member).map (s.worth r)).sum_eq, map_cons, sum_cons, add_comm]

lemma Marks.worth (ha : Marks s) (hx : i ∈ s.rootMap) :
    s.worth r i = (s.current i).elim 0 fun p => r.activationStatus p.2 := by
  unfold Delegations.worth Delegations.current
  cases hm : (s.rootPool i).deltaIdx with
  | none =>
    cases hd : (s.rootPool i).dneInRoot with
    | true => exact absurd hm (ha.projected i hx hd)
    | false => rfl
  | some d =>
    dsimp only [DeltaEle.worth]
    split
    · rfl
    · rfl

lemma Marks.key (ha : Marks s) (hx : i ∈ s.rootMap) {p : Pubkey × Delegation} (hs : s.current i = some p) :
    p.1 = s.rootKey i := by
  unfold current at hs
  cases hm : (s.rootPool i).deltaIdx with
  | none =>
    rw [hm] at hs
    dsimp only at hs
    split at hs
    · cases hs
    · cases hs
      rfl
  | some d =>
    rw [hm] at hs
    dsimp only at hs
    split at hs
    · cases hs
    · cases hs
      exact ha.tied i hx d hm

variable (hr : Roots s)
include hr

lemma Roots.iterate : s.iterate.Perm (s.rootMap.filterMap s.current) := by
  have hp : ((List.range s.poolIdxWmk).filter fun i => (s.rootPool i).inUse).Perm s.rootMap := by
    rw [perm_ext_iff_of_nodup (nodup_range.filter _) hr.nodup]
    intro i
    rw [mem_filter, mem_range]
    constructor
    · rintro ⟨hl, hu⟩
      exact (hr.used i hl).mp hu
    · intro hm
      exact ⟨hr.below i hm, (hr.used i (hr.below i hm)).mpr hm⟩
  unfold Delegations.iterate
  have eq : ∀ l : List Nat, (l.filterMap fun i => if (s.rootPool i).inUse then s.current i else none) =
      (l.filter fun i => (s.rootPool i).inUse).filterMap s.current := by
    intro l
    rw [filterMap_filter]
  rw [eq]
  exact hp.filterMap _

lemma Roots.mem_iterate (hm : Marks s) (p : Pubkey × Delegation) : p ∈ s.iterate ↔ s.view p.1 = some p.2 := by
  rw [hr.iterate.mem_iff, mem_filterMap]
  constructor
  · rintro ⟨i, hx, he⟩
    rw [view_of (hr.rootIdx.mpr ⟨hx, (hm.key hx he).symm⟩), he]
    rfl
  · intro he
    cases hf : s.rootIdx p.1 with
    | none =>
      rw [view_none hf] at he
      cases he
    | some i =>
      obtain ⟨hx, hk⟩ := hr.rootIdx.mp hf
      rw [view_of hf, Option.map_eq_some_iff] at he
      obtain ⟨q, hn, hs⟩ := he
      have hi := hm.key hx hn
      refine ⟨i, hx, ?_⟩
      rw [hn, Option.some_inj]
      exact Prod.ext (hi.trans hk) hs

lemma Roots.iterate_keys (hm : Marks s) : (s.iterate.map Prod.fst).Nodup := by
  rw [(hr.iterate.map Prod.fst).nodup_iff]
  have all : ∀ l : List Nat, (∀ i ∈ l, i ∈ s.rootMap) →
      ((l.filterMap s.current).map Prod.fst).Sublist (l.map s.rootKey) := by
    intro l m
    induction l with
    | nil => exact List.Sublist.refl _
    | cons i rest ih =>
      have ih := ih fun j hx => m j (.tail _ hx)
      cases hs : s.current i with
      | none =>
        rw [filterMap_cons_none hs, map_cons]
        exact ih.cons _
      | some p =>
        rw [filterMap_cons_some hs, map_cons, map_cons, hm.key (m i mem_cons_self) hs]
        exact ih.cons_cons _
  exact hr.keys.sublist (all _ fun _ hx => hx)

lemma Roots.stake_iterate (hm : Marks s) : s.stake r = (s.iterate.map fun p => r.activationStatus p.2).sum := by
  rw [(hr.iterate.map _).sum_eq, sum_filterMap]
  unfold stake
  congr 1
  exact map_congr_left fun i hx => hm.worth hx

end Firebam.StakeDelegations
