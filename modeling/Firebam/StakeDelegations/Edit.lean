import Firebam.StakeDelegations.Apply

namespace Firebam.StakeDelegations
open List Lib Delegations

variable {s t : Delegations} {i j d f g : Nat} {k : Pubkey} {v : Values} {r : Rule} {P : Nat → Prop} {l : List Nat}
  {o : Option Nat}

def Delegations.InUse (s : Delegations) (f : Nat) : Prop := f < s.forkMax ∧ f ∉ s.forkFree

structure Steady (s t : Delegations) : Prop where
  rootPool : t.rootPool = s.rootPool
  rootFree : t.rootFree = s.rootFree
  rootMap : t.rootMap = s.rootMap
  wmk : t.poolIdxWmk = s.poolIdxWmk

namespace Steady

variable (hs : Steady s t)
include hs

lemma rootKey : t.rootKey = s.rootKey := by
  funext i
  unfold Delegations.rootKey
  rw [hs.rootPool]

lemma rootIdx : t.rootIdx = s.rootIdx := by
  funext k
  unfold Delegations.rootIdx
  rw [hs.rootPool, hs.rootMap]

lemma roots (roots : Roots s) : Roots t := by
  obtain ⟨hk, hr, ne, hf, hb, hu⟩ := roots
  refine ⟨?_, ?_, ?_, ?_, ?_, ?_⟩
  · rw [hs.rootMap, hs.rootKey]
    exact hk
  · rw [hs.rootFree]
    exact hr
  · rw [hs.rootFree, hs.rootMap]
    exact ne
  · rw [hs.rootFree, hs.wmk]
    exact hf
  · rw [hs.rootMap, hs.wmk]
    exact hb
  · rw [hs.rootMap, hs.wmk, hs.rootPool]
    exact hu

lemma unmarked (unmarked : Unmarked s) : Unmarked t := by
  unfold Unmarked
  rw [hs.rootMap, hs.rootPool]
  exact unmarked

end Steady

lemma evictOne_eq (hw : s.pubkeyFallback = false) : ∃ refcnt used, s.evictOne d =
    { s with refcnt := refcnt, pubkeyUsed := used, deltaFree := d :: s.deltaFree } ∧
    ∀ k, refcnt k = s.refcnt k - if k = s.deltaKey d then 1 else 0 := by
  unfold evictOne
  rw [show (s.deltaPool d).stakeAccount = s.deltaKey d from rfl]
  by_cases hz : s.refcnt (s.deltaKey d) = 0
  · rw [show s.pubkeyRefRelease (s.deltaKey d) = s from if_pos (.inr hz)]
    refine ⟨s.refcnt, s.pubkeyUsed, rfl, fun k => ?_⟩
    split_ifs with hs
    · rw [hs, hz]
    · rfl
  · rw [pubkeyRefRelease_held hw hz]
    refine ⟨update s.refcnt (s.deltaKey d) (s.refcnt (s.deltaKey d) - 1), _, rfl, fun k => ?_⟩
    by_cases hs : k = s.deltaKey d
    · rw [hs, update_here, if_pos rfl]
    · rw [update_there _ hs, if_neg hs, Nat.sub_zero]

lemma evict_walk (hw : s.pubkeyFallback = false) (hd : (l.map s.deltaKey).Nodup) :
    ∃ refcnt used, l.foldl evictOne s =
      { s with refcnt := refcnt, pubkeyUsed := used, deltaFree := l.reverse ++ s.deltaFree } ∧
      ∀ k, refcnt k = s.refcnt k - if k ∈ l.map s.deltaKey then 1 else 0 := by
  induction l generalizing s with
  | nil => exact ⟨s.refcnt, s.pubkeyUsed, rfl, fun k => by simp⟩
  | cons d rest ih =>
    rw [map_cons, nodup_cons] at hd
    obtain ⟨refcnt, used, eq, hc⟩ := evictOne_eq (d := d) hw
    obtain ⟨refcnt', used', he, ho⟩ := ih (s := s.evictOne d) (by rw [eq]; exact hw) (by rw [eq]; exact hd.2)
    refine ⟨refcnt', used', ?_, fun k => ?_⟩
    · rw [foldl_cons, he, eq, reverse_cons, append_assoc]
      rfl
    · rw [ho, eq]
      change refcnt k - (if k ∈ rest.map s.deltaKey then 1 else 0) = _
      rw [hc, map_cons]
      by_cases hh : k = s.deltaKey d
      · rw [if_pos hh, if_neg (hh ▸ hd.1), if_pos (hh ▸ mem_cons_self), Nat.sub_zero]
      · rw [if_neg hh, Nat.sub_zero]
        simp only [mem_cons, hh, false_or]

lemma Deltas.mem_keys (hd : Deltas s) : (s.forkIdx f k).isSome ↔ k ∈ (s.forkMap f).map s.deltaKey := by
  rw [Option.isSome_iff_exists, mem_map]
  exact exists_congr fun d => hd.forkIdx

lemma forkIdx_update (f g : Nat) (k : Pubkey) (hm : t.forkMap = update s.forkMap f l)
    (hp : t.deltaPool = s.deltaPool) (ne : g ≠ f) : t.forkIdx g k = s.forkIdx g k := by
  unfold forkIdx
  rw [hm, hp, update_there _ ne]

lemma Sound.evictFork {order : Delegations → Nat → List Nat} (hb : Sound s) (hn : s.InUse f) (hj : f ≠ 65535)
    (hp : (order s f).Perm (s.forkMap f)) : Sound (s.evictFork order f) ∧ Steady s (s.evictFork order f) ∧
      (s.evictFork order f).totals = s.totals ∧ (s.evictFork order f).forkMax = s.forkMax ∧
      (s.evictFork order f).forkFree = f :: s.forkFree ∧
      ∀ g, (s.evictFork order f).forkView g = if g = f then fun _ => none else s.forkView g := by
  have hl := hb.deltas
  have hd : ((order s f).map s.deltaKey).Nodup := (hp.map _).nodup_iff.mpr (hl.keys f)
  obtain ⟨refcnt, used, eq, hw⟩ := evict_walk hb.within hd
  unfold Delegations.evictFork
  rw [if_neg hj, eq]
  dsimp only
  generalize hq : ({ s with
    refcnt := refcnt, pubkeyUsed := used, deltaFree := (order s f).reverse ++ s.deltaFree
    forkMap := update s.forkMap f [], forkFree := f :: s.forkFree } : Delegations) = t
  have hy : Steady s t := by
    subst hq
    exact ⟨rfl, rfl, rfl, rfl⟩
  have hm : t.forkMap = update s.forkMap f [] := by rw [← hq]
  have ho : t.deltaPool = s.deltaPool := by rw [← hq]
  have hx : t.forkMax = s.forkMax := by rw [← hq]
  have hf : t.forkFree = f :: s.forkFree := by rw [← hq]
  have deltaFree : t.deltaFree = (order s f).reverse ++ s.deltaFree := by rw [← hq]
  have hg : t.forkMap f = [] := by rw [hm, update_here]
  have ht : ∀ g, g ≠ f → t.forkMap g = s.forkMap g := fun g ne => by rw [hm, update_there _ ne]
  have hi : ∀ g, ∀ d ∈ t.forkMap g, g ≠ f ∧ d ∈ s.forkMap g := fun g d hk => by
    have ne : g ≠ f := fun hs => not_mem_nil (hg ▸ hs ▸ hk)
    exact ⟨ne, ht g ne ▸ hk⟩
  have hz : t.deltaKey = s.deltaKey := by
    funext d
    unfold deltaKey
    rw [ho]
  refine ⟨⟨hy.roots hb.roots, ⟨?_, ?_, ?_, ?_, ?_, ?_⟩, hy.unmarked hb.unmarked, ?_, ?_⟩, hy, rfl, rfl, rfl, ?_⟩
  · intro g
    by_cases hs : g = f
    · rw [hs, hg]
      exact nodup_nil
    · rw [ht g hs, hz]
      exact hl.keys g
  · rw [deltaFree, nodup_append]
    refine ⟨nodup_reverse.mpr (hd.of_map _), hl.free, fun d hh d' hf hs => ?_⟩
    rw [mem_reverse, hp.mem_iff] at hh
    exact hl.apart d' hf f (hs ▸ hh)
  · intro d ha g hk
    obtain ⟨hs, hk⟩ := hi g d hk
    rw [deltaFree, mem_append, mem_reverse, hp.mem_iff] at ha
    rcases ha with hh | hf
    · exact hs (hl.disjoint g f d hk hh)
    · exact hl.apart d hf g hk
  · intro g h d hv hr
    exact hl.disjoint g h d (hi g d hv).2 (hi h d hr).2
  · rw [hf, nodup_cons]
    exact ⟨hn.2, hl.forks⟩
  · intro g hu
    by_cases hs : g = f
    · rw [hs, hg]
    · rw [ht g hs]
      rw [hf, hx, mem_cons] at hu
      exact hl.empty g (hu.imp_left fun hi => hi.resolve_left hs)
  · intro k
    have hc : t.refcnt k = refcnt k := by rw [← hq]
    have he := countP_change (p := fun g => (t.forkIdx g k).isSome) (q := fun g => (s.forkIdx g k).isSome)
      nodup_range (mem_range.mpr hn.1) fun g ne => by rw [forkIdx_update f g k hm ho ne]
    have none : t.forkIdx f k = none := by
      rw [forkIdx, hg]
      rfl
    rw [hc, hw, hb.refs, references, references, hy.rootIdx, hx]
    have hs : k ∈ (order s f).map s.deltaKey ↔ (s.forkIdx f k).isSome := by
      rw [hl.mem_keys, ← (hp.map s.deltaKey).mem_iff]
    simp only [none, Option.isSome_none, Bool.false_eq_true, if_false, ← hs] at he
    omega
  · rw [← hq]
    exact hb.within
  · intro g
    funext k
    unfold forkView
    by_cases hs : g = f
    · rw [if_pos hs, hs, forkIdx, hg]
      rfl
    · rw [if_neg hs, forkIdx_update f g k hm ho hs, ho]

lemma pubkeyRefAcquire_ok (hr : s.pubkeyRefAcquire k = .ok t) : ∃ used, t =
    { s with pubkeyUsed := used, refcnt := update s.refcnt k (s.refcnt k + 1) } := by
  unfold pubkeyRefAcquire at hr
  split_ifs at hr with hz
  · obtain ⟨-, eq⟩ := check_ok.mp hr
    cases eq
    rw [hz]
    exact ⟨_, rfl⟩
  · cases hr
    exact ⟨_, rfl⟩

structure Widened (s t : Delegations) (f : Nat) (k : Pubkey) (d : Nat) : Prop extends Steady s t where
  deltaFree : s.deltaFree = d :: t.deltaFree
  deltaPool : t.deltaPool = update s.deltaPool d { s.deltaPool d with stakeAccount := k }
  forkMap : t.forkMap = update s.forkMap f (d :: s.forkMap f)
  forkMax : t.forkMax = s.forkMax
  forkFree : t.forkFree = s.forkFree
  refcnt : t.refcnt = update s.refcnt k (s.refcnt k + 1)
  fallback : t.pubkeyFallback = s.pubkeyFallback
  absent : s.forkIdx f k = none

namespace Widened

variable (hw : Widened s t f k d)
include hw

lemma fresh (hd : Deltas s) (hh : j ∈ s.forkMap g) : j ≠ d := by
  rintro rfl
  exact hd.apart j (hw.deltaFree ▸ .head _) g hh

lemma deltaKey_here : t.deltaKey d = k := by
  rw [deltaKey, hw.deltaPool, update_here]

lemma deltaPool_there (ne : j ≠ d) : t.deltaPool j = s.deltaPool j := by
  rw [hw.deltaPool, update_there _ ne]

lemma keys (hd : Deltas s) (g : Nat) : (s.forkMap g).map t.deltaKey = (s.forkMap g).map s.deltaKey := by
  refine map_congr_left fun j hh => ?_
  rw [deltaKey, hw.deltaPool_there (hw.fresh hd hh)]
  rfl

lemma forkMap_here : t.forkMap f = d :: s.forkMap f := by
  rw [hw.forkMap, update_here]

lemma forkMap_there (ne : g ≠ f) : t.forkMap g = s.forkMap g := by
  rw [hw.forkMap, update_there _ ne]

lemma mem_forkMap : j ∈ t.forkMap g ↔ g = f ∧ j = d ∨ j ∈ s.forkMap g := by
  by_cases hs : g = f
  · rw [hs, hw.forkMap_here, mem_cons]
    simp
  · rw [hw.forkMap_there hs]
    simp [hs]

lemma deltas (deltas : Deltas s) (hi : s.InUse f) : Deltas t := by
  have hf := deltas.free
  rw [hw.deltaFree, nodup_cons] at hf
  refine ⟨fun g => ?_, hf.2, ?_, ?_, hw.forkFree ▸ deltas.forks, ?_⟩
  · by_cases hs : g = f
    · rw [hs, hw.forkMap_here, map_cons, hw.keys deltas, hw.deltaKey_here, nodup_cons]
      exact ⟨find_none_fresh hw.absent, deltas.keys f⟩
    · rw [hw.forkMap_there hs, hw.keys deltas]
      exact deltas.keys g
  · intro j hm g he
    rcases hw.mem_forkMap.mp he with ⟨-, hs⟩ | he
    · exact hf.1 (hs ▸ hm)
    · exact deltas.apart j (hw.deltaFree ▸ .tail _ hm) g he
  · intro g h j hl hr
    rcases hw.mem_forkMap.mp hl with ⟨hh, hs⟩ | hl
    · rcases hw.mem_forkMap.mp hr with ⟨hb, -⟩ | hr
      · rw [hh, hb]
      · exact absurd hs (hw.fresh deltas hr)
    · rcases hw.mem_forkMap.mp hr with ⟨-, hs⟩ | hr
      · exact absurd hs (hw.fresh deltas hl)
      · exact deltas.disjoint g h j hl hr
  · rw [hw.forkFree, hw.forkMax]
    intro g hu
    have ne : g ≠ f := by
      rintro rfl
      rcases hu with hf | ha
      · exact hi.2 hf
      · exact absurd hi.1 (not_lt.mpr ha)
    rw [hw.forkMap_there ne]
    exact deltas.empty g hu

lemma forkIdx (hd : Deltas s) (hi : s.InUse f) (g : Nat) (k' : Pubkey) :
    t.forkIdx g k' = if g = f ∧ k' = k then some d else s.forkIdx g k' := by
  have he := hw.deltas hd hi
  split
  · rename_i hb
    obtain ⟨rfl, rfl⟩ := hb
    exact he.forkIdx.mpr ⟨hw.mem_forkMap.mpr (.inl ⟨rfl, rfl⟩), hw.deltaKey_here⟩
  · rename_i ne
    refine Option.ext fun j => ?_
    rw [he.forkIdx, hd.forkIdx, hw.mem_forkMap]
    constructor
    · rintro ⟨⟨rfl, rfl⟩ | hh, hk⟩
      · exact absurd ⟨rfl, hk.symm.trans hw.deltaKey_here⟩ ne
      · rw [deltaKey, hw.deltaPool_there (hw.fresh hd hh)] at hk
        exact ⟨hh, hk⟩
    · rintro ⟨hh, hk⟩
      refine ⟨.inr hh, ?_⟩
      rw [deltaKey, hw.deltaPool_there (hw.fresh hd hh)]
      exact hk

lemma refs (hs : Sound s) (hn : s.InUse f) : Refs t := by
  intro k'
  rw [hw.refcnt, references, hw.rootIdx, hw.forkMax]
  have hi := hw.forkIdx hs.deltas hn
  by_cases hh : k' = k
  · have hc := countP_change (p := fun g => (t.forkIdx g k').isSome) (q := fun g => (s.forkIdx g k').isSome)
      nodup_range (mem_range.mpr hn.1) fun g ne => by rw [hi, if_neg fun ho => ne ho.1]
    have ha : t.forkIdx f k' = some d := by rw [hi, if_pos ⟨rfl, hh⟩]
    have hb : s.forkIdx f k' = none := hh ▸ hw.absent
    simp only [ha, hb, Option.isSome_none, Option.isSome_some, Bool.false_eq_true, if_false, if_true] at hc
    rw [hh, update_here, ← hh, hs.refs, references]
    omega
  · rw [update_there _ hh, hs.refs, references]
    congr 1
    refine countP_congr fun g _ => ?_
    rw [hi, if_neg fun ho => hh ho.2]

lemma sound (sound : Sound s) (hi : s.InUse f) : Sound t :=
  ⟨hw.roots sound.roots, hw.deltas sound.deltas hi, hw.unmarked sound.unmarked, hw.refs sound hi,
    hw.fallback.trans sound.within⟩

lemma forkView (hd : Deltas s) (hi : s.InUse f) (g : Nat) (k' : Pubkey)
    (ne : ¬(g = f ∧ k' = k)) : t.forkView g k' = s.forkView g k' := by
  unfold Delegations.forkView
  rw [hw.forkIdx hd hi, if_neg ne]
  cases hf : s.forkIdx g k' with
  | none => rfl
  | some j =>
    have hh := (hd.forkIdx.mp hf).1
    rw [Option.map_some, Option.map_some, hw.deltaPool_there (hw.fresh hd hh)]

end Widened

structure Edited (s t : Delegations) (f : Nat) (k : Pubkey) (change : Option Delegation) : Prop where
  sound : Sound t
  forkMax : t.forkMax = s.forkMax
  here : t.forkView f k = some change
  there : ∀ g k', ¬(g = f ∧ k' = k) → t.forkView g k' = s.forkView g k'

section
variable (sound : Sound s)
include sound

lemma Sound.forkElement (hn : s.InUse f) (hb : s.forkElement f k = .ok (t, o))
    (hw : t.pubkeyFallback = false) : ∃ d, o = some d ∧ Sound t ∧ t.forkMax = s.forkMax ∧
      t.forkIdx f k = some d ∧ ∀ g k', ¬(g = f ∧ k' = k) → t.forkView g k' = s.forkView g k' := by
  unfold Delegations.forkElement at hb
  cases hf : s.forkIdx f k with
  | some d =>
    rw [hf] at hb
    cases hb
    exact ⟨d, rfl, sound, rfl, hf, fun _ _ _ => rfl⟩
  | none =>
    rw [hf] at hb
    cases hr : s.deltaFree with
    | nil =>
      rw [hr] at hb
      obtain ⟨u, he, eq⟩ := map_ok.mp hb
      cases eq
      obtain ⟨used, rfl⟩ := pubkeyRefAcquire_ok he
      cases hw
    | cons d rest =>
      rw [hr] at hb
      obtain ⟨u, ha, eq⟩ := map_ok.mp hb
      cases eq
      obtain ⟨used, rfl⟩ := pubkeyRefAcquire_ok ha
      refine ⟨d, rfl, ?_⟩
      generalize eq : ({ s with
        deltaFree := rest
        deltaPool := update s.deltaPool d { s.deltaPool d with stakeAccount := k }
        forkMap := update s.forkMap f (d :: s.forkMap f)
        pubkeyUsed := used
        refcnt := update s.refcnt k (s.refcnt k + 1) } : Delegations) = t
      have hi : Widened s t f k d := by
        subst eq
        exact ⟨⟨rfl, rfl, rfl, rfl⟩, hr, rfl, rfl, rfl, rfl, rfl, rfl, hf⟩
      exact ⟨hi.sound sound hn, hi.forkMax,
        by rw [hi.forkIdx sound.deltas hn, if_pos ⟨rfl, rfl⟩], hi.forkView sound.deltas hn⟩

lemma Sound.rewrite {e : DeltaEle} (hf : s.forkIdx f k = some d) (hy : e.stakeAccount = k) :
    Edited s { s with deltaPool := update s.deltaPool d e } f k e.change := by
  have hd := sound.deltas
  obtain ⟨hj, hs⟩ := hd.forkIdx.mp hf
  generalize eq : ({ s with deltaPool := update s.deltaPool d e } : Delegations) = t
  have ht : Steady s t := by
    subst eq
    exact ⟨rfl, rfl, rfl, rfl⟩
  have hp : t.deltaPool = update s.deltaPool d e := by rw [← eq]
  have hm : t.forkMap = s.forkMap := by rw [← eq]
  have hx : t.forkMax = s.forkMax := by rw [← eq]
  have hk : t.deltaKey = s.deltaKey := by
    funext j
    unfold deltaKey
    rw [hp]
    by_cases hh : j = d
    · rw [hh, update_here, hy, ← hs]
      rfl
    · rw [update_there _ hh]
  have hi : t.forkIdx = s.forkIdx := by
    funext g k'
    change ((t.forkMap g).find? fun j => decide (t.deltaKey j = k')) = (s.forkMap g).find? fun j => decide (s.deltaKey j = k')
    rw [hm, hk]
  refine ⟨⟨ht.roots sound.roots, ⟨?_, ?_, ?_, ?_, ?_, ?_⟩, ht.unmarked sound.unmarked, ?_, ?_⟩, hx, ?_, ?_⟩
  · rw [hm, hk]
    exact hd.keys
  · rw [← eq]
    exact hd.free
  · rw [hm, ← eq]
    exact hd.apart
  · rw [hm]
    exact hd.disjoint
  · rw [← eq]
    exact hd.forks
  · rw [hm, hx, ← eq]
    exact hd.empty
  · intro k'
    rw [show t.refcnt = s.refcnt by rw [← eq], sound.refs, references, references, ht.rootIdx, hi, hx]
  · rw [← eq]
    exact sound.within
  · unfold forkView
    rw [hi, hf, Option.map_some, hp, update_here]
  · intro g k' ho
    unfold forkView
    rw [hi, hp]
    cases hu : s.forkIdx g k' with
    | none => rfl
    | some j =>
      obtain ⟨he, ha⟩ := hd.forkIdx.mp hu
      have ne : j ≠ d := by
        rintro rfl
        exact ho ⟨hd.disjoint g f j he hj, ha.symm.trans hs⟩
      rw [Option.map_some, Option.map_some, update_there _ ne]

lemma Sound.forkUpdate (hi : s.InUse f) (hn : s.forkUpdate f k v = .ok t)
    (hw : t.pubkeyFallback = false) : Edited s t f k (some v.delegation) := by
  obtain ⟨⟨u, o⟩, hl, ht⟩ := bind_ok.mp (show (s.forkElement f k >>= fun t => t.1.forkStore v t.2) = .ok t from hn)
  cases o with
  | none =>
    cases ht
    obtain ⟨d, eq, -⟩ := sound.forkElement hi hl hw
    cases eq
  | some d =>
    obtain ⟨-, hr⟩ := check_ok.mp ht
    obtain ⟨-, eq⟩ := check_ok.mp hr
    cases eq
    obtain ⟨d', hs, ha, hm, hf, ho⟩ := sound.forkElement hi hl hw
    cases hs
    have he := ha.rewrite (e := { u.deltaPool d with delegation := v.delegation, isTombstone := false }) hf
      (ha.deltas.forkIdx.mp hf).2
    exact ⟨he.sound, he.forkMax.trans hm, he.here,
      fun g k' ne => (he.there g k' ne).trans (ho g k' ne)⟩

lemma Sound.forkRemove (hi : s.InUse f) (hr : s.forkRemove f k = .ok t)
    (hw : t.pubkeyFallback = false) : Edited s t f k none := by
  obtain ⟨⟨u, o⟩, hl, eq⟩ := map_ok.mp hr
  have ht : u.pubkeyFallback = false := by
    rw [← hw, ← eq]
    cases o <;> rfl
  obtain ⟨d, rfl, ha, hm, hf, ho⟩ := sound.forkElement hi hl ht
  subst eq
  have he := ha.rewrite (e := { u.deltaPool d with
      delegation := { (u.deltaPool d).delegation with lamports := 0, accDlen := 0 }, isTombstone := true }) hf
    (ha.deltas.forkIdx.mp hf).2
  exact ⟨he.sound, he.forkMax.trans hm, he.here,
    fun g k' ne => (he.there g k' ne).trans (ho g k' ne)⟩

end

lemma rootStore_ok (ha : s.rootStore i v = .ok t) :
    t = { s with rootPool := update s.rootPool i ((s.rootPool i).stored v.delegation .unknown) } := by
  obtain ⟨-, hr⟩ := check_ok.mp ha
  obtain ⟨-, eq⟩ := check_ok.mp hr
  cases eq
  rfl

lemma Sound.rootUpdate (ho : Sound s) (hb : s.rootUpdate k v = .ok (t, o))
    (hw : t.pubkeyFallback = false) : Sound t ∧ Framed s t := by
  have hr := ho.roots
  unfold Delegations.rootUpdate at hb
  cases hf : s.rootIdx k with
  | some i =>
    rw [hf] at hb
    obtain ⟨u, hs, eq⟩ := map_ok.mp hb
    cases eq
    obtain ⟨ht, hk⟩ := hr.rootIdx.mp hf
    have hd : Framed s t := by
      rw [rootStore_ok hs]
      exact ⟨rfl, rfl, rfl, rfl, rfl⟩
    have hc : Changed s t i ((s.rootPool i).stored v.delegation .unknown) := by
      rw [rootStore_ok hs]
      exact ⟨⟨rfl, rfl⟩, rfl, rfl, rfl, ht, rfl, rfl⟩
    have he : t.refcnt = s.refcnt := by rw [rootStore_ok hs]
    exact ⟨⟨hc.roots hr, hd.deltas ho.deltas, hc.unmarked ho.unmarked rfl rfl,
      hc.refs hd ho.refs he, hw⟩, hd⟩
  | none =>
    rw [hf] at hb
    cases hh : s.rootFree with
    | nil =>
      rw [hh] at hb
      obtain ⟨u, hn, eq⟩ := map_ok.mp hb
      cases eq
      obtain ⟨used, rfl⟩ := pubkeyRefAcquire_ok hn
      cases hw
    | cons i rest =>
      rw [hh] at hb
      obtain ⟨u, hs, eq⟩ := map_ok.mp hb
      cases eq
      obtain ⟨w, ha, hs⟩ := bind_ok.mp (show (((s.rootAcquire i rest { s.rootPool i with
        stakeAccount := k }).pubkeyRefAcquire k) >>= fun w => w.rootStore i v) = .ok t from hs)
      obtain ⟨used, rfl⟩ := pubkeyRefAcquire_ok ha
      have eq := rootStore_ok hs
      dsimp only [rootAcquire] at eq
      rw [update_update, update_here] at eq
      have hd : Framed s t := by
        rw [eq]
        exact ⟨rfl, rfl, rfl, rfl, rfl⟩
      have hg : Grown s t i (RootEle.stored { s.rootPool i with stakeAccount := k } v.delegation .unknown) := by
        rw [eq]
        exact ⟨⟨rfl, rfl⟩, hh, rfl, rfl, hf, rfl⟩
      have he : t.refcnt = update s.refcnt k (s.refcnt k + 1) := by rw [eq]
      exact ⟨⟨hg.roots hr, hd.deltas ho.deltas, hg.unmarked hr ho.unmarked rfl rfl,
        hg.refs hr hd ho.refs he, hw⟩, hd⟩

lemma Unmarked.rootQuery (hu : Unmarked s) (hr : Roots s) : s.rootQuery = s.base := by
  funext k
  unfold Delegations.rootQuery
  cases hf : s.rootIdx k with
  | none => rw [base_none hf, Option.map_none]
  | some i =>
    obtain ⟨hx, -⟩ := hr.rootIdx.mp hf
    obtain ⟨hm, hd⟩ := hu i hx
    rw [base_of hf, Option.map_some, hd, if_neg Bool.false_ne_true, ← hm]

lemma Unmarked.view (hu : Unmarked s) (hr : Roots s) (k : Pubkey) :
    s.view k = (s.rootQuery k).map RootEle.delegation := by
  unfold Delegations.rootQuery
  cases hf : s.rootIdx k with
  | none => rw [view_none hf, Option.map_none, Option.map_none]
  | some i =>
    obtain ⟨hm, -⟩ := hr.rootIdx.mp hf
    rw [view_of hf, hu.current hm, Option.map_some, Option.map_some, Option.map_some]

lemma stake_congr (hr : Roots s) (hm : Marks s) (ho : Roots t) (ha : Marks t) (hs : t.view = s.view) :
    t.stake r = s.stake r := by
  rw [hr.stake_iterate hm, ho.stake_iterate ha]
  refine List.Perm.sum_eq (List.Perm.map _ ?_)
  rw [perm_ext_iff_of_nodup ((ho.iterate_keys ha).of_map _) ((hr.iterate_keys hm).of_map _)]
  intro p
  rw [hr.mem_iterate hm, ho.mem_iterate ha, hs]

lemma Marked.sound {s₀ : Delegations} (hm : Marked r s₀ s P) (sound : Sound s₀) (none : ∀ d, ¬P d)
    (hw : s.pubkeyFallback = false) : Sound s ∧ s.rootQuery = s₀.rootQuery ∧ s.totals = s₀.totals := by
  have hr := hm.roots
  have hu : Unmarked s := by
    intro i hx
    have ha : (s.rootPool i).deltaIdx = Option.none := by
      cases ha : (s.rootPool i).deltaIdx with
      | none => rfl
      | some d => exact absurd (hm.among i hx d ha) (none d)
    refine ⟨ha, ?_⟩
    cases hd : (s.rootPool i).dneInRoot with
    | false => rfl
    | true => exact absurd ha (hm.marks.projected i hx hd)
  have hq : s.rootQuery = s₀.rootQuery := by
    rw [hu.rootQuery hr, sound.unmarked.rootQuery sound.roots, hm.base]
  have hv : s.view = s₀.view := by
    funext k
    rw [hu.view hr, sound.unmarked.view sound.roots, hq]
  refine ⟨⟨hr, hm.framed.deltas sound.deltas, hu, fun k => ?_, hw⟩, hq, ?_⟩
  · rw [hm.refcnt, sound.refs]
    refine (references_congr hm.framed ?_).symm
    have := congrArg Option.isSome (congrFun hq k)
    rwa [rootQuery, rootQuery, Option.isSome_map, Option.isSome_map] at this
  · have hb := hm.balance
    unfold Delegations.balance at hb
    rw [stake_congr sound.roots sound.unmarked.marks hr hm.marks hv] at hb
    exact sub_left_injective hb

end Firebam.StakeDelegations
