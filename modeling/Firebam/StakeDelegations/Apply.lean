import Firebam.StakeDelegations.Mark

/-! The changes of a fork become part of the root. -/
namespace Firebam.StakeDelegations
open List Lib Delegations

variable {s t s₀ : Delegations} {i j d f : Nat} {k : Pubkey} {e : RootEle} {r : Rule} {v : Pubkey → Option Delegation}
  {order : Delegations → Nat → List Nat} {state : Tag} {x : Delegation}

lemma widen_fits (e : UInt16) : epochFits (widen e) := by
  unfold widen epochFits
  split_ifs with ne
  · exact .inl (by decide)
  · refine .inr ?_
    have hl := e.toNat_lt
    rw [UInt16.toNat_toUInt64]
    have : e.toNat ≠ 65535 := fun hs => ne (UInt16.toNat_inj.mp hs)
    omega

lemma widen_narrow (e : UInt16) : (widen e).toUInt16 = e := by
  unfold widen
  split_ifs with hs
  · rw [hs]
    rfl
  · exact UInt16.toUInt16_toUInt64 e

lemma values_delegation (d : Delegation) : d.values.delegation = d := by
  unfold Delegation.values Values.delegation
  simp only [widen_narrow]

lemma update_update {β : Type} (g : Nat → β) (i : Nat) (x y : β) : update (update g i x) i y = update g i y := by
  funext j
  unfold update
  split
  · rfl
  · rfl

lemma Refs.held (hr : Refs s) (hd : Deltas s) : Held s := by
  intro f d hm hz
  rw [hr, references, Nat.add_eq_zero_iff, countP_eq_zero] at hz
  refine hz.2 f (mem_range.mpr ?_) ?_
  · by_contra hl
    rw [hd.empty f (.inr (Nat.le_of_not_lt hl))] at hm
    cases hm
  · rw [hd.forkIdx.mpr ⟨hm, rfl⟩]
    rfl

lemma references_congr (hf : Framed s t) (hs : (t.rootIdx k).isSome = (s.rootIdx k).isSome) :
    t.references k = s.references k := by
  unfold references
  rw [hs, hf.forkIdx, hf.forkMax]

lemma references_gained (hf : Framed s t) (hb : s.rootIdx k = none) (ha : (t.rootIdx k).isSome) :
    t.references k = s.references k + 1 := by
  unfold references
  rw [hb, hf.forkIdx, hf.forkMax, if_pos ha]
  simp only [Option.isSome_none, Bool.false_eq_true, if_false]
  omega

lemma references_lost (hf : Framed s t) (hb : (s.rootIdx k).isSome) (ha : t.rootIdx k = none) :
    s.references k = t.references k + 1 := by
  unfold references
  rw [ha, hf.forkIdx, hf.forkMax, if_pos hb]
  simp only [Option.isSome_none, Bool.false_eq_true, if_false]
  omega

lemma Grown.refs (hg : Grown s t i e) (ho : Roots s) (hf : Framed s t) (refs : Refs s)
    (hr : t.refcnt = update s.refcnt e.stakeAccount (s.refcnt e.stakeAccount + 1)) : Refs t := by
  intro k
  have hi := hg.rootIdx ho k
  rw [hr]
  by_cases hh : k = e.stakeAccount
  · rw [if_pos hh] at hi
    rw [hh, update_here, ← hh, refs, references_gained hf (hh ▸ hg.absent) (by rw [hi]; rfl)]
  · rw [if_neg hh] at hi
    rw [update_there _ hh, refs, references_congr hf (by rw [hi])]

lemma Changed.refs (hc : Changed s t i e) (hf : Framed s t) (refs : Refs s) (hr : t.refcnt = s.refcnt) : Refs t := by
  intro k
  rw [hr, refs, references_congr hf (by rw [hc.rootIdx])]

lemma Dropped.refs (hd : Dropped s t i e) (hr : Roots s) (hf : Framed s t) (refs : Refs s)
    (he : t.refcnt = update s.refcnt (s.rootKey i) (s.refcnt (s.rootKey i) - 1)) : Refs t := by
  intro k
  have hi := hd.rootIdx hr k
  rw [he]
  by_cases hh : k = s.rootKey i
  · rw [if_pos hh] at hi
    have ho := hr.rootIdx.mpr ⟨hd.member, hh.symm⟩
    have hl := references_lost hf (by rw [ho]; rfl) hi
    rw [hh, update_here, ← hh, refs]
    omega
  · rw [if_neg hh] at hi
    rw [update_there _ hh, refs, references_congr hf (by rw [hi])]

lemma Unmarked.marks (hu : Unmarked s) : Marks s := by
  refine ⟨fun i hx d hm => ?_, fun i hx hd => ?_⟩
  · rw [(hu i hx).1] at hm
    cases hm
  · rw [(hu i hx).2] at hd
    cases hd

lemma Unmarked.worth (hu : Unmarked s) (hm : i ∈ s.rootMap) :
    s.worth r i = r.activationStatus (s.rootPool i).delegation := by
  unfold Delegations.worth
  rw [(hu i hm).1]

lemma Unmarked.current (hu : Unmarked s) (hm : i ∈ s.rootMap) :
    s.current i = some (s.rootKey i, (s.rootPool i).delegation) := by
  unfold Delegations.current
  rw [(hu i hm).1, (hu i hm).2]
  rfl

lemma Grown.unmarked (hg : Grown s t i e) (hr : Roots s) (unmarked : Unmarked s) (hm : e.deltaIdx = none)
    (hd : e.dneInRoot = false) : Unmarked t := by
  unfold Unmarked
  rw [hg.rootMap]
  refine forall_mem_cons.mpr ⟨?_, fun j hx => ?_⟩
  · rw [hg.here]
    exact ⟨hm, hd⟩
  · rw [hg.there (hg.rootMap_there hr hx)]
    exact unmarked j hx

lemma Changed.unmarked (hc : Changed s t i e) (unmarked : Unmarked s) (hm : e.deltaIdx = none)
    (hd : e.dneInRoot = false) : Unmarked t := by
  intro j hx
  rw [hc.rootMap] at hx
  by_cases hs : j = i
  · rw [hs, hc.here]
    exact ⟨hm, hd⟩
  · rw [hc.there hs]
    exact unmarked j hx

lemma Dropped.unmarked (hd : Dropped s t i e) (hr : Roots s) (unmarked : Unmarked s) : Unmarked t := by
  intro j hm
  obtain ⟨ne, hm⟩ := (hd.mem_rootMap hr).mp hm
  rw [hd.there ne]
  exact unmarked j hm

def RootEle.stored (e : RootEle) (d : Delegation) (state : Tag) : RootEle :=
  { e with delegation := d, dneInRoot := false, deltaIdx := none, inUse := true, state := state }

lemma rootStore_values (s : Delegations) (i : Nat) (d : Delegation) :
    s.rootStore i d.values = .ok { s with rootPool := update s.rootPool i ((s.rootPool i).stored d .unknown) } := by
  unfold rootStore
  rw [check_of _ (show epochFits d.values.activationEpoch from widen_fits _),
    check_of _ (show epochFits d.values.deactivationEpoch from widen_fits _), values_delegation]
  rfl

structure Settled (s : Delegations) : Prop where
  roots : Roots s
  unmarked : Unmarked s
  refs : Refs s

structure Applying (r : Rule) (s₀ s : Delegations) (v : Pubkey → Option Delegation) : Prop where
  held : Held s
  framed : Framed s₀ s
  exact : s.pubkeyFallback = false → Settled s ∧ s.balance r = s₀.balance r ∧ s.view = v

lemma Settled.replace (hs : Settled s) (hx : i ∈ s.rootMap)
    (hc : Changed s t i ((s.rootPool i).stored x state)) (hf : Framed s t) (he : t.refcnt = s.refcnt)
    (ht : t.totals = s.totals - r.activationStatus (s.rootPool i).delegation + r.activationStatus x) :
    Settled t ∧ t.balance r = s.balance r ∧ t.view = Function.update s.view (s.rootKey i) (some x) := by
  have hr := hs.roots
  have hu := hc.unmarked hs.unmarked rfl rfl
  have hm : i ∈ t.rootMap := hc.rootMap ▸ hx
  have hw : t.worth r i = r.activationStatus x := by
    rw [hu.worth hm, hc.here]
    rfl
  refine ⟨⟨hc.roots hr, hu, hc.refs hf hs.refs he⟩, ?_, ?_⟩
  · unfold balance
    rw [ht, ← hw, ← hs.unmarked.worth hx, eq_sub_of_add_eq (hc.stake (r := r) hr)]
    abel
  · rw [hc.view hr, hu.current hm, hc.here]
    rfl

lemma Settled.add (hs : Settled s)
    (hg : Grown s t i (RootEle.stored { s.rootPool i with stakeAccount := k } x state)) (hf : Framed s t)
    (he : t.refcnt = update s.refcnt k (s.refcnt k + 1)) (ht : t.totals = s.totals + r.activationStatus x) :
    Settled t ∧ t.balance r = s.balance r ∧ t.view = Function.update s.view k (some x) := by
  have hr := hs.roots
  have hu := hg.unmarked hr hs.unmarked rfl rfl
  have hm : i ∈ t.rootMap := hg.rootMap ▸ .head _
  have hw : t.worth r i = r.activationStatus x := by
    rw [hu.worth hm, hg.here]
    rfl
  refine ⟨⟨hg.roots hr, hu, hg.refs hr hf hs.refs he⟩, ?_, ?_⟩
  · unfold balance
    rw [ht, hg.stake hr, hw]
    abel
  · rw [hg.view hr, hu.current hm, hg.here]
    rfl

lemma Settled.remove (hs : Settled s) (hd : Dropped s t i e) (hf : Framed s t)
    (he : t.refcnt = update s.refcnt (s.rootKey i) (s.refcnt (s.rootKey i) - 1))
    (ht : t.totals = s.totals - r.activationStatus (s.rootPool i).delegation) :
    Settled t ∧ t.balance r = s.balance r ∧ t.view = Function.update s.view (s.rootKey i) none := by
  have hr := hs.roots
  refine ⟨⟨hd.roots hr, hd.unmarked hr hs.unmarked, hd.refs hr hf hs.refs he⟩,
    ?_, hd.view hr⟩
  unfold balance
  rw [ht, ← hs.unmarked.worth hd.member, eq_sub_of_add_eq (hd.stake (r := r) hr)]
  abel

lemma pubkeyRefRelease_fallback (he : s.pubkeyFallback = true) : s.pubkeyRefRelease k = s := if_pos (.inl he)

lemma pubkeyRefRelease_held (hw : s.pubkeyFallback = false) (hh : s.refcnt k ≠ 0) : s.pubkeyRefRelease k = { s with
    refcnt := update s.refcnt k (s.refcnt k - 1)
    pubkeyUsed := if s.refcnt k = 1 then s.pubkeyUsed - 1 else s.pubkeyUsed } := by
  refine if_neg (not_or.mpr ⟨?_, hh⟩)
  rw [hw]
  exact Bool.false_ne_true

lemma Applying.remove (hp : Applying r s₀ s v) (hl : Deltas s₀) (hx : d ∈ s₀.forkMap f)
    (he : (s.deltaPool d).isTombstone = true) : ∃ t, s.applyOne r d = .ok t ∧
      Applying r s₀ t (Function.update v (s.deltaKey d) none) := by
  unfold applyOne
  rw [if_pos he, show (s.deltaPool d).stakeAccount = s.deltaKey d from rfl]
  have hh := hp.held f d (hp.framed.forkMap ▸ hx)
  cases hu : s.rootIdx (s.deltaKey d) with
  | none =>
    refine ⟨s, rfl, hp.held, hp.framed, fun hw => ?_⟩
    obtain ⟨hs, hb, rfl⟩ := hp.exact hw
    refine ⟨hs, hb, ?_⟩
    rw [← view_none hu, Function.update_eq_self]
  | some i =>
    refine ⟨_, rfl, ?_⟩
    obtain ⟨u, eq⟩ : ∃ u, u = (s.subtractOld r (some i)).rootRelease i { s.rootPool i with inUse := false } := ⟨_, rfl⟩
    have refcnt : u.refcnt = s.refcnt := by rw [eq]; rfl
    have ha : u.pubkeyFallback = s.pubkeyFallback := by rw [eq]; rfl
    have hf : Framed s u := by rw [eq]; exact ⟨rfl, rfl, rfl, rfl, rfl⟩
    rw [← eq]
    cases hw : s.pubkeyFallback with
    | true =>
      rw [pubkeyRefRelease_fallback (ha.trans hw)]
      refine ⟨refcnt_acquired hp.held hf fun k => by rw [refcnt], hp.framed.trans hf, fun hi => ?_⟩
      rw [ha, hw] at hi
      cases hi
    | false =>
      obtain ⟨hs, hb, rfl⟩ := hp.exact hw
      have hr := hs.roots
      obtain ⟨ht, hy⟩ := hr.rootIdx.mp hu
      rw [pubkeyRefRelease_held (ha.trans hw) (refcnt ▸ hh), refcnt, ← hy]
      have hd : Dropped s u i { s.rootPool i with inUse := false } := by
        rw [eq]
        exact ⟨⟨rfl, rfl⟩, rfl, rfl, rfl, ht, rfl⟩
      have ho : u.totals = s.totals - r.activationStatus (s.rootPool i).delegation := by rw [eq]; rfl
      have hm : Framed s { u with
          refcnt := update s.refcnt (s.rootKey i) (s.refcnt (s.rootKey i) - 1)
          pubkeyUsed := if s.refcnt (s.rootKey i) = 1 then u.pubkeyUsed - 1 else u.pubkeyUsed } :=
        ⟨hf.deltaPool, hf.deltaFree, hf.forkMax, hf.forkFree, hf.forkMap⟩
      have hc : Dropped s { u with
          refcnt := update s.refcnt (s.rootKey i) (s.refcnt (s.rootKey i) - 1)
          pubkeyUsed := if s.refcnt (s.rootKey i) = 1 then u.pubkeyUsed - 1 else u.pubkeyUsed } i
          { s.rootPool i with inUse := false } :=
        ⟨⟨hd.rootPool, hd.deltaPool⟩, hd.free, hd.rootMap, hd.wmk, ht, rfl⟩
      obtain ⟨hg, hk, hv⟩ := hs.remove hc hm rfl ho
      exact ⟨hg.refs.held (hm.deltas (hp.framed.deltas hl)), hp.framed.trans hm,
        fun _ => ⟨hg, hk.trans hb, hv⟩⟩

lemma award_stored (u : Delegations) (i : Nat) (x : RootEle) (y : Delegation) (status totals : Entry) :
    ∃ state warmed, award r { u with rootPool := update u.rootPool i (x.stored y .unknown), totals := totals } status
      (some i) = { u with rootPool := update u.rootPool i (x.stored y state), totals := totals, fpWarmedAwarded := warmed } := by
  unfold award
  dsimp only
  rw [update_update, update_here]
  exact ⟨_, _, rfl⟩

section
variable (hk : (s.deltaPool d).isTombstone = false)
include hk

lemma applyOne_replace (hf : s.rootIdx (s.deltaKey d) = some i) : ∃ state warmed, s.applyOne r d = .ok { s with
    rootPool := update s.rootPool i ((s.rootPool i).stored (s.deltaPool d).delegation state)
    totals := s.totals - r.activationStatus (s.rootPool i).delegation + r.activationStatus (s.deltaPool d).delegation
    fpWarmedAwarded := warmed } := by
  unfold applyOne rootUpdate
  dsimp only
  rw [hk, if_neg Bool.false_ne_true, show (s.deltaPool d).stakeAccount = s.deltaKey d from rfl, hf,
    show (subtractOld r s (some i)).rootIdx (s.deltaKey d) = some i from hf]
  dsimp only
  rw [rootStore_values]
  obtain ⟨state, warmed, eq⟩ := award_stored (r := r) s i (s.rootPool i) (s.deltaPool d).delegation
    (r.activationStatus (s.deltaPool d).delegation) (s.totals - r.activationStatus (s.rootPool i).delegation +
      r.activationStatus (s.deltaPool d).delegation)
  exact ⟨state, warmed, congrArg Except.ok eq⟩

section
variable (hf : s.rootIdx (s.deltaKey d) = none) (hh : s.refcnt (s.deltaKey d) ≠ 0)
include hf hh

lemma applyOne_exhausted (hu : s.rootFree = []) : s.applyOne r d = .ok { s with
    pubkeyFallback := true
    refcnt := update s.refcnt (s.deltaKey d) (s.refcnt (s.deltaKey d) + 1)
    totals := s.totals + r.activationStatus (s.deltaPool d).delegation } := by
  unfold applyOne rootUpdate
  dsimp only
  rw [hk, if_neg Bool.false_ne_true, show (s.deltaPool d).stakeAccount = s.deltaKey d from rfl, hf,
    show (subtractOld r s none).rootIdx (s.deltaKey d) = none from hf]
  dsimp only [subtractOld]
  conv_lhs => rw [hu]
  rw [pubkeyFallbackEnter_held hh]
  rfl

lemma applyOne_add {free : List Nat} (hr : s.rootFree = i :: free) : ∃ state warmed, s.applyOne r d = .ok { s with
    rootFree := free
    rootPool := update s.rootPool i
      (RootEle.stored { s.rootPool i with stakeAccount := s.deltaKey d } (s.deltaPool d).delegation state)
    poolIdxWmk := max s.poolIdxWmk (i + 1)
    rootMap := i :: s.rootMap
    refcnt := update s.refcnt (s.deltaKey d) (s.refcnt (s.deltaKey d) + 1)
    totals := s.totals + r.activationStatus (s.deltaPool d).delegation
    fpWarmedAwarded := warmed } := by
  unfold applyOne rootUpdate
  dsimp only
  rw [hk, if_neg Bool.false_ne_true, show (s.deltaPool d).stakeAccount = s.deltaKey d from rfl, hf,
    show (subtractOld r s none).rootIdx (s.deltaKey d) = none from hf]
  dsimp only [subtractOld]
  rw [hr]
  dsimp only
  rw [pubkeyRefAcquire_held (s := s.rootAcquire i free _) hh]
  dsimp only [Except.bind]
  rw [rootStore_values]
  dsimp only [rootAcquire]
  rw [update_update, update_here]
  obtain ⟨state, warmed, eq⟩ := award_stored (r := r) { s with
      rootFree := free
      poolIdxWmk := max s.poolIdxWmk (i + 1)
      rootMap := i :: s.rootMap
      refcnt := update s.refcnt (s.deltaKey d) (s.refcnt (s.deltaKey d) + 1) } i
    { s.rootPool i with stakeAccount := s.deltaKey d } (s.deltaPool d).delegation
    (r.activationStatus (s.deltaPool d).delegation) (s.totals + r.activationStatus (s.deltaPool d).delegation)
  exact ⟨state, warmed, congrArg Except.ok eq⟩

end

lemma Applying.update (ha : Applying r s₀ s v) (hm : d ∈ s₀.forkMap f) :
    ∃ t, s.applyOne r d = .ok t ∧
      Applying r s₀ t (Function.update v (s.deltaKey d) (some (s.deltaPool d).delegation)) := by
  have hh := ha.held f d (ha.framed.forkMap ▸ hm)
  cases hf : s.rootIdx (s.deltaKey d) with
  | some i =>
    obtain ⟨state, warmed, eq⟩ := applyOne_replace (r := r) hk hf
    refine ⟨_, eq, ha.held, ha.framed.trans ⟨rfl, rfl, rfl, rfl, rfl⟩, fun hw => ?_⟩
    obtain ⟨hs, hb, rfl⟩ := ha.exact hw
    obtain ⟨ht, he⟩ := hs.roots.rootIdx.mp hf
    rw [← he, ← hb]
    exact hs.replace ht ⟨⟨rfl, rfl⟩, rfl, rfl, rfl, ht, rfl, rfl⟩ ⟨rfl, rfl, rfl, rfl, rfl⟩ rfl rfl
  | none =>
    cases hr : s.rootFree with
    | nil =>
      refine ⟨_, applyOne_exhausted hk hf hh hr, ?_, ha.framed.trans ⟨rfl, rfl, rfl, rfl, rfl⟩, nofun⟩
      exact refcnt_acquired ha.held ⟨rfl, rfl, rfl, rfl, rfl⟩ (le_update_refcnt s _)
    | cons i free' =>
      obtain ⟨state, warmed, eq⟩ := applyOne_add (r := r) hk hf hh hr
      refine ⟨_, eq, ?_, ha.framed.trans ⟨rfl, rfl, rfl, rfl, rfl⟩, fun hw => ?_⟩
      · exact refcnt_acquired ha.held ⟨rfl, rfl, rfl, rfl, rfl⟩ (le_update_refcnt s _)
      · obtain ⟨hs, hb, rfl⟩ := ha.exact hw
        rw [← hb]
        exact hs.add ⟨⟨rfl, rfl⟩, hr, rfl, rfl, hf, rfl⟩ ⟨rfl, rfl, rfl, rfl, rfl⟩ rfl rfl

end

section
variable (ha : Applying r s₀ s v)
include ha

lemma Applying.applyOne (hd : Deltas s₀) (hm : d ∈ s₀.forkMap f) :
    ∃ t, s.applyOne r d = .ok t ∧ Applying r s₀ t (Function.update v (s₀.deltaKey d) (s₀.deltaPool d).change) := by
  rw [← ha.framed.deltaKey, ← ha.framed.deltaPool]
  unfold DeltaEle.change
  cases ht : (s.deltaPool d).isTombstone with
  | true => exact ha.remove hd hm ht
  | false => exact ha.update ht hm

lemma Applying.walk {l : List Nat} (hd : Deltas s₀)
    (hm : ∀ d ∈ l, d ∈ s₀.forkMap f) : ∃ t, l.foldlM (Delegations.applyOne r) s = .ok t ∧
      Applying r s₀ t (l.foldl (fun m d => Function.update m (s₀.deltaKey d) (s₀.deltaPool d).change) v) := by
  induction l generalizing s v with
  | nil => exact ⟨s, rfl, ha⟩
  | cons d rest ih =>
    obtain ⟨t, hs, hn⟩ := ha.applyOne hd (hm d (.head _))
    rw [foldlM_cons, hs]
    exact ih hn fun d hl => hm d (.tail _ hl)

lemma Applying.applyForkDelta (hd : Deltas s₀)
    (hp : (order s f).Perm (s.forkMap f)) : ∃ t, s.applyForkDelta r order f = .ok t ∧
      Applying r s₀ t (override v (s₀.forkView f)) := by
  rw [ha.framed.forkMap] at hp
  obtain ⟨t, hr, hn⟩ := ha.walk hd fun d hm => hp.mem_iff.mp hm
  rw [hd.foldl_walk hp] at hn
  exact ⟨t, hr, hn⟩

end

lemma Applying.applyAll (chain : List Nat) (ha : Applying r s₀ s v) (hd : Deltas s₀)
    (hp : ∀ s f, (order s f).Perm (s.forkMap f)) : ∃ t, chain.foldlM (Delegations.applyForkDelta r order) s = .ok t ∧
      Applying r s₀ t (overlay v (chain.map s₀.forkView)) := by
  induction chain generalizing s v with
  | nil => exact ⟨s, rfl, ha⟩
  | cons f rest ih =>
    obtain ⟨t, hs, hn⟩ := ha.applyForkDelta hd (hp s f)
    rw [foldlM_cons, hs]
    exact ih hn

lemma Sound.applying (hs : Sound s) : Applying r s s s.view :=
  ⟨hs.refs.held hs.deltas, Framed.refl s, fun _ => ⟨⟨hs.roots, hs.unmarked, hs.refs⟩, rfl, rfl⟩⟩

lemma Sound.marking (hs : Sound s) {P : Nat → Prop} : Marking r s s P s.view := by
  refine ⟨hs.refs.held hs.deltas, Framed.refl s, fun _ => ⟨⟨hs.roots, hs.unmarked.marks, Framed.refl s, rfl, rfl,
    rfl, fun i hx d hm => ?_⟩, rfl⟩⟩
  rw [(hs.unmarked i hx).1] at hm
  cases hm

lemma Applying.sound (ha : Applying r s₀ s v) (hd : Deltas s₀) (hw : s.pubkeyFallback = false) : Sound s := by
  obtain ⟨hs, -, -⟩ := ha.exact hw
  exact ⟨hs.roots, ha.framed.deltas hd, hs.unmarked, hs.refs, hw⟩

end Firebam.StakeDelegations
