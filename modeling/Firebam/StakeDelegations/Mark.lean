import Firebam.StakeDelegations.Views

/-! The changes of forks are marked in the root and unmarked again. -/
namespace Firebam.StakeDelegations
open List Lib Delegations Option

variable {s t s₀ : Delegations} {i j d f : Nat} {k : Pubkey} {e : RootEle} {r : Rule} {P : Nat → Prop}
  {order : Delegations → Nat → List Nat} {v : Pubkey → Option Delegation} {l : List Nat}

structure Framed (s t : Delegations) : Prop where
  deltaPool : t.deltaPool = s.deltaPool
  deltaFree : t.deltaFree = s.deltaFree
  forkMax : t.forkMax = s.forkMax
  forkFree : t.forkFree = s.forkFree
  forkMap : t.forkMap = s.forkMap

namespace Framed

lemma refl (s : Delegations) : Framed s s := ⟨rfl, rfl, rfl, rfl, rfl⟩

lemma trans {u : Delegations} (hf : Framed s t) (hs : Framed t u) : Framed s u :=
  ⟨hs.deltaPool.trans hf.deltaPool, hs.deltaFree.trans hf.deltaFree, hs.forkMax.trans hf.forkMax,
    hs.forkFree.trans hf.forkFree, hs.forkMap.trans hf.forkMap⟩

variable (ha : Framed s t)
include ha

lemma deltaKey : t.deltaKey = s.deltaKey := by
  funext d
  unfold Delegations.deltaKey
  rw [ha.deltaPool]

lemma forkIdx : t.forkIdx = s.forkIdx := by
  funext f k
  unfold Delegations.forkIdx
  rw [ha.forkMap, ha.deltaPool]

lemma forkView : t.forkView = s.forkView := by
  funext f k
  unfold Delegations.forkView
  rw [ha.forkIdx, ha.deltaPool]

lemma deltas (deltas : Deltas s) : Deltas t := by
  obtain ⟨hk, hr, ne, hd, hf, he⟩ := deltas
  refine ⟨?_, ?_, ?_, ?_, ?_, ?_⟩
  · rw [ha.forkMap, ha.deltaKey]
    exact hk
  · rw [ha.deltaFree]
    exact hr
  · rw [ha.deltaFree, ha.forkMap]
    exact ne
  · rw [ha.forkMap]
    exact hd
  · rw [ha.forkFree]
    exact hf
  · rw [ha.forkFree, ha.forkMap, ha.forkMax]
    exact he

end Framed

def Delegations.base (s : Delegations) (k : Pubkey) : Option RootEle :=
  (s.rootIdx k).bind fun i => if (s.rootPool i).dneInRoot then none else some { s.rootPool i with deltaIdx := none }

structure Marked (r : Rule) (s₀ s : Delegations) (P : Nat → Prop) : Prop where
  roots : Roots s
  marks : Marks s
  framed : Framed s₀ s
  refcnt : s.refcnt = s₀.refcnt
  base : s.base = s₀.base
  balance : s.balance r = s₀.balance r
  among : ∀ i ∈ s.rootMap, ∀ d, (s.rootPool i).deltaIdx = some d → P d

lemma Delegations.base_of (hf : s.rootIdx k = some i) :
    s.base k = if (s.rootPool i).dneInRoot then none else some { s.rootPool i with deltaIdx := none } := by
  unfold base
  rw [hf]
  rfl

lemma Delegations.base_none (hn : s.rootIdx k = none) : s.base k = none := by
  unfold base
  rw [hn]
  rfl

lemma Wrote.base (hw : Wrote s t i e) (hs : t.rootIdx k = s.rootIdx k) (ho : s.rootIdx k ≠ some i) :
    t.base k = s.base k := by
  unfold Delegations.base
  rw [hs]
  cases hf : s.rootIdx k with
  | none => rfl
  | some j =>
    have ne : j ≠ i := by
      rintro rfl
      exact ho hf
    simp only [bind_some]
    rw [hw.there ne]

lemma Grown.base (hg : Grown s t i e) (hr : Roots s) (hd : e.dneInRoot = true) : t.base = s.base := by
  funext k
  have hi := hg.rootIdx hr k
  by_cases hh : k = e.stakeAccount
  · rw [if_pos hh] at hi
    rw [base_of hi, hg.here, if_pos hd, base_none (hh ▸ hg.absent)]
  · rw [if_neg hh] at hi
    refine hg.toWrote.base hi fun hf => ?_
    exact hg.fresh hr (hr.rootIdx.mp hf).1

lemma Dropped.base (hd : Dropped s t i e) (hr : Roots s) (hn : (s.rootPool i).dneInRoot = true) : t.base = s.base := by
  funext k
  have hi := hd.rootIdx hr k
  by_cases hh : k = s.rootKey i
  · rw [if_pos hh] at hi
    rw [base_none hi, base_of (hr.rootIdx.mpr ⟨hd.member, hh.symm⟩), if_pos hn]
  · rw [if_neg hh] at hi
    refine hd.toWrote.base hi fun hf => ?_
    exact hh (hr.rootIdx.mp hf).2.symm

lemma Changed.base {mark : Option Nat} (hc : Changed s t i { s.rootPool i with deltaIdx := mark }) :
    t.base = s.base := by
  funext k
  by_cases hh : s.rootIdx k = some i
  · rw [base_of hh, base_of (hc.rootIdx ▸ hh), hc.here]
  · exact hc.toWrote.base (by rw [hc.rootIdx]) hh

section
variable (hm : Marked r s₀ s P)
include hm

lemma Marked.next (ho : Roots t) (hs : Marks t) (hf : Framed s t)
    (hr : t.refcnt = s.refcnt) (he : t.base = s.base) (hb : t.balance r = s.balance r) {Q : Nat → Prop}
    (ha : ∀ i ∈ t.rootMap, ∀ d, (t.rootPool i).deltaIdx = some d → Q d) : Marked r s₀ t Q :=
  ⟨ho, hs, hm.framed.trans hf, hr.trans hm.refcnt, he.trans hm.base,
    hb.trans hm.balance, ha⟩

lemma Marked.remark (ha : P d) (key : s.deltaKey d = s.rootKey i)
    (hc : Changed s t i { s.rootPool i with deltaIdx := some d }) (hf : Framed s t) (hr : t.refcnt = s.refcnt)
    (ht : t.totals = s.totals - s.worth r i + (s.deltaPool d).worth r) :
    Marked r s₀ t P ∧ t.view = Function.update s.view (s.deltaKey d) (s.deltaPool d).change := by
  have roots := hm.roots
  have current : (t.current i).map Prod.snd = (s.deltaPool d).change := by
    unfold current DeltaEle.change
    rw [hc.here, hc.deltaPool]
    dsimp only
    split
    · rfl
    · rfl
  have worth : t.worth r i = (s.deltaPool d).worth r := by
    unfold worth
    rw [hc.here, hc.deltaPool]
  have stake := hc.stake (r := r) roots
  have marks : ∀ j ∈ t.rootMap, ∀ x, (t.rootPool j).deltaIdx = some x → t.deltaKey x = t.rootKey j ∧ P x := by
    intro j hx x mark
    rw [hf.deltaKey, hc.rootKey]
    rw [hc.rootMap] at hx
    by_cases hs : j = i
    · rw [hs, hc.here] at mark
      cases mark
      exact ⟨by rw [hs, key], ha⟩
    · rw [hc.there hs] at mark
      exact ⟨hm.marks.tied j hx x mark, hm.among j hx x mark⟩
  refine ⟨hm.next (hc.roots roots) ⟨fun j hx x mark => (marks j hx x mark).1, ?_⟩ hf hr hc.base ?_
    fun j hx x mark => (marks j hx x mark).2, ?_⟩
  · intro j hx hd
    rw [hc.rootMap] at hx
    by_cases hs : j = i
    · rw [hs, hc.here]
      exact some_ne_none d
    · rw [hc.there hs] at hd ⊢
      exact hm.marks.projected j hx hd
  · unfold Delegations.balance
    rw [ht, ← worth, eq_sub_of_add_eq stake]
    abel
  · rw [hc.view roots, current, key]

lemma Marked.project (ha : P d) (key : s.deltaKey d = e.stakeAccount)
    (mark : e.deltaIdx = some d) (hn : e.dneInRoot = true) (hg : Grown s t i e) (hf : Framed s t)
    (hr : t.refcnt = s.refcnt) (ht : t.totals = s.totals + (s.deltaPool d).worth r) :
    Marked r s₀ t P ∧ t.view = Function.update s.view (s.deltaKey d) (s.deltaPool d).change := by
  have roots := hm.roots
  have current : (t.current i).map Prod.snd = (s.deltaPool d).change := by
    unfold current DeltaEle.change
    rw [hg.here, hg.deltaPool, mark]
    dsimp only
    split
    · rfl
    · rfl
  have worth : t.worth r i = (s.deltaPool d).worth r := by
    unfold worth
    rw [hg.here, hg.deltaPool, mark]
  have marks : ∀ j ∈ t.rootMap, ∀ x, (t.rootPool j).deltaIdx = some x → t.deltaKey x = t.rootKey j ∧ P x := by
    rw [hg.rootMap]
    refine forall_mem_cons.mpr ⟨fun x hk => ?_, fun j hx x hk => ?_⟩
    · rw [hg.here, mark] at hk
      cases hk
      exact ⟨by rw [hf.deltaKey, key, rootKey, hg.here], ha⟩
    · have ne := hg.rootMap_there roots hx
      rw [hg.there ne] at hk
      rw [hf.deltaKey, hg.rootKey_there ne]
      exact ⟨hm.marks.tied j hx x hk, hm.among j hx x hk⟩
  refine ⟨hm.next (hg.roots roots) ⟨fun j hx x mark => (marks j hx x mark).1, ?_⟩ hf hr
    (hg.base roots hn) ?_ fun j hx x mark => (marks j hx x mark).2, ?_⟩
  · rw [hg.rootMap]
    refine forall_mem_cons.mpr ⟨fun _ => ?_, fun j hx hd => ?_⟩
    · rw [hg.here, mark]
      exact some_ne_none d
    · rw [hg.there (hg.rootMap_there roots hx)] at hd ⊢
      exact hm.marks.projected j hx hd
  · unfold Delegations.balance
    rw [ht, hg.stake roots, worth]
    abel
  · rw [hg.view roots, current, key]

end

def Held (s : Delegations) : Prop := ∀ f, ∀ d ∈ s.forkMap f, s.refcnt (s.deltaKey d) ≠ 0

structure Marking (r : Rule) (s₀ s : Delegations) (P : Nat → Prop) (v : Pubkey → Option Delegation) : Prop where
  held : Held s
  framed : Framed s₀ s
  exact : s.pubkeyFallback = false → Marked r s₀ s P ∧ s.view = v

lemma refcnt_acquired (hh : Held s) (hf : Framed s t) (hm : ∀ k, s.refcnt k ≤ t.refcnt k) : Held t := by
  intro f d hx
  rw [hf.forkMap] at hx
  rw [hf.deltaKey]
  have := hh f d hx
  have := hm (s.deltaKey d)
  omega

lemma pubkeyRefAcquire_held (hh : s.refcnt k ≠ 0) :
    s.pubkeyRefAcquire k = .ok { s with refcnt := update s.refcnt k (s.refcnt k + 1) } := if_neg hh

lemma pubkeyFallbackEnter_held (hh : s.refcnt k ≠ 0) : s.pubkeyFallbackEnter k =
    .ok { s with pubkeyFallback := true, refcnt := update s.refcnt k (s.refcnt k + 1) } := if_neg hh

lemma le_update_refcnt (s : Delegations) (k k' : Pubkey) : s.refcnt k' ≤ update s.refcnt k (s.refcnt k + 1) k' := by
  by_cases hs : k' = k
  · rw [hs, update_here]
    exact Nat.le_succ _
  · rw [update_there _ hs]

lemma Marking.markOne (hg : Marking r s₀ s P v) (hy : d ∈ s₀.forkMap f) (ha : P d) :
    ∃ t, s.markOne r d = .ok t ∧ Marking r s₀ t P (Function.update v (s₀.deltaKey d) (s₀.deltaPool d).change) := by
  have hh := hg.held
  rw [← hg.framed.forkMap] at hy
  rw [← hg.framed.deltaKey, ← hg.framed.deltaPool]
  unfold Delegations.markOne
  dsimp only
  rw [show (s.deltaPool d).stakeAccount = s.deltaKey d from rfl]
  cases hf : s.rootIdx (s.deltaKey d) with
  | some i =>
    have hd : Framed s { s with
        totals := s.totals - s.worth r i + (s.deltaPool d).worth r
        rootPool := update s.rootPool i { s.rootPool i with deltaIdx := some d } } := ⟨rfl, rfl, rfl, rfl, rfl⟩
    refine ⟨_, rfl, hh, hg.framed.trans hd, fun hx => ?_⟩
    obtain ⟨hm, rfl⟩ := hg.exact hx
    have hr := hm.roots
    obtain ⟨ht, hk⟩ := hr.rootIdx.mp hf
    exact hm.remark ha hk.symm
      ⟨⟨rfl, rfl⟩, rfl, rfl, rfl, ht, rfl, (hr.used i (hr.below i ht)).mpr ht⟩ hd rfl rfl
  | none =>
    cases he : s.rootFree with
    | nil =>
      rw [pubkeyFallbackEnter_held (hh f d hy)]
      have hd : Framed s { s with
          pubkeyFallback := true, refcnt := update s.refcnt (s.deltaKey d) (s.refcnt (s.deltaKey d) + 1) } :=
        ⟨rfl, rfl, rfl, rfl, rfl⟩
      refine ⟨_, rfl, refcnt_acquired hh hd (le_update_refcnt s _), hg.framed.trans hd, nofun⟩
    | cons i free' =>
      have hd : Framed s { s.project i free' d with totals := s.totals + (s.deltaPool d).worth r } :=
        ⟨rfl, rfl, rfl, rfl, rfl⟩
      refine ⟨_, rfl, hh, hg.framed.trans hd, fun hx => ?_⟩
      obtain ⟨hm, rfl⟩ := hg.exact hx
      exact hm.project ha rfl rfl rfl ⟨⟨rfl, rfl⟩, he, rfl, rfl, hf, rfl⟩ hd rfl rfl

lemma Marking.walk (hg : Marking r s₀ s P v) (hm : ∀ d ∈ l, d ∈ s₀.forkMap f)
    (ha : ∀ d ∈ l, P d) : ∃ t, l.foldlM (Delegations.markOne r) s = .ok t ∧
      Marking r s₀ t P (l.foldl (fun m d => Function.update m (s₀.deltaKey d) (s₀.deltaPool d).change) v) := by
  induction l generalizing s v with
  | nil => exact ⟨s, rfl, hg⟩
  | cons d rest ih =>
    obtain ⟨t, hs, hn⟩ := hg.markOne (hm d (.head _)) (ha d (.head _))
    rw [foldlM_cons, hs]
    exact ih hn (fun d hl => hm d (.tail _ hl)) fun d hl => ha d (.tail _ hl)

lemma Deltas.foldl_walk (he : Deltas s) (hp : l.Perm (s.forkMap f)) :
    l.foldl (fun m d => Function.update m (s.deltaKey d) (s.deltaPool d).change) v = override v (s.forkView f) := by
  have hd : (l.map s.deltaKey).Nodup := (hp.map _).nodup_iff.mpr (he.keys f)
  rw [foldl_update l v hd]
  congr 1
  funext k
  unfold forkView
  congr 1
  refine ext fun d => ?_
  rw [find_idx hd, he.forkIdx, hp.mem_iff]

lemma Marking.markDelta (hm : Marking r s₀ s P v) (hd : Deltas s₀) (hp : (order s f).Perm (s.forkMap f))
    (ha : ∀ d ∈ s₀.forkMap f, P d) : ∃ t, s.markDelta r order f = .ok t ∧
      Marking r s₀ t P (override v (s₀.forkView f)) := by
  rw [hm.framed.forkMap] at hp
  obtain ⟨t, hr, hn⟩ := hm.walk (fun d hx => hp.mem_iff.mp hx)
    fun d hx => ha d (hp.mem_iff.mp hx)
  rw [hd.foldl_walk hp] at hn
  exact ⟨t, hr, hn⟩

lemma Marking.markAll (chain : List Nat) (hm : Marking r s₀ s P v) (hd : Deltas s₀)
    (hp : ∀ s f, (order s f).Perm (s.forkMap f)) (ha : ∀ f ∈ chain, ∀ d ∈ s₀.forkMap f, P d) :
    ∃ t, chain.foldlM (Delegations.markDelta r order) s = .ok t ∧ Marking r s₀ t P (overlay v (chain.map s₀.forkView)) := by
  induction chain generalizing s v with
  | nil => exact ⟨s, rfl, hm⟩
  | cons f rest ih =>
    obtain ⟨t, hs, hn⟩ := hm.markDelta hd (hp s f) (ha f (.head _))
    rw [foldlM_cons, hs]
    exact ih hn fun f hl => ha f (.tail _ hl)

section
variable (hma : Marked r s₀ s P)
include hma

lemma Marked.absent (hn : ∀ i, s.rootIdx (s.deltaKey d) = some i →
    (s.rootPool i).deltaIdx ≠ some d) : Marked r s₀ s fun x => P x ∧ x ≠ d := by
  refine hma.next hma.roots hma.marks (Framed.refl s) rfl rfl rfl fun i hx x hm => ?_
  refine ⟨hma.among i hx x hm, ?_⟩
  rintro rfl
  exact hn i (hma.roots.rootIdx.mpr ⟨hx, (hma.marks.tied i hx _ hm).symm⟩) hm

lemma Marked.retract (mark : (s.rootPool i).deltaIdx = some d)
    (he : (s.rootPool i).dneInRoot = true) (hd : Dropped s t i e) (hf : Framed s t) (hr : t.refcnt = s.refcnt)
    (ht : t.totals = s.totals - (s.deltaPool d).worth r) : Marked r s₀ t fun x => P x ∧ x ≠ d := by
  have roots := hma.roots
  have worth : s.worth r i = (s.deltaPool d).worth r := by
    unfold worth
    rw [mark]
  have ho : ∀ j ∈ t.rootMap, j ∈ s.rootMap ∧ t.rootPool j = s.rootPool j ∧ t.rootKey j = s.rootKey j ∧ j ≠ i := by
    intro j hx
    obtain ⟨ne, hx⟩ := (hd.mem_rootMap roots).mp hx
    exact ⟨hx, hd.there ne, hd.rootKey_there ne, ne⟩
  refine hma.next (hd.roots roots) ⟨?_, ?_⟩ hf hr (hd.base roots he) ?_ ?_
  · intro j hx x hm
    obtain ⟨hx, pool, key, -⟩ := ho j hx
    rw [pool] at hm
    rw [hf.deltaKey, key]
    exact hma.marks.tied j hx x hm
  · intro j hx hn
    obtain ⟨hx, pool, -, -⟩ := ho j hx
    rw [pool] at hn ⊢
    exact hma.marks.projected j hx hn
  · unfold Delegations.balance
    rw [ht, ← worth, eq_sub_of_add_eq (hd.stake (r := r) roots)]
    abel
  · intro j hx x hm
    obtain ⟨hx, pool, -, ne⟩ := ho j hx
    rw [pool] at hm
    refine ⟨hma.among j hx x hm, ?_⟩
    rintro rfl
    -- both elements are those of the account of the change
    have key := hma.marks.tied j hx x hm
    rw [hma.marks.tied i hd.member x mark] at key
    exact ne (inj_on_of_nodup_map roots.keys hx hd.member key.symm)

lemma Marked.restore (hk : (s.rootPool i).deltaIdx = some d) (hn : (s.rootPool i).dneInRoot = false)
    (hc : Changed s t i { s.rootPool i with deltaIdx := none }) (hf : Framed s t) (he : t.refcnt = s.refcnt)
    (ht : t.totals = s.totals - (s.deltaPool d).worth r + r.activationStatus (s.rootPool i).delegation) :
    Marked r s₀ t fun x => P x ∧ x ≠ d := by
  have hr := hma.roots
  have hb : s.worth r i = (s.deltaPool d).worth r := by
    unfold worth
    rw [hk]
  have ha : t.worth r i = r.activationStatus (s.rootPool i).delegation := by
    unfold worth
    rw [hc.here]
  refine hma.next (hc.roots hr) ⟨?_, ?_⟩ hf he hc.base ?_ ?_
  · intro j hx x hm
    rw [hc.rootMap] at hx
    rw [hf.deltaKey, hc.rootKey]
    by_cases hs : j = i
    · rw [hs, hc.here] at hm
      cases hm
    · rw [hc.there hs] at hm
      exact hma.marks.tied j hx x hm
  · intro j hx hd
    rw [hc.rootMap] at hx
    by_cases hs : j = i
    · rw [hs, hc.here] at hd
      exact absurd hd (hn ▸ Bool.false_ne_true)
    · rw [hc.there hs] at hd ⊢
      exact hma.marks.projected j hx hd
  · unfold Delegations.balance
    rw [ht, ← hb, ← ha, eq_sub_of_add_eq (hc.stake (r := r) hr)]
    abel
  · intro j hx x hm
    rw [hc.rootMap] at hx
    by_cases hs : j = i
    · rw [hs, hc.here] at hm
      cases hm
    · rw [hc.there hs] at hm
      refine ⟨hma.among j hx x hm, ?_⟩
      rintro rfl
      have hy := hma.marks.tied j hx x hm
      rw [hma.marks.tied i hc.member x hk] at hy
      exact hs (inj_on_of_nodup_map hr.keys hx hc.member hy.symm)

lemma Marked.unmarkOne (d : Nat) : Marked r s₀ (s.unmarkOne r d) fun x => P x ∧ x ≠ d := by
  unfold Delegations.unmarkOne
  dsimp only
  rw [show (s.deltaPool d).stakeAccount = s.deltaKey d from rfl]
  have hr := hma.roots
  cases hf : s.rootIdx (s.deltaKey d) with
  | none => exact hma.absent fun i ho => by rw [hf] at ho; cases ho
  | some i =>
    obtain ⟨hx, -⟩ := hr.rootIdx.mp hf
    dsimp only
    by_cases ne : (s.rootPool i).deltaIdx ≠ some d
    · rw [if_pos ne]
      refine hma.absent fun j ho => ?_
      rw [hf] at ho
      cases ho
      exact ne
    · rw [if_neg ne]
      rw [not_not] at ne
      by_cases hd : (s.rootPool i).dneInRoot = true
      · rw [if_pos hd]
        exact hma.retract ne hd ⟨⟨rfl, rfl⟩, rfl, rfl, rfl, hx, rfl⟩ ⟨rfl, rfl, rfl, rfl, rfl⟩ rfl rfl
      · rw [if_neg hd]
        exact hma.restore ne (Bool.eq_false_of_not_eq_true hd)
          ⟨⟨rfl, rfl⟩, rfl, rfl, rfl, hx, rfl, (hr.used i (hr.below i hx)).mpr hx⟩
          ⟨rfl, rfl, rfl, rfl, rfl⟩ rfl rfl

lemma Marked.unwalk : Marked r s₀ (l.foldl (Delegations.unmarkOne r) s) fun x => P x ∧ x ∉ l := by
  induction l generalizing s P with
  | nil =>
    exact hma.next hma.roots hma.marks (Framed.refl s) rfl rfl rfl fun i hx x hm =>
      ⟨hma.among i hx x hm, not_mem_nil⟩
  | cons d rest ih =>
    have hn := ih (hma.unmarkOne d)
    refine hn.next hn.roots hn.marks (Framed.refl _) rfl rfl rfl fun i hx x hm => ?_
    obtain ⟨⟨hw, ne⟩, hl⟩ := hn.among i hx x hm
    exact ⟨hw, not_mem_cons_of_ne_of_not_mem ne hl⟩

end

lemma Marked.unmarkAll (chain : List Nat) (ha : Marked r s₀ s P) (hp : ∀ s f, (order s f).Perm (s.forkMap f)) :
    Marked r s₀ (chain.foldl (unmarkDelta r order) s) fun x => P x ∧ ∀ f ∈ chain, x ∉ s₀.forkMap f := by
  induction chain generalizing s P with
  | nil =>
    exact ha.next ha.roots ha.marks (Framed.refl s) rfl rfl rfl fun i hx x hm =>
      ⟨ha.among i hx x hm, nofun⟩
  | cons f rest ih =>
    have hn := ih (ha.unwalk (l := order s f))
    refine hn.next hn.roots hn.marks (Framed.refl _) rfl rfl rfl fun i hx x hm => ?_
    obtain ⟨⟨hw, hg⟩, hl⟩ := hn.among i hx x hm
    rw [(hp s f).mem_iff, ha.framed.forkMap] at hg
    exact ⟨hw, forall_mem_cons.mpr ⟨hg, hl⟩⟩

end Firebam.StakeDelegations
