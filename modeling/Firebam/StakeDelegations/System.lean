import Firebam.StakeDelegations.Edit

/-! Any sequence of updates, forks and brackets, with what the calls on every fork have asked for. -/
namespace Firebam.StakeDelegations
open List Lib Delegations

variable {s t : System} {order : Delegations → Nat → List Nat} {r : Rule} {f : Nat} {k : Pubkey} {u : Delegations}
  {chain : List Nat} {ops : List Op}

structure System where
  stakes : Delegations
  changes : Nat → Pubkey → Option (Option Delegation)

def System.root (s : System) (k : Pubkey) : Option Delegation := (s.stakes.rootQuery k).map RootEle.delegation

inductive Op where
  | rootUpdate (k : Pubkey) (v : Values)
  | newFork
  | forkUpdate (f : Nat) (k : Pubkey) (v : Values)
  | forkRemove (f : Nat) (k : Pubkey)
  | evictFork (f : Nat)
  | applyForkDelta (r : Rule) (f : Nat)
  | survey (r : Rule) (chain back : List Nat)

def System.changed (s : System) (f : Nat) (k : Pubkey) (change : Option Delegation) (t : Delegations) : System :=
  ⟨t, update s.changes f (Function.update (s.changes f) k (some change))⟩

def step (order : Delegations → Nat → List Nat) (s : System) : Op → Except Fault System
  | .rootUpdate k v => (s.stakes.rootUpdate k v).map fun t => { s with stakes := t.1 }
  | .newFork => s.stakes.newFork.map fun t => { s with stakes := t.1 }
  | .forkUpdate f k v => (s.stakes.forkUpdate f k v).map (s.changed f k (some v.delegation))
  | .forkRemove f k => (s.stakes.forkRemove f k).map (s.changed f k none)
  | .evictFork f => .ok ⟨s.stakes.evictFork order f, update s.changes f fun _ => none⟩
  | .applyForkDelta r f => (s.stakes.applyForkDelta r order f).map fun t => { s with stakes := t }
  | .survey r chain back => (chain.foldlM (markDelta r order) s.stakes).map fun t =>
      { s with stakes := back.foldl (unmarkDelta r order) t }

/-- No pool was exhausted, and the forks that are changed or evicted were made before. -/
def Contract (s : System) (op : Op) : Prop :=
  s.stakes.pubkeyFallback = false ∧
  match op with
  | .forkUpdate f _ _ | .forkRemove f _ | .evictFork f => s.stakes.InUse f
  | .survey _ chain back => back.Perm chain
  | .rootUpdate _ _ | .newFork | .applyForkDelta _ _ => True

instance decidableInUse (s : Delegations) (f : Nat) : Decidable (s.InUse f) := inferInstanceAs (Decidable (_ ∧ _))

instance decidableContract (s : System) : DecidablePred (Contract s) := fun op => by
  cases op <;> unfold Contract <;> infer_instance

def start (mem : Nat → RootEle) (deltaMem : Nat → DeltaEle) (maxStakeAccounts maxFallback maxLiveSlots : Nat) : System :=
  ⟨new mem deltaMem maxStakeAccounts maxFallback maxLiveSlots, fun _ _ => none⟩

structure Good (s : System) : Prop where
  sound : Sound s.stakes
  few : s.stakes.forkMax ≤ 4096
  changes : ∀ f, s.stakes.forkView f = s.changes f

lemma new_sound (rootMem : Nat → RootEle) (deltaMem : Nat → DeltaEle) (n m l : Nat) :
    Sound (new rootMem deltaMem n m l) where
  roots := ⟨nodup_nil, nodup_range, nofun, ⟨[], n, range_eq_range', nofun⟩, nofun, nofun⟩
  deltas := ⟨fun _ => nodup_nil, nodup_range, nofun, nofun, nodup_range, fun _ _ => rfl⟩
  unmarked := nofun
  refs := by
    intro k
    change 0 = 0 + List.countP (fun _ => false) _
    simp
  within := rfl

lemma Good.framed (hg : Good s) (hs : Sound u) (framed : Framed s.stakes u) : Good { s with stakes := u } := by
  refine ⟨hs, ?_, fun f => ?_⟩
  · rw [framed.forkMax]
    exact hg.few
  · rw [framed.forkView]
    exact hg.changes f

lemma Good.changed {change : Option Delegation} (hg : Good s)
    (he : Edited s.stakes u f k change) : Good (s.changed f k change u) := by
  refine ⟨he.sound, ?_, fun g => ?_⟩
  · change u.forkMax ≤ 4096
    rw [he.forkMax]
    exact hg.few
  · funext k'
    change u.forkView g k' = update s.changes f (Function.update (s.changes f) k (some change)) g k'
    by_cases hs : g = f
    · rw [hs, update_here]
      by_cases hh : k' = k
      · rw [hh, Function.update_self]
        exact he.here
      · rw [Function.update_of_ne hh, ← hg.changes]
        exact he.there f k' fun hb => hh hb.2
    · rw [update_there _ hs, ← hg.changes]
      exact he.there g k' fun hb => hs hb.1

lemma Good.newFork {u : Delegations × Nat} (hg : Good s) (hr : s.stakes.newFork = .ok u) : Good { s with stakes := u.1 } := by
  unfold Delegations.newFork at hr
  cases hf : s.stakes.forkFree with
  | nil =>
    rw [hf] at hr
    cases hr
  | cons f rest =>
    rw [hf] at hr
    cases hr
    have hs := hg.sound
    have hd := hs.deltas
    have nd := hd.forks
    rw [hf, nodup_cons] at nd
    have ht : Steady s.stakes { s.stakes with forkFree := rest } := ⟨rfl, rfl, rfl, rfl⟩
    refine ⟨⟨ht.roots hs.roots, ⟨hd.keys, hd.free, hd.apart, hd.disjoint, nd.2, fun g hu => ?_⟩,
      hs.unmarked, hs.refs, hs.within⟩, hg.few, hg.changes⟩
    refine hd.empty g (hu.imp_left fun hl => ?_)
    rw [hf]
    exact .tail _ hl

lemma unmarkOne_fallback (u : Delegations) (d : Nat) : (u.unmarkOne r d).pubkeyFallback = u.pubkeyFallback := by
  unfold unmarkOne
  dsimp only
  split
  · rfl
  · split
    · rfl
    · split
      · rfl
      · rfl

lemma unmarkAll_fallback (u : Delegations) (chain : List Nat) :
    (chain.foldl (unmarkDelta r order) u).pubkeyFallback = u.pubkeyFallback := by
  have hw : ∀ (l : List Nat) (u : Delegations), (l.foldl (unmarkOne r) u).pubkeyFallback = u.pubkeyFallback := by
    intro l
    induction l with
    | nil => exact fun _ => rfl
    | cons d rest ih =>
      intro u
      rw [foldl_cons, ih, unmarkOne_fallback]
  induction chain generalizing u with
  | nil => rfl
  | cons f rest ih =>
    rw [foldl_cons, ih]
    exact hw _ u

def Among (s : Delegations) (chain : List Nat) (d : Nat) : Prop := ∃ f ∈ chain, d ∈ s.forkMap f

lemma Sound.survey {back : List Nat} (hn : Sound s.stakes) (hm : Marked r s.stakes u (Among s.stakes chain))
    (hp : ∀ s f, (order s f).Perm (s.forkMap f)) (hs : back.Perm chain) (hw : u.pubkeyFallback = false) :
    Sound (back.foldl (unmarkDelta r order) u) ∧ (back.foldl (unmarkDelta r order) u).rootQuery = s.stakes.rootQuery ∧
      (back.foldl (unmarkDelta r order) u).totals = s.stakes.totals ∧
      Framed s.stakes (back.foldl (unmarkDelta r order) u) := by
  have hc := hm.unmarkAll back hp
  obtain ⟨ha, hq, ht⟩ := hc.sound hn (fun d hl => by
    obtain ⟨⟨f, hx, hh⟩, hg⟩ := hl
    exact hg f (hs.mem_iff.mpr hx) hh) (by rw [unmarkAll_fallback, hw])
  exact ⟨ha, hq, ht, hc.framed⟩

lemma Good.step {op : Op} (hg : Good s) (hp : ∀ s f, (order s f).Perm (s.forkMap f)) (hy : Contract s op)
    (hb : StakeDelegations.step order s op = .ok t) (hw : t.stakes.pubkeyFallback = false) : Good t := by
  have hn := hg.sound
  cases op with
  | rootUpdate k v =>
    obtain ⟨u, hu, rfl⟩ := map_ok.mp hb
    obtain ⟨ha, hf⟩ := hn.rootUpdate hu hw
    exact hg.framed ha hf
  | newFork =>
    obtain ⟨u, ho, rfl⟩ := map_ok.mp hb
    exact hg.newFork ho
  | forkUpdate f k v =>
    obtain ⟨u, hu, rfl⟩ := map_ok.mp hb
    exact hg.changed (hn.forkUpdate hy.2 hu hw)
  | forkRemove f k =>
    obtain ⟨u, he, rfl⟩ := map_ok.mp hb
    exact hg.changed (hn.forkRemove hy.2 he hw)
  | evictFork f =>
    cases hb
    have hi : s.stakes.InUse f := hy.2
    have hj := hg.few
    obtain ⟨ha, -, -, hx, -, hv⟩ := hn.evictFork hi (by have := hi.1; omega) (hp s.stakes f)
    refine ⟨ha, hx ▸ hj, fun g => ?_⟩
    rw [hv]
    dsimp only
    by_cases hs : g = f
    · rw [if_pos hs, hs, update_here]
    · rw [if_neg hs, update_there _ hs, hg.changes]
  | applyForkDelta r f =>
    obtain ⟨u, hd, rfl⟩ := map_ok.mp hb
    obtain ⟨u', hl, hc⟩ := (hn.applying (r := r)).applyForkDelta hn.deltas (hp s.stakes f)
    rw [hd] at hl
    cases hl
    exact hg.framed (hc.sound hn.deltas hw) hc.framed
  | survey r chain back =>
    obtain ⟨u, hm, rfl⟩ := map_ok.mp hb
    obtain ⟨u', hk, hr⟩ := (hn.marking (r := r) (P := Among s.stakes chain)).markAll chain hn.deltas
      hp fun f hq d hh => ⟨f, hq, hh⟩
    rw [hm] at hk
    cases hk
    rw [unmarkAll_fallback] at hw
    obtain ⟨ha, -, -, hf⟩ := hn.survey (hr.exact hw).1 hp hy.2 hw
    exact hg.framed ha hf

lemma run_good (hp : ∀ s f, (order s f).Perm (s.forkMap f)) (hg : Good s)
    (ha : Allowed (StakeDelegations.step order) Contract s ops) (hr : run (StakeDelegations.step order) s ops = .ok t)
    (hw : t.stakes.pubkeyFallback = false) : Good t :=
  run_allowed_preserves (StakeDelegations.step order) Contract (fun s => s.stakes.pubkeyFallback = false → Good s)
    (fun _ _ _ hb hm hs hw => (hb hm.1).step hp hm hs hw) (fun _ => hg) ha hr hw

def Rule.total (r : Rule) (l : List (Pubkey × Delegation)) : Entry := (l.map fun p => r.activationStatus p.2).sum

def System.overlaid (s : System) (chain : List Nat) : Pubkey → Option Delegation := overlay s.root (chain.map s.changes)

section
variable (order : Delegations → Nat → List Nat)

def Surveyed (r : Rule) (s : System) (chain : List Nat) (t : Delegations) : Prop :=
  ((t.iterate.map Prod.fst).Nodup ∧ ∀ p, p ∈ t.iterate ↔ s.overlaid chain p.1 = some p.2) ∧
  t.totals - s.stakes.totals = r.total t.iterate - r.total s.stakes.iterate ∧
  ∀ back : List Nat, back.Perm chain → (back.foldl (unmarkDelta r order) t).rootQuery = s.stakes.rootQuery ∧
    (back.foldl (unmarkDelta r order) t).totals = s.stakes.totals

def Merged (r : Rule) (s : System) (chain : List Nat) (t : Delegations) : Prop :=
  (∀ k, (t.rootQuery k).map RootEle.delegation = s.overlaid chain k) ∧
  t.totals - s.stakes.totals = r.total t.iterate - r.total s.stakes.iterate ∧
  ∀ gone : List Nat, gone.Nodup → (∀ f ∈ gone, s.stakes.InUse f) →
    (gone.foldl (evictFork order) t).rootQuery = t.rootQuery ∧
    (gone.foldl (evictFork order) t).totals = t.totals ∧
    (∀ f, f ∉ gone → (gone.foldl (evictFork order) t).forkView f = s.changes f) ∧
    ∀ rest : List Nat, (∀ f ∈ rest, f ∉ gone) →
      overlay (fun k => ((gone.foldl (evictFork order) t).rootQuery k).map RootEle.delegation)
        (rest.map (gone.foldl (evictFork order) t).forkView) = s.overlaid (chain ++ rest)

end

structure Exact (order : Delegations → Nat → List Nat) (s : System) : Prop where
  rootSet : (s.stakes.iterate.map Prod.fst).Nodup ∧ ∀ p, p ∈ s.stakes.iterate ↔ s.root p.1 = some p.2
  survey : ∀ r chain, ∃ t, chain.foldlM (markDelta r order) s.stakes = .ok t ∧
    (t.pubkeyFallback = false → Surveyed order r s chain t)
  merge : ∀ r chain, ∃ t, chain.foldlM (applyForkDelta r order) s.stakes = .ok t ∧
    (t.pubkeyFallback = false → Merged order r s chain t)
  references : ∀ k, s.stakes.refcnt k = s.stakes.references k

lemma Good.view (hg : Good s) : s.stakes.view = s.root := by
  funext k
  exact hg.sound.unmarked.view hg.sound.roots k

lemma Good.overlaid (hg : Good s) (chain : List Nat) :
    overlay s.stakes.view (chain.map s.stakes.forkView) = s.overlaid chain := by
  unfold System.overlaid
  rw [hg.view, show s.stakes.forkView = s.changes from funext hg.changes]

lemma totals_difference {w : Delegations} (ho : Roots u) (ha : Marks u) (hr : Roots w) (hm : Marks w)
    (hb : w.balance r = u.balance r) : w.totals - u.totals = r.total w.iterate - r.total u.iterate := by
  unfold Delegations.balance at hb
  rw [ho.stake_iterate ha, hr.stake_iterate hm] at hb
  unfold Rule.total
  rw [sub_eq_sub_iff_add_eq_add] at hb ⊢
  rw [hb]
  abel

lemma Good.surveyed (hg : Good s) (hp : ∀ s f, (order s f).Perm (s.forkMap f))
    (hm : Marked r s.stakes u (Among s.stakes chain)) (he : u.view = overlay s.stakes.view (chain.map s.stakes.forkView))
    (hw : u.pubkeyFallback = false) : Surveyed order r s chain u := by
  have hn := hg.sound
  refine ⟨⟨hm.roots.iterate_keys hm.marks, fun p => ?_⟩, ?_, fun back hs => ?_⟩
  · rw [hm.roots.mem_iterate hm.marks, he, hg.overlaid]
  · exact totals_difference hn.roots hn.unmarked.marks hm.roots hm.marks hm.balance
  · obtain ⟨-, hq, ht, -⟩ := hn.survey hm hp hs hw
    exact ⟨hq, ht⟩

lemma Sound.evictAll {gone : List Nat} (hs : Sound u) (hg : u.forkMax ≤ 4096)
    (hp : ∀ s f, (order s f).Perm (s.forkMap f)) (nd : gone.Nodup) (hi : ∀ f ∈ gone, u.InUse f) :
    Steady u (gone.foldl (Delegations.evictFork order) u) ∧
      (gone.foldl (Delegations.evictFork order) u).totals = u.totals ∧
      ∀ f, f ∉ gone → (gone.foldl (Delegations.evictFork order) u).forkView f = u.forkView f := by
  induction gone generalizing u with
  | nil => exact ⟨⟨rfl, rfl, rfl, rfl⟩, rfl, fun _ _ => rfl⟩
  | cons f rest ih =>
    rw [nodup_cons] at nd
    have hh := hi f (.head _)
    obtain ⟨ha, ht, hd, hm, hf, hv⟩ := hs.evictFork hh (by have := hh.1; omega) (hp u f)
    obtain ⟨he, hc, hw⟩ := ih ha (hm ▸ hg) nd.2 fun g hl => by
      have hb := hi g (.tail _ hl)
      refine ⟨hm ▸ hb.1, ?_⟩
      rw [hf]
      refine not_mem_cons_of_ne_of_not_mem ?_ hb.2
      rintro rfl
      exact nd.1 hl
    rw [foldl_cons]
    refine ⟨?_, hc.trans hd, fun g ho => ?_⟩
    · exact ⟨he.rootPool.trans ht.rootPool, he.rootFree.trans ht.rootFree,
        he.rootMap.trans ht.rootMap, he.wmk.trans ht.wmk⟩
    · rw [mem_cons, not_or] at ho
      rw [hw g ho.2, hv, if_neg ho.1]

lemma Good.merged (hd : Good s) (hp : ∀ s f, (order s f).Perm (s.forkMap f))
    (hh : Applying r s.stakes u (overlay s.stakes.view (chain.map s.stakes.forkView)))
    (hw : u.pubkeyFallback = false) : Merged order r s chain u := by
  have hn := hd.sound
  have ha := hh.sound hn.deltas hw
  obtain ⟨he, hb, hg⟩ := hh.exact hw
  have hr : ∀ k, (u.rootQuery k).map RootEle.delegation = s.overlaid chain k := by
    intro k
    rw [← he.unmarked.view he.roots, hg, hd.overlaid]
  refine ⟨hr, totals_difference hn.roots hn.unmarked.marks he.roots he.unmarked.marks hb,
    fun gone nd hi => ?_⟩
  have hf := hh.framed
  obtain ⟨ht, hc, hv⟩ := ha.evictAll (by rw [hf.forkMax]; exact hd.few) hp nd fun f hm => by
    refine ⟨?_, ?_⟩
    · rw [hf.forkMax]
      exact (hi f hm).1
    · rw [hf.forkFree]
      exact (hi f hm).2
  have hq : (gone.foldl (evictFork order) u).rootQuery = u.rootQuery := by
    funext k
    unfold rootQuery
    rw [ht.rootIdx, ht.rootPool]
  have ho : ∀ f, f ∉ gone → (gone.foldl (evictFork order) u).forkView f = s.changes f := by
    intro f hu
    rw [hv f hu, hf.forkView, hd.changes]
  refine ⟨hq, hc, ho, fun rest hu => ?_⟩
  have hs : rest.map (gone.foldl (evictFork order) u).forkView = rest.map s.changes :=
    map_congr_left fun f hm => ho f (hu f hm)
  unfold System.overlaid
  rw [hs, map_append, overlay_append, hq, funext hr]
  rfl

theorem delegations_exact {mem : Nat → RootEle} {deltaMem : Nat → DeltaEle} {maxStakeAccounts maxFallback maxLiveSlots : Nat}
    {ops : List Op} (perm : ∀ s f, (order s f).Perm (s.forkMap f)) (few : maxLiveSlots ≤ 4096)
    (allowed : Allowed (step order) Contract (start mem deltaMem maxStakeAccounts maxFallback maxLiveSlots) ops)
    (ran : run (step order) (start mem deltaMem maxStakeAccounts maxFallback maxLiveSlots) ops = .ok s)
    (within : s.stakes.pubkeyFallback = false) : Exact order s := by
  have good : Good s := run_good perm ⟨new_sound _ _ _ _ _, few, fun _ => rfl⟩ allowed ran within
  have sound := good.sound
  refine ⟨⟨sound.roots.iterate_keys sound.unmarked.marks, fun p => ?_⟩, fun r chain => ?_, fun r chain => ?_, sound.refs⟩
  · rw [sound.roots.mem_iterate sound.unmarked.marks, good.view]
  · obtain ⟨t, marked, marking⟩ := (sound.marking (r := r) (P := Among s.stakes chain)).markAll chain sound.deltas
      perm fun f m d held => ⟨f, m, held⟩
    refine ⟨t, marked, fun within => ?_⟩
    obtain ⟨marks, seen⟩ := marking.exact within
    exact good.surveyed perm marks seen within
  · obtain ⟨t, applied, applying⟩ := (sound.applying (r := r)).applyAll chain sound.deltas perm
    exact ⟨t, applied, good.merged perm applying⟩

def sampleRule : Rule := ⟨3, true, true, fun d => (d.stake, 0, 0)⟩

def sampleValues (stake : UInt64) : Values := ⟨50, stake, 1, 18446744073709551615, 7, stake, 200, 0⟩

def sampleStart : System :=
  start (fun _ => ⟨0, default, none, false, true, .warmed⟩) (fun _ => ⟨0, default, true⟩) 8 8 4

def sampleOps : List Op :=
  [.rootUpdate 7 (sampleValues 100), .rootUpdate 8 (sampleValues 200), .newFork, .newFork, .newFork,
    .forkUpdate 0 7 (sampleValues 150), .forkRemove 0 8, .forkUpdate 0 9 (sampleValues 30), .forkRemove 1 9,
    .forkUpdate 2 8 (sampleValues 1), .survey sampleRule [0, 1] [0, 1], .applyForkDelta sampleRule 0, .evictFork 0]

theorem sample_delegations_exact : ∃ s, run (step fun s f => s.forkMap f) sampleStart sampleOps = .ok s ∧
    s.stakes.pubkeyFallback = false ∧ Exact (fun s f => s.forkMap f) s := by
  obtain ⟨s, ran, within⟩ : ∃ s, run (step fun s f => s.forkMap f) sampleStart sampleOps = .ok s ∧
      s.stakes.pubkeyFallback = false := exists_of_endsIn (by decide +kernel)
  exact ⟨s, ran, within, delegations_exact (fun _ _ => List.Perm.refl _) (by decide) (by decide +kernel) ran within⟩

/-- A fork that only removes an account: there is no other version of it on the chain, and the version
of the root is not met all the same. -/
theorem tombstone_hides_root : ∃ s, run (step fun s f => s.forkMap f) sampleStart
      [.rootUpdate 7 (sampleValues 100), .newFork, .forkRemove 0 7] = .ok s ∧
    s.root 7 = some (sampleValues 100).delegation ∧
    ∃ t, [0].foldlM (markDelta sampleRule fun s f => s.forkMap f) s.stakes = .ok t ∧
      t.pubkeyFallback = false ∧ t.iterate = [] := by
  obtain ⟨s, ran, root, ends⟩ : ∃ s, run (step fun s f => s.forkMap f) sampleStart
        [.rootUpdate 7 (sampleValues 100), .newFork, .forkRemove 0 7] = .ok s ∧
      s.root 7 = some (sampleValues 100).delegation ∧
      endsIn (fun t : Delegations => t.pubkeyFallback = false ∧ t.iterate = [])
        ([0].foldlM (markDelta sampleRule fun s f => s.forkMap f) s.stakes) = true :=
    exists_of_endsIn (by decide +kernel)
  exact ⟨s, ran, root, exists_of_endsIn ends⟩

end Firebam.StakeDelegations
