import Firebam.Reasm.Drop

namespace Firebam.Reassembly
open Lib List Reasm Fec

variable {s s' : Reasm} {t : Todo} {kids : Idx → List Idx} {r c i newr oldr : Idx}
  {queue detached spare detached' pending stale : List Idx} {keep keep' top : Option Idx} {merkleRoot : Hash}

def Todo.done (top : Option Idx) : Todo := ⟨[], [], [], [], none, top, none⟩

/-- The state between two calls. A slot starts below the root. -/
structure Rooted (s : Reasm) (kids : Idx → List Idx) (r : Idx) (spare : List Idx) : Prop where
  whole : Whole s kids { Todo.done (some r) with spare := spare }
  root : s.root = some r
  conn : s.Conn r
  parent : (s.fec r).parent = none
  complete : (s.fec r).slotComplete = true
  room : s.fecMax ≤ s.xidMax

lemma Whole.top_rank (hw : Whole s kids t) (ha : t.detached = []) (hr : t.pending = [])
    (hp : t.top = some r) (hc : s.Conn c) : (s.fec r).rank ≤ (s.fec c).rank := by
  generalize ht : (s.fec c).rank = n
  induction n using Nat.strong_induction_on generalizing c with
  | _ n ih =>
    rcases hw.places.tops c hc with ⟨p, hl, hk⟩ | hh | he
    · have ho := hw.links.rank hw.pool hl hk
      have hs : p ∉ t.pending := by
        rw [hr]
        exact not_mem_nil
      have hc := (hw.places.same p hl hs c hk).mp hc
      exact (ih _ (ht ▸ ho) hc rfl).trans (ht ▸ le_of_lt ho)
    · cases Option.some.inj (hp.symm.trans hh)
      exact ht.le
    · rw [ha] at he
      cases he

lemma Relisted.leaveOut (hr : Relisted s s') : Relisted (s.leaveOut i) (s'.leaveOut i) := by
  obtain ⟨f, x, rfl, hs⟩ := hr
  have hf : (f i).inOut = (s.fec i).inOut := (congrArg inOut (hs i) :)
  unfold leaveOut
  rw [hf]
  split
  · refine ⟨_, x, rfl, fun j => ?_⟩
    simp only [Reasm.set]
    split
    · exact (congrArg (fun f : Fec => { f with inOut := false }) (hs j) :)
    · exact hs j
  · exact ⟨f, x, rfl, hs⟩

lemma leaveOut_fec (s : Reasm) (i j : Idx) :
    { (s.leaveOut i).fec j with inOut := false } = { s.fec j with inOut := false } := by
  unfold leaveOut
  split
  · simp only [Reasm.set]
    split <;> rfl
  · rfl

lemma leaveOut_xid (s : Reasm) (i : Idx) : (s.leaveOut i).xid = s.xid := by
  unfold leaveOut
  split <;> rfl

lemma Whole.prune (hw : Whole s kids t) (hl : i ∈ s.live) (hi : ∀ p ∈ s.live, i ∉ kids p)
    (hc : i ∉ t.pending) (hd : t.fresh ≠ some i) (hn : Handed s kids i t.detached detached t.keep t.top) :
    ∃ s', s.prune i = .ok s' ∧ Whole s' kids { t with detached := detached } ∧ Shrinks s s' ∧
      ∀ j, j ∈ s'.live ↔ j ∈ s.live ∧ j ≠ i := by
  have hx : Xids (s.leaveMap i) fun j => j ∈ s.live ∧ t.fresh ≠ some j := by
    rw [hw.leaveMap hl]
    exact hw.xids.congr rfl (fun _ _ => rfl) fun _ => .rfl
  have hb : (s.leaveMap i).fecMax = s.fecMax := by rw [hw.leaveMap hl]
  obtain ⟨s₁, h, hr, ho, hx⟩ :=
    clearXid_ok hx ⟨hl, hd⟩ fun j m => hb.symm ▸ hw.pool.lt m.1
  have hr : Relisted (s.drop i) (s₁.leaveOut i) := hw.leave hl ▸ hr.leaveOut
  have hx : Xids (s₁.leaveOut i) fun j => (j ∈ s.live ∧ t.fresh ≠ some j) ∧ j ≠ i := by
    exact hx.congr (leaveOut_xid s₁ i) (fun j _ => (congrArg listing (leaveOut_fec s₁ i j) :)) fun _ => .rfl
  have hs : ∀ j, ¬(j ∈ s.live ∧ t.fresh ≠ some j) → ((s₁.leaveOut i).fec j).xidNext = (s.fec j).xidNext := by
    intro j hu
    have he : ((s.leaveMap i).fec j).xidNext = (s.fec j).xidNext := by rw [hw.leaveMap hl]
    exact (congrArg xidNext (leaveOut_fec s₁ i j) :).trans ((ho j hu).trans he)
  obtain ⟨ha, hh, hm⟩ := hw.dropped hl hi hc hn hr hx hs
  refine ⟨_, bind_ok.mpr ⟨s₁, h, rfl⟩, ?_, hh.refree _, hm⟩
  exact ha.refree perm_middle.symm

lemma publishLoop_ok {n : Nat} (hw : Whole s kids { t with detached := queue }) (hp : t.keep = some newr)
    (hx : t.top = some newr) (hr : t.pending = []) (hd : t.fresh = none) (nd : queue.Nodup)
    (m : ∀ j ∈ queue, j ∈ s.live) (ne : newr ∉ queue) (hu : s.live.length ≤ n) :
    ∃ s', publishLoop newr n queue s = .ok s' ∧ Whole s' kids { t with detached := [] } ∧ Shrinks s s' ∧
      (newr ∈ s.live → newr ∈ s'.live) ∧ ∀ j ∈ queue, j ∉ s'.live := by
  induction n generalizing s queue with
  | zero =>
    cases queue with
    | nil => exact ⟨s, rfl, hw, .refl s, id, nofun⟩
    | cons i rest =>
      have hl := m i (.head _)
      rw [length_eq_zero_iff.mp (Nat.le_zero.mp hu)] at hl
      cases hl
  | succ n ih =>
    cases queue with
    | nil => exact ⟨s, rfl, hw, .refl s, id, nofun⟩
    | cons i rest =>
      have hl := m i (.head _)
      have hi := hw.links.children hw.pool hl
      have hc : ∀ c ∈ kids i, c ∈ (kids i).filter (fun c => decide (c ≠ newr)) ∨
          t.keep = some c ∧ t.top = some c := by
        intro c hm
        by_cases hh : c = newr
        · exact .inr ⟨hh ▸ hp, hh ▸ hx⟩
        · exact .inl (mem_filter.mpr ⟨hm, decide_eq_true hh⟩)
      obtain ⟨he, hn, hj, hq⟩ := hw.next rfl nd m filter_sublist hc
      have hv : i ∉ t.pending := by
        rw [hr]
        exact not_mem_nil
      have hk : t.fresh ≠ some i := by
        rw [hd]
        exact nofun
      obtain ⟨s₁, h, ho, hs, mem⟩ := hw.prune hl he hv hk hn
      have hf := hw.fewer hl ho mem
      have ha : newr ∉ rest ++ (kids i).filter fun c => decide (c ≠ newr) := by
        intro hm
        rcases mem_append.mp hm with hm | hm
        · exact ne (.tail _ hm)
        · exact of_decide_eq_true (mem_filter.mp hm).2 rfl
      obtain ⟨s', hy, hg, hb, ht, hz⟩ :=
        ih ho hj (fun j hm => (mem j).mpr (hq j hm)) ha (by omega)
      refine ⟨s', ?_, hg, hs.trans hb, ?_, fun j hm => ?_⟩
      · unfold publishLoop
        rw [hi]
        exact bind_ok.mpr ⟨s₁, h, hy⟩
      · exact fun hm => ht ((mem newr).mpr ⟨hm, fun eq => ne (eq ▸ .head _)⟩)
      · rcases mem_cons.mp hm with rfl | hm
        · exact fun hl => ((mem j).mp (hb.kept.live j hl)).2 rfl
        · exact hz j (mem_append_left _ hm)

def Reasm.uproot (s : Reasm) (c : Idx) : Reasm := s.set c fun f => { f with parent := none, sibling := none }

lemma uproot_fec (s : Reasm) (c j : Idx) : { (s.uproot c).fec j with parent := none, sibling := none } =
    { s.fec j with parent := none, sibling := none } := by
  simp only [Reasm.uproot, Reasm.set]
  split <;> rfl

lemma uproot_of_ne {j : Idx} (ne : j ≠ c) : (s.uproot c).fec j = s.fec j := if_neg ne

lemma uproot_self (s : Reasm) (c : Idx) :
    (s.uproot c).fec c = { s.fec c with parent := none, sibling := none } := if_pos rfl

lemma uproot_child (s : Reasm) (c j : Idx) : ((s.uproot c).fec j).child = (s.fec j).child :=
  (congrArg child (uproot_fec s c j) :)

lemma uproot_key (s : Reasm) (c j : Idx) : ((s.uproot c).fec j).key = (s.fec j).key :=
  (congrArg key (uproot_fec s c j) :)

lemma Pool.uproot (hp : Pool s spare) : Pool (s.uproot c) spare :=
  hp.refec fun j => (congrArg name (uproot_fec s c j) :)

lemma Links.uproot (hi : Links s kids detached keep) (hb : ∀ p ∈ s.live, c ∉ kids p)
    (ho : ∀ j ∈ detached', j ∈ detached) (hc : ∀ j ∈ detached, j ≠ c → j ∈ detached')
    (hk : ∀ j, keep = some j → j ≠ c → keep' = some j) : Links (s.uproot c) kids detached' keep' := by
  refine ⟨?_, ?_, ?_, ?_, ?_⟩
  · intro p hl
    rw [uproot_child]
    refine (hi.chain p hl).congr fun j hd => ?_
    have ne : j ≠ c := fun eq => hb p hl (eq ▸ hd)
    rw [uproot_of_ne ne]
  · intro p hl j
    by_cases hh : j = c
    · subst hh
      rw [uproot_self]
      exact ⟨fun hd => absurd hd (hb p hl), fun ⟨_, no, _⟩ => nomatch no⟩
    · rw [uproot_of_ne hh, hi.kid p hl j]
      exact and_congr_right fun _ => and_congr_right fun _ =>
        not_congr ⟨fun hx => hc j hx hh, ho j⟩
  · intro j hl hn
    by_cases hh : j = c
    · subst hh
      rw [uproot_self]
    · rw [uproot_of_ne hh] at hn ⊢
      exact hi.alone j hl hn
  · intro j hl p some
    by_cases hh : j = c
    · subst hh
      rw [uproot_self] at some
      cases some
    · rw [uproot_of_ne hh] at some
      rcases hi.up j hl p some with up | hb | he
      · exact .inl up
      · exact .inr (.inl (hc j hb hh))
      · exact .inr (.inr (hk j he hh))
  · intro j hl p ha some
    by_cases hh : j = c
    · subst hh
      rw [uproot_self] at some
      cases some
    · rw [uproot_of_ne hh] at some ⊢
      obtain ⟨hm, hv⟩ := hi.valid j hl p ha some
      refine ⟨hm.trans (uproot_key s c p).symm, ?_⟩
      exact (validate_name (congrArg name (uproot_fec s c p) :) rfl).trans hv

lemma Outs.uproot (ho : Outs s) : Outs (s.uproot c) :=
  ho.refec fun j => (congrArg inOut (uproot_fec s c j) :)

lemma Xids.uproot {listed : Idx → Prop} (hx : Xids s listed) : Xids (s.uproot c) listed := by
  exact hx.congr rfl (fun j _ => (congrArg listing (uproot_fec s c j) :)) fun _ => .rfl

lemma Places.uproot (hp : Places s kids detached pending stale top) (hc : s.Conn c) :
    Places (s.uproot c) kids detached pending stale top := by
  refine ⟨hp.same, hp.waiting, hp.tops, ?_, ?_, hp.subtreel⟩
  · intro j hc hf
    rw [uproot_child]
    exact hp.leaf j hc hf
  · intro j hl ho
    have ne : j ≠ c := fun eq => ho (eq ▸ hc)
    rw [uproot_of_ne ne]
    exact hp.orphan j hl ho

lemma Rooted.publish (hr : Rooted s kids oldr []) (hf : s.query merkleRoot = some newr) (hd : s.Conn newr)
    (hy : newr ≠ oldr) (hm : (s.fec newr).slotComplete = true) :
    ∃ s', s.publish merkleRoot = .ok s' ∧ Rooted s' kids newr [] ∧ Kept { s with root := some newr } s' ∧
      oldr ∉ s'.live := by
  have hw := hr.whole
  have hl := hw.links
  have hp := hw.places
  let queue := oldr :: s.subtreel.filter fun i => decide ((s.fec i).slot < (s.fec newr).slot)
  have hj : ∀ j ∈ s.subtreel.filter fun i => decide ((s.fec i).slot < (s.fec newr).slot), j ∈ s.subtrees :=
    fun j mem => (hp.subtreel.mem j).mp (mem_filter.mp mem).1
  have ho : ∀ j ∈ s.subtrees, ¬s.Conn j := fun j mem hd => (hw.pool.disjoint.2.2.2.2.2.1 j hd).2 mem
  have ha : ∀ j ∈ queue, (s.fec j).parent = none := by
    intro j mem
    rcases mem_cons.mp mem with rfl | mem
    · exact hr.parent
    · exact (hp.orphan j (subtrees_live j (hj j mem)) (ho j (hj j mem))).mp (hj j mem)
  -- the queue is loose, and the tree gets its new top
  have hst : Whole s kids ⟨[], queue, [], [], some newr, some newr, none⟩ := by
    refine ⟨hw.pool, ⟨hl.chain, ?_, hl.alone, ?_, hl.valid⟩, ?_, hw.outs, hw.xids, nofun⟩
    · intro p live c
      rw [hl.kid p live c]
      refine and_congr_right fun _ => and_congr_right fun parent => ?_
      refine ⟨fun _ mem => ?_, fun _ => not_mem_nil⟩
      exact nomatch (ha c mem).symm.trans parent
    · intro c live p parent
      exact .inl (hl.parent_mem live parent).1
    · refine ⟨hp.same, hp.waiting, ?_, hp.leaf, hp.orphan, hp.subtreel⟩
      intro c hd
      rcases hp.tops c hd with kid | top | no
      · exact .inl kid
      · exact .inr (.inr (Option.some.inj top ▸ .head _))
      · cases no
  have nd : queue.Nodup := by
    refine nodup_cons.mpr ⟨fun mem => ?_, hp.subtreel.nodup.filter _⟩
    exact ho oldr (hj oldr mem) hr.conn
  have m : ∀ j ∈ queue, j ∈ s.live := by
    intro j mem
    rcases mem_cons.mp mem with rfl | mem
    · exact hr.conn.live
    · exact subtrees_live j (hj j mem)
  have hap : newr ∉ queue := by
    intro mem
    rcases mem_cons.mp mem with eq | mem
    · exact hy eq
    · exact ho newr (hj newr mem) hd
  have few : s.live.length ≤ s.fecMax + 1 := Nat.le_succ_of_le hw.pool.few
  obtain ⟨s₁, run, hb, hsh, hss, hle⟩ :=
    publishLoop_ok (t := ⟨[], [], [], [], some newr, some newr, none⟩) hst rfl rfl rfl rfl nd m hap few
  have hi := hss hd.live
  have hc : s₁.Conn newr := (hsh.conn newr hi).mpr hd
  -- a parent would be in the tree, where all is above the new root
  have he : ∀ p ∈ s₁.live, newr ∉ kids p := by
    intro p live kid
    have up := (hb.places.same p live not_mem_nil newr kid).mp hc
    have hj := hb.top_rank rfl rfl rfl up
    have hg := hb.links.rank hb.pool live kid
    omega
  refine ⟨{ s₁.uproot newr with root := some newr }, ?_, ?_, ?_, hle oldr (.head _)⟩
  · unfold Reasm.publish
    rw [hr.root, hf]
    exact bind_ok.mpr ⟨s₁, run, rfl⟩
  · have hz : Links (s₁.uproot newr) kids [] none := by
      refine hb.links.uproot he (fun _ mem => mem) (fun _ mem _ => mem) ?_
      exact fun j hke ne => absurd (Option.some.inj hke).symm ne
    have hv := hb.places.uproot hc
    have hu := hb.outs.uproot (c := newr)
    have hx := hb.xids.uproot (c := newr)
    have hpo := hb.pool.uproot (c := newr)
    refine ⟨⟨⟨hpo.nodup, hpo.all, hpo.keys, hpo.sane⟩,
      ⟨hz.chain, hz.kid, hz.alone, hz.up, hz.valid⟩,
      ⟨hv.same, hv.waiting, hv.tops, hv.leaf, hv.orphan, hv.subtreel⟩,
      ⟨hu.nodup, hu.conn, hu.flag⟩, ⟨hx.distinct, hx.entry, hx.present⟩,
      nofun⟩, rfl, hc, ?_, ?_, ?_⟩
    · exact congrArg Fec.parent (uproot_self s₁ newr)
    · have hs : (s₁.fec newr).slotComplete = (s.fec newr).slotComplete :=
        (congrArg slotComplete (hsh.kept.ident newr) :)
      exact (congrArg slotComplete (uproot_self s₁ newr)).trans (hs.trans hm)
    · exact hsh.kept.fecMax ▸ hsh.kept.xidMax ▸ hr.room
  · have hk := hsh.kept
    exact {
      fecMax := hk.fecMax
      xidMax := hk.xidMax
      root := rfl
      live := hk.live
      ident := fun j => (congrArg ident (uproot_fec s₁ newr j) :).trans (hk.ident j)
      child := fun j hn => (uproot_child s₁ newr j).trans (hk.child j hn)
      parent := by
        intro c live p some
        refine hk.parent c live p ?_
        by_cases hh : c = newr
        · subst hh
          exact nomatch (congrArg Fec.parent (uproot_self s₁ c)).symm.trans some
        · exact (congrArg Fec.parent (uproot_of_ne hh)).symm.trans some
      queue := by
        intro hq
        refine (hk.queue ⟨hq.fresh, hq.order⟩).keep (fun j => (congrArg ident (uproot_fec s₁ newr j) :))
          (fun _ ht => ht) (fun j _ p some => ?_) rfl
        by_cases hh : j = newr
        · subst hh
          exact nomatch (congrArg Fec.parent (uproot_self s₁ j)).symm.trans some
        · exact (congrArg Fec.parent (uproot_of_ne hh)).symm.trans some }

lemma fecMax_le_xidKeyMax (fecMax : Nat) : fecMax ≤ xidKeyMax fecMax := by
  have up := le_pow2Up (fecMax + max (fecMax / fecBlkMax) 1)
  have ho : 1 ≤ max (fecMax / fecBlkMax) 1 := le_max_right _ _
  unfold xidKeyMax
  omega

lemma init_ok {fecMax : Nat} (hg : 0 < fecMax) (blockId : Hash) {slot : Nat} (hw : slot < 2 ^ 32 - 1) :
    ∃ s', (new fecMax).init blockId slot = .ok s' ∧ Rooted s' (fun _ => []) 0 [] ∧ s'.fecMax = fecMax ∧
      (∀ j ∈ s'.live, j = 0) ∧ (s'.fec 0).popped = true := by
  obtain ⟨n, rfl⟩ : ∃ n, fecMax = n + 1 := ⟨fecMax - 1, by omega⟩
  have hr : List.range (n + 1) = 0 :: (List.range n).map Nat.succ := range_succ_eq_map
  let first : Fec := { blank with key := blockId, cmr := 0, slot := slot, slotComplete := true, confirmed := true, popped := true }
  let s : Reasm := { (new (n + 1)).set 0 fun _ => first with free := (List.range n).map Nat.succ }
  have he : Xids s fun _ => False := ⟨nodup_nil, nofun, fun _ no => no.elim⟩
  have ho := fecMax_le_xidKeyMax (n + 1)
  have hc : ∀ j : Idx, False → j ∈ ([] : List Idx) := fun _ no => no.elim
  have hf : ([] : List Idx).length < s.xidMax := lt_of_lt_of_le (Nat.succ_pos n) ho
  obtain ⟨s₁, h, ⟨f, x, rfl, hs⟩, hx⟩ := xidUpdate_ok (i := 0) he (fun no => no) rfl hc hf
  have hh : (f 0).unlisted = first := hs 0
  have hb : ∀ j ∈ [0], (f j).unlisted = first := by
    intro j hy
    rw [mem_singleton.mp hy]
    exact hh
  refine ⟨{ s with fec := f, xid := x, root := some 0, frontier := [0] }, ?_,
    ⟨⟨?_, ?_, ?_, ?_, ?_, nofun⟩, rfl, .inr (.head _), ?_, ?_, ho⟩, rfl, ?_, ?_⟩
  · unfold init
    have hi : (new (n + 1)).acquire (fun f => { blank with
        key := blockId, cmr := f.cmr, slot := slot, slotComplete := true, confirmed := true, popped := true }) =
        .ok (s, 0) := by
      unfold acquire new
      rw [hr]
      rfl
    rw [hi]
    refine bind_ok.mpr ⟨_, rfl, ?_⟩
    have hu : s.root = none := rfl
    dsimp only
    rw [check_of _ hu]
    exact bind_ok.mpr ⟨_, h, rfl⟩
  · have all : [0] ++ (List.range n).map Nat.succ ++ [] = List.range (n + 1) := by
      rw [hr, append_nil]
      rfl
    refine ⟨?_, ?_, ?_, ?_⟩
    · exact all.symm ▸ nodup_range
    · intro i
      exact (all ▸ mem_range.symm : i < n + 1 ↔ i ∈ [0] ++ (List.range n).map Nat.succ ++ [])
    · intro i hy j hm _
      exact (mem_singleton.mp hy).trans (mem_singleton.mp hm).symm
    · intro i hy
      have hd : first.Sane := ⟨Nat.zero_le _, hw, show 0 + fecShredCnt < 2 ^ 32 by decide⟩
      exact hd.of_name (congrArg name (hb i hy) :)
  · have ha : ∀ j ∈ [0], (f j).parent = none ∧ (f j).child = none ∧ (f j).sibling = none := fun j hy =>
      ⟨(congrArg parent (hb j hy) :), (congrArg child (hb j hy) :), (congrArg sibling (hb j hy) :)⟩
    refine ⟨fun p hl => (ha p hl).2.1, ?_, fun c hl _ => (ha c hl).2.2, ?_, ?_⟩
    · intro p _ c
      exact ⟨nofun, fun ht => nomatch (ha c ht.1).1.symm.trans ht.2.1⟩
    · exact fun c hl p some => nomatch (ha c hl).1.symm.trans some
    · exact fun c hl p _ some => nomatch (ha c hl).1.symm.trans some
  · refine ⟨nofun, nofun, ?_, ?_, ?_, ?_⟩
    · rintro c (no | hn)
      · cases no
      · exact .inr (.inl (congrArg some (mem_singleton.mp hn).symm))
    · rintro j (no | hn) _
      · cases no
      · exact ⟨fun _ => .inl (congrArg child (hb j hn) :), fun _ => hn⟩
    · exact fun j hl hp => absurd (.inr hl) hp
    · exact ⟨nodup_nil, fun _ => .rfl⟩
  · refine ⟨nodup_nil, nofun, ?_⟩
    intro j hl
    have hj : (f j).inOut = false := (congrArg inOut (hb j hl) :)
    exact ⟨fun on => absurd (hj.symm.trans on) Bool.false_ne_true, nofun⟩
  · refine hx.congr rfl (fun _ _ => rfl) fun j => ?_
    refine ⟨fun hk => .inr (mem_singleton.mp hk.1), ?_⟩
    rintro (no | rfl)
    · exact no.elim
    · exact ⟨mem_singleton_self _, nofun⟩
  · exact (congrArg parent hh :)
  · exact (congrArg slotComplete hh :)
  · exact fun j hl => mem_singleton.mp hl
  · exact (congrArg popped hh :)

end Firebam.Reassembly
