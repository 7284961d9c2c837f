import Firebam.Ghost.Stake

/-! Every public function keeps the stake accounting, and the checks on sums never fail. -/
namespace Firebam.Ghost
open Lib List Ghost.Tree

variable {newr id x parentId : Hash} {g g' : Tree} {addr : Pubkey} {votes : List Vtr} {s t : Tally} {op : Op}
  {blkMax vtrMax bankSeq slot : Nat} {v : Vtr} {b : Blk}

lemma init_accounted (h : init blkMax vtrMax bankSeq slot id = .ok g) : g.Accounted := by
  have wf := init_wf h
  rw [init_ok h] at wf ⊢
  refine ⟨wf, nodup_nil, ⟨?_, by simp, ?_⟩, by simp [forks, kids, nodes, shape, Blk.link]⟩
  · intro y hm
    have hs : y = id := by simpa [nodes, shape, Blk.link] using hm
    subst hs
    simp [stakeAt, query, stakeOf]
  · intro y hm
    have hs : y = id := by simpa [nodes, shape, Blk.link] using hm
    subst hs
    simpa [vtrsAt, query] using Lists.nil (by simp)

lemma Tree.Accounted.insert (hi : g.Accounted)
    (ne : parentId ≠ id) (h : g.insert bankSeq slot id parentId = .ok g') : g'.Accounted := by
  obtain ⟨wf, hp, ht⟩ := insert_wf hi.wf h ne
  obtain ⟨hf, _, hs⟩ := insert_ok h
  have hg := hi.wf.grown
  have hv : g'.vtrs = g.vtrs := by rw [hs]
  have hl : ∀ y, g'.query y = if y = id then
      some ⟨id, slot, some parentId, 0, true, [], bankSeq⟩ else g.query y := by
    intro y
    rw [hs]
    simp only [query, find?_append]
    by_cases hh : y = id
    · subst hh
      have hn : (g.blks.find? fun c => decide (c.id = y)) = none := query_none.mpr hf
      simp [hn]
    · have hd : ¬ id = y := fun eq => hh eq.symm
      simp [hh, hd]
  have hr : ∀ v ∈ g'.vtrs, v.prevBlockId ∈ nodes g'.shape := by
    intro v hm
    rw [hp]
    exact mem_nodes_leaf.mpr (.inl (hi.carries.recorded v (hv ▸ hm)))
  have ho : ∀ v ∈ g.vtrs, v.prevBlockId ≠ id := by
    intro v hm eq
    exact hf (eq ▸ hi.carries.recorded v hm)
  have ha : ∀ v ∈ g.vtrs, ∀ y, g'.isAncestor y v.prevBlockId = true ↔ g.isAncestor y v.prevBlockId = true := by
    intro v hm y
    have hj := hi.carries.recorded v hm
    rw [wf.isAncestor_iff (hr v (hv ▸ hm)), hi.wf.isAncestor_iff hj, hp]
    exact hg.below_leaf_old hf hj
  refine ⟨wf, hv ▸ hi.addrs, ⟨?_, hr, ?_⟩, ?_⟩
  · intro y m
    have hu : g'.stakeOf g'.vtrs y = g.stakeOf g.vtrs y := by
      rw [hv, stakeOf, stakeOf]
      congr 2
      refine filter_congr ?_
      intro v hm
      exact Bool.eq_iff_iff.mpr (ha v hm y)
    rw [hu, stakeAt, hl]
    rw [hp] at m
    rcases mem_nodes_leaf.mp m with hj | rfl
    · have hd : y ≠ id := fun eq => hf (eq ▸ hj)
      rw [if_neg hd]
      exact hi.carries.stake y hj
    · have hy : (g.vtrs.filter fun v => g.isAncestor y v.prevBlockId) = [] := by
        refine filter_eq_nil_iff.mpr ?_
        intro v hm hb
        have hj := hi.carries.recorded v hm
        exact hf (hg.mem_of_below ((hi.wf.isAncestor_iff hj).mp hb) hj)
      rw [if_pos rfl, stakeOf, hy]
      rfl
  · intro y m
    rw [hv, vtrsAt, hl]
    rw [hp] at m
    rcases mem_nodes_leaf.mp m with hj | rfl
    · have hd : y ≠ id := fun eq => hf (eq ▸ hj)
      rw [if_neg hd]
      exact hi.carries.parked y hj
    · rw [if_pos rfl]
      refine Lists.nil ?_
      rintro a ⟨v, hm, _, hk⟩
      exact ho v hm hk
  · have hc : g.children parentId = [] ↔ kids g.shape parentId = [] := by
      rw [← g.children_ids, map_eq_nil_iff]
    have hw : g'.width = if g.children parentId = [] then g.width else g.width + 1 := by rw [hs]
    rw [hw, hp, hg.forks_leaf ht hf, hi.width]
    by_cases he : kids g.shape parentId = []
    · rw [if_pos he, if_pos (hc.mpr he)]
    · rw [if_neg he, if_neg fun c => he (hc.mp c)]

lemma Tree.Accounted.publish_vtrs (ha : g.Accounted) (ne : newr ≠ g.root) :
    (g.publish newr).vtrs = g.vtrs.filter fun v => g.keeps newr v.prevBlockId := by
  rw [publish_eq ne]
  refine filter_congr ?_
  intro v hm
  have hh := ha.carries.recorded v hm
  rw [keeps, decide_eq_decide]
  constructor
  · intro hf hg
    exact hf _ hg ((ha.carries.parked _ hh).mem v.addr |>.mpr ⟨v, hm, rfl, rfl⟩)
  · intro hs y hg hp
    have m := ((ha.wf.mem_pruned ne y).mp hg).1
    obtain ⟨w, hi, hn, ht⟩ := ((ha.carries.parked y m).mem v.addr).mp hp
    have eq : w = v := inj_on_of_nodup_map ha.addrs hi hm hn
    exact hs (eq ▸ ht ▸ hg)

lemma stakeAt_publish (ne : newr ≠ g.root) (hk : g.keeps newr x = true) : (g.publish newr).stakeAt x = g.stakeAt x := by
  rw [stakeAt, query_publish ne hk, stakeAt]
  cases g.query x with
  | none => rfl
  | some b => by_cases hr : b.id = newr <;> simp [hr]

lemma vtrsAt_publish (ne : newr ≠ g.root) (hk : g.keeps newr x = true) : (g.publish newr).vtrsAt x = g.vtrsAt x := by
  rw [vtrsAt, query_publish ne hk, vtrsAt]
  cases g.query x with
  | none => rfl
  | some b => by_cases hr : b.id = newr <;> simp [hr]

lemma Tree.Accounted.publish (hd : g.Accounted) (m : newr ∈ nodes g.shape) : (g.publish newr).Accounted := by
  by_cases hs : newr = g.root
  · rw [Tree.publish, if_pos hs.symm]
    exact hd
  have wf := publish_wf hd.wf m
  have hp := publish_shape (g := g) hs
  have hu := hd.wf.keeps_iff hs
  have hg := hd.wf.grown
  have hv := hd.publish_vtrs hs
  have hx : ∀ v, v ∈ (g.publish newr).vtrs ↔ v ∈ g.vtrs ∧ g.keeps newr v.prevBlockId = true := by
    intro v
    rw [hv, mem_filter]
  have hr : ∀ v ∈ (g.publish newr).vtrs, v.prevBlockId ∈ nodes (g.publish newr).shape := by
    intro v hm
    obtain ⟨he, hk⟩ := (hx v).mp hm
    rw [hp]
    exact mem_nodes_cut.mpr ⟨hd.carries.recorded v he, hk⟩
  have ha : ((g.publish newr).vtrs.map Vtr.addr).Nodup := by
    rw [hv]
    exact hd.addrs.sublist (filter_sublist.map Vtr.addr)
  refine ⟨wf, ha, ⟨?_, hr, ?_⟩, ?_⟩
  · intro y hi
    have hh := hi
    rw [hp] at hh
    obtain ⟨hl, hk⟩ := mem_nodes_cut.mp hh
    rw [stakeAt_publish hs hk, hd.carries.stake y hl, stakeOf, stakeOf, hv, filter_filter]
    congr 2
    refine filter_congr ?_
    intro v hm
    have he := hd.carries.recorded v hm
    -- a voter below a block that stays is recorded on a block that stays
    rw [Bool.eq_iff_iff, Bool.and_eq_true, hd.wf.isAncestor_iff he]
    constructor
    · intro hb
      have ht : g.keeps newr v.prevBlockId = true :=
        (hu _ he).mpr (((hu y hl).mp hk).trans hb)
      have m := hr v ((hx v).mpr ⟨hm, ht⟩)
      rw [wf.isAncestor_iff m, hp]
      exact ⟨(hg.below_cut hu he ht).mpr ⟨hb, (hu y hl).mp hk⟩, ht⟩
    · rintro ⟨hb, ht⟩
      have m := hr v ((hx v).mpr ⟨hm, ht⟩)
      rw [wf.isAncestor_iff m, hp] at hb
      exact ((hg.below_cut hu he ht).mp hb).1
  · intro y hi
    have hh := hi
    rw [hp] at hh
    obtain ⟨hl, hk⟩ := mem_nodes_cut.mp hh
    rw [vtrsAt_publish hs hk]
    refine (hd.carries.parked y hl).congr ?_
    intro a
    constructor
    · rintro ⟨v, hm, hn, rfl⟩
      exact ⟨v, (hx v).mpr ⟨hm, hk⟩, hn, rfl⟩
    · rintro ⟨v, hm, hn⟩
      exact ⟨v, ((hx v).mp hm).1, hn⟩
  · have ho : ∀ y, y ∈ g.pruned newr ↔ y ∈ nodes g.shape ∧ ¬ g.keeps newr y = true := by
      intro y
      rw [hd.wf.mem_pruned hs]
      constructor
      · rintro ⟨hi, ne⟩
        exact ⟨hi, fun hk => ne ((hu y hi).mp hk)⟩
      · rintro ⟨hi, ne⟩
        exact ⟨hi, fun hb => ne ((hu y hi).mpr hb)⟩
    have hf := hg.forks_cut hu (hd.wf.pruned_nodup hs) ho
    have hc : ((g.pruned newr).map fun id => (g.children id).length - 1).sum =
        ((g.pruned newr).map fun y => (kids g.shape y).length - 1).sum := by
      congr 1
      refine map_congr_left ?_
      intro y _
      rw [← g.children_ids, length_map]
    have hw : (g.publish newr).width = g.width - ((g.pruned newr).map fun id => (g.children id).length - 1).sum := by
      rw [publish_eq hs]
    rw [hw, hc, hd.width, hf, hp]
    omega

lemma Tree.Accounted.validOnly (ha : g.Accounted) (only : ValidOnly g g') : g'.Accounted := by
  have wf := only.wf ha.wf
  have hp := only.shape
  obtain ⟨f, rfl⟩ := only
  have hs : ∀ y, ({ g with blks := g.blks.map fun b => { b with valid := f b } } : Tree).stakeAt y = g.stakeAt y := by
    intro y
    simp only [stakeAt, query, find?_map, Function.comp_def, Option.map_map]
  have hl : ∀ y, ({ g with blks := g.blks.map fun b => { b with valid := f b } } : Tree).vtrsAt y = g.vtrsAt y := by
    intro y
    simp only [vtrsAt, query, find?_map, Function.comp_def, Option.map_map]
  refine ⟨wf, ha.addrs, ⟨?_, ?_, ?_⟩, ?_⟩
  · intro y m
    rw [hs, stakeOf_congr hp]
    exact ha.carries.stake y (hp ▸ m)
  · intro v hm
    rw [hp]
    exact ha.carries.recorded v hm
  · intro y m
    rw [hl]
    exact ha.carries.parked y (hp ▸ m)
  · rw [hp]
    exact ha.width

lemma insert_fault {fault : Fault} (hf : g.insert bankSeq slot id parentId = .error fault) :
    fault ≠ .stakeUnderflow ∧ fault ≠ .stakeOverflow := by
  simp only [Tree.insert, Tree.acquire, require, bind, Except.bind] at hf
  repeat' split at hf
  all_goals grind

lemma queryVtr_some (hf : g.queryVtr addr = some v) : v ∈ g.vtrs ∧ v.addr = addr :=
  ⟨mem_of_find?_eq_some hf, by simpa using find?_some hf⟩

lemma queryVtr_none (hn : g.queryVtr addr = none) (hm : v ∈ g.vtrs) : v.addr ≠ addr := by
  simpa using find?_eq_none.mp hn v hm

lemma countVote_spec {stake : Nat} (slot : Nat) (hb : g.Accounted) (m : id ∈ nodes g.shape)
    (hi : ((g.others addr).map Vtr.prevStake).sum + stake < wordSize) :
    (∃ r, r ≠ .success ∧ g.countVote id addr stake slot = .ok (r, g)) ∨
      g.countVote id addr stake slot = .error .vtrPoolEmpty ∨
      ∃ g', g.countVote id addr stake slot = .ok (.success, g') ∧ g'.Accounted ∧
        (∀ w ∈ g.vtrs, w.addr = addr → w.prevSlot < slot) ∧
        ∀ w, w ∈ g'.vtrs ↔ w = ⟨addr, stake, slot, id⟩ ∨ w ∈ g.vtrs ∧ w.addr ≠ addr := by
  by_cases hu : slot = wordSize - 1
  · refine .inl ⟨.notVoted, by decide, ?_⟩
    rw [countVote, if_pos hu]
  by_cases ho : slot < g.rootSlot
  · refine .inl ⟨.voteTooOld, by decide, ?_⟩
    rw [countVote, if_neg hu, if_pos ho]
  rw [countVote, if_neg hu, if_neg ho]
  cases hf : g.queryVtr addr with
  | none =>
    by_cases room : g.vtrs.length < g.vtrMax
    · -- the new voter is on no list yet
      let g₁ : Tree := { g with vtrs := g.vtrs ++ [⟨addr, 0, 0, 0⟩] }
      have hn : addr ∉ g.vtrs.map Vtr.addr := by
        intro hk
        obtain ⟨v, hx, named⟩ := mem_map.mp hk
        exact queryVtr_none hf hx named
      have all : g.others addr = g.vtrs := by
        refine filter_eq_self.mpr ?_
        intro v hx
        simpa using queryVtr_none hf hx
      have rest : g₁.others addr = g.others addr := by simp [others, g₁]
      have others : g₁.others addr = g.vtrs := rest.trans all
      have hr : (g₁.vtrs.map Vtr.addr).Nodup := by
        simpa [g₁, nodup_append] using ⟨hb.addrs, fun a hx named => hn (mem_map.mpr ⟨a, hx, named⟩)⟩
      have hc : g₁.Carries (g₁.others addr) := others ▸ ⟨hb.carries.stake, hb.carries.recorded, hb.carries.parked⟩
      have hk : addr ∈ g₁.vtrs.map Vtr.addr := by simp [g₁]
      obtain ⟨g', hm, vtrs, ha⟩ := moveOn_accounted (g := g₁) stake slot
        (hb.wf.congr rfl rfl) hr hb.width hc hk m (by rw [rest]; exact hi)
      refine .inr (.inr ⟨g', ?_, ha, ?_, ?_⟩)
      · simp only [check_of _ room]
        exact map_ok.mpr ⟨g', hm, rfl⟩
      · exact fun w hx named => absurd named (queryVtr_none hf hx)
      · intro w
        rw [vtrs.mem_iff, mem_cons, rest, mem_others]
    · refine .inr (.inl ?_)
      simp [require, room]
      rfl
  | some v =>
    obtain ⟨hx, named⟩ := queryVtr_some hf
    subst named
    by_cases stale : slot ≤ v.prevSlot
    · exact .inl ⟨.alreadyVoted, by decide, if_pos stale⟩
    · obtain ⟨g₁, hg, shape, vtrs, root, width, hc⟩ := moveOff_carries hb hx
      have others : g₁.others v.addr = g.others v.addr := by rw [others, vtrs, others]
      have hk : v.addr ∈ g₁.vtrs.map Vtr.addr := vtrs ▸ mem_map_of_mem hx
      obtain ⟨g', hm, hv, ha⟩ := moveOn_accounted (g := g₁) stake slot
        (hb.wf.congr shape root) (vtrs ▸ hb.addrs) (by rw [width, shape]; exact hb.width) (others ▸ hc) hk (shape ▸ m) (by rw [others]; exact hi)
      refine .inr (.inr ⟨g', ?_, ha, ?_, ?_⟩)
      · simp only [if_neg stale]
        exact bind_ok.mpr ⟨g₁, hg, map_ok.mpr ⟨g', hm, rfl⟩⟩
      · intro w he named
        have eq : w = v := inj_on_of_nodup_map hb.addrs he hx named
        exact eq ▸ Nat.lt_of_not_le stale
      · intro w
        rw [hv.mem_iff, mem_cons, others, mem_others]

structure Tally where
  tree : Tree
  counted : List Vtr
  current : List Vtr

local instance lawfulAddr : LawfulBEq Pubkey := inferInstance

def Tally.step (t : Tally) : Op → Except Fault Tally
  | .countVote id voteAcc stake slot => do
    let (result, g) ← t.tree.countVote id voteAcc stake slot
    let vote : Vtr := ⟨voteAcc, stake, slot, id⟩
    .ok (if result = .success then ⟨g, vote :: t.counted, vote :: t.current⟩ else { t with tree := g })
  | .publish newr =>
    let g := t.tree.publish newr
    .ok ⟨g, t.counted, t.current.filter fun v => v.addr ∈ g.vtrs.map Vtr.addr⟩
  | op => do
    let g ← t.tree.step op
    .ok { t with tree := g }

/-- The voters are recorded with their newest vote among the given ones. -/
structure Tree.Newest (g : Tree) (votes : List Vtr) : Prop where
  newest : ∀ v ∈ g.vtrs, v ∈ votes ∧ ∀ w ∈ votes, w.addr = v.addr → w.prevSlot ≤ v.prevSlot
  known : ∀ w ∈ votes, w.addr ∈ g.vtrs.map Vtr.addr

structure Tree.Balanced (g : Tree) : Prop where
  stake : ∀ b ∈ g.blks, b.stake = g.stakeOf g.vtrs b.id
  home : ∀ v ∈ g.vtrs, ∃ b ∈ g.blks, b.id = v.prevBlockId
  voters : ∀ b ∈ g.blks, b.vtrs.Nodup ∧ ∀ a, a ∈ b.vtrs ↔ ∃ v ∈ g.vtrs, v.addr = a ∧ v.prevBlockId = b.id
  addrs : (g.vtrs.map Vtr.addr).Nodup
  width : g.width = (leaves g.shape).length
  publish : ∀ r ∈ g.blks, (g.publish r.id).blks.map (fun b => (b.id, b.stake)) =
    (g.blks.filter fun b => g.isAncestor r.id b.id).map fun b => (b.id, b.stake)

lemma Tree.Wf.stakeAt_blk (wf : g.Wf) (hm : b ∈ g.blks) : g.stakeAt b.id = b.stake := by
  rw [stakeAt, query_of_mem wf.grown.nodup hm]
  rfl

lemma Tree.Wf.vtrsAt_blk (wf : g.Wf) (hm : b ∈ g.blks) : g.vtrsAt b.id = b.vtrs := by
  rw [vtrsAt, query_of_mem wf.grown.nodup hm]
  rfl

lemma Tree.Wf.publish_blks (wf : g.Wf) (r : Blk) :
    (g.publish r.id).blks.map (fun b => (b.id, b.stake)) =
      (g.blks.filter fun b => g.isAncestor r.id b.id).map fun b => (b.id, b.stake) := by
  by_cases hs : r.id = g.root
  · have all : (g.blks.filter fun b => g.isAncestor r.id b.id) = g.blks := by
      refine filter_eq_self.mpr ?_
      intro b hi
      have hm := mem_nodes_of_blk hi
      exact (wf.isAncestor_iff hm).mpr (hs ▸ wf.root_spec.2.2 b.id hm)
    rw [all, publish, if_pos hs.symm]
  · have hk : ∀ b ∈ g.blks, g.keeps r.id b.id = g.isAncestor r.id b.id := by
      intro b hi
      have hm := mem_nodes_of_blk hi
      rw [Bool.eq_iff_iff, wf.keeps_iff hs b.id hm, wf.isAncestor_iff hm]
    rw [publish_eq hs, filter_congr hk, map_map]
    refine map_congr_left ?_
    intro b _
    by_cases hr : b.id = r.id <;> simp [hr]

lemma Tree.Accounted.balanced (ha : g.Accounted) : g.Balanced where
  stake := by
    intro b hm
    rw [← ha.wf.stakeAt_blk hm]
    exact ha.carries.stake b.id (mem_nodes_of_blk hm)
  home := by
    intro v hm
    have m := ha.carries.recorded v hm
    rw [g.nodes_shape] at m
    exact mem_map.mp m
  voters := by
    intro b hm
    have hl := ha.carries.parked b.id (mem_nodes_of_blk hm)
    rw [ha.wf.vtrsAt_blk hm] at hl
    exact ⟨hl.nodup, hl.mem⟩
  addrs := ha.addrs
  width := ha.width.trans ha.wf.grown.leaves_length.symm
  publish := fun r _ => ha.wf.publish_blks r

structure Tally.Sound (t : Tally) : Prop where
  accounted : t.tree.Accounted
  newest : t.tree.Newest t.current

lemma Tree.Newest.of_vtrs (hn : g.Newest votes) (hs : g'.vtrs = g.vtrs) :
    g'.Newest votes := ⟨hs ▸ hn.newest, hs ▸ hn.known⟩

lemma Tree.Newest.count (vote : Vtr) (ht : g.Newest votes)
    (hh : ∀ w ∈ g.vtrs, w.addr = vote.addr → w.prevSlot < vote.prevSlot)
    (hm : ∀ w, w ∈ g'.vtrs ↔ w = vote ∨ w ∈ g.vtrs ∧ w.addr ≠ vote.addr) : g'.Newest (vote :: votes) := by
  refine ⟨?_, ?_⟩
  · intro v m
    rcases (hm v).mp m with rfl | ⟨hl, ne⟩
    · refine ⟨.head _, ?_⟩
      intro w hi hn
      rcases mem_cons.mp hi with rfl | he
      · exact le_refl _
      · -- an earlier vote of the voter is not above the one it was recorded with
        obtain ⟨u, ha, hs⟩ := mem_map.mp (ht.known w he)
        have hb := (ht.newest u ha).2 w he hs.symm
        exact le_of_lt (lt_of_le_of_lt hb (hh u ha (hs.trans hn)))
    · obtain ⟨hc, ho⟩ := ht.newest v hl
      refine ⟨mem_cons_of_mem vote hc, ?_⟩
      intro w hi hn
      rcases mem_cons.mp hi with rfl | he
      · exact absurd hn.symm ne
      · exact ho w he hn
  · intro w hi
    rcases mem_cons.mp hi with rfl | he
    · exact mem_map.mpr ⟨w, (hm w).mpr (.inl rfl), rfl⟩
    · by_cases hn : w.addr = vote.addr
      · exact mem_map.mpr ⟨vote, (hm vote).mpr (.inl rfl), hn.symm⟩
      · obtain ⟨u, ha, hs⟩ := mem_map.mp (ht.known w he)
        refine mem_map.mpr ⟨u, (hm u).mpr (.inr ⟨ha, ?_⟩), hs⟩
        rwa [hs]

lemma Tree.Newest.publish (hn : g.Newest votes) :
    (g.publish newr).Newest (votes.filter fun v => v.addr ∈ (g.publish newr).vtrs.map Vtr.addr) := by
  have hu : (g.publish newr).vtrs.Sublist g.vtrs := by
    by_cases hs : newr = g.root
    · rw [Tree.publish, if_pos hs.symm]
    · rw [publish_eq hs]
      exact filter_sublist
  refine ⟨?_, ?_⟩
  · intro v hm
    obtain ⟨hc, ht⟩ := hn.newest v (hu.mem hm)
    refine ⟨mem_filter.mpr ⟨hc, by simpa using ⟨v, hm, rfl⟩⟩, ?_⟩
    intro w hi
    exact ht w (mem_of_mem_filter hi)
  · intro w hi
    simpa using of_mem_filter hi

lemma Tally.Sound.step (hs : s.Sound) (hp : s.tree.Promise op) :
    Outcome Tally.Sound (fun fault => fault ≠ .stakeUnderflow ∧ fault ≠ .stakeOverflow) (s.step op) := by
  obtain ⟨hc, hn⟩ := hs
  cases op with
  | countVote id voteAcc stake slot =>
    have m := query_isSome.mp hp.1
    rcases countVote_spec slot hc m hp.2 with
      ⟨r, hf, h⟩ | hu | ⟨g', h, ha, hh, hm⟩
    · simp only [Tally.step, h]
      exact ⟨by simpa [hf] using hc, by simpa [hf] using hn⟩
    · simp only [Tally.step, hu]
      exact ⟨nofun, nofun⟩
    · simp only [Tally.step, h]
      exact ⟨ha, hn.count ⟨voteAcc, stake, slot, id⟩ hh hm⟩
  | publish newr => exact ⟨hc.publish (query_isSome.mp hp), hn.publish⟩
  | insert bankSeq slot id parentId =>
    cases h : s.tree.insert bankSeq slot id parentId with
    | error fault =>
      simp only [Tally.step, Tree.step, h]
      exact insert_fault h
    | ok g =>
      simp only [Tally.step, Tree.step, h]
      refine ⟨hc.insert hp h, hn.of_vtrs ?_⟩
      rw [(insert_ok h).2.2]
  | confirm id =>
    have only := confirm_only s.tree id
    exact ⟨hc.validOnly only, hn.of_vtrs only.vtrs⟩
  | eqvoc id =>
    have only := (eqvoc_spec hc.wf id).1
    exact ⟨hc.validOnly only, hn.of_vtrs only.vtrs⟩

/-- In every run from a fresh tree the accounting is right in the state that is reached, and a run
that is stopped was not stopped by a check on a sum of stakes. -/
theorem stake_accounting {blkMax vtrMax bankSeq slot : Nat} {id : Hash} {ops : List Op}
    (start : init blkMax vtrMax bankSeq slot id = .ok g)
    (promised : Allowed Tally.step (fun t op => t.tree.Promise op) ⟨g, [], []⟩ ops) :
    Outcome (fun t => t.tree.Balanced ∧ t.tree.Newest t.current)
      (fun fault => fault ≠ .stakeUnderflow ∧ fault ≠ .stakeOverflow) (run Tally.step ⟨g, [], []⟩ ops) := by
  have fresh : (⟨g, [], []⟩ : Tally).Sound := by
    refine ⟨init_accounted start, ?_, by simp⟩
    rw [init_ok start]
    simp
  have reached := run_allowed_outcome Tally.step _ Tally.Sound
    (fun fault => fault ≠ .stakeUnderflow ∧ fault ≠ .stakeOverflow) (fun _ _ inv may => inv.step may) fresh promised
  cases stopped : run Tally.step ⟨g, [], []⟩ ops with
  | error fault =>
    rw [stopped] at reached
    exact reached
  | ok t =>
    rw [stopped] at reached
    exact ⟨reached.accounted.balanced, reached.newest⟩

def movedVote : List Op :=
  [.insert 2 1 1 0, .insert 3 2 2 0, .countVote 1 7 10 1, .countVote 2 7 10 2, .publish 2]

theorem moved_vote_balanced : ∃ t, run Tally.step
    ⟨⟨8, 8, 0, [⟨0, 0, none, 0, true, [], 1⟩], [], 1⟩, [], []⟩ movedVote = .ok t ∧
    t.tree.Balanced ∧ t.tree.Newest t.current := by
  have accounting := stake_accounting (show init 8 8 1 0 0 = .ok _ from rfl)
    (show Allowed Tally.step (fun t op => t.tree.Promise op) _ movedVote by decide)
  exact ⟨_, rfl, accounting⟩

/-- A publication prunes the block a voter is recorded on, and with it the record. An older vote
of the voter for the new root is then counted. -/
theorem older_vote_counted_after_prune : ∃ t, run Tally.step ⟨⟨8, 8, 0, [⟨0, 0, none, 0, true, [], 1⟩], [], 1⟩, [], []⟩
      [.insert 2 1 1 0, .insert 3 2 2 0, .countVote 2 7 10 2, .publish 1, .countVote 1 7 10 1] = .ok t ∧
    t.counted = [⟨7, 10, 1, 1⟩, ⟨7, 10, 2, 2⟩] ∧ t.tree.vtrs = [⟨7, 10, 1, 1⟩] ∧
    ¬ t.tree.Newest t.counted := by
  refine ⟨_, rfl, rfl, rfl, ?_⟩
  intro newest
  have top := (newest.newest ⟨7, 10, 1, 1⟩ (by decide)).2 ⟨7, 10, 2, 2⟩ (by decide) rfl
  exact absurd top (by decide)

end Firebam.Ghost
