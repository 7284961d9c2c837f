import Firebam.Forks.Prune

/-! The root advances to one of its children. All banks that are not below the new root leave, in
breadth first order. -/
namespace Firebam.Forks
open List Lib Banks Bank

variable {s t u : Banks} {past : Past} {i j p c r : Idx} {n : Nat} {queue : List Idx}

def Banks.cut (s : Banks) (r : Idx) : Idx → List Idx := fun i => (s.children i).filter (· ≠ r)

lemma drop_cut : (s.drop i).cut r = s.cut r := by
  unfold Banks.cut
  rw [drop_children]

lemma retireFrom_eq {leaves : Nat} (hp : Pending s) (he : Sweeps (s.cut r) n queue)
    (hi : ∀ i ∈ sweep (s.cut r) n queue, ∀ c ∈ s.cut r i, (s.bank c).refcnt = 0) :
    retireFrom r n queue (s, leaves) = .ok (s.dropAll (sweep (s.cut r) n queue),
      leaves + (sweep (s.cut r) n queue).countP s.leaf) := by
  induction n generalizing queue s leaves with
  | zero =>
    cases queue with
    | nil => rfl
    | cons i queue => cases he
  | succ n ih =>
    cases queue with
    | nil => rfl
    | cons i queue =>
      have hn : ∀ c ∈ (s.children i).filter (· ≠ r), (s.bank c).refcnt = 0 := hi i (.head _)
      rw [retireFrom, check_of _ hn, retire_eq hp]
      dsimp only [bind, Except.bind]
      refine (ih hp.drop ?_ ?_).trans ?_
      · rw [drop_cut]
        exact he
      · rw [drop_cut]
        intro j hm c hk
        rw [drop_keeps refcnt c fun _ => rfl]
        exact hi j (.tail _ hm) c hk
      · rw [drop_cut, drop_leaf, sweep, countP_cons]
        refine congrArg Except.ok (congrArg (Prod.mk _) ?_)
        unfold leaf
        by_cases leaf : (s.bank i).child = none
        · simp only [leaf, if_true, decide_true]
          exact Nat.add_right_comm leaves 1 _
        · simp only [leaf, if_false, decide_false, Bool.false_eq_true, Nat.add_zero]
          rfl

def Banks.left (s : Banks) (r : Idx) : List Idx := sweep (s.cut r) s.maxTotalBanks [s.root]

section
variable (links : Links s) (hp : Pool s)
include links hp

lemma cut_branches (r : Idx) : Branches s.live (s.cut r) fun i => (s.bank i).seq := (links.branches hp).cut r

lemma left_perm (r : Idx) : (s.left r).Perm (subtree (s.cut r) s.maxTotalBanks s.root) ∧
    Sweeps (s.cut r) s.maxTotalBanks [s.root] := by
  have ht := cut_branches links hp r
  have m : ∀ x ∈ [s.root], x ∈ s.live := by
    intro x hm
    rw [mem_singleton.mp hm]
    exact hp.mem_live.mpr links.root_live
  have ho := m s.root (.head _)
  have hn : [s.root].flatMap (subtree (s.cut r) s.maxTotalBanks) = subtree (s.cut r) s.maxTotalBanks s.root := by
    simp
  have hs : ([s.root].flatMap (subtree (s.cut r) s.maxTotalBanks)).length ≤ s.maxTotalBanks := by
    rw [hn]
    refine hp.length_le (ht.subtree_nodup (live_length s) ho) fun j hm => ?_
    exact hp.mem_live.mp (ht.below_mem ho ((ht.mem_subtree (live_length s) ho).mp hm))
  refine ⟨?_, ht.sweeps (live_length s) m hs⟩
  rw [← hn]
  exact ht.sweep_perm (live_length s) m hs

lemma left_nodup (r : Idx) : (s.left r).Nodup := by
  have nd := (cut_branches links hp r).subtree_nodup (live_length s) (hp.mem_live.mpr links.root_live)
  exact (left_perm links hp r).1.nodup_iff.mpr nd

lemma mem_left (hk : r ∈ s.children s.root) : j ∈ s.left r ↔ s.Live j ∧ ¬Reaches s.children r j := by
  have ht := links.branches hp
  have ho := hp.mem_live.mpr links.root_live
  rw [(left_perm links hp r).1.mem_iff, (cut_branches links hp r).mem_subtree (live_length s) ho]
  refine (ht.below_cut ho (ht.sub _ ho _ hk) (ht.not_below_parent ho hk)).trans ?_
  refine and_congr_left fun _ => ⟨fun hb => ?_, links.below_root⟩
  exact hp.mem_live.mp (ht.below_mem ho hb)

end

structure Rerooted (s t : Banks) (r : Idx) : Prop where
  live : ∀ j, t.Live j ↔ Reaches s.children r j
  root : t.root = r
  here : t.bank r = { s.bank r with parent := none, sibling := none }
  below : ∀ j, Reaches s.children r j → j ≠ r → t.bank j = s.bank j

namespace Rerooted

variable (re : Rerooted s t r)
include re

lemma keeps {β : Type} (field : Bank → β) (hh : t.Live j)
    (hs : ∀ b, field { b with parent := none, sibling := none } = field b) : field (t.bank j) = field (s.bank j) := by
  by_cases eq : j = r
  · rw [eq, re.here, hs]
  · rw [re.below j ((re.live j).mp hh) eq]

lemma parent (hi : Links s) (ho : Pool s) (hd : r ∈ s.children s.root) (hh : t.Live j)
    (ha : (t.bank j).parent = some p) :
    j ≠ r ∧ s.Live j ∧ (s.bank j).parent = some p ∧ t.Live p ∧ (s.bank p).seq < (s.bank j).seq := by
  have ht := hi.branches ho
  have hm := ht.sub _ (ho.mem_live.mpr hi.root_live) _ hd
  have hb := (re.live j).mp hh
  have hl := ho.mem_live.mp (ht.below_mem hm hb)
  have ne : j ≠ r := by
    rintro rfl
    rw [re.here] at ha
    cases ha
  rw [re.below j hb ne] at ha
  refine ⟨ne, hl, ha, (re.live p).mpr ?_, (hi.parent_live hl ha).2⟩
  rcases Relation.ReflTransGen.cases_tail hb with eq | ⟨q, hp, hk⟩
  · exact absurd eq ne
  · have up := ho.mem_live.mp (ht.below_mem hm hp)
    rw [((hi.mem_children q up j).mp hk).2] at ha
    cases ha
    exact hp

lemma links (links : Links s) (hc : Pool s) (hd : Pool t) (hi : r ∈ s.children s.root) : Links t := by
  have ht := links.branches hc
  have hf := hc.mem_live.mpr links.root_live
  have hm := ht.sub _ hf _ hi
  have he : ∀ {j}, t.Live j → s.Live j := fun hh => hc.mem_live.mp (ht.below_mem hm ((re.live _).mp hh))
  have hu : ∀ {j c}, t.Live j → c ∈ s.children j → Reaches s.children r c ∧ c ≠ r := by
    intro j c hh hb
    have hp := (re.live j).mp hh
    refine ⟨hp.trans_kid hb, ?_⟩
    rintro rfl
    -- the new root is a child of the old one only
    have hs := ht.unique j (hc.mem_live.mpr (he hh)) s.root hf c hb hi
    exact ht.not_below_parent hf hi (hs ▸ hp)
  refine Links.of hd s.children ?_ ?_ ?_ ?_ ?_ ?_
  · rw [re.root, re.live]
    exact Relation.ReflTransGen.refl
  · rw [re.root, re.here]
  · rw [re.root, re.here]
  · intro j hh
    rw [re.keeps child hh fun _ => rfl]
    refine (links.chain j (he hh)).congr fun x hb => ?_
    rw [re.below x (hu hh hb).1 (hu hh hb).2]
  · intro j hh c
    constructor
    · intro hb
      obtain ⟨hp, ho⟩ := hu hh hb
      rw [re.live, re.below c hp ho]
      exact ⟨hp, ((links.mem_children j (he hh) c).mp hb).2⟩
    · rintro ⟨hl, ha⟩
      obtain ⟨-, hl, ha, -⟩ := re.parent links hc hi hl ha
      exact (links.mem_children j (he hh) c).mpr ⟨hl, ha⟩
  · intro j hh ho
    rw [re.root] at ho
    have hk := re.below j ((re.live j).mp hh) ho
    have ne : j ≠ s.root := by
      rintro rfl
      exact ht.not_below_parent hf hi ((re.live s.root).mp hh)
    obtain ⟨p, ha, -⟩ := links.up j (he hh) ne
    have hv : (t.bank j).parent = some p := by rw [hk, ha]
    obtain ⟨-, -, -, hl, hy⟩ := re.parent links hc hi hh hv
    refine ⟨p, hv, hl, ?_⟩
    rw [re.keeps seq hl fun _ => rfl, hk]
    exact hy

lemma states (states : States s) (hi : Links s) (pool : Pool s)
    (hk : r ∈ s.children s.root) (hf : (s.bank r).state = .frozen) : States t := by
  have hl : ∀ {j k}, (t.bank j).state = k → k ≠ .inactive → t.Live j := fun state ne => by
    unfold Live
    rw [state]
    exact ne
  refine ⟨?_, ?_, ?_⟩
  · rw [re.root, re.here]
    exact hf
  · intro j p hh ha hd
    obtain ⟨-, live, ha, up, -⟩ := re.parent hi pool hk hh ha
    rw [re.keeps state up fun _ => rfl] at hd
    rw [re.keeps state hh fun _ => rfl]
    exact states.dead j p live ha hd
  · intro j p hc ha
    have hh : t.Live j := by
      rcases hc with state | state
      · exact hl state nofun
      · exact hl state nofun
    obtain ⟨-, -, ha, up, -⟩ := re.parent hi pool hk hh ha
    rw [re.keeps state hh fun _ => rfl] at hc
    rw [re.keeps state up fun _ => rfl]
    exact states.frozen j p hc ha

lemma countP (hl : Links s) (pool : Pool s) (ho : Pool t)
    (hk : r ∈ s.children s.root) : s.live.countP s.leaf = (s.left r).countP s.leaf + t.live.countP t.leaf ∧
      (s.left r).countP s.leaf < s.live.countP s.leaf := by
  have tree := hl.branches pool
  have m := tree.sub _ (pool.mem_live.mpr hl.root_live) _ hk
  have hd : ∀ {j}, t.Live j → s.Live j := fun hh => pool.mem_live.mp (tree.below_mem m ((re.live _).mp hh))
  have hp : s.live.Perm (s.left r ++ t.live) := by
    refine pool.live_perm (nodup_append.mpr ⟨left_nodup hl pool r, live_nodup t, ?_⟩) fun j => ?_
    · rintro j hg k hh rfl
      exact ((mem_left hl pool hk).mp hg).2 ((re.live j).mp (ho.mem_live.mp hh))
    · rw [mem_append, mem_left hl pool hk, ho.mem_live]
      constructor
      · rintro (hg | hh)
        · exact hg.1
        · exact hd hh
      · intro live
        by_cases hb : Reaches s.children r j
        · exact .inr ((re.live j).mpr hb)
        · exact .inl ⟨live, hb⟩
  have hs : t.live.countP s.leaf = t.live.countP t.leaf := by
    refine countP_congr fun j hm => ?_
    rw [leaf, leaf, re.keeps child (ho.mem_live.mp hm) fun _ => rfl]
  have ht : s.live.countP s.leaf = (s.left r).countP s.leaf + t.live.countP t.leaf := by
    rw [hp.countP_eq, countP_append, hs]
  refine ⟨ht, ?_⟩
  obtain ⟨j, ha, -, leaf⟩ := hl.exists_leaf pool (pool.mem_live.mp m)
  have hh := (re.live j).mpr ha
  have some : 0 < t.live.countP t.leaf := by
    refine countP_pos_iff.mpr ⟨j, ho.mem_live.mpr hh, decide_eq_true ?_⟩
    rw [re.keeps child hh fun _ => rfl]
    exact leaf
  omega

end Rerooted

lemma Core.reroot (he : Core s past) (r : Idx) (w : Nat) : Core (s.reroot r w) past := by
  have re : Relinked s (s.modify r fun b => { b with parent := none, sibling := none }) := by
    refine ⟨rfl, fun j => ?_⟩
    rw [modify_bank]
    split <;> rfl
  have hc : ∀ j, ((s.modify r fun b => { b with parent := none, sibling := none }).bank j).child =
      (s.bank j).child := by
    intro j
    rw [modify_bank]
    split <;> rfl
  have ho := re.pool he.pool
  have hp := re.pending he.pending fun j hw => (hc j).trans (he.pending.leaf j hw)
  have hm := re.marks he.marks ?_
  · have ht := re.trackers he.trackers
    exact ⟨⟨ho.nodup, ho.mem_free, ho.bounded⟩, ⟨hp.iff, hp.leaf⟩,
      ⟨hm.iff, hm.nodup, hm.order, hm.old, hm.seq⟩,
      ⟨⟨ht.nodup, ht.apart, ht.unique⟩, ht.inactive, ht.held, ht.init,
        ht.replayable, ht.sub, ht.old⟩⟩
  · intro j q _ ha _
    rw [modify_bank] at ha
    split at ha
    · cases ha
    · exact ha

lemma left_rerooted (hi : Links s) (hp : Pool s) (hk : r ∈ s.children s.root) (w : Nat) :
    Rerooted s ((s.dropAll (s.left r)).reroot r w) r := by
  have ht := hi.branches hp
  have hm := ht.sub _ (hp.mem_live.mpr hi.root_live) _ hk
  have hs : ∀ {j}, Reaches s.children r j → j ∉ s.left r := fun hb hg =>
    ((mem_left hi hp hk).mp hg).2 hb
  refine ⟨?_, rfl, ?_, ?_⟩
  · intro j
    have hl : ((s.dropAll (s.left r)).reroot r w).Live j ↔ (s.dropAll (s.left r)).Live j := by
      unfold Live reroot
      rw [modify_bank]
      split <;> rfl
    rw [hl, dropAll_live, mem_left hi hp hk]
    constructor
    · rintro ⟨hl, hs⟩
      by_contra ha
      exact hs ⟨hl, ha⟩
    · intro hb
      exact ⟨hp.mem_live.mp (ht.below_mem hm hb), fun hg => hg.2 hb⟩
  · dsimp only [reroot]
    rw [modify_bank, if_pos rfl, dropAll_bank (hs Relation.ReflTransGen.refl)]
  · intro j hb ne
    dsimp only [reroot]
    rw [modify_bank, if_neg ne, dropAll_bank (hs hb)]

lemma cut_idle (hn : Links s) (ho : Pool s) (hc : r ∈ s.children s.root)
    (he : ∀ j, s.Live j → ¬Reaches s.children r j → (s.bank j).refcnt = 0) :
    ∀ i ∈ s.left r, ∀ c ∈ s.cut r i, (s.bank c).refcnt = 0 := by
  have ht := hn.branches ho
  have m := ht.sub _ (ho.mem_live.mpr hn.root_live) _ hc
  intro i hg c hl
  obtain ⟨hi, ha⟩ := (mem_left hn ho hc).mp hg
  obtain ⟨hd, ne⟩ := mem_filter.mp hl
  have hm := ho.mem_live.mpr hi
  refine he c (ho.mem_live.mp (ht.sub i hm c hd)) fun hb => ?_
  rcases Relation.ReflTransGen.cases_tail hb with eq | ⟨q, hp, hk⟩
  · exact of_decide_eq_true ne eq
  · have hs := ht.unique q (ht.below_mem m hp) i hm c hk hd
    exact ha (hs ▸ hp)

lemma Sound.advanceRoot (hn : Sound s past) (hq : r ∈ s.children s.root) (hf : (s.bank r).state = .frozen)
    (hm : (s.bank s.root).refcnt = 0) (hj : ∀ j, s.Live j → ¬Reaches s.children r j → (s.bank j).refcnt = 0) :
    ∃ t, s.advanceRoot r = .ok t ∧ Sound t past := by
  -- the new root gives its part of the stake delegations up first
  obtain ⟨s', ht⟩ : ∃ s', s' = s.modify r fun b => { b with delegations := false } := ⟨_, rfl⟩
  have hu : Sound s' past := ht ▸ hn.touch fun _ => rfl
  have hc : s'.children = s.children := ht ▸ modify_children (fun _ => rfl) fun _ => rfl
  have hk : ∀ {β : Type} (field : Bank → β), (∀ b, field { b with delegations := false } = field b) →
      ∀ j, field (s'.bank j) = field (s.bank j) := by
    intro β field hs j
    rw [ht, modify_bank]
    split
    · exact hs _
    · rfl
  have hp : s'.root = s.root := by rw [ht]; rfl
  have hd : r ∈ s'.children s'.root := by rw [hc, hp]; exact hq
  have hb : ∀ j, s'.Live j → ¬Reaches s'.children r j → (s'.bank j).refcnt = 0 := by
    intro j hi ne
    unfold Live at hi
    rw [hk state fun _ => rfl] at hi
    rw [hc] at ne
    rw [hk refcnt fun _ => rfl]
    exact hj j hi ne
  have hr : retireFrom r s'.maxTotalBanks [s'.root] (s', 0) =
      .ok (s'.dropAll (s'.left r), 0 + (s'.left r).countP s'.leaf) :=
    retireFrom_eq hu.pending (left_perm hu.links hu.pool r).2 (cut_idle hu.links hu.pool hd hb)
  obtain ⟨u, ha⟩ : ∃ u, u = s'.dropAll (s'.left r) := ⟨_, rfl⟩
  obtain ⟨k, hl⟩ : ∃ k, k = 0 + (s'.left r).countP s'.leaf := ⟨_, rfl⟩
  have hg : ∀ j ∈ s'.left r, s'.Live j := fun j hx => ((mem_left hu.links hu.pool hd).mp hx).1
  have he : Core (u.reroot r (u.currForkWidth - k)) past :=
    ha ▸ (hu.toCore.dropAll (left_nodup hu.links hu.pool r) hg).reroot r _
  have re : Rerooted s' (u.reroot r (u.currForkWidth - k)) r :=
    ha ▸ left_rerooted hu.links hu.pool hd _
  obtain ⟨hh, hv⟩ := re.countP hu.links hu.pool he.pool hd
  have hw : u.currForkWidth = s'.live.countP s'.leaf := by
    rw [ha, (dropAll_rest s' (s'.left r)).2.1]
    exact hu.width
  have ho : k < u.currForkWidth := by omega
  refine ⟨u.reroot r (u.currForkWidth - k), ?_, ⟨he, ?_, ?_, ?_⟩⟩
  · unfold Banks.advanceRoot
    rw [check_of _ hm, ← ht]
    dsimp only
    rw [hr, ← ha, ← hl]
    dsimp only [bind, Except.bind]
    rw [require_of _ _ ho]
  · exact re.links hu.links hu.pool he.pool hd
  · refine re.states hu.states hu.links hu.pool hd ?_
    rw [hk state fun _ => rfl]
    exact hf
  · change u.currForkWidth - k = _
    omega

lemma canBePruned_refcnt (hi : Links s) (ho : Pool s) (hv : s.Live i)
    (hd : above s.live (fun j => (s.bank j).seq) i < n) (hc : s.subtreeCanBePruned n i = true)
    (hb : Reaches s.children i j) : (s.bank j).refcnt = 0 := by
  induction n generalizing i with
  | zero => exact absurd hd (Nat.not_lt_zero _)
  | succ n ih =>
    rw [subtreeCanBePruned, Bool.and_eq_true, all_eq_true] at hc
    rcases Relation.ReflTransGen.cases_head hb with rfl | ⟨c, hk, hp⟩
    · exact of_decide_eq_true hc.1
    · have hl := (hi.branches ho).above_kid (ho.mem_live.mpr hv) hk
      exact ih ((hi.mem_children i hv c).mp hk).1 (lt_of_lt_of_le hl (Nat.le_of_lt_succ hd))
        (hc.2 c hk) hp

variable (hs : Sound s past) (hv : s.Live i)
include hs hv

lemma Sound.climb (ne : i ≠ s.root) (hf : (s.bank i).state = .frozen)
    (he : above s.live (fun j => s.bankSeq - (s.bank j).seq) i < n) :
    ∃ r, s.climb n i = .ok r ∧ r ∈ s.children s.root ∧ (s.bank r).state = .frozen := by
  induction n generalizing i with
  | zero => exact absurd he (Nat.not_lt_zero _)
  | succ n ih =>
    obtain ⟨p, hp, up, ho⟩ := hs.links.up i hv ne
    rw [climb, hp]
    dsimp only
    by_cases ht : p = s.root
    · rw [if_pos ht]
      rw [ht] at hp
      exact ⟨i, rfl, (hs.links.mem_children s.root hs.links.root_live i).mpr ⟨hv, hp⟩, hf⟩
    · rw [if_neg ht]
      have hy := hs.marks.seq i hv
      have hl : above s.live (fun j => s.bankSeq - (s.bank j).seq) p <
          above s.live (fun j => s.bankSeq - (s.bank j).seq) i := by
        refine above_lt (hs.pool.mem_live.mpr up) ?_
        omega
      exact ih up ht (hs.states.frozen i p (.inr hf) hp) (lt_of_lt_of_le hl (Nat.le_of_lt_succ he))

lemma Sound.advanceRootPrepare (hf : (s.bank i).state = .frozen) :
    ∃ o, s.advanceRootPrepare i = .ok o ∧ ∀ r, o = some r → r ∈ s.children s.root ∧ (s.bank r).state = .frozen ∧
      (s.bank s.root).refcnt = 0 ∧ ∀ j, s.Live j → ¬Reaches s.children r j → (s.bank j).refcnt = 0 := by
  unfold Banks.advanceRootPrepare
  by_cases ht : s.root = i
  · rw [if_pos ht]
    exact ⟨none, rfl, nofun⟩
  rw [if_neg ht]
  by_cases hh : (s.bank s.root).refcnt ≠ 0
  · rw [if_pos hh]
    exact ⟨none, rfl, nofun⟩
  rw [if_neg hh]
  have hw : above s.live (fun j => s.bankSeq - (s.bank j).seq) i < s.maxTotalBanks :=
    lt_of_lt_of_le (above_lt_length (hs.pool.mem_live.mpr hv)) (live_length s)
  obtain ⟨r, hc, hi, hf⟩ := hs.climb hv (Ne.symm ht) hf hw
  rw [hc]
  dsimp only [bind, Except.bind]
  by_cases ha : ((s.children s.root).all fun c => c = r || s.subtreeCanBePruned s.maxTotalBanks c) = true
  · rw [if_pos ha, require_of _ _ hf]
    refine ⟨some r, rfl, ?_⟩
    rintro r' ⟨⟩
    refine ⟨hi, hf, not_not.mp hh, fun j hv ne => ?_⟩
    rcases Relation.ReflTransGen.cases_head (hs.links.below_root hv) with rfl | ⟨c, hk, hp⟩
    · exact not_not.mp hh
    · have he := all_eq_true.mp ha c hk
      rw [Bool.or_eq_true] at he
      rcases he with eq | ha
      · rw [of_decide_eq_true eq] at hp
        exact absurd hp ne
      · have hb := ((hs.links.mem_children s.root hs.links.root_live c).mp hk).1
        refine canBePruned_refcnt hs.links hs.pool hb ?_ ha hp
        exact lt_of_lt_of_le (above_lt_length (hs.pool.mem_live.mpr hb)) (live_length s)
  · rw [if_neg ha]
    exact ⟨none, rfl, nofun⟩

lemma Sound.advance (hf : (s.bank i).state = .frozen) : ∃ t, s.advance i = .ok t ∧ Sound t past := by
  obtain ⟨o, hp, hr⟩ := hs.advanceRootPrepare hv hf
  unfold Banks.advance
  rw [hp]
  dsimp only [bind, Except.bind]
  cases o with
  | none => exact ⟨s, rfl, hs⟩
  | some r =>
    obtain ⟨hk, hf, ho, hi⟩ := hr r rfl
    exact hs.advanceRoot hk hf ho hi

end Firebam.Forks
