import Firebam.Forks.Relabel

/-! A new bank becomes the last child of its parent. -/
namespace Firebam.Forks
open List Lib Banks

variable {s t : Banks} {past : Past} {i j p c : Idx} {free : List Idx}

structure Grown (s t : Banks) (p i : Idx) (free : List Idx) : Prop where
  free : s.free = i :: free ∧ t.free = free
  maxTotalBanks : t.maxTotalBanks = s.maxTotalBanks
  root : t.root = s.root
  bankSeq : t.bankSeq = s.bankSeq + 1
  costTrackers : t.costTrackers = s.costTrackers
  prunable : t.prunable = s.prunable
  dead : t.dead = s.dead
  currForkWidth : t.currForkWidth = s.currForkWidth + if s.children p = [] then 0 else 1
  new : (t.bank i).seq = s.bankSeq ∧ (t.bank i).parent = some p ∧ (t.bank i).child = none ∧ (t.bank i).state = .init ∧
    (t.bank i).costTracker = (s.bank i).costTracker
  old : ∀ j, j ≠ i → (t.bank j).seq = (s.bank j).seq ∧ (t.bank j).parent = (s.bank j).parent ∧
    (t.bank j).state = (s.bank j).state ∧ (t.bank j).costTracker = (s.bank j).costTracker
  child : ∀ j, j ≠ i → j ≠ p → (t.bank j).child = (s.bank j).child
  sibling : ∀ j, j ≠ i → j ∉ s.children p → (t.bank j).sibling = (s.bank j).sibling
  chain : Chain (fun j => (t.bank j).sibling) (t.bank p).child (s.children p ++ [i])

section
variable (links : Links s) (pool : Pool s) (up : s.Live p) (hn : ¬s.Live i) (isLeader : Bool)
include links pool up hn isLeader

lemma acquire_children :
    ((s.acquire i free isLeader).modify i fun b => { b with parent := some p }).children p = s.children p := by
  have ne : p ≠ i := fun eq => hn (eq ▸ up)
  unfold children
  have hf : (((s.acquire i free isLeader).modify i fun b => { b with parent := some p }).bank p).child =
      (s.bank p).child := by
    simp only [acquire, modify_bank, if_neg ne]
  rw [hf]
  refine Chain.follow ((links.chain p up).congr fun x hk => ?_) ?_
  · have ho : x ≠ i := fun eq => hn (eq ▸ ((links.mem_children p up x).mp hk).1)
    simp only [acquire, modify_bank, if_neg ho]
  · exact pool.length_le (links.chain p up).nodup fun x hk => ((links.mem_children p up x).mp hk).1

lemma link_grown (hi : s.free = i :: free) : Grown s ((s.acquire i free isLeader).link p i) p i free := by
  have ne : p ≠ i := fun eq => hn (eq ▸ up)
  have hk : ∀ x ∈ s.children p, x ≠ i := fun x hd eq => hn (eq ▸ ((links.mem_children p up x).mp hd).1)
  have hc := links.chain p up
  unfold link
  dsimp only
  rw [acquire_children links pool up hn]
  cases hl : (s.children p).getLast? with
  | none =>
    have he := getLast?_eq_none_iff.mp hl
    refine ⟨⟨hi, rfl⟩, rfl, rfl, rfl, rfl, rfl, rfl, ?_, ?_, ?_, ?_, ?_, ?_⟩
    · rw [if_pos he]
      rfl
    · simp only [acquire, modify_bank, if_true, if_neg ne.symm, and_self]
    · intro j ht
      simp only [acquire, modify_bank, if_neg ht]
      split <;> exact ⟨rfl, rfl, rfl, rfl⟩
    · intro j ht hr
      simp only [acquire, modify_bank, if_neg ht, if_neg hr]
    · intro j ht _
      simp only [acquire, modify_bank, if_neg ht]
      split <;> rfl
    · rw [he]
      simp only [acquire, modify_bank, if_true, nil_append]
      refine ⟨rfl, ?_⟩
      simp only [if_true, if_neg ne.symm]
      rfl
  | some q =>
    obtain ⟨a, split⟩ := getLast?_eq_some_iff.mp hl
    have hf : s.children p ≠ [] := by
      rw [split]
      exact append_ne_nil_of_right_ne_nil _ (cons_ne_nil _ _)
    have hd : q ∈ s.children p := split ▸ mem_append_right _ (.head _)
    have hb : q ≠ i := hk q hd
    refine ⟨⟨hi, rfl⟩, rfl, rfl, rfl, rfl, rfl, rfl, ?_, ?_, ?_, ?_, ?_, ?_⟩
    · rw [if_neg hf]
      rfl
    · simp only [acquire, modify_bank, if_true, if_neg hb.symm, and_self]
    · intro j ht
      simp only [acquire, modify_bank, if_neg ht]
      split <;> exact ⟨rfl, rfl, rfl, rfl⟩
    · intro j ht _
      simp only [acquire, modify_bank, if_neg ht]
      split <;> rfl
    · intro j ht ho
      have hr : j ≠ q := fun eq => ho (eq ▸ hd)
      simp only [acquire, modify_bank, if_neg ht, if_neg hr]
    · rw [split] at hc hk ⊢
      have ha : q ∉ a := fun hg => by
        have nd := hc.nodup
        exact (nodup_append.mp nd).2.2 q hg q (.head _) rfl
      have hh : (({ ((s.acquire i free isLeader).modify i fun b => { b with parent := some p }).modify q
          fun b => { b with sibling := some i } with currForkWidth := s.currForkWidth + 1 } : Banks).bank p).child =
          (s.bank p).child := by
        simp only [acquire, modify_bank, if_neg ne]
        split <;> rfl
      refine hh.symm ▸ hc.concat ?_ ?_ ?_
      · simp only [acquire, modify_bank, if_true, if_neg hb]
      · simp only [acquire, modify_bank, if_true, if_neg hb.symm]
      · intro x hm
        have ht : x ≠ i := hk x (mem_append_left _ hm)
        have hr : x ≠ q := fun eq => ha (eq ▸ hm)
        simp only [acquire, modify_bank, if_neg ht, if_neg hr]

end

namespace Grown

variable (hg : Grown s t p i free)
include hg

lemma live : t.Live j ↔ s.Live j ∨ j = i := by
  unfold Live
  by_cases eq : j = i
  · rw [eq, hg.new.2.2.2.1]
    exact iff_of_true nofun (.inr rfl)
  · rw [(hg.old j eq).2.2.1, or_iff_left eq]

lemma entry (ne : j ≠ i) : t.entry j = s.entry j :=
  congrArg (Entry.mk j) (hg.old j ne).1

lemma pool (pool : Pool s) : Pool t := by
  obtain ⟨hb, ha⟩ := hg.free
  have nd := pool.nodup
  rw [hb, nodup_cons] at nd
  have m := (pool.mem_free i).mp (hb ▸ .head _)
  refine ⟨ha ▸ nd.2, ?_, ?_⟩
  · intro j
    rw [ha, hg.maxTotalBanks, hg.live, not_or, ← and_assoc, ← pool.mem_free, hb, mem_cons]
    constructor
    · intro hm
      refine ⟨.inr hm, ?_⟩
      rintro rfl
      exact nd.1 hm
    · rintro ⟨rfl | hm, ne⟩
      · exact absurd rfl ne
      · exact hm
  · intro j hh
    rw [hg.maxTotalBanks]
    rcases hg.live.mp hh with hh | rfl
    · exact pool.bounded j hh
    · exact m.1

lemma links (links : Links s) (hp : Pool s) (up : s.Live p) (hc : ¬s.Live i)
    (hy : (s.bank p).seq < s.bankSeq) : Links t := by
  have ne : ∀ {j}, s.Live j → j ≠ i := fun hh eq => hc (eq ▸ hh)
  refine Links.of (hg.pool hp)
    (fun j => if j = i then [] else if j = p then s.children p ++ [i] else s.children j) ?_ ?_ ?_ ?_ ?_ ?_
  · rw [hg.root, hg.live]
    exact .inl links.root_live
  · rw [hg.root, (hg.old _ (ne links.root_live)).2.1]
    exact links.root_parent
  · rw [hg.root, hg.sibling _ (ne links.root_live)]
    · exact links.root_sibling
    · intro hk
      have ha := ((links.mem_children p up s.root).mp hk).2
      rw [links.root_parent] at ha
      cases ha
  · intro j hh
    by_cases hw : j = i
    · rw [if_pos hw, hw]
      exact hg.new.2.2.1
    · rw [if_neg hw]
      by_cases eq : j = p
      · rw [if_pos eq, eq]
        exact hg.chain
      · rw [if_neg eq, hg.child j hw eq]
        have hh := (hg.live.mp hh).resolve_right hw
        refine (links.chain j hh).congr fun x hk => ?_
        obtain ⟨hl, ha⟩ := (links.mem_children j hh x).mp hk
        refine hg.sibling x (ne hl) fun ho => eq ?_
        have hb := ((links.mem_children p up x).mp ho).2
        rw [ha] at hb
        exact Option.some.inj hb
  · intro j hh c
    rw [hg.live]
    by_cases ht : c = i
    · rw [ht, hg.new.2.1, Option.some.injEq, and_iff_right (.inr rfl)]
      have hn : ∀ {j}, s.Live j → i ∉ s.children j := fun hh hk => hc ((links.mem_children _ hh i).mp hk).1
      by_cases hw : j = i
      · rw [if_pos hw, hw]
        exact iff_of_false not_mem_nil (ne up)
      · rw [if_neg hw]
        by_cases eq : j = p
        · rw [if_pos eq]
          exact iff_of_true (mem_append_right _ (.head _)) eq.symm
        · rw [if_neg eq]
          exact iff_of_false (hn ((hg.live.mp hh).resolve_right hw)) (Ne.symm eq)
    · rw [or_iff_left ht, (hg.old c ht).2.1]
      by_cases hw : j = i
      · rw [if_pos hw, hw]
        refine iff_of_false not_mem_nil ?_
        rintro ⟨hl, ha⟩
        exact hc (links.parent_live hl ha).1
      · rw [if_neg hw]
        have hh := (hg.live.mp hh).resolve_right hw
        by_cases eq : j = p
        · rw [if_pos eq, mem_append, mem_singleton, or_iff_left ht, eq]
          exact links.mem_children p up c
        · rw [if_neg eq]
          exact links.mem_children j hh c
  · intro j hh ho
    by_cases hw : j = i
    · refine ⟨p, ?_, hg.live.mpr (.inl up), ?_⟩
      · rw [hw]
        exact hg.new.2.1
      · rw [hw, hg.new.1, (hg.old p (ne up)).1]
        exact hy
    · rw [hg.root] at ho
      have hh := (hg.live.mp hh).resolve_right hw
      obtain ⟨q, ha, hl, he⟩ := links.up j hh ho
      refine ⟨q, (hg.old j hw).2.1.trans ha, hg.live.mpr (.inl hl), ?_⟩
      rw [(hg.old q (ne hl)).1, (hg.old j hw).1]
      exact he

lemma dead_parent {j q : Idx} (hl : Links s) (ho : ¬s.Live i) (up : s.Live p)
    (he : (s.bank p).state ≠ .dead) (hh : t.Live j) (ha : (t.bank j).parent = some q)
    (hd : (t.bank q).state = .dead) : j ≠ i ∧ s.Live j ∧ (s.bank j).parent = some q ∧ (s.bank q).state = .dead := by
  have ne : ∀ {j}, s.Live j → j ≠ i := fun hh eq => ho (eq ▸ hh)
  by_cases hn : j = i
  · rw [hn, hg.new.2.1] at ha
    cases ha
    rw [(hg.old p (ne up)).2.2.1] at hd
    exact absurd hd he
  · have hh := (hg.live.mp hh).resolve_right hn
    rw [(hg.old j hn).2.1] at ha
    rw [(hg.old q (ne (hl.parent_live hh ha).1)).2.2.1] at hd
    exact ⟨hn, hh, ha, hd⟩

lemma states (states : States s) (hl : Links s) (ho : ¬s.Live i)
    (hi : (s.bank p).state ≠ .dead) (up : s.Live p) : States t := by
  have ne : ∀ {j}, s.Live j → j ≠ i := fun hh eq => ho (eq ▸ hh)
  have hf := hg.new.2.2.2.1
  refine ⟨?_, ?_, ?_⟩
  · rw [hg.root, (hg.old _ (ne hl.root_live)).2.2.1]
    exact states.root
  · intro j q hh ha hd
    obtain ⟨hn, hh, ha, hd⟩ := hg.dead_parent hl ho up hi hh ha hd
    rw [(hg.old j hn).2.2.1]
    exact states.dead j q hh ha hd
  · intro j q hc ha
    have hn : j ≠ i := by
      rintro rfl
      rw [hf] at hc
      rcases hc with hs | hs <;> cases hs
    rw [(hg.old j hn).2.2.1] at hc
    rw [(hg.old j hn).2.1] at ha
    have hh : s.Live j := by
      unfold Live
      rcases hc with hs | hs <;> rw [hs] <;> decide
    rw [(hg.old q (ne (hl.parent_live hh ha).1)).2.2.1]
    exact states.frozen j q hc ha

lemma pending (pending : Pending s) (ho : ¬s.Live i) (hk : (s.bank p).state ≠ .prunable) : Pending t := by
  have hi : (s.bank i).state = .inactive := not_not.mp ho
  refine ⟨?_, ?_⟩
  · intro j
    rw [hg.prunable, ← pending.iff]
    by_cases hn : j = i
    · rw [hn, hg.new.2.2.2.1, hi]
      exact iff_of_false nofun nofun
    · rw [(hg.old j hn).2.2.1]
  · intro j hw
    by_cases hn : j = i
    · rw [hn, hg.new.2.2.2.1] at hw
      cases hw
    · rw [(hg.old j hn).2.2.1] at hw
      rw [hg.child j hn]
      · exact pending.leaf j hw
      · rintro rfl
        exact hk hw

lemma marked (hm : Marks s) (ho : ¬s.Live i) : t.marked = s.marked := by
  have hi : (s.bank i).state = .inactive := not_not.mp ho
  unfold Banks.marked
  rw [hg.dead]
  refine congrArg _ (filter_congr fun e hx => congrArg _ ?_)
  unfold stale
  by_cases hn : e.idx = i
  · -- the entry is older than the bank that has its place now
    have hl := hm.old e hx
    have ne : s.bankSeq ≠ e.seq := by omega
    rw [hn, hg.new.1, hi]
    simp [ne]
  · rw [(hg.old _ hn).1, (hg.old _ hn).2.2.1]

lemma marks (marks : Marks s) (hl : Links s) (ho : ¬s.Live i) (up : s.Live p)
    (he : (s.bank p).state ≠ .dead) : Marks t := by
  have hi : (s.bank i).state = .inactive := not_not.mp ho
  have hm := hg.marked marks ho
  refine ⟨?_, ?_, ?_, ?_, ?_⟩
  · intro j
    rw [hm, ← marks.iff]
    by_cases hn : j = i
    · rw [hn, hg.new.2.2.2.1, hi]
      exact iff_of_false nofun nofun
    · rw [(hg.old j hn).2.2.1]
  · rw [hm]
    exact marks.nodup
  · intro j q hh ha hd
    rw [hm]
    obtain ⟨-, hh, ha, hd⟩ := hg.dead_parent hl ho up he hh ha hd
    exact marks.order j q hh ha hd
  · intro e hx
    rw [hg.dead] at hx
    rw [hg.bankSeq]
    exact Nat.lt_succ_of_lt (marks.old e hx)
  · intro j hh
    rw [hg.bankSeq]
    by_cases hn : j = i
    · rw [hn, hg.new.1]
      exact Nat.lt_succ_self _
    · rw [(hg.old j hn).1]
      exact Nat.lt_succ_of_lt (marks.seq j ((hg.live.mp hh).resolve_right hn))

lemma trackers (trackers : Trackers s past) (ho : ¬s.Live i) : Trackers t past := by
  have ht : ∀ j, (t.bank j).costTracker = (s.bank j).costTracker := by
    intro j
    by_cases he : j = i
    · rw [he]
      exact hg.new.2.2.2.2
    · exact (hg.old j he).2.2.2
  have hn : t.entry i ∉ past.cloned := by
    intro hm
    have hd := trackers.old _ hm
    have hq : (t.entry i).seq = s.bankSeq := hg.new.1
    omega
  refine ⟨⟨hg.costTrackers ▸ trackers.nodup, ?_, ?_⟩, ?_, ?_, ?_, ?_, trackers.sub, ?_⟩
  · intro j k
    rw [ht, hg.costTrackers]
    exact trackers.apart j k
  · intro j j' k
    rw [ht, ht]
    exact trackers.unique j j' k
  · intro j hh
    rw [ht]
    exact trackers.inactive j fun hl => hh (hg.live.mpr (.inl hl))
  · intro j hh
    rw [ht]
    by_cases he : j = i
    · rw [he, trackers.inactive i ho]
      exact iff_of_false (fun ne => ne rfl) fun hb => hn hb.1
    · rw [hg.entry he]
      exact trackers.held j ((hg.live.mp hh).resolve_right he)
  · intro j hs
    by_cases he : j = i
    · rw [he]
      exact hn
    · rw [hg.entry he]
      rw [(hg.old j he).2.2.1] at hs
      exact trackers.init j hs
  · intro j hs
    by_cases he : j = i
    · rw [he, hg.new.2.2.2.1] at hs
      cases hs
    · rw [hg.entry he]
      rw [(hg.old j he).2.2.1] at hs
      exact trackers.replayable j hs
  · intro e hm
    rw [hg.bankSeq]
    exact Nat.lt_succ_of_lt (trackers.old e hm)

lemma width (hl : Links s) (hp : Pool s) (up : s.Live p) (ho : ¬s.Live i)
    (width : s.currForkWidth = s.live.countP s.leaf) : t.currForkWidth = t.live.countP t.leaf := by
  let others := s.live.filter fun j => j ≠ p
  have ne : ∀ {j}, s.Live j → j ≠ i := fun hh eq => ho (eq ▸ hh)
  have hm : ∀ j, j ∈ others ↔ s.Live j ∧ j ≠ p := by
    intro j
    rw [mem_filter, hp.mem_live, decide_eq_true_iff]
  have nd : (p :: others).Nodup :=
    nodup_cons.mpr ⟨fun m => ((hm p).mp m).2 rfl, (live_nodup s).filter _⟩
  have hx : ∀ j, j ∈ p :: others ↔ s.Live j := by
    intro j
    rw [mem_cons, hm]
    constructor
    · rintro (rfl | m)
      · exact up
      · exact m.1
    · tauto
  have hb : s.live.Perm (p :: others) := hp.live_perm nd hx
  have ha : t.live.Perm (i :: p :: others) := by
    refine (hg.pool hp).live_perm (nodup_cons.mpr ⟨?_, nd⟩) fun j => ?_
    · rw [hx]
      exact ho
    · rw [mem_cons, hx, hg.live, or_comm]
  have hs : others.countP t.leaf = others.countP s.leaf := by
    refine countP_congr fun j m => ?_
    obtain ⟨hh, hr⟩ := (hm j).mp m
    rw [leaf, leaf, hg.child j (ne hh) hr]
  have hf : t.leaf i = true := decide_eq_true hg.new.2.2.1
  have he : t.leaf p = false := by
    refine decide_eq_false ?_
    rw [hg.chain.first_eq]
    simp
  have ht : s.leaf p = decide (s.children p = []) := decide_eq_decide.mpr (hl.child_none up)
  have hc : t.live.countP t.leaf = others.countP s.leaf + 1 := by
    rw [ha.countP_eq, countP_cons_of_pos hf, countP_cons_of_neg (by rw [he]; decide), hs]
  rw [hg.currForkWidth, width, hc, hb.countP_eq, countP_cons, ht]
  by_cases hy : s.children p = []
  · simp [hy]
  · simp [hy]

end Grown

lemma Sound.newBank (hs : Sound s past) (hr : s.free ≠ []) (up : s.Live p) (ha : (s.bank p).state ≠ .dead)
    (hk : (s.bank p).state ≠ .prunable) (isLeader : Bool) : ∃ t, s.newBank p isLeader = .ok t ∧ Sound t past := by
  unfold Banks.newBank
  cases hf : s.free with
  | nil => exact absurd hf hr
  | cons i free =>
    have ho : ¬s.Live i := ((hs.pool.mem_free i).mp (hf ▸ .head _)).2
    have ne : p ≠ i := fun eq => ho (eq ▸ up)
    have ht : ((s.acquire i free isLeader).bank p).state = (s.bank p).state := by
      simp only [acquire, modify_bank, if_neg ne]
    have hg := link_grown hs.links hs.pool up ho isLeader hf
    refine ⟨(s.acquire i free isLeader).link p i, ?_, ?_⟩
    · dsimp only
      rw [check_of _ (not_not.mp ho), check_of]
      rw [ht]
      exact ⟨up, ha, hk⟩
    · refine ⟨⟨hg.pool hs.pool, ?_, ?_, ?_⟩, ?_, ?_, ?_⟩
      · exact hg.pending hs.pending ho hk
      · exact hg.marks hs.marks hs.links ho up ha
      · exact hg.trackers hs.trackers ho
      · exact hg.links hs.links hs.pool up ho (hs.marks.seq p up)
      · exact hg.states hs.states hs.links ho ha up
      · exact hg.width hs.links hs.pool up ho hs.width

end Firebam.Forks
