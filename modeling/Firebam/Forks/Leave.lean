import Firebam.Forks.Dead

namespace Firebam.Forks
open List Lib Banks

variable {s t : Banks} {past : Past} {i j p c : Idx} {l : List Idx}

def Banks.drop (s : Banks) (i : Idx) : Banks :=
  { s with
    bank := fun j =>
      if j = i then { s.bank j with costTracker := none, delegations := false, state := .inactive } else s.bank j
    free := i :: s.free
    costTrackers := (s.bank i).costTracker.toList ++ s.costTrackers
    prunable := s.prunable.filter (· ≠ i) }

def Banks.dropAll (s : Banks) (l : List Idx) : Banks := l.foldl drop s

lemma drop_changes (s : Banks) (i : Idx) :
    Changes s (s.drop i) i { s.bank i with costTracker := none, delegations := false, state := .inactive } :=
  ⟨if_pos rfl, fun _ ne => if_neg ne⟩

lemma drop_keeps {β : Type} (field : Bank → β) (j : Idx)
    (hs : ∀ b, field { b with costTracker := none, delegations := false, state := .inactive } = field b) :
    field ((s.drop i).bank j) = field (s.bank j) := by
  by_cases eq : j = i
  · rw [eq, (drop_changes s i).here, hs]
  · rw [(drop_changes s i).there j eq]

lemma drop_live : (s.drop i).Live j ↔ s.Live j ∧ j ≠ i := by
  unfold Live
  by_cases eq : j = i
  · subst eq
    rw [(drop_changes s j).here]
    exact iff_of_false (fun hl => hl rfl) fun hb => hb.2 rfl
  · rw [(drop_changes s i).there j eq]
    exact (and_iff_left eq).symm

lemma drop_children : (s.drop i).children = s.children := by
  have hs : (fun j => ((s.drop i).bank j).sibling) = fun j => (s.bank j).sibling :=
    funext fun j => drop_keeps Bank.sibling j fun _ => rfl
  funext j
  unfold children
  rw [hs, drop_keeps Bank.child j fun _ => rfl]
  rfl

lemma drop_leaf : (s.drop i).leaf = s.leaf := by
  funext j
  rw [leaf, leaf, drop_keeps Bank.child j fun _ => rfl]

lemma releaseCostTracker_eq (s : Banks) (i : Idx) : s.releaseCostTracker i =
    { s.modify i fun b => { b with costTracker := none } with
      costTrackers := (s.bank i).costTracker.toList ++ s.costTrackers } := by
  unfold releaseCostTracker
  cases ht : (s.bank i).costTracker with
  | some k => rfl
  | none =>
    have hs : (fun j => if j = i then { s.bank j with costTracker := none } else s.bank j) = s.bank := by
      funext j
      split_ifs with eq
      · subst eq
        rw [← ht]
      · rfl
    unfold Banks.modify
    dsimp only [Option.toList_none, nil_append]
    rw [hs]

lemma retire_eq (hp : Pending s) : s.retire i = .ok (s.drop i) := by
  unfold retire
  rw [releaseCostTracker_eq, clearPrunable_eq ?_]
  · dsimp only [bind, Except.bind]
    refine congrArg Except.ok ?_
    unfold Banks.drop Banks.modify
    congr 1
    funext j
    by_cases eq : j = i
    · simp [eq]
    · simp [eq]
  · simp only [modify_bank, if_true]
    exact hp.iff i

lemma Pool.drop (hp : Pool s) (hl : s.Live i) : Pool (s.drop i) := by
  refine ⟨?_, ?_, ?_⟩
  · exact nodup_cons.mpr ⟨fun hm => ((hp.mem_free i).mp hm).2 hl, hp.nodup⟩
  · intro j
    rw [drop_live]
    change j ∈ i :: s.free ↔ j < s.maxTotalBanks ∧ _
    rw [mem_cons, hp.mem_free]
    by_cases eq : j = i
    · subst eq
      simp [hp.bounded j hl]
    · simp [eq]
  · intro j hh
    exact hp.bounded j (drop_live.mp hh).1

lemma Pending.drop (hp : Pending s) : Pending (s.drop i) := by
  refine ⟨?_, ?_⟩
  · intro j
    change _ ↔ s.prunable.filter (· ≠ i) = some j
    rw [Option.filter_eq_some_iff, ← hp.iff]
    by_cases eq : j = i
    · rw [eq, (drop_changes s i).here]
      simp
    · rw [(drop_changes s i).there j eq]
      simp [eq]
  · intro j hw
    rw [drop_keeps Bank.child j fun _ => rfl]
    by_cases eq : j = i
    · rw [eq, (drop_changes s i).here] at hw
      cases hw
    · rw [(drop_changes s i).there j eq] at hw
      exact hp.leaf j hw

lemma drop_marked : (s.drop i).marked = s.marked.filter (· ≠ i) := by
  unfold marked
  rw [filter_map, filter_filter]
  refine congrArg _ (filter_congr fun e _ => ?_)
  unfold stale
  by_cases eq : e.idx = i
  · rw [eq, (drop_changes s i).here]
    simp [eq]
  · rw [(drop_changes s i).there _ eq]
    simp [eq]

lemma Marks.drop (hm : Marks s) : Marks (s.drop i) := by
  have hd : ∀ j, ((s.drop i).bank j).state = .dead ↔ (s.bank j).state = .dead ∧ j ≠ i := by
    intro j
    by_cases eq : j = i
    · rw [eq, (drop_changes s i).here]
      exact iff_of_false nofun fun hb => hb.2 rfl
    · rw [(drop_changes s i).there j eq]
      exact (and_iff_left eq).symm
  refine ⟨?_, ?_, ?_, hm.old, ?_⟩
  · intro j
    rw [hd, drop_marked, mem_filter, hm.iff]
    simp
  · rw [drop_marked]
    exact hm.nodup.filter _
  · intro j p hl hp hg
    obtain ⟨hl, ne⟩ := drop_live.mp hl
    obtain ⟨hg, ht⟩ := (hd p).mp hg
    rw [drop_keeps Bank.parent j fun _ => rfl] at hp
    rw [drop_marked]
    have ho := (hm.order j p hl hp hg).filter (· ≠ i)
    have hb : [j, p].filter (· ≠ i) = [j, p] := by simp [ne, ht]
    rwa [hb] at ho
  · intro j hl
    rw [drop_keeps Bank.seq j fun _ => rfl]
    exact hm.seq j (drop_live.mp hl).1

lemma drop_entry : (s.drop i).entry j = s.entry j := congrArg (Entry.mk j) (drop_keeps Bank.seq j fun _ => rfl)

lemma Trackers.drop (ht : Trackers s past) : Trackers (s.drop i) past := by
  have hc := drop_changes s i
  refine ⟨ht.toHolders.giveBack hc rfl rfl, ?_, ?_, ?_, ?_, ht.sub, ht.old⟩
  · intro j hg
    by_cases eq : j = i
    · rw [eq, hc.here]
    · rw [hc.there j eq]
      exact ht.inactive j fun hl => hg (drop_live.mpr ⟨hl, eq⟩)
  · intro j hl
    obtain ⟨hl, ne⟩ := drop_live.mp hl
    rw [hc.there j ne, drop_entry]
    exact ht.held j hl
  all_goals
    intro j hs
    rw [drop_entry]
    by_cases eq : j = i
    · rw [eq, hc.here] at hs
      cases hs
    · rw [hc.there j eq] at hs
      first | exact ht.init j hs | exact ht.replayable j hs

lemma Core.drop (hc : Core s past) (hl : s.Live i) : Core (s.drop i) past :=
  ⟨hc.pool.drop hl, hc.pending.drop, hc.marks.drop, hc.trackers.drop⟩

lemma Core.dropAll (hc : Core s past) (nd : l.Nodup) (hl : ∀ j ∈ l, s.Live j) : Core (s.dropAll l) past := by
  induction l generalizing s with
  | nil => exact hc
  | cons i l ih =>
    obtain ⟨hn, nd⟩ := nodup_cons.mp nd
    refine ih (hc.drop (hl i (.head _))) nd fun j hm => drop_live.mpr ⟨?_, ?_⟩
    · exact hl j (.tail _ hm)
    · rintro rfl
      exact hn hm

lemma dropAll_live : (s.dropAll l).Live j ↔ s.Live j ∧ j ∉ l := by
  induction l generalizing s with
  | nil => simp [dropAll]
  | cons i l ih =>
    refine (ih (s := s.drop i)).trans ?_
    rw [drop_live, mem_cons, not_or, and_assoc]

lemma dropAll_bank (hn : j ∉ l) : (s.dropAll l).bank j = s.bank j := by
  induction l generalizing s with
  | nil => rfl
  | cons i l ih =>
    rw [mem_cons, not_or] at hn
    refine (ih (s := s.drop i) hn.2).trans ?_
    exact (drop_changes s i).there j hn.1

lemma dropAll_rest (s : Banks) (l : List Idx) : (s.dropAll l).maxTotalBanks = s.maxTotalBanks ∧
    (s.dropAll l).currForkWidth = s.currForkWidth ∧ (s.dropAll l).root = s.root := by
  induction l generalizing s with
  | nil => exact ⟨rfl, rfl, rfl⟩
  | cons i l ih => exact ih (s.drop i)

end Firebam.Forks
