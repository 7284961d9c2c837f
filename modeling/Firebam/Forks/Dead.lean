import Firebam.Forks.Relabel

/-! A bank is marked dead with all that is below it. -/
namespace Firebam.Forks
open List Lib Banks

variable {s : Banks} {past : Past} {i j p c : Idx} {l done idxs : List Idx}

def Banks.mark (s : Banks) (l : List Idx) : Banks :=
  { s with
    bank := fun j => if j ∈ l then { s.bank j with state := .dead } else s.bank j
    prunable := s.prunable.filter (· ∉ l)
    dead := (l.map s.entry).reverse ++ s.dead }

lemma mark_nil (s : Banks) : s.mark [] = s := by
  have hp : s.prunable.filter (· ∉ ([] : List Idx)) = s.prunable := by
    cases s.prunable <;> rfl
  unfold mark
  rw [hp]
  simp

lemma mark_bank (hm : j ∈ l) : (s.mark l).bank j = { s.bank j with state := .dead } := if_pos hm

lemma mark_bank_of_not_mem (ne : j ∉ l) : (s.mark l).bank j = s.bank j := if_neg ne

lemma mark_state : ((s.mark l).bank j).state = if j ∈ l then .dead else (s.bank j).state := by
  by_cases hm : j ∈ l
  · rw [mark_bank hm, if_pos hm]
  · rw [mark_bank_of_not_mem hm, if_neg hm]

lemma mark_keeps {β : Type} (field : Bank → β) (hs : ∀ b, field { b with state := .dead } = field b) (j : Idx) :
    field ((s.mark l).bank j) = field (s.bank j) := by
  by_cases hm : j ∈ l
  · rw [mark_bank hm, hs]
  · rw [mark_bank_of_not_mem hm]

lemma mark_relabelled (hl : ∀ j ∈ l, s.Live j) : Relabelled s (s.mark l) := by
  refine ⟨rfl, rfl, rfl, rfl, rfl, mark_keeps _ fun _ => rfl, mark_keeps _ fun _ => rfl, mark_keeps _ fun _ => rfl,
    mark_keeps _ fun _ => rfl, ?_⟩
  intro j
  by_cases hm : j ∈ l
  · unfold Live
    rw [mark_bank hm]
    exact iff_of_true nofun (hl j hm)
  · unfold Live
    rw [mark_bank_of_not_mem hm]

lemma mark_children : (s.mark l).children = s.children := by
  have hs : (fun j => ((s.mark l).bank j).sibling) = fun j => (s.bank j).sibling :=
    funext (mark_keeps Bank.sibling fun _ => rfl)
  funext i
  unfold children
  rw [hs, mark_keeps Bank.child fun _ => rfl]
  rfl

lemma mark_prunable : (s.mark l).prunable = some j ↔ s.prunable = some j ∧ j ∉ l := by
  change s.prunable.filter (· ∉ l) = some j ↔ _
  rw [Option.filter_eq_some_iff]
  simp

lemma mark_markOne (he : Pending s) (hn : i ∉ done) (hr : s.dead.length + done.length < deadMax) :
    (s.mark done).markOne i = .ok (s.mark (done ++ [i])) := by
  have hs : (s.mark done).dead.length < deadMax := by
    simp only [mark, length_append, length_reverse, length_map]
    omega
  have hi : ((s.mark done).bank i).state = .prunable ↔ (s.mark done).prunable = some i := by
    rw [mark_bank_of_not_mem hn, mark_prunable, and_iff_left hn]
    exact he.iff i
  have hp : (s.mark done).prunable.filter (· ≠ i) = (s.mark (done ++ [i])).prunable := by
    dsimp only [mark]
    cases s.prunable with
    | none => rfl
    | some j =>
      by_cases hm : j ∈ done
      · simp [Option.filter, hm]
      · simp [Option.filter, hm]
  unfold markOne
  rw [clearPrunable_eq hi, hp]
  dsimp only [bind, Except.bind]
  rw [require_of _ _ hs]
  refine congrArg Except.ok ?_
  unfold Banks.mark Banks.modify Banks.entry
  congr 1
  · funext j
    by_cases eq : j = i
    · subst eq
      simp [hn]
    · simp [eq]
  · simp [hn]

lemma subtreeMarkDead_fold {n : Nat} {cs : List Idx}
    (he : ∀ c ∈ cs, ∀ done idxs, (done ++ s.subtree c).Nodup → s.dead.length + (done ++ s.subtree c).length ≤ deadMax →
      subtreeMarkDead n c (s.mark done, idxs) = .ok (s.mark (done ++ s.subtree c), idxs ++ s.subtree c))
    (nd : (done ++ cs.flatMap s.subtree).Nodup)
    (hr : s.dead.length + (done ++ cs.flatMap s.subtree).length ≤ deadMax) :
    cs.foldlM (fun r c => subtreeMarkDead n c r) (s.mark done, idxs) =
      .ok (s.mark (done ++ cs.flatMap s.subtree), idxs ++ cs.flatMap s.subtree) := by
  induction cs generalizing done idxs with
  | nil =>
    rw [flatMap_nil, append_nil, append_nil]
    rfl
  | cons c cs ih =>
    rw [flatMap_cons, ← append_assoc] at nd hr
    have hs : s.dead.length + (done ++ s.subtree c).length ≤ deadMax := by
      simp only [length_append] at hr ⊢
      omega
    rw [foldlM_cons, he c mem_cons_self done idxs (List.Nodup.of_append_left nd) hs]
    dsimp only [bind, Except.bind]
    rw [ih (fun c hm => he c (.tail _ hm)) nd hr]
    rw [flatMap_cons, append_assoc, append_assoc]

lemma subtreeMarkDead_mark {n : Nat} (hk : Links s) (ho : Pool s) (hp : Pending s) (hl : s.Live i)
    (hd : above s.live (fun i => (s.bank i).seq) i < n) (nd : (done ++ s.subtree i).Nodup)
    (ha : ∀ j ∈ s.subtree i, (s.bank j).state ≠ .dead) (hr : s.dead.length + (done ++ s.subtree i).length ≤ deadMax) :
    subtreeMarkDead n i (s.mark done, idxs) = .ok (s.mark (done ++ s.subtree i), idxs ++ s.subtree i) := by
  induction n generalizing i done idxs with
  | zero => exact absurd hd (Nat.not_lt_zero _)
  | succ n ih =>
    have eq := hk.subtree_eq ho hl
    have hf : i ∈ s.subtree i := by
      rw [eq]
      exact .head _
    have hn : i ∉ done := fun hm => (nodup_append.mp nd).2.2 i hm i hf rfl
    rw [eq, append_cons] at nd hr
    rw [subtreeMarkDead, mark_bank_of_not_mem hn, if_neg (ha i hf), mark_markOne hp hn ?_]
    · dsimp only [bind, Except.bind]
      rw [mark_children, subtreeMarkDead_fold ?_ nd hr]
      · rw [eq, append_cons done i ((s.children i).flatMap s.subtree), append_cons idxs i ((s.children i).flatMap s.subtree)]
      · intro c hi done idxs nd hr
        have m := ho.mem_live.mpr hl
        have hb := (hk.mem_children i hl c).mp hi
        refine ih hb.1 ?_ nd ?_ hr
        · exact Nat.lt_of_lt_of_le ((hk.branches ho).above_kid m hi) (Nat.le_of_lt_succ hd)
        · intro j hm
          refine ha j ?_
          rw [eq]
          exact .tail _ (mem_flatMap.mpr ⟨c, hi, hm⟩)
    · simp only [length_append, length_cons] at hr
      omega

lemma mark_stale (hl : ∀ j ∈ l, s.Live j) : (s.mark l).stale = s.stale := (mark_relabelled hl).stale

lemma mark_marked (hl : ∀ j ∈ l, s.Live j) : (s.mark l).marked = l.reverse ++ s.marked := by
  have hg : ∀ e ∈ (l.map s.entry).reverse, s.stale e = false := by
    intro e hm
    obtain ⟨j, m, rfl⟩ := mem_map.mp (mem_reverse.mp hm)
    have hh := hl j m
    unfold Live at hh
    simp [stale, entry, hh]
  have all : (l.map s.entry).reverse.filter (fun e => !s.stale e) = (l.map s.entry).reverse :=
    filter_eq_self.mpr fun e hm => by rw [hg e hm]; rfl
  have hn : (l.map s.entry).map Entry.idx = l := by
    rw [map_map]
    exact map_id l
  unfold marked
  rw [mark_stale hl]
  dsimp only [mark]
  rw [filter_append, all, map_append, map_reverse, hn]

lemma Pending.mark (hp : Pending s) : Pending (s.mark l) := by
  refine ⟨?_, ?_⟩
  · intro j
    rw [mark_prunable, ← hp.iff, mark_state]
    by_cases hm : j ∈ l
    · simp [hm]
    · simp [hm]
  · intro j hw
    rw [mark_state] at hw
    rw [mark_keeps Bank.child fun _ => rfl]
    split at hw
    · cases hw
    · exact hp.leaf j hw

lemma States.mark (ha : States s) (hk : Links s) (ho : Pool s) (hl : s.Live i) (ne : i ≠ s.root) :
    States (s.mark (s.subtree i)) := by
  have hs := mark_relabelled fun j => hk.subtree_live ho hl
  refine ⟨?_, ?_, ?_⟩
  · rw [mark_state, hs.root, if_neg (hk.root_not_mem ho hl ne)]
    exact ha.root
  · intro j p hh hp hg
    rw [hs.live] at hh
    rw [hs.parent] at hp
    rw [mark_state] at hg ⊢
    split_ifs at hg with hm
    · rw [if_pos (hk.subtree_closed ho hl hm hh hp)]
    · rw [ha.dead j p hh hp hg]
      exact ite_self _
  · intro j p hc hp
    rw [hs.parent] at hp
    rw [mark_state] at hc ⊢
    split_ifs at hc with hn
    · rcases hc with ht | ht <;> cases ht
    · rw [if_neg ?_]
      · exact ha.frozen j p hc hp
      · intro hm
        refine hn (hk.subtree_closed ho hl hm ?_ hp)
        unfold Live
        rcases hc with ht | ht <;> rw [ht] <;> decide

lemma Marks.mark (ha : Marks s) (hk : Links s) (hc : Pool s) (hl : s.Live i)
    (hi : ∀ j ∈ s.subtree i, (s.bank j).state ≠ .dead) : Marks (s.mark (s.subtree i)) := by
  have m : ∀ j ∈ s.subtree i, s.Live j := fun j => hk.subtree_live hc hl
  have hs := mark_relabelled m
  have hm := mark_marked m
  refine ⟨?_, ?_, ?_, ?_, ?_⟩
  · intro j
    rw [mark_state, hm, mem_append, mem_reverse, ← ha.iff]
    by_cases hx : j ∈ s.subtree i
    · simp [hx]
    · simp [hx]
  · rw [hm]
    refine nodup_append.mpr ⟨nodup_reverse.mpr (hk.subtree_nodup hc hl), ha.nodup, ?_⟩
    rintro j hn k hd rfl
    exact hi j (mem_reverse.mp hn) ((ha.iff j).mpr hd)
  · intro j p hh hp hg
    rw [hs.live] at hh
    rw [hs.parent] at hp
    rw [mark_state] at hg
    rw [hm]
    split at hg
    · -- the walk meets the parent first and pushes at the head
      rename_i hx
      have up := m p hx
      have hb := (hk.mem_subtree hc hl).mp hx
      have he := (hk.mem_children p up j).mpr ⟨hh, hp⟩
      have ho := (hk.branches hc).subtree_order (live_length s) (hc.mem_live.mpr hl) hb he
      exact ho.reverse.trans (sublist_append_left _ _)
    · exact (ha.order j p hh hp hg).trans (sublist_append_right _ _)
  · intro e hx
    rcases mem_append.mp hx with hn | hd
    · obtain ⟨j, ht, rfl⟩ := mem_map.mp (mem_reverse.mp hn)
      exact ha.seq j (m j ht)
    · exact ha.old e hd
  · intro j hh
    rw [hs.seq]
    exact ha.seq j ((hs.live j).mp hh)

lemma Sound.mark (hn : Sound s past) (hl : s.Live i) (ne : i ≠ s.root)
    (ha : ∀ j ∈ s.subtree i, (s.bank j).state ≠ .dead) : Sound (s.mark (s.subtree i)) past := by
  have hs := mark_relabelled fun j => hn.links.subtree_live hn.pool hl
  refine ⟨⟨hs.pool hn.pool, hn.pending.mark, ?_, ?_⟩, hs.links hn.links, ?_, hs.width hn.width⟩
  · exact hn.marks.mark hn.links hn.pool hl ha
  · refine hn.trackers.relabel hs rfl (mark_keeps _ fun _ => rfl) ?_ ?_
    all_goals
      intro j ht
      rw [mark_state] at ht
      split at ht
      · cases ht
      · exact ht
  · exact hn.states.mark hn.links hn.pool hl ne

lemma Sound.markBankDead (hs : Sound s past) (hl : s.Live i) (ne : i ≠ s.root)
    (ha : (s.bank i).state ≠ .dead → (∀ j ∈ s.subtree i, (s.bank j).state ≠ .dead) ∧
      s.dead.length + (s.subtree i).length ≤ deadMax) : ∃ t, s.markBankDead i = .ok t ∧ Sound t.1 past := by
  unfold Banks.markBankDead
  by_cases hg : (s.bank i).state = .dead
  · refine ⟨(s, []), ?_, hs⟩
    obtain ⟨n, hi⟩ := Nat.exists_eq_succ_of_ne_zero (Nat.ne_zero_of_lt (hs.pool.bounded i hl))
    rw [hi, Nat.succ_eq_add_one, subtreeMarkDead, if_pos hg]
  · obtain ⟨he, hr⟩ := ha hg
    refine ⟨(s.mark (s.subtree i), s.subtree i), ?_, hs.mark hl ne he⟩
    have hd : above s.live (fun j => (s.bank j).seq) i < s.maxTotalBanks :=
      Nat.lt_of_lt_of_le (above_lt_length (hs.pool.mem_live.mpr hl)) (live_length s)
    have hm : subtreeMarkDead s.maxTotalBanks i (s.mark [], []) =
        .ok (s.mark ([] ++ s.subtree i), [] ++ s.subtree i) :=
      subtreeMarkDead_mark hs.links hs.pool hs.pending hl hd (hs.links.subtree_nodup hs.pool hl)
        he hr
    rw [mark_nil] at hm
    exact hm

end Firebam.Forks
