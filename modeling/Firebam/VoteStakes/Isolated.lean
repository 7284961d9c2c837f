import Firebam.VoteStakes.Fork

/-! What the queries on a bank return, whatever has happened on the other banks. -/
namespace Firebam.VoteStakes
open List Lib

instance decidableLoading (s : System) (id : ForkId) : Decidable (Loading s id) :=
  inferInstanceAs (Decidable (_ ∧ _ ∧ _))

instance decidableContract (s : System) : DecidablePred (Contract s) := fun op => by
  cases op <;> unfold Contract <;> infer_instance

def start (maxLiveSlots maxForkWidth epoch : Nat) : Except Fault System :=
  ((Stakes.empty maxLiveSlots maxForkWidth).init epoch).map fun t =>
    ⟨t.1, [⟨t.2, 0, [], none, []⟩], epoch, 1, fun _ => [], fun _ => none⟩

structure Seen (s : System) (b : Bank) : Prop where
  queryT2 : ∀ k, s.stakes.queryT2 b.id k = (lookup b.set2 k).map fun v => (v, votedState b.log k)
  queryT1 : ∀ k, s.stakes.queryT1 b.id k = lookup (s.sets b.entry) k
  queryT3 : (∀ k, s.stakes.queryT3 b.id k = none) ∨
    ∃ set, b.set3 = some set ∧ ∀ k, s.stakes.queryT3 b.id k = lookup set k

def Stakes.Same (st st' : Stakes) (id : ForkId) : Prop := ∀ k,
  st'.queryT1 id k = st.queryT1 id k ∧ st'.queryT2 id k = st.queryT2 id k ∧ st'.queryT3 id k = st.queryT3 id k

structure Isolated (order : List Vacc → List Vacc) (s : System) : Prop where
  seen : ∀ b ∈ s.banks, Seen s b
  updateState : ∀ b ∈ s.banks, ∀ u, ∃ t, step order s (.updateState b.id u) = .ok t ∧
    ∀ c ∈ s.banks, c.id ≠ b.id → s.stakes.Same t.stakes c.id
  purgeFork : ∀ b ∈ s.banks, ∃ t, step order s (.purgeFork b.id) = .ok t ∧
    (∀ c ∈ s.banks, c.id ≠ b.id → s.stakes.Same t.stakes c.id) ∧
    t.stakes.t1 = if s.Last b then update s.stakes.t1 b.width [] else s.stakes.t1

variable {s : System} {order : List Vacc → List Vacc} {maxLiveSlots maxForkWidth epoch : Nat}

lemma Agree.isolated (ha : Agree s) : Isolated order s := by
  refine ⟨fun b hl => ⟨ha.queryT2 hl, ha.queryT1 hl, ha.queryT3 hl⟩, fun b hl u => ?_, fun b hl => ?_⟩
  · refine ⟨_, rfl, fun c hi ne k => ?_⟩
    obtain ⟨states, hr⟩ := updateState_rest s.stakes b.id u.pubkey u.slot u.ts u.isValid
    have hk := updateState_other s.stakes b.id u.pubkey u.slot u.ts u.isValid (ha.place_ne hl hi ne)
    rw [hr] at hk ⊢
    refine ⟨rfl, ?_, rfl⟩
    unfold Stakes.queryT2
    rw [show forkIdBankId c.id = c.place from rfl, hk]
  · obtain ⟨t, ht, -, t2, t2Epoch, states, t1⟩ := ha.purgeFork hl
    refine ⟨t, ht, fun c hi ne k => ⟨?_, ?_, ?_⟩, t1⟩
    · unfold Stakes.queryT1
      rw [t1, show forkIdWidthId c.id = c.width from rfl]
      split_ifs with hh
      · rw [update_there _ fun hs => hh c hi ne ((ha.widths c hi b hl).mp hs)]
      · rfl
    · unfold Stakes.queryT2
      rw [t2, states]
    · unfold Stakes.queryT3
      rw [t2, t2Epoch]

lemma Agree.step (ha : Agree s) (hp : ∀ l, (order l).Perm l) (op : Op) (hm : Contract s op) :
    ∃ t, VoteStakes.step order s op = .ok t ∧ Agree t := by
  cases op with
  | newFork parent epoch =>
    obtain ⟨hr, b, hl, rfl, hc⟩ := hm
    exact ha.newFork hp hl hr hc
  | purgeFork id =>
    obtain ⟨b, hl, rfl⟩ := mem_map.mp hm
    obtain ⟨t, hs, hg, -⟩ := ha.purgeFork hl
    exact ⟨t, hs, hg⟩
  | updateState id u =>
    obtain ⟨b, hl, rfl⟩ := mem_map.mp hm
    exact ⟨_, rfl, ha.updateState hl u⟩
  | insert id v =>
    obtain ⟨b, hl, rfl, ht, hn⟩ := hm
    rw [← ha.t1 b hl] at hn
    obtain ⟨l, heap, wmark, he, nd⟩ := insert_rest s.stakes b.id (ha.t1 b hl ▸ ha.keys1 b.entry) hn
    exact ⟨_, rfl, ha.inserted hl ht he nd⟩
  | snapInsertT1 id v =>
    obtain ⟨ho, hn⟩ := hm
    obtain ⟨b, hb, rfl, -, ht, -⟩ := ha.loading ho
    have hl : b ∈ s.banks := hb ▸ mem_singleton_self b
    rw [show 0 = b.entry by have := ho.1; omega, ← ha.t1 b hl] at hn
    obtain ⟨l, heap, wmark, he, nd⟩ := snapInsertT1_rest s.stakes b.id (ha.t1 b hl ▸ ha.keys1 b.entry) hn
    exact ⟨_, rfl, ha.inserted hl ht he nd⟩
  | snapInsertT2 id v => exact ha.snapInsertT2 hm.1 hm.2
  | snapInsertT3 id v => exact ha.snapInsertT3 hm.1 hm.2

lemma start_agree (hm : maxLiveSlots < 2 ^ 16) (hb : maxForkWidth + 1 < 2 ^ 16) (ha : epoch < 2 ^ 16)
    (ht : start maxLiveSlots maxForkWidth epoch = .ok s) : Agree s := by
  have hr : ∀ n, List.range (n + 1) = 0 :: (List.range n).map Nat.succ := fun n => range_succ_eq_map
  unfold start Stakes.empty Stakes.init at ht
  obtain ⟨n, rfl⟩ : ∃ n, maxLiveSlots = n + 1 := by
    cases maxLiveSlots with
    | zero =>
      rw [hr] at ht
      cases ht
    | succ n => exact ⟨n, rfl⟩
  rw [hr, hr] at ht
  cases ht
  have hn : Named ⟨forkId 0 0 epoch, 0, [], none, []⟩ 0 0 epoch := named_forkId rfl (by decide) (by decide) ha
  have nd : ∀ n, ((List.range n).map Nat.succ).Nodup := fun n => nodup_range.map Nat.succ_injective
  have m : ∀ n i, i ∈ (List.range n).map Nat.succ → 0 < i ∧ i < n + 1 := by
    intro n i hx
    obtain ⟨j, hh, rfl⟩ := mem_map.mp hx
    have := mem_range.mp hh
    omega
  refine ⟨⟨nodup_singleton _, nd n, fun i hf => ?_, nd maxForkWidth, fun w hf => ?_, fun w => ?_, ?_, ?_, nofun, ?_⟩,
    ?_, fun _ => nodup_nil, fun _ => nodup_nil, ?_, ?_, ?_, ?_⟩
  · have := m n i hf
    refine ⟨by omega, forall_mem_singleton.mpr ?_⟩
    rw [hn.place]
    omega
  · have := m maxForkWidth w hf
    refine ⟨by omega, forall_mem_singleton.mpr ?_⟩
    rw [hn.width]
    omega
  · rw [countP_singleton, hn.width]
    unfold update
    simp [eq_comm]
  · refine forall_mem_singleton.mpr (forall_mem_singleton.mpr ?_)
    exact iff_of_true rfl rfl
  · exact forall_mem_singleton.mpr Nat.one_pos
  · refine forall_mem_singleton.mpr ?_
    rw [hn.epoch]
  all_goals dsimp only
  · exact forall_mem_singleton.mpr rfl
  · refine forall_mem_singleton.mpr ?_
    rw [hn.epoch, update_here]
    exact ⟨rfl, fun k => rfl⟩
  · refine forall_mem_singleton.mpr fun i => ?_
    rw [hn.place, update_here, getD_votedState_nil]
  · refine forall_mem_singleton.mpr ?_
    rw [hn.epoch]
    intro he hl
    rw [update_there _ (parity_ne hl)] at he
    cases he
  · intro p e he
    by_cases hs : p = epoch % 2
    · rw [hs, update_here] at he
      cases he
      exact ⟨hs, .inl (le_refl _)⟩
    · rw [update_there _ hs] at he
      cases he

/- The order in which the map of the parent is walked over does not matter. -/
theorem forks_isolated {ops : List Op} (perm : ∀ l, (order l).Perm l) (small : maxLiveSlots < 2 ^ 16)
    (small' : maxForkWidth + 1 < 2 ^ 16) (small'' : epoch < 2 ^ 16)
    (started : start maxLiveSlots maxForkWidth epoch = .ok s) (allowed : Allowed (step order) Contract s ops) :
    ∃ t, run (step order) s ops = .ok t ∧ Isolated order t := by
  obtain ⟨t, ran, agree⟩ := run_allowed (step order) Contract Agree (fun s op agree may => agree.step perm op may)
    (start_agree small small' small'' started) allowed
  exact ⟨t, ran, agree.isolated⟩

def sampleOps : List Op :=
  [.snapInsertT1 (forkId 0 0 0) ⟨7, 70, 100, 5⟩, .newFork (forkId 0 0 0) 1, .insert (forkId 1 1 1) ⟨8, 80, 50, 0⟩,
    .updateState (forkId 1 1 1) ⟨7, 40, 1000, true⟩, .newFork (forkId 1 1 1) 1, .purgeFork (forkId 0 0 0),
    .updateState (forkId 2 1 1) ⟨7, 41, 1001, true⟩, .updateState (forkId 2 1 1) ⟨7, 0, 0, false⟩,
    .newFork (forkId 2 1 1) 2, .purgeFork (forkId 1 1 1)]

theorem sample_forks_isolated : ∃ s, start 4 3 0 = .ok s ∧ Allowed (step id) Contract s sampleOps ∧
    ∃ t, run (step id) s sampleOps = .ok t ∧ Isolated id t := by
  obtain ⟨s, started, allowed⟩ : ∃ s, start 4 3 0 = .ok s ∧ Allowed (step id) Contract s sampleOps :=
    exists_of_endsIn (by decide +kernel)
  exact ⟨s, started, allowed,
    forks_isolated (fun _ => List.Perm.refl _) (by decide) (by decide) (by decide) started allowed⟩

def skipOps : List Op :=
  [.snapInsertT1 (forkId 0 0 0) ⟨7, 70, 100, 5⟩, .newFork (forkId 0 0 0) 1, .purgeFork (forkId 0 0 0),
    .newFork (forkId 1 1 1) 2, .newFork (forkId 0 0 2) 3]

theorem two_boundaries_forget : ∃ s, start 4 3 0 = .ok s ∧ ∃ t, run (step id) s skipOps = .ok t ∧
    ∃ a ∈ t.banks, a.id = forkId 1 1 1 ∧ lookup a.set2 7 = some ⟨7, 70, 100, 5⟩ ∧ t.stakes.queryT2 a.id 7 = none := by
  obtain ⟨s, started, ends⟩ : ∃ s, start 4 3 0 = .ok s ∧ endsIn (fun t => ∃ a ∈ t.banks, a.id = forkId 1 1 1 ∧
      lookup a.set2 7 = some ⟨7, 70, 100, 5⟩ ∧ t.stakes.queryT2 a.id 7 = none) (run (step id) s skipOps) = true :=
    exists_of_endsIn (by decide +kernel)
  exact ⟨s, started, exists_of_endsIn ends⟩

end Firebam.VoteStakes
