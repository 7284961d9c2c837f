import Firebam.VoteStakes.Agree

namespace Firebam.VoteStakes
open List Lib Stakes

variable {s : System} {order : List Vacc → List Vacc} {b c : Bank} {l l' : List Vacc} {k : Pubkey} {v : Vacc} {id : ForkId}

lemma updateState_rest (st : Stakes) (id : ForkId) (key : Pubkey) (slot : Nat) (ts : Int) (isValid : Bool) :
    ∃ states, st.updateState id key slot ts isValid = { st with states := states } := by
  unfold updateState
  dsimp only
  cases lookup (st.t2 (forkIdEpoch id % 2)) key with
  | none => exact ⟨st.states, rfl⟩
  | some v => exact ⟨_, rfl⟩

lemma updateState_states (ha : Agree s) (hl : b ∈ s.banks) (u : Update) (i : Nat) :
    (s.stakes.updateState b.id u.pubkey u.slot u.ts u.isValid).states b.place i =
      (((s.stakes.t2 (b.epoch % 2))[i]?).map fun v => votedState (u :: b.log) v.pubkey).getD .zero := by
  have hb := ha.states b hl
  unfold updateState
  dsimp only
  rw [show forkIdEpoch b.id = b.epoch from rfl, show forkIdBankId b.id = b.place from rfl]
  cases hf : lookup (s.stakes.t2 (b.epoch % 2)) u.pubkey with
  | none =>
    rw [hb i]
    cases hh : (s.stakes.t2 (b.epoch % 2))[i]? with
    | none => rfl
    | some v =>
      have ne : u.pubkey ≠ v.pubkey := by
        intro hs
        have := find_none_fresh hf
        exact this (hs ▸ mem_map_of_mem (mem_of_getElem? hh))
      simp [votedState_cons, ne]
  | some w =>
    dsimp only
    rw [update_here]
    have ht := getElem_place hf
    by_cases hi : i = place (s.stakes.t2 (b.epoch % 2)) u.pubkey
    · rw [hi, update_here, hb, ht]
      simp [votedState_cons, lookup_key hf]
    · rw [update_there _ hi, hb]
      cases hh : (s.stakes.t2 (b.epoch % 2))[i]? with
      | none => rfl
      | some v =>
        have ne : u.pubkey ≠ v.pubkey := by
          intro hs
          exact hi (by rw [hs, place_eq (ha.keys2 _) hh])
        simp [votedState_cons, ne]

lemma updateState_other {i : Nat} (st : Stakes) (id : ForkId) (key : Pubkey) (slot : Nat) (ts : Int) (isValid : Bool)
    (ne : i ≠ forkIdBankId id) : (st.updateState id key slot ts isValid).states i = st.states i := by
  unfold updateState
  dsimp only
  cases lookup (st.t2 (forkIdEpoch id % 2)) key with
  | none => rfl
  | some v => exact update_there _ ne

lemma Agree.updateState (ha : Agree s) (hl : b ∈ s.banks) (u : Update) :
    Agree { s with
      stakes := s.stakes.updateState b.id u.pubkey u.slot u.ts u.isValid
      banks := s.setBank b.id fun b => { b with log := u :: b.log } } := by
  obtain ⟨states, he⟩ := updateState_rest s.stakes b.id u.pubkey u.slot u.ts u.isValid
  have hv := updateState_states ha hl u
  have ho : ∀ c ∈ s.banks, c.id ≠ b.id → states c.place = s.stakes.states c.place := by
    intro c hi ne
    have := updateState_other s.stakes b.id u.pubkey u.slot u.ts u.isValid (ha.place_ne hl hi ne)
    rwa [he] at this
  rw [he] at hv ⊢
  have hd : ∀ c ∈ s.setBank b.id fun b => { b with log := u :: b.log },
      ∃ d ∈ s.banks, d.id = c.id ∧ d.entry = c.entry ∧ d.set2 = c.set2 ∧ d.set3 = c.set3 := by
    intro c hi
    obtain ⟨d, ht, ⟨-, rfl⟩ | ⟨-, rfl⟩⟩ := mem_setBank hi
    · exact ⟨d, ht, rfl, rfl, rfl, rfl⟩
    · exact ⟨c, ht, rfl, rfl, rfl, rfl⟩
  refine ⟨ha.congr (setBank_words b.id fun _ => ⟨rfl, rfl⟩) rfl rfl rfl rfl rfl rfl, ?_, ha.keys1, ha.keys2,
    ?_, ?_, ?_, ha.slot⟩
  · intro c hi
    obtain ⟨d, hi, id, hn, -⟩ := hd c hi
    rw [Bank.width, ← id, ← hn]
    exact ha.t1 d hi
  · intro c hi
    obtain ⟨d, hi, id, -, set2, -⟩ := hd c hi
    rw [Bank.epoch, ← id, ← set2]
    exact ha.t2 d hi
  · intro c hi
    obtain ⟨d, ht, ⟨id, rfl⟩ | ⟨hr, rfl⟩⟩ := mem_setBank hi
    · cases ha.id_inj hl ht id
      exact hv
    · intro i
      change states c.place i = _
      rw [ho c ht hr]
      exact ha.states c ht i
  · intro c hi
    obtain ⟨d, hi, id, -, -, set3⟩ := hd c hi
    rw [Bank.epoch, ← id, ← set3]
    exact ha.t3 d hi

lemma update_self {β : Type} (f : Nat → β) (i : Nat) : update f i (f i) = f := by
  funext j
  unfold update
  split_ifs with eq
  · rw [eq]
  · rfl

lemma insert_rest (st : Stakes) (id : ForkId) (nd : ((st.t1 (forkIdWidthId id)).map Vacc.pubkey).Nodup)
    (hn : lookup (st.t1 (forkIdWidthId id)) v.pubkey = none) :
    ∃ l heap wmark, st.insert id v = { st with
      t1 := update st.t1 (forkIdWidthId id) l, heap := heap, minStakeWmark := wmark } ∧ (l.map Vacc.pubkey).Nodup := by
  have hk : ∃ l heap wmark, st = { st with
      t1 := update st.t1 (forkIdWidthId id) l, heap := heap, minStakeWmark := wmark } ∧ (l.map Vacc.pubkey).Nodup :=
    ⟨st.t1 (forkIdWidthId id), st.heap, st.minStakeWmark, by rw [update_self], nd⟩
  have hf : v.pubkey ∉ (st.t1 (forkIdWidthId id)).map Vacc.pubkey := find_none_fresh hn
  unfold Stakes.insert
  split
  · exact hk
  split
  · split
    · exact hk
    · rename_i min _
      split
      · exact hk
      split
      · exact ⟨_, _, _, rfl, keys_filter nd⟩
      · refine ⟨v :: (st.evict (forkIdWidthId id) min).t1 (forkIdWidthId id), v :: (st.evict (forkIdWidthId id) min).heap,
          min, ?_, ?_⟩
        · unfold accept evict
          dsimp only
          congr 1
          funext j
          unfold update
          split <;> rfl
        · dsimp only [evict]
          rw [update_here, map_cons, nodup_cons]
          refine ⟨fun hm => hf ?_, keys_filter nd⟩
          exact (filter_sublist.map _).subset hm
  · exact ⟨_, _, _, rfl, nodup_cons.mpr ⟨hf, nd⟩⟩

lemma snapInsertT1_rest (st : Stakes) (id : ForkId) (nd : ((st.t1 (forkIdWidthId id)).map Vacc.pubkey).Nodup)
    (hn : lookup (st.t1 (forkIdWidthId id)) v.pubkey = none) :
    ∃ l heap wmark, st.snapInsertT1 id v = { st with
      t1 := update st.t1 (forkIdWidthId id) l, heap := heap, minStakeWmark := wmark } ∧ (l.map Vacc.pubkey).Nodup := by
  unfold snapInsertT1
  split
  · exact ⟨st.t1 (forkIdWidthId id), st.heap, st.minStakeWmark, by rw [update_self], nd⟩
  · exact ⟨_, _, _, rfl, nodup_cons.mpr ⟨find_none_fresh hn, nd⟩⟩

lemma Agree.inserted {st : Stakes} {heap : List Vacc} {wmark : Nat} (ha : Agree s) (hl : b ∈ s.banks)
    (hc : b.entry + 1 = s.entries)
    (hb : st = { s.stakes with t1 := update s.stakes.t1 b.width l, heap := heap, minStakeWmark := wmark })
    (nd : (l.map Vacc.pubkey).Nodup) : Agree (s.inserted b.id st) := by
  unfold System.inserted
  rw [ha.bank_eq hl]
  subst hb
  dsimp only
  rw [update_here]
  refine ⟨ha.congr rfl rfl rfl rfl rfl rfl rfl, ?_, ?_, ha.keys2, ha.t2, ha.states, ha.t3, ?_⟩
  · intro c hi
    dsimp only
    by_cases hs : c.entry = b.entry
    · rw [(ha.widths c hi b hl).mpr hs, hs, update_here, update_here]
    · rw [update_there _ hs, update_there _ fun eq => hs ((ha.widths c hi b hl).mp eq)]
      exact ha.t1 c hi
  · intro n
    dsimp only
    by_cases hs : n = b.entry
    · rw [hs, update_here]
      exact nd
    · rw [update_there _ hs]
      exact ha.keys1 n
  · intro p e hr
    obtain ⟨hp, he | ⟨n, hn, ht⟩⟩ := ha.slot p e hr
    · exact ⟨hp, .inl he⟩
    · have ho := ha.origin e n hn
      refine ⟨hp, .inr ⟨n, hn, fun k => ?_⟩⟩
      dsimp only
      rw [update_there _ (by omega)]
      exact ht k

lemma Agree.loading (ha : Agree s) (loading : Loading s id) :
    ∃ b, s.banks = [b] ∧ b.id = id ∧ b.log = [] ∧ b.entry + 1 = s.entries ∧ ∀ p e, s.stakes.t2Epoch p = some e → e ≤ s.first := by
  obtain ⟨hc, hd, hg⟩ := loading
  obtain ⟨b, rest, hb, hn, none⟩ := map_eq_cons_iff.mp hd
  rw [map_eq_nil_iff.mp none] at hb
  have hl : b ∈ s.banks := hb ▸ mem_singleton_self b
  have he := ha.entry b hl
  refine ⟨b, hb, hn, ?_, by omega, fun p e hr => ?_⟩
  · have := all_eq_true.mp hg b hl
    simpa using this
  · obtain ⟨-, hy | ⟨n, hi, -⟩⟩ := ha.slot p e hr
    · exact hy
    · have ho := ha.origin e n hi
      omega

lemma getD_votedState_nil (o : Option Vacc) : (o.map fun v => votedState [] v.pubkey).getD .zero = .zero := by
  cases o <;> rfl

lemma setBank_single {f : Bank → Bank} (hb : s.banks = [b]) : s.setBank b.id f = [f b] := by
  unfold System.setBank
  rw [hb, map_singleton, if_pos rfl]

lemma Shape.single {t : System} (hp : Shape s) (ha : s.banks = [b]) (hb : t.banks = [c])
    (hs : c.id = b.id ∧ c.entry = b.entry) (hf : t.stakes.freeStates = s.stakes.freeStates)
    (hr : t.stakes.freeForks = s.stakes.freeForks) (ht : t.stakes.refCnt = s.stakes.refCnt)
    (he : t.entries = s.entries) (ho : t.origin = s.origin) (hi : t.first = s.first) : Shape t := by
  refine hp.congr ?_ hf hr ht he ho hi
  rw [ha, hb, map_singleton, map_singleton, hs.1, hs.2]

lemma snapInsertT2_rest (st : Stakes) (id : ForkId) (nd : ((st.t2 (forkIdEpoch id % 2)).map Vacc.pubkey).Nodup)
    (hn : lookup (st.t2 (forkIdEpoch id % 2)) v.pubkey = none) :
    ∃ l, st.snapInsertT2 id v = { st with t2 := update st.t2 (forkIdEpoch id % 2) l } ∧ (l.map Vacc.pubkey).Nodup := by
  unfold snapInsertT2
  split
  · exact ⟨st.t2 (forkIdEpoch id % 2), by rw [update_self], nd⟩
  · exact ⟨_, rfl, keys_concat nd (find_none_fresh hn)⟩

lemma keys_update {t2 : Nat → List Vacc} {q : Nat} (hk : ∀ p, ((t2 p).map Vacc.pubkey).Nodup)
    (nd : (l.map Vacc.pubkey).Nodup) (p : Nat) : ((update t2 q l p).map Vacc.pubkey).Nodup := by
  by_cases hs : p = q
  · rw [hs, update_here]
    exact nd
  · rw [update_there _ hs]
    exact hk p

lemma parity_ne {e : Nat} (hl : e ≠ 0) : (e - 1) % 2 ≠ e % 2 := by omega

lemma Agree.snapInsertT2 (ha : Agree s) (ho : Loading s id)
    (hn : lookup (s.stakes.t2 (forkIdEpoch id % 2)) v.pubkey = none) :
    ∃ t, step order s (.snapInsertT2 id v) = .ok t ∧ Agree t := by
  obtain ⟨b, hs, rfl, he, -, hy⟩ := ha.loading ho
  have hl : b ∈ s.banks := hs ▸ mem_singleton_self b
  obtain ⟨l, hh, nd⟩ := snapInsertT2_rest s.stakes b.id (ha.keys2 _) hn
  refine ⟨_, rfl, ?_⟩
  rw [hh, setBank_single hs]
  dsimp only
  rw [show forkIdEpoch b.id = b.epoch from rfl, update_here]
  refine ⟨ha.single hs rfl ⟨rfl, rfl⟩ rfl rfl rfl rfl rfl rfl, ?_, ha.keys1, keys_update ha.keys2 nd,
    ?_, ?_, ?_, ?_⟩
  all_goals dsimp only
  all_goals try rw [forall_mem_singleton]
  · exact ha.t1 b hl
  · refine ⟨(ha.t2 b hl).1, fun k => ?_⟩
    rw [show Bank.epoch { b with set2 := l } = b.epoch from rfl, update_here]
  · intro i
    have hb := ha.states b hl i
    rw [he, getD_votedState_nil] at hb ⊢
    exact hb
  · intro hr ht
    rw [show Bank.epoch { b with set2 := l } = b.epoch from rfl] at hr ht ⊢
    rw [update_there _ (parity_ne ht)]
    exact ha.t3 b hl hr ht
  · intro p e hr
    exact ⟨(ha.slot p e hr).1, .inl (hy p e hr)⟩

lemma Agree.snapInsertT3 (ha : Agree s) (ho : Loading s id)
    (hn : lookup (s.stakes.t2 ((forkIdEpoch id - 1) % 2)) v.pubkey = none) :
    ∃ t, step order s (.snapInsertT3 id v) = .ok t ∧ Agree t := by
  obtain ⟨b, hh, rfl, he, -, hy⟩ := ha.loading ho
  have hl : b ∈ s.banks := hh ▸ mem_singleton_self b
  refine ⟨_, rfl, ?_⟩
  rw [setBank_single hh]
  unfold snapInsertT3
  rw [show forkIdEpoch b.id = b.epoch from rfl] at hn ⊢
  by_cases hk : b.epoch = 0 ∨ v.stake = 0
  · rw [if_pos hk]
    refine ⟨ha.single hh rfl ⟨rfl, rfl⟩ rfl rfl rfl rfl rfl rfl, ?_, ha.keys1, ha.keys2, ?_, ?_, ?_, ha.slot⟩
    all_goals rw [forall_mem_singleton]
    · exact ha.t1 b hl
    · exact ha.t2 b hl
    · exact ha.states b hl
    · exact fun hr _ => ⟨_, if_pos hr, fun k => rfl⟩
  · rw [if_neg hk]
    rw [not_or] at hk
    have ne := parity_ne hk.1
    simp only [update_here, if_true]
    refine ⟨ha.single hh rfl ⟨rfl, rfl⟩ rfl rfl rfl rfl rfl rfl, ?_, ha.keys1,
      keys_update ha.keys2 (keys_concat (ha.keys2 _) (find_none_fresh hn)), ?_, ?_, ?_, ?_⟩
    all_goals dsimp only
    all_goals try rw [forall_mem_singleton]
    · exact ha.t1 b hl
    · have hb := ha.t2 b hl
      change update _ _ _ (b.epoch % 2) = _ ∧ ∀ k, lookup (update _ _ _ (b.epoch % 2)) k = _
      rw [update_there _ ne.symm, update_there _ ne.symm]
      exact hb
    · have hb := ha.states b hl
      change ∀ i, s.stakes.states b.place i = (((update _ _ _ (b.epoch % 2))[i]?).map _).getD _
      rw [update_there _ ne.symm]
      exact hb
    · intro _ _
      refine ⟨_, rfl, fun k => ?_⟩
      change lookup (update _ _ _ ((b.epoch - 1) % 2)) k = _
      rw [update_here]
    · intro p e hr
      by_cases hs : p = (b.epoch - 1) % 2
      · rw [hs, update_here] at hr
        cases hr
        have hw := hy _ _ (ha.t2 b hl).1
        exact ⟨hs, .inl (by omega)⟩
      · rw [update_there _ hs] at hr
        exact ⟨(ha.slot p e hr).1, .inl (hy p e hr)⟩

end Firebam.VoteStakes
