import Firebam.VoteStakes.Steps

namespace Firebam.VoteStakes
open List Lib

variable {s : System} {order : List Vacc → List Vacc} {b c : Bank} {bank width epoch : Nat} {st : Stakes}
  {free : List Nat}

section
variable (hh : Shape s) (hi : b ∈ s.banks)
include hh hi

lemma Shape.filter_perm : s.banks.Perm (b :: s.banks.filter (·.id ≠ b.id)) := perm_filter_ne hh.ids hi

lemma Shape.countP_filter (w : Nat) :
    s.banks.countP (fun c => c.width = w) =
      (s.banks.filter (·.id ≠ b.id)).countP (fun c => c.width = w) + if b.width = w then 1 else 0 := by
  rw [(hh.filter_perm hi).countP_eq, countP_cons]
  simp

lemma Shape.refCnt_filter (w : Nat) :
    update s.stakes.refCnt b.width (s.stakes.refCnt b.width - 1) w =
      (s.banks.filter (·.id ≠ b.id)).countP (fun c => c.width = w) := by
  by_cases hs : w = b.width
  · rw [hs, update_here, hh.refCnt, hh.countP_filter hi, if_pos rfl, Nat.add_sub_cancel]
  · rw [update_there _ hs, hh.refCnt, hh.countP_filter hi, if_neg (Ne.symm hs), Nat.add_zero]

lemma Shape.refCnt_ne_zero : s.stakes.refCnt b.width ≠ 0 := by
  rw [hh.refCnt, hh.countP_filter hi, if_pos rfl]
  exact Nat.succ_ne_zero _

def System.Last (s : System) (b : Bank) : Prop := ∀ c ∈ s.banks, c.id ≠ b.id → c.entry ≠ b.entry

instance : Decidable (s.Last b) := inferInstanceAs (Decidable (∀ c ∈ s.banks, c.id ≠ b.id → c.entry ≠ b.entry))

lemma Shape.last_iff : update s.stakes.refCnt b.width (s.stakes.refCnt b.width - 1) b.width = 0 ↔ s.Last b := by
  rw [hh.refCnt_filter hi, countP_eq_zero]
  constructor
  · intro hn c hv ne hs
    refine hn c (mem_filter.mpr ⟨hv, decide_eq_true ne⟩) ?_
    exact decide_eq_true ((hh.widths c hv b hi).mpr hs)
  · intro hl c hv hs
    obtain ⟨hv, ne⟩ := mem_filter.mp hv
    exact hl c hv (of_decide_eq_true ne) ((hh.widths c hv b hi).mp (of_decide_eq_true hs))

lemma Shape.purge (hr : st.freeStates = b.place :: s.stakes.freeStates)
    (ht : st.refCnt = update s.stakes.refCnt b.width (s.stakes.refCnt b.width - 1))
    (he : st.freeForks = s.stakes.freeForks ∨ st.freeForks = b.width :: s.stakes.freeForks ∧ s.Last b) :
    Shape { s with stakes := st, banks := s.banks.filter (·.id ≠ b.id) } := by
  have ho : ∀ c ∈ s.banks.filter (·.id ≠ b.id), c ∈ s.banks ∧ c.id ≠ b.id := fun c hv => by simpa using hv
  refine ⟨keys_filter hh.places, ?_, ?_, ?_, ?_, ?_, ?_, ?_, hh.origin, ?_⟩
  all_goals dsimp only
  · rw [hr, nodup_cons]
    exact ⟨fun hf => (hh.freeState _ hf).2 b hi rfl, hh.freeStates⟩
  · rw [hr]
    intro i hf
    rcases mem_cons.mp hf with rfl | hf
    · refine ⟨Nat.mod_lt _ (by decide), fun c hv => ?_⟩
      exact hh.place_ne hi (ho c hv).1 (ho c hv).2
    · exact ⟨(hh.freeState i hf).1, fun c hv => (hh.freeState i hf).2 c (ho c hv).1⟩
  · rcases he with hs | ⟨hm, -⟩
    · rw [hs]
      exact hh.freeForks
    · rw [hm, nodup_cons]
      exact ⟨fun hf => (hh.freeFork _ hf).2 b hi rfl, hh.freeForks⟩
  · intro w hf
    have hb : w ∈ s.stakes.freeForks → w < 2 ^ 16 ∧ ∀ c ∈ s.banks.filter (·.id ≠ b.id), c.width ≠ w := by
      intro hf
      exact ⟨(hh.freeFork w hf).1, fun c hv => (hh.freeFork w hf).2 c (ho c hv).1⟩
    rcases he with hs | ⟨hm, hl⟩
    · rw [hs] at hf
      exact hb hf
    · rw [hm] at hf
      rcases mem_cons.mp hf with rfl | hf
      · refine ⟨widthId_lt _, fun c hv hs => ?_⟩
        exact hl c (ho c hv).1 (ho c hv).2 ((hh.widths c (ho c hv).1 b hi).mp hs)
      · exact hb hf
  · intro w
    rw [ht]
    exact hh.refCnt_filter hi w
  · intro c hv d ha
    exact hh.widths c (ho c hv).1 d (ho d ha).1
  · intro c hv
    exact hh.entry c (ho c hv).1
  · intro c hv
    exact hh.first c (ho c hv).1

end

lemma Agree.purge (ha : Agree s) (hh : Shape { s with stakes := st, banks := s.banks.filter (·.id ≠ b.id) })
    (t1 : ∀ c ∈ s.banks, c.id ≠ b.id → st.t1 c.width = s.stakes.t1 c.width) (t2 : st.t2 = s.stakes.t2)
    (t2Epoch : st.t2Epoch = s.stakes.t2Epoch) (hs : st.states = s.stakes.states) :
    Agree { s with stakes := st, banks := s.banks.filter (·.id ≠ b.id) } := by
  have ho : ∀ c ∈ s.banks.filter (·.id ≠ b.id), c ∈ s.banks ∧ c.id ≠ b.id := fun c hl => by simpa using hl
  refine ⟨hh, ?_, ha.keys1, ?_, ?_, ?_, ?_, ?_⟩
  all_goals dsimp only
  · intro c hl
    rw [t1 c (ho c hl).1 (ho c hl).2]
    exact ha.t1 c (ho c hl).1
  · rw [t2]
    exact ha.keys2
  · intro c hl
    rw [t2, t2Epoch]
    exact ha.t2 c (ho c hl).1
  · intro c hl
    rw [t2, hs]
    exact ha.states c (ho c hl).1
  · intro c hl
    rw [t2, t2Epoch]
    exact ha.t3 c (ho c hl).1
  · rw [t2, t2Epoch]
    exact ha.slot

lemma Agree.purgeFork (ha : Agree s) (hi : b ∈ s.banks) : ∃ t, step order s (.purgeFork b.id) = .ok t ∧ Agree t ∧
    t.stakes.t2 = s.stakes.t2 ∧ t.stakes.t2Epoch = s.stakes.t2Epoch ∧ t.stakes.states = s.stakes.states ∧
    t.stakes.t1 = if s.Last b then update s.stakes.t1 b.width [] else s.stakes.t1 := by
  unfold step Stakes.purgeFork
  dsimp only
  rw [show forkIdWidthId b.id = b.width from rfl, show forkIdBankId b.id = b.place from rfl,
    check_of _ (ha.refCnt_ne_zero hi)]
  refine ⟨_, rfl, ?_⟩
  by_cases hl : s.Last b
  · rw [if_pos ((ha.last_iff hi).mpr hl), if_pos hl]
    refine ⟨ha.purge (ha.toShape.purge hi rfl rfl (.inr ⟨rfl, hl⟩)) ?_ rfl rfl rfl, rfl, rfl, rfl, rfl⟩
    intro c hv ne
    exact update_there _ fun hs => hl c hv ne ((ha.widths c hv b hi).mp hs)
  · rw [if_neg fun hz => hl ((ha.last_iff hi).mp hz), if_neg hl]
    exact ⟨ha.purge (ha.toShape.purge hi rfl rfl (.inl rfl)) (fun _ _ _ => rfl) rfl rfl rfl, rfl, rfl, rfl, rfl⟩

structure Named (b : Bank) (bank width epoch : Nat) : Prop where
  place : b.place = bank
  width : b.width = width
  epoch : b.epoch = epoch

lemma named_forkId (id : b.id = forkId bank width epoch) (hs : bank < 2 ^ 16) (ha : width < 2 ^ 16)
    (hm : epoch < 2 ^ 16) : Named b bank width epoch := by
  refine ⟨?_, ?_, ?_⟩
  · rw [Bank.place, id, bankId_forkId hs]
  · rw [Bank.width, id, widthId_forkId ha]
  · rw [Bank.epoch, id, epoch_forkId hm]

lemma Shape.fork {t : System} {n : Bank} (he : Shape s) (hn : Named n bank width epoch)
    (some : s.stakes.freeStates = bank :: free) (ha : t.banks = n :: s.banks) (hf : t.stakes.freeStates = free)
    (hr : t.stakes.freeForks.Sublist s.stakes.freeForks) (hk : width ∉ t.stakes.freeForks)
    (hc : t.stakes.refCnt = update s.stakes.refCnt width (s.stakes.refCnt width + 1))
    (hw : ∀ c ∈ s.banks, c.width = width ↔ c.entry = n.entry) (hd : n.entry < t.entries)
    (ht : s.entries ≤ t.entries) (ho : ∀ e k, t.origin e = Option.some k → k + 1 < t.entries)
    (hi : t.first = s.first) (hy : s.first ≤ epoch) : Shape t := by
  have hh : bank ∈ s.stakes.freeStates := some ▸ .head _
  have nd := he.freeStates
  rw [some, nodup_cons] at nd
  refine ⟨?_, hf ▸ nd.2, ?_, he.freeForks.sublist hr, ?_, ?_, ?_, ?_, ho, ?_⟩
  · rw [ha, map_cons, nodup_cons, hn.place]
    refine ⟨fun hm => ?_, he.places⟩
    obtain ⟨c, hl, hp⟩ := mem_map.mp hm
    exact (he.freeState bank hh).2 c hl hp
  · intro i hm
    rw [hf] at hm
    have hb := he.freeState i (some ▸ .tail _ hm)
    rw [ha]
    refine ⟨hb.1, forall_mem_cons.mpr ⟨?_, hb.2⟩⟩
    rw [hn.place]
    exact fun hs => nd.1 (hs ▸ hm)
  · intro w hm
    have hb := he.freeFork w (hr.subset hm)
    rw [ha]
    refine ⟨hb.1, forall_mem_cons.mpr ⟨?_, hb.2⟩⟩
    rw [hn.width]
    exact fun hs => hk (hs ▸ hm)
  · intro w
    rw [hc, ha, countP_cons, hn.width]
    by_cases hs : w = width
    · rw [hs, update_here, he.refCnt]
      simp
    · rw [update_there _ hs, he.refCnt]
      simp [Ne.symm hs]
  · rw [ha]
    refine forall_mem_cons.mpr ⟨forall_mem_cons.mpr ⟨by simp, fun c hl => ?_⟩, fun c hl => ?_⟩
    · rw [hn.width, eq_comm, hw c hl, eq_comm]
    · refine forall_mem_cons.mpr ⟨?_, he.widths c hl⟩
      rw [hn.width]
      exact hw c hl
  · rw [ha]
    exact forall_mem_cons.mpr ⟨hd, fun c hl => lt_of_lt_of_le (he.entry c hl) ht⟩
  · rw [ha, hi]
    refine forall_mem_cons.mpr ⟨?_, he.first⟩
    rw [hn.epoch]
    exact hy

lemma Agree.inherit (ha : Agree s) (hl : b ∈ s.banks) (ho : s.stakes.freeStates = bank :: free) :
    Agree (s.fork b b.epoch (Stakes.inherit { s.stakes with freeStates := free } b.id bank b.epoch).1
      (Stakes.inherit { s.stakes with freeStates := free } b.id bank b.epoch).2) := by
  unfold System.fork Stakes.inherit
  rw [if_pos rfl]
  rw [show forkIdWidthId b.id = b.width from rfl, show forkIdBankId b.id = b.place from rfl]
  have hs := (ha.freeState bank (ho ▸ .head _)).1
  have ne := (ha.freeState bank (ho ▸ .head _)).2
  have hn : Named { b with id := forkId bank b.width b.epoch } bank b.width b.epoch :=
    named_forkId rfl hs (widthId_lt _) (epoch_lt _)
  have hh : Shape { s with
      stakes := { s.stakes with
        freeStates := free
        refCnt := update s.stakes.refCnt b.width (s.stakes.refCnt b.width + 1)
        states := update s.stakes.states bank (s.stakes.states b.place) }
      banks := { b with id := forkId bank b.width b.epoch } :: s.banks } := by
    refine ha.toShape.fork hn ho rfl rfl (List.Sublist.refl _) ?_ rfl ?_ (ha.entry b hl) (le_refl _)
      ha.origin rfl (ha.first b hl)
    · exact fun free => (ha.freeFork _ free).2 b hl rfl
    · exact fun c hi => ha.widths c hi b hl
  refine ⟨hh, ?_, ha.keys1, ha.keys2, ?_, ?_, ?_, ha.slot⟩
  all_goals dsimp only
  · refine forall_mem_cons.mpr ⟨?_, ha.t1⟩
    rw [hn.width]
    exact ha.t1 b hl
  · refine forall_mem_cons.mpr ⟨?_, ha.t2⟩
    rw [hn.epoch]
    exact ha.t2 b hl
  · refine forall_mem_cons.mpr ⟨?_, fun c hi => ?_⟩
    · rw [hn.epoch, hn.place, update_here]
      exact ha.states b hl
    · rw [update_there _ (ne c hi)]
      exact ha.states c hi
  · refine forall_mem_cons.mpr ⟨?_, ha.t3⟩
    rw [hn.epoch]
    exact ha.t3 b hl

structure Rotated (s : System) (b : Bank) (epoch : Nat) (t2 : Nat → List Vacc) (t2Epoch : Nat → Option Nat) : Prop where
  here : t2Epoch (epoch % 2) = some epoch
  only : ∀ p, t2Epoch p = some epoch → p = epoch % 2
  set : ∀ k, lookup (t2 (epoch % 2)) k = lookup (s.sets b.entry) k
  keys : ∀ p, ((t2 p).map Vacc.pubkey).Nodup
  old : ∀ p e, t2Epoch p = some e → e ≠ epoch → s.stakes.t2Epoch p = some e ∧ t2 p = s.stakes.t2 p
  live : ∀ c ∈ s.banks, t2Epoch (c.epoch % 2) = some c.epoch ∧ t2 (c.epoch % 2) = s.stakes.t2 (c.epoch % 2)

lemma Agree.rotate (ha : Agree s) (hp : ∀ l, (order l).Perm l) (hi : b ∈ s.banks) (next : epoch = b.epoch + 1)
    (hb : ∀ c ∈ s.banks, c.epoch = b.epoch ∨ c.epoch = epoch)
    (ho : s.origin epoch = none ∨ s.origin epoch = some b.entry) (free : List Nat) :
    ∃ t2 t2Epoch, Stakes.rotate order { s.stakes with freeStates := free } b.width epoch =
      { s.stakes with freeStates := free, t2 := t2, t2Epoch := t2Epoch } ∧ Rotated s b epoch t2 t2Epoch := by
  unfold Stakes.rotate
  by_cases ht : s.stakes.t2Epoch (epoch % 2) = some epoch
  · rw [if_pos ht]
    refine ⟨_, _, rfl, ht, fun p hr => (ha.slot p _ hr).1, fun k => ?_, ha.keys2, fun p e hr _ => ⟨hr, rfl⟩,
      fun c hl => ⟨(ha.t2 c hl).1, rfl⟩⟩
    have hf := ha.first b hi
    obtain ⟨-, hy | ⟨n, hm, hd⟩⟩ := ha.slot _ _ ht
    · omega
    · rw [hd k]
      rcases ho with none | hs
      · rw [none] at hm
        cases hm
      · rw [hs] at hm
        cases hm
        rfl
  · rw [if_neg ht, ha.t1 b hi]
    have nd := ha.keys1 b.entry
    have hc : ∀ c ∈ s.banks, c.epoch % 2 ≠ epoch % 2 := by
      intro c hl
      rcases hb c hl with hs | hn
      · omega
      · refine absurd ?_ ht
        rw [← hn]
        exact (ha.t2 c hl).1
    refine ⟨_, _, rfl, update_here _ _ _, fun p hr => ?_, fun k => ?_, keys_update ha.keys2 ?_,
      fun p e hr ne => ?_, fun c hl => ?_⟩
    · by_contra he
      rw [update_there _ he] at hr
      exact he (ha.slot p _ hr).1
    · rw [update_here]
      exact (lookup_perm (hp _).symm nd).symm
    · exact ((hp _).map _).nodup_iff.mpr nd
    · by_cases hh : p = epoch % 2
      · rw [hh, update_here] at hr
        cases hr
        exact absurd rfl ne
      · rw [update_there _ hh] at hr ⊢
        exact ⟨hr, rfl⟩
    · rw [update_there _ (hc c hl), update_there _ (hc c hl)]
      exact ⟨(ha.t2 c hl).1, rfl⟩

lemma Agree.enter {forks : List Nat} {t2 : Nat → List Vacc} {t2Epoch : Nat → Option Nat} (ha : Agree s)
    (hv : b ∈ s.banks) (next : epoch = b.epoch + 1) (hm : epoch < 2 ^ 16)
    (hj : ∀ c ∈ s.banks, c.epoch = b.epoch ∨ c.epoch = epoch) (some : s.stakes.freeStates = bank :: free)
    (hg : s.stakes.freeForks = width :: forks) (hd : Rotated s b epoch t2 t2Epoch) :
    Agree (s.fork b epoch { s.stakes with
      freeStates := free, t2 := t2, t2Epoch := t2Epoch
      freeForks := forks
      refCnt := update s.stakes.refCnt width 1
      t1 := update s.stakes.t1 width []
      states := update s.stakes.states bank fun _ => .zero
      heap := []
      minStakeWmark := 0 } (forkId bank width epoch)) := by
  unfold System.fork
  rw [if_neg (by omega)]
  have hf := ha.freeState bank (some ▸ .head _)
  have hr := ha.freeFork width (hg ▸ .head _)
  have nd := ha.freeForks
  rw [hg, nodup_cons] at nd
  have hq : s.stakes.refCnt width = 0 := by
    rw [ha.refCnt, countP_eq_zero]
    exact fun c hi hs => hr.2 c hi (of_decide_eq_true hs)
  have hn : Named ⟨forkId bank width epoch, s.entries, s.sets b.entry, Option.some b.set2, []⟩ bank width epoch :=
    named_forkId rfl hf.1 hr.1 hm
  have ho : ∀ c ∈ s.banks, c.entry ≠ s.entries := fun c hi => ne_of_lt (ha.entry c hi)
  have he := ha.entry b hv
  have hh : ∀ e n, update s.origin epoch (Option.some b.entry) e = Option.some n → n + 1 < s.entries + 1 := by
    intro e n hc
    by_cases hs : e = epoch
    · rw [hs, update_here] at hc
      cases hc
      omega
    · rw [update_there _ hs] at hc
      have := ha.origin e n hc
      omega
  refine ⟨?_, ?_, ?_, hd.keys, ?_, ?_, ?_, ?_⟩
  · refine ha.toShape.fork hn some rfl rfl ?_ nd.1 (by rw [hq]) ?_ (Nat.lt_succ_self _) (Nat.le_succ _)
      hh rfl (by have := ha.first b hv; omega)
    · rw [hg]
      exact sublist_cons_self _ _
    · intro c hi
      exact iff_of_false (hr.2 c hi) (ho c hi)
  all_goals dsimp only
  · refine forall_mem_cons.mpr ⟨?_, fun c hi => ?_⟩
    · rw [hn.width, update_here, update_here]
    · rw [update_there _ (hr.2 c hi), update_there _ (ho c hi)]
      exact ha.t1 c hi
  · intro n
    by_cases hs : n = s.entries
    · rw [hs, update_here]
      exact nodup_nil
    · rw [update_there _ hs]
      exact ha.keys1 n
  · refine forall_mem_cons.mpr ⟨?_, fun c hi => ?_⟩
    · rw [hn.epoch]
      exact ⟨hd.here, hd.set⟩
    · rw [(hd.live c hi).2]
      exact ⟨(hd.live c hi).1, (ha.t2 c hi).2⟩
  · refine forall_mem_cons.mpr ⟨fun i => ?_, fun c hi => ?_⟩
    · rw [hn.place, update_here, getD_votedState_nil]
    · rw [update_there _ (hf.2 c hi), (hd.live c hi).2]
      exact ha.states c hi
  · refine forall_mem_cons.mpr ⟨fun _ _ => ?_, fun c hi ht hl => ?_⟩
    · refine ⟨_, rfl, fun k => ?_⟩
      rw [hn.epoch, show epoch - 1 = b.epoch by omega, (hd.live b hv).2]
      exact (ha.t2 b hv).2 k
    · have ne : c.epoch - 1 ≠ epoch := by
        rcases hj c hi with hs | hs
        · omega
        · omega
      obtain ⟨hb, hs⟩ := hd.old _ _ ht ne
      rw [hs]
      exact ha.t3 c hi hb hl
  · intro p e ht
    by_cases hs : e = epoch
    · rw [hs] at ht ⊢
      have hp := hd.only p ht
      refine ⟨hp, .inr ⟨b.entry, update_here _ _ _, fun k => ?_⟩⟩
      rw [hp, update_there _ (ho b hv)]
      exact hd.set k
    · obtain ⟨hb, set⟩ := hd.old p e ht hs
      obtain ⟨hp, hy | ⟨n, hc, hk⟩⟩ := ha.slot p e hb
      · exact ⟨hp, .inl hy⟩
      · have := ha.origin e n hc
        refine ⟨hp, .inr ⟨n, ?_, fun k => ?_⟩⟩
        · rw [update_there _ hs]
          exact hc
        · rw [set, update_there _ (by omega)]
          exact hk k

lemma Agree.newFork (ha : Agree s) (hp : ∀ l, (order l).Perm l) (hl : b ∈ s.banks)
    (hr : s.stakes.freeStates ≠ []) (hc : epoch = b.epoch ∨
      epoch = b.epoch + 1 ∧ epoch < 2 ^ 16 ∧ s.stakes.freeForks ≠ [] ∧
      (∀ c ∈ s.banks, c.epoch = b.epoch ∨ c.epoch = epoch) ∧
      (s.origin epoch = none ∨ s.origin epoch = some b.entry)) :
    ∃ t, step order s (.newFork b.id epoch) = .ok t ∧ Agree t := by
  obtain ⟨bank, free, ht⟩ := exists_cons_of_ne_nil hr
  unfold step Stakes.newFork
  dsimp only
  rw [ha.bank_eq hl, ht, show forkIdEpoch b.id = b.epoch from rfl, show forkIdWidthId b.id = b.width from rfl]
  rcases hc with rfl | ⟨hx, hs, width, he, hn⟩
  · have hs : b.epoch < 2 ^ 16 := epoch_lt b.id
    rw [check_of _ hs]
    dsimp only
    rw [if_pos rfl]
    exact ⟨_, rfl, ha.inherit hl ht⟩
  · obtain ⟨width, forks, hw⟩ := exists_cons_of_ne_nil width
    obtain ⟨t2, t2Epoch, eq, ho⟩ := ha.rotate hp hl hx he hn free
    rw [check_of _ hs]
    dsimp only
    rw [if_neg (by omega), eq, Stakes.enter]
    rw [hw]
    exact ⟨_, rfl, ha.enter hl hx hs he ht hw ho⟩

end Firebam.VoteStakes
