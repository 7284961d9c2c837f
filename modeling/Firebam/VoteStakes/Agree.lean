import Firebam.VoteStakes.System
import Firebam.Lib.Keyed

/-! Every operation keeps what the banks should see and what they see in agreement. -/
namespace Firebam.VoteStakes
open List Lib

variable {s : System} {b c : Bank} {l l' : List Vacc} {k : Pubkey} {v : Vacc} {bank width epoch i : Nat} {β : Type}
  {f : Bank → Bank}

lemma bankId_forkId (hs : bank < 2 ^ 16) : forkIdBankId (forkId bank width epoch) = bank := by
  unfold forkIdBankId forkId
  omega

lemma widthId_forkId (hs : width < 2 ^ 16) : forkIdWidthId (forkId bank width epoch) = width := by
  unfold forkIdWidthId forkId
  omega

lemma epoch_forkId (hs : epoch < 2 ^ 16) : forkIdEpoch (forkId bank width epoch) = epoch := by
  unfold forkIdEpoch forkId
  omega

lemma widthId_lt (id : ForkId) : forkIdWidthId id < 2 ^ 16 := Nat.mod_lt _ (by decide)

lemma epoch_lt (id : ForkId) : forkIdEpoch id < 2 ^ 16 := Nat.mod_lt _ (by decide)

lemma update_here (f : Nat → β) (i : Nat) (x : β) : update f i x i = x := if_pos rfl

lemma update_there {f : Nat → β} {j : Nat} (x : β) (ne : j ≠ i) : update f i x j = f j := if_neg ne

lemma lookup_key (hf : lookup l k = some v) : v.pubkey = k := by
  have := find?_some hf
  simpa using this

lemma lookup_eq_some (nd : (l.map Vacc.pubkey).Nodup) : lookup l k = some v ↔ v ∈ l ∧ v.pubkey = k := by
  constructor
  · intro hf
    exact ⟨mem_of_find?_eq_some hf, lookup_key hf⟩
  · rintro ⟨hm, rfl⟩
    exact find_eq_of_mem nd hm

lemma lookup_perm (hp : l.Perm l') (nd : (l.map Vacc.pubkey).Nodup) : lookup l k = lookup l' k := by
  have hn : (l'.map Vacc.pubkey).Nodup := (hp.map _).nodup_iff.mp nd
  refine Option.ext fun v => ?_
  rw [lookup_eq_some nd, lookup_eq_some hn, hp.mem_iff]

lemma getElem_place (hf : lookup l k = some v) : l[place l k]? = some v := by
  rw [lookup, find?_eq_some_iff_getElem] at hf
  obtain ⟨hk, i, hs, hh, hb⟩ := hf
  have hi : place l k = i := by
    refine (findIdx_eq hs).mpr ⟨?_, ?_⟩
    · rw [hh]
      exact hk
    · intro j hl
      have := hb j hl
      simpa using this
  rw [hi, getElem?_eq_getElem hs, hh]

lemma place_eq (nd : (l.map Vacc.pubkey).Nodup) (hh : l[i]? = some v) : place l v.pubkey = i := by
  obtain ⟨hs, eq⟩ := List.getElem?_eq_some_iff.mp hh
  refine (findIdx_eq hs).mpr ⟨by simp [eq], fun j hl => ?_⟩
  -- an earlier place has another key
  have ne := pairwise_iff_getElem.mp nd j i (by simp; omega) (by simpa using hs) hl
  simp only [getElem_map, eq] at ne
  simpa using ne

lemma votedState_cons (u : Update) (log : List Update) (key : Pubkey) : votedState (u :: log) key =
    if u.pubkey = key then (votedState log key).set u.slot u.ts u.isValid else votedState log key := by
  unfold votedState State.set
  by_cases hs : u.pubkey = key
  · cases hv : u.isValid
    · simp [hs, hv]
    · simp [hs, hv]
  · simp [hs]

section
variable (ha : Agree s) (hl : b ∈ s.banks)
include ha hl

lemma Agree.queryT2 (k : Pubkey) :
    s.stakes.queryT2 b.id k = (lookup b.set2 k).map fun v => (v, votedState b.log k) := by
  unfold Stakes.queryT2
  dsimp only
  rw [show forkIdEpoch b.id = b.epoch from rfl, (ha.t2 b hl).2 k]
  cases hf : lookup b.set2 k with
  | none => rfl
  | some v =>
    rw [← (ha.t2 b hl).2 k] at hf
    rw [show forkIdBankId b.id = b.place from rfl, ha.states b hl, getElem_place hf]
    simp [lookup_key hf]

lemma Agree.queryT1 (k : Pubkey) : s.stakes.queryT1 b.id k = lookup (s.sets b.entry) k := by
  unfold Stakes.queryT1
  rw [show forkIdWidthId b.id = b.width from rfl, ha.t1 b hl]

lemma Agree.queryT3 : (∀ k, s.stakes.queryT3 b.id k = none) ∨
    ∃ set, b.set3 = some set ∧ ∀ k, s.stakes.queryT3 b.id k = lookup set k := by
  unfold Stakes.queryT3
  rw [show forkIdEpoch b.id = b.epoch from rfl]
  by_cases hm : b.epoch = 0 ∨ s.stakes.t2Epoch ((b.epoch - 1) % 2) ≠ some (b.epoch - 1)
  · refine .inl fun k => ?_
    rw [if_pos hm]
  · have ht := hm
    rw [not_or, not_not] at ht
    obtain ⟨set, hh, hs⟩ := ha.t3 b hl ht.2 ht.1
    refine .inr ⟨set, hh, fun k => ?_⟩
    rw [if_neg hm]
    exact hs k

end

namespace Shape

variable (hh : Shape s)
include hh

lemma ids : (s.banks.map Bank.id).Nodup := by
  have hp := hh.places
  rw [show Bank.place = forkIdBankId ∘ Bank.id from rfl, ← map_map] at hp
  exact hp.of_map _

lemma bank_eq (hl : b ∈ s.banks) : s.bank b.id = some b := find_eq_of_mem hh.ids hl

lemma id_inj (hi : b ∈ s.banks) (hl : c ∈ s.banks) (hs : c.id = b.id) : c = b :=
  inj_on_of_nodup_map hh.ids hl hi hs

lemma place_ne (hl : b ∈ s.banks) (hi : c ∈ s.banks) (ne : c.id ≠ b.id) : c.place ≠ b.place := by
  intro hs
  rw [inj_on_of_nodup_map hh.places hi hl hs] at ne
  exact ne rfl

lemma congr {t : System} (hs : t.banks.map (fun b => (b.id, b.entry)) = s.banks.map fun b => (b.id, b.entry))
    (hf : t.stakes.freeStates = s.stakes.freeStates) (hr : t.stakes.freeForks = s.stakes.freeForks)
    (ht : t.stakes.refCnt = s.stakes.refCnt) (he : t.entries = s.entries) (ho : t.origin = s.origin)
    (hb : t.first = s.first) : Shape t := by
  have hd : ∀ b ∈ t.banks, ∃ c ∈ s.banks, c.id = b.id ∧ c.entry = b.entry := by
    intro b hi
    have hm : (b.id, b.entry) ∈ t.banks.map fun b => (b.id, b.entry) := mem_map.mpr ⟨b, hi, rfl⟩
    rw [hs] at hm
    obtain ⟨c, hl, eq⟩ := mem_map.mp hm
    exact ⟨c, hl, congrArg Prod.fst eq, congrArg Prod.snd eq⟩
  have hw : ∀ {β : Type} (f : ForkId → β), t.banks.map (fun b => f b.id) = s.banks.map fun b => f b.id := by
    intro β f
    have := congrArg (List.map fun p => f p.1) hs
    rwa [map_map, map_map] at this
  refine ⟨?_, hf ▸ hh.freeStates, ?_, hr ▸ hh.freeForks, ?_, ?_, ?_, ?_, ?_, ?_⟩
  · rw [show t.banks.map Bank.place = s.banks.map Bank.place from hw forkIdBankId]
    exact hh.places
  · intro i ha
    rw [hf] at ha
    refine ⟨(hh.freeState i ha).1, fun b hi => ?_⟩
    obtain ⟨c, hl, id, -⟩ := hd b hi
    rw [Bank.place, ← id]
    exact (hh.freeState i ha).2 c hl
  · intro w ha
    rw [hr] at ha
    refine ⟨(hh.freeFork w ha).1, fun b hi => ?_⟩
    obtain ⟨c, hl, id, -⟩ := hd b hi
    rw [Bank.width, ← id]
    exact (hh.freeFork w ha).2 c hl
  · intro w
    have hc : ∀ l : List Bank, l.countP (fun b => b.width = w) =
        (l.map fun b => forkIdWidthId b.id).countP fun x => x = w := by
      intro l
      rw [countP_map]
      rfl
    rw [ht, hh.refCnt, hc, hc, hw forkIdWidthId]
  · intro b hi c hl
    obtain ⟨b', hj, id, hn⟩ := hd b hi
    obtain ⟨c', hg, hk, hy⟩ := hd c hl
    rw [Bank.width, Bank.width, ← id, ← hk, ← hn, ← hy]
    exact hh.widths b' hj c' hg
  · intro b hi
    obtain ⟨c, hl, -, hn⟩ := hd b hi
    rw [← hn, he]
    exact hh.entry c hl
  · rw [ho, he]
    exact hh.origin
  · intro b hi
    obtain ⟨c, hl, id, -⟩ := hd b hi
    rw [Bank.epoch, ← id, hb]
    exact hh.first c hl

end Shape

lemma setBank_words (id : ForkId) (hk : ∀ b, (f b).id = b.id ∧ (f b).entry = b.entry) :
    (s.setBank id f).map (fun b => (b.id, b.entry)) = s.banks.map fun b => (b.id, b.entry) := by
  unfold System.setBank
  rw [map_map]
  refine map_congr_left fun b _ => ?_
  dsimp only [Function.comp]
  split
  · rw [(hk b).1, (hk b).2]
  · rfl

lemma mem_setBank {id : ForkId} (hl : c ∈ s.setBank id f) : ∃ b ∈ s.banks, b.id = id ∧ c = f b ∨ b.id ≠ id ∧ c = b := by
  obtain ⟨b, hl, eq⟩ := mem_map.mp hl
  split at eq
  · exact ⟨b, hl, .inl ⟨‹_›, eq.symm⟩⟩
  · exact ⟨b, hl, .inr ⟨‹_›, eq.symm⟩⟩

end Firebam.VoteStakes
