import Firebam.StakeCi.Basic

/-! What a destination table looks like, and that every way of building one keeps it so. -/
namespace Firebam.StakeCi

open Lib List Dest

variable {identity key identity' : Pubkey} {weights : List StakeWeight} {info front back changed l : List Dest}
  {d : Sdest} {x : Dest} {idx : Nat} {f : Dest → Dest}

def Dest.weight (x : Dest) : Pubkey × Nat := (x.pubkey, x.stakeLamports)

def pairs (weights : List StakeWeight) : List (Pubkey × Nat) := weights.map fun w => (w.key, w.stake)

structure Listed (identity : Pubkey) (weights : List StakeWeight) (info : List Dest) : Prop where
  keys : (info.map (·.pubkey)).Nodup
  real : nullPubkey ∉ info.map (·.pubkey)
  split : ∃ rest : List Pubkey, info.map weight = pairs weights ++ rest.map (·, 0) ∧ rest.Pairwise (· > ·)
  staked : ∀ w ∈ weights, 0 < w.stake
  present : identity ∈ info.map (·.pubkey)
  reachable : ∀ x ∈ info, x.pubkey = identity → x.ip4 ≠ 0

structure Table (identity : Pubkey) (weights : List StakeWeight) (d : Sdest) : Prop
    extends Listed identity weights d.dests where
  source : ∃ x, d.dests[d.source]? = some x ∧ x.pubkey = identity

lemma Listed.parts (h : Listed identity weights info) : ∃ front back, info = front ++ back ∧
    front.map weight = pairs weights ∧ (∀ x ∈ back, x.stakeLamports = 0) ∧
    back.Pairwise fun a b => b.pubkey < a.pubkey := by
  obtain ⟨rest, weight, ho⟩ := h.split
  obtain ⟨front, back, rfl, ht, hu⟩ := map_eq_append_iff.mp weight
  have keys : back.map (·.pubkey) = rest := by
    have := congrArg (List.map Prod.fst) hu
    simpa [Dest.weight, Function.comp_def] using this
  refine ⟨front, back, rfl, ht, fun x hm => ?_, ?_⟩
  · have hh : x.weight ∈ rest.map (·, 0) := hu ▸ mem_map_of_mem hm
    obtain ⟨key, _, hs⟩ := mem_map.mp hh
    exact (congrArg Prod.snd hs).symm
  · rw [← keys] at ho
    exact pairwise_map.mp ho

lemma split_of_parts (ht : front.map weight = pairs weights) (hu : ∀ x ∈ back, x.stakeLamports = 0)
    (hs : back.Pairwise fun a b => b.pubkey < a.pubkey) :
    ∃ rest : List Pubkey, (front ++ back).map weight = pairs weights ++ rest.map (·, 0) ∧ rest.Pairwise (· > ·) := by
  refine ⟨back.map (·.pubkey), ?_, pairwise_map.mpr hs⟩
  rw [map_append, ht, map_map]
  congr 1
  refine map_congr_left fun x hm => ?_
  simp [weight, hu x hm]

section
variable (hp : ∀ w ∈ weights, 0 < w.stake) (hd : front.map weight = pairs weights)
include hp hd

lemma staked_front (hm : x ∈ front) : 0 < x.stakeLamports := by
  have hh : x.weight ∈ pairs weights := hd ▸ mem_map_of_mem hm
  obtain ⟨w, hn, hs⟩ := mem_map.mp hh
  have ht : w.stake = x.stakeLamports := congrArg Prod.snd hs
  exact ht ▸ hp w hn

lemma stakedCnt_parts (hu : ∀ x ∈ back, x.stakeLamports = 0) :
    ((front ++ back).countP fun x => decide (0 < x.stakeLamports)) = front.length := by
  rw [countP_append, countP_eq_length.mpr, countP_eq_zero.mpr, Nat.add_zero]
  · intro x hm
    simp [hu x hm]
  · intro x hm
    exact decide_eq_true (staked_front hp hd hm)

end

lemma Listed.sdestNew (h : Listed identity weights info) :
    ∃ d, sdestNew info identity = some d ∧ Table identity weights d := by
  obtain ⟨front, back, rfl, ht, hu, _⟩ := h.parts
  have ho : StakedFirst (front ++ back) := by
    refine pairwise_append.mpr ⟨?_, ?_, ?_⟩
    · exact pairwise_of_forall_mem_list fun a hm _ _ _ => staked_front h.staked ht hm
    · exact pairwise_of_forall_mem_list fun _ _ b hm hp => absurd hp (by simp [hu b hm])
    · exact fun a hm _ _ _ => staked_front h.staked ht hm
  obtain ⟨x, he, hs⟩ := mem_map.mp h.present
  cases hf : (front ++ back).findIdx? fun x => decide (x.pubkey = identity) with
  | none =>
    have := findIdx?_eq_none_iff.mp hf x he
    simp [hs] at this
  | some idx =>
    obtain ⟨hb, hh, _⟩ := findIdx?_eq_some_iff_getElem.mp hf
    refine ⟨⟨front ++ back, idx⟩, ?_, h, (front ++ back)[idx], ?_, of_decide_eq_true hh⟩
    · simp only [StakeCi.sdestNew, if_pos ho, hf, Option.map_some]
    · exact getElem?_eq_getElem hb

lemma mem_sortPubkey : x ∈ sortPubkey l ↔ x ∈ l := mem_insertionSort _

lemma sortPubkey_keys (l : List Dest) : ((sortPubkey l).map (·.pubkey)).Perm (l.map (·.pubkey)) :=
  (perm_insertionSort _ _).map _

lemma sortPubkey_sorted (hd : (l.map (·.pubkey)).Nodup) : (sortPubkey l).Pairwise fun a b => b.pubkey < a.pubkey := by
  have ho : ((l.map (·.pubkey)).insertionSort (· ≥ ·)).Pairwise (· ≥ ·) := pairwise_insertionSort _ _
  have hk : (sortPubkey l).map (·.pubkey) = (l.map (·.pubkey)).insertionSort (· ≥ ·) :=
    map_insertionSort _ _ _ _ fun _ _ _ _ => .rfl
  have hi : ((sortPubkey l).map (·.pubkey)).Nodup := (sortPubkey_keys l).nodup_iff.mpr hd
  rw [← hk] at ho
  have hs : ((sortPubkey l).map (·.pubkey)).Pairwise fun a b => b < a :=
    (ho.and hi).imp fun ⟨le, ne⟩ => lt_of_le_of_ne le ne.symm
  exact pairwise_map.mp hs

lemma Listed.of_loose {loose : List Dest} (ho : ∀ w ∈ weights, 0 < w.stake) (hs : front.map weight = pairs weights)
    (hu : ∀ x ∈ loose, x.stakeLamports = 0) (hk : ((front ++ loose).map (·.pubkey)).Nodup)
    (ha : nullPubkey ∉ (front ++ loose).map (·.pubkey)) (hr : identity ∈ (front ++ loose).map (·.pubkey))
    (he : ∀ x ∈ front ++ loose, x.pubkey = identity → x.ip4 ≠ 0) :
    Listed identity weights (front ++ sortPubkey loose) := by
  have hp : ((front ++ sortPubkey loose).map (·.pubkey)).Perm ((front ++ loose).map (·.pubkey)) := by
    rw [map_append, map_append]
    exact (sortPubkey_keys loose).append_left _
  have hd : (loose.map (·.pubkey)).Nodup := by
    rw [map_append] at hk
    exact (nodup_append.mp hk).2.1
  refine ⟨hp.nodup_iff.mpr hk, fun hm => ha (hp.mem_iff.mp hm), ?_, ho, hp.mem_iff.mpr hr, ?_⟩
  · exact split_of_parts hs (fun x hm => hu x (mem_sortPubkey.mp hm)) (sortPubkey_sorted hd)
  · intro x hm
    refine he x ?_
    rcases mem_append.mp hm with hm | hm
    · exact mem_append_left _ hm
    · exact mem_append_right _ (mem_sortPubkey.mp hm)

lemma pubkeyToIdx_some (hf : d.pubkeyToIdx key = some idx) :
    ∃ hb : idx < d.dests.length, d.dests[idx].pubkey = key := by
  unfold Sdest.pubkeyToIdx at hf
  split at hf
  · cases hf
  · obtain ⟨hb, hh, _⟩ := findIdx?_eq_some_iff_getElem.mp hf
    exact ⟨hb, of_decide_eq_true hh⟩

lemma pubkeyToIdx_none (ha : key ≠ nullPubkey) (hn : d.pubkeyToIdx key = none) : key ∉ d.dests.map (·.pubkey) := by
  unfold Sdest.pubkeyToIdx at hn
  rw [if_neg ha] at hn
  intro hm
  obtain ⟨x, hh, hs⟩ := mem_map.mp hm
  have := findIdx?_eq_none_iff.mp hn x hh
  simp [hs] at this

lemma pubkeyToIdx_congr {next : Sdest} (h : next.dests.map (·.pubkey) = d.dests.map (·.pubkey)) :
    next.pubkeyToIdx key = d.pubkeyToIdx key := by
  have hf := congrArg (findIdx? fun k => decide (k = key)) h
  rw [findIdx?_map, findIdx?_map] at hf
  unfold Sdest.pubkeyToIdx
  exact if_congr Iff.rfl rfl hf

lemma pubkeyToIdx_eq (hd : (d.dests.map (·.pubkey)).Nodup) (hb : idx < d.dests.length)
    (hs : d.dests[idx].pubkey = key) (ha : key ≠ nullPubkey) : d.pubkeyToIdx key = some idx := by
  cases hf : d.pubkeyToIdx key with
  | none =>
    have hn := pubkeyToIdx_none ha hf
    exact absurd (mem_map.mpr ⟨_, getElem_mem hb, hs⟩) hn
  | some j =>
    obtain ⟨hm, ht⟩ := pubkeyToIdx_some hf
    have he : d.dests[j] = d.dests[idx] :=
      inj_on_of_nodup_map hd (getElem_mem hm) (getElem_mem hb) (ht.trans hs.symm)
    rw [hd.of_map.getElem_inj_iff.mp he]

lemma keys_of_weight (hs : changed.map weight = info.map weight) : changed.map (·.pubkey) = info.map (·.pubkey) := by
  have := congrArg (List.map Prod.fst) hs
  simpa [weight, Function.comp_def] using this

lemma Listed.of_weight (h : Listed identity weights info) (hs : changed.map weight = info.map weight)
    (hp : identity' ∈ info.map (·.pubkey)) (hr : ∀ x ∈ changed, x.pubkey = identity' → x.ip4 ≠ 0) :
    Listed identity' weights changed := by
  have hk := keys_of_weight hs
  exact ⟨hk ▸ h.keys, hk ▸ h.real, hs ▸ h.split, h.staked, hk ▸ hp, hr⟩

lemma update_weight (hk : ∀ x, (f x).weight = x.weight) (hb : idx < d.dests.length) :
    (d.update idx f).dests.map weight = d.dests.map weight := by
  have hh : d.dests.getD idx nullDest = d.dests[idx] := by simp [hb]
  show (d.dests.set idx (f (d.dests.getD idx nullDest))).map weight = d.dests.map weight
  rw [map_set, hk, hh, ← map_set, set_getElem_self]

lemma mem_update (hx : x ∈ (d.update idx f).dests) (hb : idx < d.dests.length) :
    x = f d.dests[idx] ∨ ∃ (j : Nat) (m : j < d.dests.length), j ≠ idx ∧ x = d.dests[j] := by
  obtain ⟨j, m, rfl⟩ := mem_iff_getElem.mp hx
  have hm : j < d.dests.length := by simpa [Sdest.update] using m
  by_cases hh : j = idx
  · subst hh
    exact .inl (by simp [Sdest.update, hb])
  · exact .inr ⟨j, hm, hh, by simp [Sdest.update, Ne.symm hh]⟩

lemma other_key {j : Nat} (hd : (d.dests.map (·.pubkey)).Nodup) (hb : idx < d.dests.length)
    (hm : j < d.dests.length) (ne : j ≠ idx) : d.dests[j].pubkey ≠ d.dests[idx].pubkey := by
  intro hs
  have he := inj_on_of_nodup_map hd (getElem_mem hm) (getElem_mem hb) hs
  exact ne (hd.of_map.getElem_inj_iff.mp he)

end Firebam.StakeCi
