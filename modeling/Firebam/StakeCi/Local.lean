import Firebam.StakeCi.Tables

/-! The local validator stays in both tables, unless its own contact info takes its address away. -/
namespace Firebam.StakeCi

open Lib List

variable {identity key : Pubkey} {weights old : List StakeWeight} {d existing : Sdest} {even odd : Option EpochMsg}
  {s : Info} {entry : Dest} {more : List Pubkey}

lemma refreshSdest_ok {front loose : List Dest} (hi : Listed identity weights (front ++ sortPubkey loose)) :
    ∃ next, refreshSdest identity (front ++ loose) front.length = .ok next ∧ Table identity weights next := by
  obtain ⟨next, hb, ht⟩ := hi.sdestNew
  refine ⟨next, ?_, ht⟩
  unfold refreshSdest
  rw [take_left, drop_left, hb]

section
variable (h : Table identity weights d)
include h

lemma Table.counted : ∃ front back, d.dests = front ++ back ∧
    front.map Dest.weight = pairs weights ∧ (∀ x ∈ back, x.stakeLamports = 0) ∧
    (back.Pairwise fun a b => b.pubkey < a.pubkey) ∧ d.stakedCnt = front.length := by
  obtain ⟨front, back, hp, ht, hr, hs⟩ := h.parts
  refine ⟨front, back, hp, ht, hr, hs, ?_⟩
  unfold Sdest.stakedCnt
  rw [hp]
  exact stakedCnt_parts h.staked ht hr

lemma Table.add {front back loose : List Dest} (hd : d.dests = front ++ back) (ht : front.map Dest.weight = pairs weights)
    (hb : ∀ x ∈ back, x.stakeLamports = 0) (hl : loose.Perm (entry :: back)) (hu : entry.stakeLamports = 0)
    (hn : entry.pubkey ≠ nullPubkey) (hf : entry.pubkey ∉ d.dests.map (·.pubkey))
    (hk : key = identity ∨ key = entry.pubkey ∧ entry.ip4 ≠ 0) : Listed key weights (front ++ sortPubkey loose) := by
  have hp : (front ++ loose).Perm (entry :: d.dests) := hd ▸ (hl.append_left front).trans perm_middle
  refine Listed.of_loose h.staked ht ?_ ?_ ?_ ?_ ?_
  · intro x hm
    rcases mem_cons.mp (hl.mem_iff.mp hm) with rfl | hm
    · exact hu
    · exact hb x hm
  · exact (hp.map _).nodup_iff.mpr (nodup_cons.mpr ⟨hf, h.keys⟩)
  · rw [(hp.map _).mem_iff, map_cons, mem_cons, not_or]
    exact ⟨hn.symm, h.real⟩
  · rw [(hp.map _).mem_iff, map_cons, mem_cons]
    exact hk.elim (fun hk => .inr (hk ▸ h.present)) fun hk => .inl hk.1
  · intro x hm hx
    rcases mem_cons.mp (hp.mem_iff.mp hm) with rfl | hm
    · exact hk.elim (fun hk => absurd (hx.trans hk ▸ h.present) hf) And.right
    · rcases hk with rfl | ⟨rfl, -⟩
      · exact h.reachable x hm hx
      · exact absurd (hx ▸ mem_map_of_mem hm) hf

lemma destAddOneUnstaked_ok (hu : entry.stakeLamports = 0)
    (hn : entry.pubkey ≠ nullPubkey) (hf : entry.pubkey ∉ d.dests.map (·.pubkey)) (hr : d.dests.length < maxShredDests) :
    ∃ next, destAddOneUnstaked identity d entry = .ok next ∧ Table identity weights next := by
  obtain ⟨front, back, hp, ht, he, _, hc⟩ := h.counted
  have all : d.dests ++ [entry] = front ++ (back ++ [entry]) := by rw [hp, append_assoc]
  unfold destAddOneUnstaked
  rw [if_neg (not_le.mpr hr), hc, all]
  exact refreshSdest_ok (h.add hp ht he (perm_append_singleton _ _) hu hn hf (.inl rfl))

lemma destUpdateImpl_ok {ip4 : Nat} (port : Nat) (hn : key ≠ nullPubkey)
    (hd : key = identity → ip4 ≠ 0) (hr : d.dests.length < maxShredDests) :
    ∃ next, destUpdateImpl identity key ip4 port d = .ok next ∧ Table identity weights next := by
  unfold destUpdateImpl
  cases hf : d.pubkeyToIdx key with
  | none => exact destAddOneUnstaked_ok h rfl hn (pubkeyToIdx_none hn hf) hr
  | some idx =>
    obtain ⟨hb, hh⟩ := pubkeyToIdx_some hf
    have hw : (d.update idx fun x => { x with ip4 := ip4, port := port }).dests.map Dest.weight = d.dests.map Dest.weight :=
      update_weight (fun _ => rfl) hb
    refine ⟨_, rfl, h.toListed.of_weight hw h.present ?_, ?_⟩
    · intro x hm hs
      rcases mem_update hm hb with rfl | ⟨j, m, _, rfl⟩
      · exact hd (hh.symm.trans hs)
      · exact h.reachable _ (getElem_mem m) hs
    · obtain ⟨x, ha, hs⟩ := h.source
      have hk := congrArg (·[d.source]?) (keys_of_weight hw)
      simp only [getElem?_map, ha, Option.map_some] at hk
      obtain ⟨y, he, hn⟩ := Option.map_eq_some_iff.mp hk
      exact ⟨y, he, hn.trans hs⟩

lemma destRemoveImpl_ok (ne : key ≠ identity) :
    ∃ next, destRemoveImpl identity key d = .ok next ∧ Table identity weights next := by
  unfold destRemoveImpl
  cases hf : d.pubkeyToIdx key with
  | none => exact ⟨d, rfl, h⟩
  | some idx =>
    obtain ⟨hb, hh⟩ := pubkeyToIdx_some hf
    have hn : d.idxToDest (some idx) = d.dests[idx] := by simp [Sdest.idxToDest, hb]
    simp only
    split_ifs with hz
    · exact ⟨d, rfl, h⟩
    · rw [hn] at hz
      obtain ⟨front, back, split, ht, hr, _, hc⟩ := h.counted
      have hp : front.length ≤ idx := by
        rcases lt_or_ge idx front.length with m | hp
        · have hx : d.dests[idx] ∈ front := by
            simp only [split, getElem_append_left m]
            exact getElem_mem m
          exact absurd (staked_front h.staked ht hx) hz
        · exact hp
      have hm : (d.dests.eraseIdx idx).Sublist d.dests := eraseIdx_sublist _ _
      have all : d.dests.eraseIdx idx = front ++ back.eraseIdx (idx - front.length) := by
        rw [split]
        exact eraseIdx_append_of_length_le hp _
      rw [hc, all]
      refine refreshSdest_ok (Listed.of_loose h.staked ht (fun x hx => hr x (mem_of_mem_eraseIdx hx)) ?_ ?_ ?_ ?_)
      all_goals rw [← all]
      · exact h.keys.sublist (hm.map _)
      · exact fun hx => h.real ((hm.map _).subset hx)
      · obtain ⟨x, he, hs⟩ := mem_map.mp h.present
        obtain ⟨j, m, rfl⟩ := mem_iff_getElem.mp he
        refine mem_map.mpr ⟨_, mem_eraseIdx_iff_getElem.mpr ⟨j, m, ?_, rfl⟩, hs⟩
        rintro rfl
        exact ne (hh.symm.trans hs)
      · exact fun x hx => h.reachable x (hm.subset hx)

end

lemma sortPubkey_cons {back : List Dest} (hs : back.Pairwise fun a b => b.pubkey < a.pubkey) :
    sortPubkey (entry :: back) = back.takeWhile (fun x => decide (entry.pubkey < x.pubkey)) ++
      entry :: back.dropWhile fun x => decide (entry.pubkey < x.pubkey) := by
  unfold sortPubkey
  rw [insertionSort_cons, (hs.imp le_of_lt).insertionSort_eq, orderedInsert_eq_take_drop]
  simp only [not_le]

lemma Table.identity_found (h : Table identity weights d) : ∃ idx, d.pubkeyToIdx identity = some idx := by
  cases hf : d.pubkeyToIdx identity with
  | none => exact absurd h.present (pubkeyToIdx_none (fun hn => h.real (hn ▸ h.present)) hf)
  | some idx => exact ⟨idx, rfl⟩

lemma setIdentityImpl_ok (h : Table identity weights d) (ha : key ≠ nullPubkey) (port : Nat)
    (hm : d.dests.length < maxShredDests) :
    ∃ next, setIdentityImpl identity key port d = .ok next ∧ Table key weights next := by
  obtain ⟨oldIdx, old⟩ := h.identity_found
  obtain ⟨hg, _⟩ := pubkeyToIdx_some old
  unfold setIdentityImpl
  rw [old]
  simp only
  cases hf : d.pubkeyToIdx key with
  | some newIdx =>
    obtain ⟨hb, hh⟩ := pubkeyToIdx_some hf
    -- The old entry loses its address, the new one gets the dummy address, in this order.
    generalize hx : (d.update oldIdx fun x => { x with ip4 := 0 }) = middle
    have hw : middle.dests.map Dest.weight = d.dests.map Dest.weight := by
      rw [← hx]
      exact update_weight (fun _ => rfl) hg
    have hy := keys_of_weight hw
    obtain ⟨hu, ht⟩ := pubkeyToIdx_some ((pubkeyToIdx_congr hy).trans hf)
    refine ⟨_, rfl, ?_, { middle.dests[newIdx] with ip4 := selfDummyIp }, ?_, ht⟩
    · have hj := (update_weight (f := fun x => { x with ip4 := selfDummyIp }) (fun _ => rfl) hu).trans hw
      refine h.toListed.of_weight hj (mem_map.mpr ⟨_, getElem_mem hb, hh⟩) fun x hm hs => ?_
      dsimp only at hm
      rcases mem_update hm hu with rfl | ⟨j, m, hc, rfl⟩
      · exact Nat.one_ne_zero
      · exact absurd (hs.trans ht.symm) (other_key (hy ▸ h.keys) hu m hc)
    · simp [Sdest.update, hu]
  | none =>
    obtain ⟨front, back, split, hq, rest, ho, count⟩ := h.counted
    have hi := h.add split hq rest (.refl (⟨key, 0, selfDummyIp, port⟩ :: _)) rfl ha (pubkeyToIdx_none ha hf)
      (.inr ⟨rfl, Nat.one_ne_zero⟩)
    obtain ⟨next, built, hz⟩ := hi.sdestNew
    rw [sortPubkey_cons ho, ← append_assoc] at built
    simp only [if_neg (ne_of_lt hm), count]
    rw [split, take_left, drop_left, built]
    exact ⟨next, rfl, hz⟩

lemma unhit_eq (h : Table identity old existing) (hn : ∀ w ∈ weights, w.key ≠ nullPubkey) :
    unhit existing weights = existing.dests.filter fun x => decide (x.pubkey ∉ weights.map (·.key)) := by
  have hi : (existing.dests.zipIdx.filter fun x => decide (x.2 ∉ weights.filterMap fun w => existing.pubkeyToIdx w.key)) =
      existing.dests.zipIdx.filter ((fun x => decide (x.pubkey ∉ weights.map (·.key))) ∘ Prod.fst) := by
    refine filter_congr fun ⟨x, i⟩ hm => ?_
    have hp : existing.dests[i]? = some x := mem_zipIdx_iff_getElem?.mp hm
    obtain ⟨hb, rfl⟩ := List.getElem?_eq_some_iff.mp hp
    have ht : (i ∈ weights.filterMap fun w => existing.pubkeyToIdx w.key) ↔
        existing.dests[i].pubkey ∈ weights.map (·.key) := by
      rw [mem_filterMap, mem_map]
      constructor
      · rintro ⟨w, hh, hf⟩
        obtain ⟨_, hs⟩ := pubkeyToIdx_some hf
        exact ⟨w, hh, hs.symm⟩
      · rintro ⟨w, hh, hs⟩
        exact ⟨w, hh, pubkeyToIdx_eq h.keys hb hs.symm (hn w hh)⟩
    simp only [Function.comp, ht]
  simp only [unhit]
  rw [hi, ← filter_map, zipIdx_map_fst]

def keptDests (existing : Sdest) (weights : List StakeWeight) : List Dest :=
  (existing.dests.filter fun x => decide (x.pubkey ∉ weights.map (·.key))).filter fun x => decide (x.ip4 ≠ 0)

lemma mem_keptDests {x : Dest} : x ∈ keptDests existing weights ↔
    (x ∈ existing.dests ∧ x.pubkey ∉ weights.map (·.key)) ∧ x.ip4 ≠ 0 := by
  rw [keptDests, mem_filter, mem_filter, decide_eq_true_eq, decide_eq_true_eq]

lemma keptDests_sublist : (keptDests existing weights).Sublist existing.dests :=
  filter_sublist.trans filter_sublist

section
variable (h : Table identity old existing)
include h

lemma keptDests_apart (hd : (weights.map (·.key)).Nodup) :
    (weights.map (·.key) ++ (keptDests existing weights).map (·.pubkey)).Nodup := by
  refine nodup_append.mpr ⟨hd, h.keys.sublist (keptDests_sublist.map _), ?_⟩
  rintro a hh b hm rfl
  obtain ⟨x, m, rfl⟩ := mem_map.mp hm
  exact (mem_keptDests.mp m).1.2 hh

lemma kept_fits (hd : (weights.map (·.key)).Nodup) (hn : ∀ w ∈ weights, w.key ≠ nullPubkey)
    (hk : (existing.dests.map (·.pubkey) ++ weights.map (·.key)).dedup.length < maxShredDests) :
    ((unhit existing weights).filter fun x => decide (x.ip4 ≠ 0)).length ≤ maxShredDests - weights.length := by
  rw [unhit_eq h hn]
  show (keptDests existing weights).length ≤ _
  have m : (weights.map (·.key) ++ (keptDests existing weights).map (·.pubkey)) ⊆
      (existing.dests.map (·.pubkey) ++ weights.map (·.key)).dedup := by
    intro a hm
    refine mem_dedup.mpr ?_
    rcases mem_append.mp hm with hm | hm
    · exact mem_append_right _ hm
    · exact mem_append_left _ ((keptDests_sublist.map _).subset hm)
  have hb := (subperm_of_subset (keptDests_apart h hd) m).length_le
  rw [length_append, length_map, length_map] at hb
  omega

lemma stakedDest_reachable {w : StakeWeight} (hs : w.key = identity) : (stakedDest existing w).ip4 ≠ 0 := by
  obtain ⟨idx, hf⟩ := h.identity_found
  obtain ⟨hb, hh⟩ := pubkeyToIdx_some hf
  simp only [stakedDest, hs, hf, Sdest.idxToDest]
  have he : existing.dests.getD idx nullDest = existing.dests[idx] := by simp [hb]
  rw [he]
  exact h.reachable _ (getElem_mem hb) hh

lemma stakeMsgDests_eq (hd : (weights.map (·.key)).Nodup) (hn : ∀ w ∈ weights, w.key ≠ nullPubkey)
    (hk : (existing.dests.map (·.pubkey) ++ weights.map (·.key)).dedup.length < maxShredDests) :
    stakeMsgDests existing weights = weights.map (stakedDest existing) ++
      sortPubkey ((keptDests existing weights).map fun x => { x with stakeLamports := 0 }) := by
  unfold stakeMsgDests
  rw [take_of_length_le (kept_fits h hd hn hk), unhit_eq h hn]
  change _ ++ (if (keptDests existing weights).any _ = true then _ else map _ (keptDests existing weights)) = _
  split_ifs with ha
  · rfl
  · -- Nobody lost stake, so the rest comes from the unstaked part of the existing table in its order.
    obtain ⟨front, back, split, hb, _, hg⟩ := h.parts
    have hl : (keptDests existing weights).Sublist back := by
      have hv : (keptDests existing weights).Sublist _ := keptDests_sublist
      rw [split, sublist_append_iff] at hv
      obtain ⟨first, second, he, hi, hc⟩ := hv
      cases first with
      | nil => exact he ▸ hc
      | cons x first =>
        have ho := staked_front h.staked hb (hi.subset (.head _))
        exact absurd (any_eq_true.mpr ⟨x, he ▸ .head _, decide_eq_true ho⟩) ha
    exact congrArg _ (((pairwise_map.mpr (hg.sublist hl)).imp le_of_lt).insertionSort_eq).symm

lemma stakeMsgDests_listed (hd : (weights.map (·.key)).Nodup)
    (hn : ∀ w ∈ weights, w.key ≠ nullPubkey) (ho : ∀ w ∈ weights, 0 < w.stake)
    (hk : (existing.dests.map (·.pubkey) ++ weights.map (·.key)).dedup.length < maxShredDests) :
    Listed identity weights (stakeMsgDests existing weights) := by
  have hf : (weights.map (stakedDest existing) ++ (keptDests existing weights).map fun x => { x with stakeLamports := 0 } :
      List Dest).map (·.pubkey) = weights.map (·.key) ++ (keptDests existing weights).map (·.pubkey) := by
    rw [map_append, map_map, map_map]
    rfl
  rw [stakeMsgDests_eq h hd hn hk]
  refine Listed.of_loose ho map_map ?_ ?_ ?_ ?_ ?_
  · intro x hm
    obtain ⟨y, _, rfl⟩ := mem_map.mp hm
    rfl
  · rw [hf]
    exact keptDests_apart h hd
  · rw [hf, mem_append]
    rintro (hm | hm)
    · obtain ⟨w, hh, hw⟩ := mem_map.mp hm
      exact hn w hh hw
    · exact h.real ((keptDests_sublist.map _).subset hm)
  · rw [hf, mem_append]
    by_cases m : identity ∈ weights.map (·.key)
    · exact .inl m
    · obtain ⟨x, hh, hs⟩ := mem_map.mp h.present
      exact .inr (mem_map.mpr ⟨x, mem_keptDests.mpr ⟨⟨hh, hs ▸ m⟩, h.reachable x hh hs⟩, hs⟩)
  · intro x hm hs
    rcases mem_append.mp hm with hm | hm
    · obtain ⟨w, _, rfl⟩ := mem_map.mp hm
      exact stakedDest_reachable h hs
    · obtain ⟨y, hh, rfl⟩ := mem_map.mp hm
      exact (mem_keptDests.mp hh).2

end

/-! ### Runs of the shred tile -/

def keysOf (e : EpochInfo) : List Pubkey := e.sdest.elim [] fun d => d.dests.map (·.pubkey)

def known (s : Info) (more : List Pubkey) : Nat := (keysOf s.even ++ keysOf s.odd ++ more).dedup.length

/-- What an event may be: a well-formed message of distinct staked ids, real keys, fewer than
MAX_SHRED_DESTS known validators, and a TVU address in our own contact info. -/
def May (s : Info) : Event → Prop
  | .epoch msg => (msg.stakedVoteCnt ≤ maxStakeWeights ∧ msg.weights.length ≤ maxStakeWeights) ∧
      (msg.weights.map (·.key)).Nodup ∧ (∀ w ∈ msg.weights, w.key ≠ nullPubkey) ∧ (∀ w ∈ msg.weights, 0 < w.stake) ∧
      known s (msg.weights.map (·.key)) < maxShredDests
  | .contactInfo origin ip4 _ => origin ≠ nullPubkey ∧ (origin = s.identityKey → ip4 ≠ 0) ∧ known s [origin] < maxShredDests
  | .contactInfoRemove origin => origin ≠ nullPubkey ∧ known s [] < maxShredDests
  | .identity key _ => key ≠ nullPubkey ∧ known s [key] < maxShredDests

instance (s : Info) : ∀ e, Decidable (May s e) := fun e => by
  cases e <;> unfold May <;> infer_instance

def nextMsg (parity : Nat) (last : Option EpochMsg) : Event → Option EpochMsg
  | .epoch msg => if msg.epoch % 2 = parity then some msg else last
  | _ => last

def lastMsg (parity : Nat) (events : List Event) : Option EpochMsg := events.foldl (nextMsg parity) none

def weightsOf (last : Option EpochMsg) : List StakeWeight := last.elim [] (·.weights)

/-- A table that is joined, in order, and belongs to the last message for its epoch. -/
structure Joined (identity : Pubkey) (last : Option EpochMsg) (e : EpochInfo) : Prop where
  table : ∃ d, e.sdest = some d ∧ Table identity (weightsOf last) d
  epoch : ∀ msg ∈ last, e.epoch = msg.epoch

lemma length_le_known {e : EpochInfo} {last : List StakeWeight} (hh : e.sdest = some d)
    (h : Table identity last d) (hw : e = s.even ∨ e = s.odd) : d.dests.length ≤ known s more := by
  have m : d.dests.map (·.pubkey) ⊆ (keysOf s.even ++ keysOf s.odd ++ more).dedup := by
    intro a hm
    have he : a ∈ keysOf e := by simpa [keysOf, hh] using hm
    refine mem_dedup.mpr (mem_append_left _ ?_)
    rcases hw with rfl | rfl
    · exact mem_append_left _ he
    · exact mem_append_right _ he
  have := (subperm_of_subset h.keys m).length_le
  rwa [length_map] at this

lemma fits_of_known (hh : s.even.sdest = some existing) (hr : known s more < maxShredDests) :
    (existing.dests.map (·.pubkey) ++ more).dedup.length < maxShredDests := by
  refine lt_of_le_of_lt ((subperm_of_subset (nodup_dedup _) ?_).length_le) hr
  intro a hm
  refine mem_dedup.mpr ?_
  rcases mem_append.mp (mem_dedup.mp hm) with hm | hm
  · refine mem_append_left _ (mem_append_left _ ?_)
    simpa [keysOf, hh] using hm
  · exact mem_append_right _ hm

section
variable (hk : Joined s.identityKey even s.even) (hok : Joined s.identityKey odd s.odd)
include hk hok

lemma both_ok {f : Sdest → Except Fault Sdest} {identity' : Pubkey} (hr : known s more < maxShredDests)
    (hs : ∀ (weights : List StakeWeight) (d : Sdest), Table s.identityKey weights d → d.dests.length < maxShredDests →
      ∃ next, f d = .ok next ∧ Table identity' weights next) :
    ∃ t, both s f = .ok t ∧ t.identityKey = s.identityKey ∧ Joined identity' even t.even ∧ Joined identity' odd t.odd := by
  obtain ⟨d, hv, he⟩ := hk.table
  obtain ⟨e, hd, ho⟩ := hok.table
  obtain ⟨d', ht, hn⟩ := hs _ d he (lt_of_le_of_lt (length_le_known hv he (.inl rfl)) hr)
  obtain ⟨e', hh, ha⟩ := hs _ e ho (lt_of_le_of_lt (length_le_known hd ho (.inr rfl)) hr)
  refine ⟨_, bind_ok.mpr ⟨d, by rw [hv]; rfl, bind_ok.mpr ⟨d', ht, bind_ok.mpr ⟨e, by rw [hd]; rfl,
    bind_ok.mpr ⟨e', hh, rfl⟩⟩⟩⟩, rfl, ⟨⟨d', rfl, hn⟩, hk.epoch⟩, ⟨⟨e', rfl, ha⟩, hok.epoch⟩⟩

lemma epochMsg_ok {msg : EpochMsg}
    (hm : May s (.epoch msg)) : ∃ t, epochMsg s msg = .ok t ∧ t.identityKey = s.identityKey ∧
      Joined t.identityKey (nextMsg 0 even (.epoch msg)) t.even ∧ Joined t.identityKey (nextMsg 1 odd (.epoch msg)) t.odd := by
  obtain ⟨⟨hv, hi⟩, hd, hn, hp, hr⟩ := hm
  obtain ⟨existing, hh, ht⟩ := hk.table
  obtain ⟨d, hu, hl⟩ := (stakeMsgDests_listed ht hd hn hp (fits_of_known hh hr)).sdestNew
  unfold epochMsg
  rw [check_of _ hv, check_of _ hi, hh]
  simp only [StakeCi.table, bind, Except.bind, hu]
  have hf : Joined s.identityKey (some msg) ⟨msg.epoch, some d⟩ := by
    refine ⟨⟨d, rfl, hl⟩, ?_⟩
    rintro _ ⟨⟩
    rfl
  rcases Nat.mod_two_eq_zero_or_one msg.epoch with ha | ha
  · simp only [ha, if_true, nextMsg]
    exact ⟨_, rfl, rfl, hf, hok⟩
  · simp only [ha, nextMsg]
    exact ⟨_, rfl, rfl, hk, hf⟩

lemma step_ok {e : Event} (hm : May s e) :
    ∃ t, step s e = .ok t ∧ Joined t.identityKey (nextMsg 0 even e) t.even ∧ Joined t.identityKey (nextMsg 1 odd e) t.odd := by
  cases e with
  | epoch msg =>
    obtain ⟨t, hb, _, he, ho⟩ := epochMsg_ok hk hok hm
    exact ⟨t, hb, he, ho⟩
  | contactInfo origin ip4 port =>
    obtain ⟨hn, ha, hr⟩ := hm
    show ∃ t, (if ip4 = 0 ∧ port = 0 then destRemove s origin else destUpdate s origin ip4 port) = .ok t ∧ _
    split_ifs with hz
    · have ne : origin ≠ s.identityKey := fun hw => ha hw hz.1
      obtain ⟨t, hb, hs, he, ho⟩ := both_ok hk hok hr fun weights d ht _ => destRemoveImpl_ok ht ne
      exact ⟨t, hb, hs ▸ he, hs ▸ ho⟩
    · obtain ⟨t, hb, hs, he, ho⟩ := both_ok hk hok hr
        fun weights d ht hr => destUpdateImpl_ok ht port hn ha hr
      exact ⟨t, hb, hs ▸ he, hs ▸ ho⟩
  | contactInfoRemove origin =>
    obtain ⟨hn, hr⟩ := hm
    show ∃ t, (if s.identityKey = origin then destUpdate s origin selfDummyIp 0 else destRemove s origin) = .ok t ∧ _
    split_ifs with ne
    · obtain ⟨t, hb, hs, he, ho⟩ := both_ok hk hok hr
        fun weights d ht hr => destUpdateImpl_ok ht 0 hn (fun _ => Nat.one_ne_zero) hr
      exact ⟨t, hb, hs ▸ he, hs ▸ ho⟩
    · obtain ⟨t, hb, hs, he, ho⟩ := both_ok hk hok hr
        fun weights d ht _ => destRemoveImpl_ok ht (Ne.symm ne)
      exact ⟨t, hb, hs ▸ he, hs ▸ ho⟩
  | identity key port =>
    obtain ⟨hn, hr⟩ := hm
    obtain ⟨t, hb, _, he, ho⟩ := both_ok hk hok hr
      fun weights d ht hr => setIdentityImpl_ok ht hn port hr
    exact ⟨{ t with identityKey := key }, bind_ok.mpr ⟨t, hb, rfl⟩, he, ho⟩

end

lemma new_joined (hn : key ≠ nullPubkey) : Joined key none (new key).even ∧ Joined key none (new key).odd := by
  have hl : Listed key [] [⟨key, 0, selfDummyIp, 0⟩] := by
    refine ⟨nodup_singleton _, ?_, ⟨[key], rfl, pairwise_singleton _ _⟩, by simp, by simp, by simp [selfDummyIp]⟩
    simpa using hn.symm
  obtain ⟨d, hb, ht⟩ := hl.sdestNew
  exact ⟨⟨⟨d, hb, ht⟩, by simp⟩, ⟨⟨d, hb, ht⟩, by simp⟩⟩

/-- In every run in which our own contact info has a TVU address, no call aborts, and both tables
are joined, in the order of the last message for their epoch, and hold the local validator as
their source. -/
theorem tables_hold_identity (key : Pubkey) (named : key ≠ nullPubkey) (events : List Event)
    (allowed : Allowed step May (new key) events) :
    ∃ s, run step (new key) events = .ok s ∧
      Joined s.identityKey (lastMsg 0 events) s.even ∧ Joined s.identityKey (lastMsg 1 events) s.odd := by
  have runs : ∀ (events : List Event) (s : Info) (even odd : Option EpochMsg), Joined s.identityKey even s.even →
      Joined s.identityKey odd s.odd → Allowed step May s events → ∃ t, run step s events = .ok t ∧
        Joined t.identityKey (events.foldl (nextMsg 0) even) t.even ∧ Joined t.identityKey (events.foldl (nextMsg 1) odd) t.odd := by
    intro events
    induction events with
    | nil => exact fun s even odd evenOk oddOk _ => ⟨s, rfl, evenOk, oddOk⟩
    | cons e events ih =>
      intro s even odd evenOk oddOk allowed
      obtain ⟨t, stepped, evenNext, oddNext⟩ := step_ok evenOk oddOk allowed.1
      have later := allowed.2
      rw [stepped] at later
      obtain ⟨r, ran, done⟩ := ih t _ _ evenNext oddNext later
      exact ⟨r, (run_cons_ok step).mpr ⟨t, stepped, ran⟩, done⟩
  obtain ⟨evenOk, oddOk⟩ := new_joined named
  exact runs events (new key) none none evenOk oddOk allowed

def sampleEvents : List Event :=
  [.epoch ⟨4, 2, [⟨7, 900⟩, ⟨5, 300⟩]⟩, .contactInfo 7 11 80, .contactInfo 3 12 80, .contactInfo 9 13 80,
    .epoch ⟨5, 1, [⟨7, 950⟩]⟩, .contactInfoRemove 9, .identity 5 0, .contactInfoRemove 5]

theorem sample_tables_hold_identity :
    Allowed step May (new 9) sampleEvents ∧ ∃ s, run step (new 9) sampleEvents = .ok s ∧
      Joined s.identityKey (lastMsg 0 sampleEvents) s.even ∧ Joined s.identityKey (lastMsg 1 sampleEvents) s.odd :=
  ⟨by decide +kernel, tables_hold_identity 9 (by decide) sampleEvents (by decide +kernel)⟩

/-- Our own contact info without a TVU address ends the tile: the entry is removed although the
table needs it. With a zero address and a port, the next epoch message leaves no table. -/
theorem own_contact_info_aborts :
    run step (new 9) [.contactInfo 9 0 0] = .error .identityMissing ∧
    (∃ s, run step (new 9) [.contactInfo 9 0 80, .epoch ⟨4, 1, [⟨7, 900⟩]⟩] = .ok s ∧ s.even.sdest = none) := by
  refine ⟨by decide +kernel, ⟨9, ⟨4, none⟩, ⟨1, some ⟨[⟨9, 0, 0, 80⟩], 0⟩⟩⟩, by decide +kernel, rfl⟩

end Firebam.StakeCi
