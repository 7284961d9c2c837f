import Firebam.StakeCi.Local

/-! Both tables show one book of addresses across identity switches, unless a new identity is missing
from a table: then the old one keeps the address that marks the local validator there. -/
namespace Firebam.StakeCi

open Lib List Function

variable {identity key : Pubkey} {book : Pubkey → Nat} {d next even odd : Sdest} {weights old : List StakeWeight}
  {s : Info} {ip4 port idx : Nat} {f : Dest → Dest} {info : List Dest}

abbrev Sdest.keys (d : Sdest) : List Pubkey := d.dests.map (·.pubkey)

def Shows (book : Pubkey → Nat) (d : Sdest) : Prop := ∀ x ∈ d.dests, x.ip4 = book x.pubkey

lemma sdestNew_dests (h : sdestNew info identity = some d) : d.dests = info := by
  unfold sdestNew at h
  split at h
  · obtain ⟨i, -, rfl⟩ := Option.map_eq_some_iff.mp h
    rfl
  · nomatch h

section
variable (h : Shows book d)
include h

lemma Shows.update (hd : d.keys.Nodup) (hf : d.pubkeyToIdx key = some idx) (hp : ∀ x, (f x).weight = x.weight)
    (ha : ∀ x, (f x).ip4 = ip4) : Shows (update book key ip4) (d.update idx f) ∧ (d.update idx f).keys = d.keys := by
  obtain ⟨hb, rfl⟩ := pubkeyToIdx_some hf
  refine ⟨fun x hm => ?_, keys_of_weight (update_weight hp hb)⟩
  rcases mem_update hm hb with rfl | ⟨j, m, ne, rfl⟩
  · have hk : (f d.dests[idx]).pubkey = d.dests[idx].pubkey := congrArg Prod.fst (hp _)
    rw [ha, hk, update_self]
  · rw [update_of_ne (other_key hd hb m ne)]
    exact h _ (getElem_mem m)

lemma Shows.destUpdateImpl (ht : Table identity weights d) (hn : key ≠ nullPubkey) (hl : d.dests.length < maxShredDests)
    (hu : destUpdateImpl identity key ip4 port d = .ok next) :
    Shows (Function.update book key ip4) next ∧ ∀ k, k = key ∨ k ∈ d.keys → k ∈ next.keys := by
  unfold StakeCi.destUpdateImpl at hu
  split at hu
  · rename_i hf
    have ha := pubkeyToIdx_none hn hf
    rw [destAddOneUnstaked, if_neg (not_le.mpr hl), refreshSdest] at hu
    split at hu
    · nomatch hu
    · rename_i hs
      cases hu
      have hm : ∀ x, x ∈ next.dests ↔ x ∈ d.dests ∨ x = ⟨key, 0, ip4, port⟩ := fun x => by
        rw [sdestNew_dests hs, mem_append, mem_sortPubkey, ← mem_append, take_append_drop, mem_concat]
      refine ⟨fun x hy => ?_, ?_⟩
      · rcases (hm x).mp hy with hy | rfl
        · have ne : x.pubkey ≠ key := fun he => ha (he ▸ mem_map_of_mem hy)
          rw [update_of_ne ne]
          exact h x hy
        · rw [update_self]
      · rintro k (rfl | hk)
        · exact mem_map.mpr ⟨_, (hm _).mpr (.inr rfl), rfl⟩
        · obtain ⟨x, hy, rfl⟩ := mem_map.mp hk
          exact mem_map_of_mem ((hm x).mpr (.inl hy))
  · rename_i hf
    cases hu
    obtain ⟨hs, hk⟩ := h.update ht.keys hf (f := fun x => { x with ip4 := ip4, port := port }) (fun _ => rfl)
      fun _ => (rfl : _ = ip4)
    refine ⟨hs, fun k hx => hk.symm ▸ hx.elim ?_ id⟩
    rintro rfl
    obtain ⟨hb, he⟩ := pubkeyToIdx_some hf
    exact mem_map.mpr ⟨_, getElem_mem hb, he⟩

lemma Shows.setIdentityImpl (ht : Table identity weights d) (hk : key ∈ d.keys)
    (hs : setIdentityImpl identity key port d = .ok next) :
    Shows (Function.update (Function.update book identity 0) key selfDummyIp) next ∧ next.keys = d.keys := by
  obtain ⟨i, hi⟩ := ht.identity_found
  unfold StakeCi.setIdentityImpl at hs
  rw [hi] at hs
  dsimp only at hs
  split at hs
  · rename_i j hj
    cases hs
    obtain ⟨hm, he⟩ := h.update ht.keys hi (f := fun x => { x with ip4 := 0 }) (fun _ => rfl) fun _ => rfl
    obtain ⟨hn, he'⟩ := hm.update (he.symm ▸ ht.keys) ((pubkeyToIdx_congr he).trans hj)
      (f := fun x => { x with ip4 := selfDummyIp }) (fun _ => rfl) fun _ => rfl
    exact ⟨hn, he'.trans he⟩
  · exact absurd hk (pubkeyToIdx_none (fun he => ht.real (he ▸ hk)) ‹_›)

lemma Shows.stakeMsgDests (hb : ∀ k, book k ≠ 0 → k ∈ d.keys) (ht : Table identity old d)
    (hd : (weights.map (·.key)).Nodup) (hn : ∀ w ∈ weights, w.key ≠ nullPubkey)
    (hk : (d.keys ++ weights.map (·.key)).dedup.length < maxShredDests)
    (hs : sdestNew (stakeMsgDests d weights) identity = some next) :
    Shows book next ∧ ∀ k, book k ≠ 0 → k ∈ next.keys := by
  have hm : ∀ x, x ∈ next.dests ↔ x ∈ weights.map (stakedDest d) ∨
      x ∈ (keptDests d weights).map fun y => { y with stakeLamports := 0 } := by
    intro x
    rw [sdestNew_dests hs, stakeMsgDests_eq ht hd hn hk, mem_append, mem_sortPubkey]
  refine ⟨fun x hj => ?_, fun k ha => ?_⟩
  · rcases (hm x).mp hj with hj | hj
    · obtain ⟨w, hw, rfl⟩ := mem_map.mp hj
      unfold stakedDest
      cases hf : d.pubkeyToIdx w.key with
      | none => exact (not_not.mp fun ha => pubkeyToIdx_none (hn w hw) hf (hb _ ha)).symm
      | some i =>
        obtain ⟨hi, he⟩ := pubkeyToIdx_some hf
        have hx : d.idxToDest (some i) = d.dests[i] := by simp [Sdest.idxToDest, hi]
        rw [hx, h _ (getElem_mem hi), he]
    · obtain ⟨y, hy, rfl⟩ := mem_map.mp hj
      exact h y (mem_keptDests.mp hy).1.1
  · by_cases hw : k ∈ weights.map (·.key)
    · obtain ⟨w, hw, he⟩ := mem_map.mp hw
      exact mem_map.mpr ⟨_, (hm _).mpr (.inl (mem_map_of_mem hw)), he⟩
    · obtain ⟨y, hy, rfl⟩ := mem_map.mp (hb k ha)
      exact mem_map.mpr ⟨_, (hm _).mpr (.inr (mem_map_of_mem (mem_keptDests.mpr ⟨⟨hy, hw⟩, h y hy ▸ ha⟩))), rfl⟩

end

lemma both_eq {t : Info} {f : Sdest → Except Fault Sdest} (h : both s f = .ok t) (he : s.even.sdest = some even)
    (ho : s.odd.sdest = some odd) : ∃ even' odd', f even = .ok even' ∧ f odd = .ok odd' ∧
      t.even.sdest = some even' ∧ t.odd.sdest = some odd' ∧ t.identityKey = s.identityKey := by
  unfold both at h
  rw [he, ho] at h
  obtain ⟨_, ⟨⟩, h⟩ := bind_ok.mp h
  obtain ⟨even', he, h⟩ := bind_ok.mp h
  obtain ⟨_, ⟨⟩, h⟩ := bind_ok.mp h
  obtain ⟨odd', ho, h⟩ := bind_ok.mp h
  cases h
  exact ⟨even', odd', he, ho, rfl, rfl, rfl⟩

structure Run where
  info : Info
  last : Pubkey → Option Nat

def Run.start (key : Pubkey) : Run := ⟨new key, fun _ => none⟩

def Run.step (r : Run) (e : Event) : Except Fault Run := do
  let s ← StakeCi.step r.info e
  .ok ⟨s, match e with
    | .contactInfo origin ip4 _ => update r.last origin (some ip4)
    | .identity key _ => update r.last key none
    | _ => r.last⟩

/-- Epoch messages, contact infos of others with an address that is not the marker, and switches. -/
def Address (r : Run) (e : Event) : Prop :=
  May r.info e ∧ match e with
    | .epoch _ | .identity .. => True
    | .contactInfo origin ip4 _ => origin ≠ r.info.identityKey ∧ ip4 ≠ 0 ∧ ip4 ≠ selfDummyIp
    | .contactInfoRemove _ => False

/-- The identity moves to a key that both tables have. -/
def Known (r : Run) (e : Event) : Prop :=
  Address r e ∧ ∀ key port, e = .identity key port → key ∈ keysOf r.info.even ∧ key ∈ keysOf r.info.odd

structure Booked (identity : Pubkey) (last : Pubkey → Option Nat) (book : Pubkey → Nat) : Prop where
  marker : ∀ k, book k = selfDummyIp → k = identity
  heard : ∀ k a, last k = some a → book k = a
  own : last identity = none

section
variable {last : Pubkey → Option Nat} (h : Booked identity last book)
include h

lemma Booked.contact (hi : key ≠ identity) (hd : ip4 ≠ selfDummyIp) :
    Booked identity (update last key (some ip4)) (update book key ip4) := by
  refine ⟨fun k hk => ?_, fun k a ha => ?_, (update_of_ne hi.symm _ _).trans h.own⟩
  · rw [update_apply] at hk
    split_ifs at hk
    · exact absurd hk hd
    · exact h.marker k hk
  · rw [update_apply] at ha ⊢
    split_ifs at ha ⊢
    · exact Option.some.inj ha
    · exact h.heard k a ha

lemma Booked.switch (key : Pubkey) :
    Booked key (update last key none) (update (update book identity 0) key selfDummyIp) := by
  refine ⟨fun k hk => ?_, fun k a ha => ?_, update_self ..⟩
  · rw [update_apply, update_apply] at hk
    split_ifs at hk with he hi
    · exact he
    · nomatch hk
    · exact absurd (h.marker k hk) hi
  · rw [update_apply] at ha
    split_ifs at ha with he
    have hi : k ≠ identity := by
      rintro rfl
      nomatch h.own.symm.trans ha
    rw [update_of_ne he, update_of_ne hi]
    exact h.heard k a ha

end

def Consistent (r : Run) : Prop := ∃ even odd book, (∃ l, Joined r.info.identityKey l r.info.even) ∧
  (∃ l, Joined r.info.identityKey l r.info.odd) ∧ r.info.even.sdest = some even ∧ r.info.odd.sdest = some odd ∧
    Shows book even ∧ Shows book odd ∧ (∀ k, book k ≠ 0 → k ∈ even.keys) ∧ Booked r.info.identityKey r.last book

lemma Consistent.step {r : Run} (h : Consistent r) (e : Event) (hm : Known r e) : ∃ t, r.step e = .ok t ∧ Consistent t := by
  obtain ⟨s, last⟩ := r
  obtain ⟨even, odd, book, ⟨_, hje⟩, ⟨_, hjo⟩, hse, hso, hin, hout, hkn, hb⟩ := h
  obtain ⟨⟨hmay, hm⟩, hk⟩ := hm
  obtain ⟨t, hs, he', ho'⟩ := step_ok hje hjo hmay
  refine ⟨_, bind_ok.mpr ⟨t, hs, rfl⟩, ?_⟩
  obtain ⟨_, hd, hte⟩ := hje.table
  obtain rfl := Option.some.inj (hse.symm.trans hd)
  obtain ⟨_, hd, hto⟩ := hjo.table
  obtain rfl := Option.some.inj (hso.symm.trans hd)
  cases e with
  | epoch msg =>
    obtain ⟨⟨hv, hi⟩, hd, hn, -, hr⟩ := hmay
    have hx := fun next hs => hin.stakeMsgDests hkn hte hd hn (fits_of_known hse hr) (hs : _ = some next)
    have hs : epochMsg s msg = .ok t := hs
    unfold epochMsg at hs
    rw [check_of _ hv, check_of _ hi, hse] at hs
    simp only [StakeCi.table, bind, Except.bind] at hs
    split at hs
    · cases hs
      obtain ⟨next, he, -⟩ := he'.table
      obtain ⟨hin, hkn⟩ := hx next he
      exact ⟨next, odd, book, ⟨_, he'⟩, ⟨_, ho'⟩, he, hso, hin, hout, hkn, hb⟩
    · cases hs
      obtain ⟨next, ho, -⟩ := ho'.table
      exact ⟨even, next, book, ⟨_, he'⟩, ⟨_, ho'⟩, hse, ho, hin, (hx next ho).1, hkn, hb⟩
  | contactInfo origin ip4 port =>
    obtain ⟨hn, -, hr⟩ := hmay
    obtain ⟨hi, hz, hd⟩ := hm
    have hs : destUpdate s origin ip4 port = .ok t := (if_neg fun h => hz h.1).symm.trans hs
    obtain ⟨even', odd', hu, hv, hxe, hxo, hid⟩ := both_eq hs hse hso
    obtain ⟨hin, hkn'⟩ := hin.destUpdateImpl hte hn ((length_le_known hse hte (.inl rfl)).trans_lt hr) hu
    obtain ⟨hout, -⟩ := hout.destUpdateImpl hto hn ((length_le_known hso hto (.inr rfl)).trans_lt hr) hv
    refine ⟨even', odd', _, ⟨_, he'⟩, ⟨_, ho'⟩, hxe, hxo, hin, hout, fun k hk => hkn' k ?_, hid ▸ hb.contact hi hd⟩
    by_cases ho : k = origin
    · exact .inl ho
    · exact .inr (hkn k (update_of_ne ho ip4 book ▸ hk))
  | contactInfoRemove origin => exact hm.elim
  | identity key port =>
    obtain ⟨hke, hko⟩ := hk key port rfl
    obtain ⟨u, hq, ⟨⟩⟩ := bind_ok.mp (show setIdentity s key port = .ok t from hs)
    obtain ⟨even', odd', hu, hv, hxe, hxo, -⟩ := both_eq hq hse hso
    unfold keysOf at hke hko
    rw [hse] at hke
    rw [hso] at hko
    obtain ⟨hin, he⟩ := hin.setIdentityImpl hte hke hu
    obtain ⟨hout, -⟩ := hout.setIdentityImpl hto hko hv
    refine ⟨even', odd', _, ⟨_, he'⟩, ⟨_, ho'⟩, hxe, hxo, hin, hout, fun k hk => ?_, hb.switch key⟩
    rw [he]
    rw [update_apply, update_apply] at hk
    split_ifs at hk with hkk
    · exact hkk ▸ hke
    · exact absurd rfl hk
    · exact hkn k hk

lemma start_consistent (hn : key ≠ nullPubkey) : Consistent (.start key) := by
  obtain ⟨he, ho⟩ := new_joined hn
  obtain ⟨d, hd, -⟩ := he.table
  have hx : d.dests = [⟨key, 0, selfDummyIp, 0⟩] := sdestNew_dests hd
  have hs : Shows (update (fun _ => 0) key selfDummyIp) d := by simp [Shows, hx]
  refine ⟨d, d, _, ⟨_, he⟩, ⟨_, ho⟩, hd, hd, hs, hs, fun k hk => ?_, fun k hk => ?_, nofun, rfl⟩
  all_goals
    rw [update_apply] at hk
    split_ifs at hk with hkk
  · simp [hx, hkk]
  · exact absurd rfl hk
  · exact hkk
  · nomatch hk

/-- While the identity moves between keys of both tables, only the identity has the marker, a key
that was updated since it was the identity has that address, and the two tables agree. -/
theorem addresses_agree (key : Pubkey) (named : key ≠ nullPubkey) (events : List Event)
    (allowed : Allowed Run.step Known (.start key) events) :
    ∃ r even odd, run Run.step (.start key) events = .ok r ∧ r.info.even.sdest = some even ∧ r.info.odd.sdest = some odd ∧
      (∀ x ∈ even.dests ++ odd.dests, (x.ip4 = selfDummyIp → x.pubkey = r.info.identityKey) ∧
        ∀ a, r.last x.pubkey = some a → x.ip4 = a) ∧
      ∀ x ∈ even.dests, ∀ y ∈ odd.dests, x.pubkey = y.pubkey → x.ip4 = y.ip4 := by
  obtain ⟨r, hr, even, odd, book, -, -, he, ho, hin, hout, -, hb⟩ :=
    run_allowed Run.step Known Consistent (fun _ e h hm => h.step e hm) (start_consistent named) allowed
  refine ⟨r, even, odd, hr, he, ho, fun x mem => ?_, fun x hx y hy hk => ?_⟩
  · have hx : x.ip4 = book x.pubkey := (mem_append.mp mem).elim (hin x) (hout x)
    exact ⟨fun h => hb.marker _ (hx ▸ h), fun a h => hx.trans (hb.heard _ a h)⟩
  · rw [hin x hx, hout y hy, hk]

theorem peer_takes_over :
    ∃ r even odd, run Run.step (.start 9) [.contactInfo 5 11 80, .contactInfo 6 12 81, .identity 5 0] = .ok r ∧
      r.info.even.sdest = some even ∧ r.info.odd.sdest = some odd ∧
      (∀ x ∈ even.dests ++ odd.dests, (x.ip4 = selfDummyIp → x.pubkey = r.info.identityKey) ∧
        ∀ a, r.last x.pubkey = some a → x.ip4 = a) ∧
      ∀ x ∈ even.dests, ∀ y ∈ odd.dests, x.pubkey = y.pubkey → x.ip4 = y.ip4 :=
  addresses_agree 9 (by decide) _ ⟨⟨⟨by decide +kernel, by decide⟩, nofun⟩, ⟨⟨by decide +kernel, by decide +kernel⟩, nofun⟩,
    ⟨⟨by decide +kernel, trivial⟩, by rintro _ _ ⟨⟩; decide +kernel⟩, trivial⟩

/-- A switch to a key no table has leaves the marker on the old identity. -/
theorem old_identity_marked : Allowed Run.step Address (.start 9) [.identity 5 0] ∧
    ∃ r even, run Run.step (.start 9) [.identity 5 0] = .ok r ∧ r.info.even.sdest = some even ∧
      ∃ x ∈ even.dests, x.ip4 = selfDummyIp ∧ x.pubkey ≠ r.info.identityKey :=
  ⟨⟨⟨by decide +kernel, trivial⟩, trivial⟩, _, _, rfl, rfl, ⟨9, 0, 1, 0⟩, .head _, rfl, by decide⟩

end Firebam.StakeCi
