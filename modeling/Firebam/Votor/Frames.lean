import Firebam.Lib.Keyed
import Firebam.Votor.Pool

/-! What the operations of a slot state leave as it is, and what those of the pool do to the
states it holds. -/
namespace Firebam.Votor
open Lib List Except

variable {info : EpochInfo} {s s' state : SlotState} {hash : BlockHash} {out out' : Outputs} {stake slot : Nat}
  {p p' : Pool} {status : SafeToNotar} {fallback : Bool} {vote : Vote} {cert : Cert}

structure SlotState.Same (s s' : SlotState) : Prop where
  slot : s'.slot = s.slot
  epochInfo : s'.epochInfo = s.epochInfo
  parents : s.parents.map Prod.fst ⊆ s'.parents.map Prod.fst
  few : s.parents.length ≤ eqvocBlockHashMax → s'.parents.length ≤ eqvocBlockHashMax
  certs : s'.certs = s.certs

namespace SlotState

lemma Same.refl (s : SlotState) : Same s s := ⟨rfl, rfl, fun _ m => m, id, rfl⟩

lemma Same.trans {s'' : SlotState} (hf : Same s s') (hs : Same s' s'') : Same s s'' :=
  ⟨hs.slot.trans hf.slot, hs.epochInfo.trans hf.epochInfo,
    fun _ m => hs.parents (hf.parents m), fun he => hs.few (hf.few he), hs.certs.trans hf.certs⟩

lemma Same.uncertified (hs : Same s s') : Same s { s' with certs := s.certs } := { hs with certs := rfl }

def Rechecked (s s' : SlotState) : Prop := ∃ pending sent skip,
  s' = { s with pendingSafeToNotar := pending, sentSafeToNotar := sent, sentSafeToSkip := skip }

lemma Rechecked.same (h : Rechecked s s') : Same s s' := by
  obtain ⟨_, _, _, rfl⟩ := h
  exact ⟨rfl, rfl, fun _ m => m, id, rfl⟩

lemma Rechecked.trans {s'' : SlotState} (hf : Rechecked s s') (hs : Rechecked s' s'') : Rechecked s s'' := by
  obtain ⟨_, _, _, rfl⟩ := hf
  obtain ⟨_, _, _, rfl⟩ := hs
  exact ⟨_, _, _, rfl⟩

lemma Rechecked.stakes (h : Rechecked s s') : s'.stakes = s.stakes := by
  obtain ⟨_, _, _, rfl⟩ := h
  rfl

lemma checkSafeToNotar_rechecked (h : s.checkSafeToNotar info hash = .ok (status, s')) : Rechecked s s' := by
  have hp : ∀ {r}, (do
      let set ← setInsert s.pendingSafeToNotar hash
      ok (SafeToNotar.awaitingVotes, { s with pendingSafeToNotar := set })) = .ok r → Rechecked s r.2 := by
    intro r h
    obtain ⟨set, _, h⟩ := bind_ok.mp h
    cases h
    exact ⟨_, _, _, rfl⟩
  have hs : ∀ {r}, (do
      let sent ← setInsert s.sentSafeToNotar hash
      ok (SafeToNotar.safeToNotar, { s with
        pendingSafeToNotar := setRemove s.pendingSafeToNotar hash, sentSafeToNotar := sent })) = .ok r → Rechecked s r.2 := by
    intro r h
    obtain ⟨set, _, h⟩ := bind_ok.mp h
    cases h
    exact ⟨_, _, _, rfl⟩
  have hu : ∀ {status' : SafeToNotar}, (ok (status', s) : Except SlotFault _) = .ok (status, s') →
      Rechecked s s' := by
    intro status' h
    cases h
    exact ⟨_, _, _, rfl⟩
  unfold checkSafeToNotar at h
  simp only at h
  split at h
  · exact hu h
  split at h
  · exact hp h
  split at h
  · exact hu h
  · exact hu h
  · split at h
    · exact hp h
    · split at h
      · exact hs h
      · split at h
        · split at h
          · exact hs h
          · exact hu h
        · exact hp h

lemma recheck_rechecked (h : recheck info (s, out) hash = .ok (s', out')) : Rechecked s s' := by
  unfold recheck at h
  split at h
  · cases h
    exact ⟨_, _, _, rfl⟩
  · obtain ⟨⟨status, next⟩, hc, h⟩ := bind_ok.mp h
    cases h
    exact checkSafeToNotar_rechecked hc

lemma recheckPending_same (h : s.recheckPending info out = .ok (s', out')) : Same s s' := by
  refine foldlM_preserves (I := fun acc : SlotState × Outputs => Same s acc.1) ?_ (.refl s) h
  rintro ⟨u, o⟩ hash _ ⟨u', o'⟩ hs hr
  exact Same.trans hs (recheck_rechecked hr).same

lemma checkSafeToSkip_rechecked (info : EpochInfo) (s : SlotState) (out : Outputs) :
    Rechecked s (s.checkSafeToSkip info out).1 := by
  unfold checkSafeToSkip
  split <;> exact ⟨_, _, _, rfl⟩

lemma countNotarStake_same (h : s.countNotarStake info hash stake = .ok (s', out)) : Same s s' := by
  simp only [countNotarStake, bind_ok, Prod.exists] at h
  obtain ⟨notar, _, u, o, hc, _, _, _, _, _, _, h⟩ := h
  have hs := ((recheck_rechecked hc).trans (checkSafeToSkip_rechecked info u o)).same
  cases h
  exact { hs with }

lemma countNotarFallbackStake_same (h : s.countNotarFallbackStake info hash stake = .ok (s', out)) : Same s s' := by
  obtain ⟨fallback, _, h⟩ := bind_ok.mp h
  obtain ⟨_, _, h⟩ := bind_ok.mp h
  cases h
  exact ⟨rfl, rfl, fun _ m => m, id, rfl⟩

lemma countSkipStake_same (h : s.countSkipStake info stake fallback = .ok (s', out)) : Same s s' := by
  obtain ⟨⟨u, o⟩, hc, h⟩ := bind_ok.mp h
  obtain ⟨built, _, h⟩ := bind_ok.mp h
  have hs := (recheckPending_same hc).trans (checkSafeToSkip_rechecked info u built).same
  have hl : (u.checkSafeToSkip info built).1 = s' := congrArg Prod.fst (ok.inj h)
  exact hl ▸ { hs with }

lemma countFinalizeStake_same (h : s.countFinalizeStake info stake = .ok (s', out)) : Same s s' := by
  unfold countFinalizeStake at h
  simp only at h
  split at h
  · obtain ⟨_, h⟩ := check_ok.mp h
    cases h
    exact ⟨rfl, rfl, fun _ m => m, id, rfl⟩
  · cases h
    exact ⟨rfl, rfl, fun _ m => m, id, rfl⟩

lemma addVote_same (h : s.addVote info vote stake = .ok (s', out)) : Same s s' := by
  obtain ⟨⟨u, o⟩, hc, h⟩ := bind_ok.mp h
  have hs : Same s u := by
    cases vote with
    | notar slot hash rank =>
      have hs := countNotarStake_same hc
      exact { hs with }
    | notarFallback slot hash rank =>
      obtain ⟨_, hc⟩ := check_ok.mp hc
      have hs := countNotarFallbackStake_same hc
      exact { hs with }
    | skip slot rank | skipFallback slot rank =>
      have hs := countSkipStake_same hc
      exact { hs with }
    | final slot rank =>
      have hs := countFinalizeStake_same hc
      exact { hs with }
  simp only at h
  split at h
  · exact hs.trans (recheckPending_same h)
  · cases h
    exact hs

lemma addCert_same (h : s.addCert cert = .ok s') : Same s { s' with certs := s.certs } := by
  cases cert with
  | notarFallback slot hash stake =>
    simp only [addCert] at h
    split at h
    · cases h
      exact .refl s
    · obtain ⟨_, h⟩ := check_ok.mp h
      cases h
      exact ⟨rfl, rfl, fun _ m => m, id, rfl⟩
  | notar | skip | fastFinal | final =>
    cases h
    exact ⟨rfl, rfl, fun _ m => m, id, rfl⟩

lemma notifyParentKnown_same (hd : s.notifyParentKnown hash = .ok s') : Same s s' ∧ hash ∈ s'.parents.map Prod.fst := by
  unfold notifyParentKnown at hd
  split_ifs at hd with hp
  · cases hd
    obtain ⟨status, hf⟩ := Option.isSome_iff_exists.mp hp
    obtain ⟨x, hi, _⟩ := Option.map_eq_some_iff.mp hf
    have hn : x.1 = hash := by simpa using find?_some hi
    exact ⟨.refl s, hn ▸ mem_map_of_mem (mem_of_find?_eq_some hi)⟩
  · obtain ⟨hr, hd⟩ := check_ok.mp hd
    cases hd
    refine ⟨⟨rfl, rfl, fun h m => ?_, fun _ => ?_, rfl⟩, ?_⟩
    · rw [map_append]
      exact mem_append_left _ m
    · rw [length_append]
      exact hr
    · rw [map_append]
      exact mem_append_right _ (.head _)

lemma notifyParentCertified_same (h : s.notifyParentCertified info hash = .ok (status, s')) : Same s s' := by
  obtain ⟨_, h⟩ := check_ok.mp h
  have hm : Same s { s with parents := s.parents.map fun x => if x.1 = hash then (hash, .certified) else x } := by
    refine ⟨rfl, rfl, ?_, ?_, rfl⟩
    · rw [keys_replace hash (hash, ParentStatus.certified) rfl]
      exact fun _ m => m
    · rw [length_map]
      exact id
  simp only at h
  split at h
  · cases h
    exact hm
  · exact hm.trans (checkSafeToNotar_rechecked h).same

end SlotState

/-- The kinds of certificates that may finalize a block -/
def Cert.Finalizes : Cert → Prop
  | .notar _ _ _ | .fastFinal _ _ _ | .final _ _ => True
  | .notarFallback _ _ _ | .skip _ _ => False

instance : DecidablePred Cert.Finalizes := fun cert => by
  cases cert <;> unfold Cert.Finalizes <;> infer_instance

namespace SlotState

def Reaches (s : SlotState) (info : EpochInfo) (stake : Nat) : Vote → Prop
  | .notar _ hash _ => info.isQuorum (stakeFor s.stakes.notar hash + stake) = true
  | .final _ _ => info.isQuorum (s.stakes.finalize + stake) = true
  | .notarFallback _ _ _ | .skip _ _ | .skipFallback _ _ => False

instance (info : EpochInfo) (s : SlotState) (stake : Nat) : DecidablePred (s.Reaches info stake) := fun vote => by
  cases vote <;> unfold Reaches <;> infer_instance

def CertsFor (slot : Nat) (reached : Prop) (out : Outputs) : Prop :=
  ∀ cert ∈ out.certs, cert.slot = slot ∧ (cert.Finalizes → reached)

variable {reached : Prop}

lemma CertsFor.add (ho : CertsFor slot reached out) (hn : cert.slot = slot) (hr : cert.Finalizes → reached) :
    CertsFor slot reached { out with certs := out.certs ++ [cert] } :=
  forall_mem_concat.mpr ⟨ho, hn, hr⟩

lemma recheck_certs (h : recheck info (s, out) hash = .ok (s', out')) : out'.certs = out.certs := by
  unfold recheck at h
  split at h
  · cases h
    rfl
  · obtain ⟨⟨status, next⟩, _, h⟩ := bind_ok.mp h
    cases status with
    | safeToNotar | awaitingVotes =>
      cases h
      rfl
    | missingBlock =>
      have hl := congrArg Prod.snd (ok.inj h)
      dsimp only at hl
      rw [← hl]
      split <;> rfl

lemma recheckPending_certs (h : s.recheckPending info out = .ok (s', out')) : out'.certs = out.certs := by
  refine foldlM_preserves (I := fun acc : SlotState × Outputs => acc.2.certs = out.certs) ?_ rfl h
  rintro ⟨u, o⟩ hash _ ⟨u', o'⟩ hs hr
  exact (recheck_certs hr).trans hs

lemma checkSafeToSkip_certs (info : EpochInfo) (s : SlotState) (out : Outputs) :
    (s.checkSafeToSkip info out).2.certs = out.certs := by
  unfold checkSafeToSkip
  split <;> rfl

lemma buildNotarFallback_certs (h : s.buildNotarFallback info hash out = .ok out') (ho : CertsFor s.slot reached out) :
    CertsFor s.slot reached out' := by
  unfold buildNotarFallback at h
  split at h
  · obtain ⟨_, h⟩ := check_ok.mp h
    rw [← ok.inj h]
    split
    · exact ho.add rfl False.elim
    · exact ho
  · exact ok.inj h ▸ ho

section
variable (quorum : info.isQuorum (stakeFor s.stakes.notar hash) = true → reached)
include quorum

lemma buildNotar_certs (h : s.buildNotar info hash out = .ok out') (ho : CertsFor s.slot reached out) :
    CertsFor s.slot reached out' := by
  unfold buildNotar at h
  split at h
  · rename_i met
    obtain ⟨_, h⟩ := check_ok.mp h
    rw [← ok.inj h]
    exact ho.add rfl fun _ => quorum (Bool.and_eq_true_iff.mp met).1
  · exact ok.inj h ▸ ho

lemma buildFastFinal_certs (h : s.buildFastFinal info hash out = .ok out') (ho : CertsFor s.slot reached out) :
    CertsFor s.slot reached out' := by
  unfold buildFastFinal at h
  split at h
  · rename_i met
    have strong := of_decide_eq_true (Bool.and_eq_true_iff.mp met).1
    obtain ⟨_, h⟩ := check_ok.mp h
    rw [← ok.inj h]
    exact ho.add rfl fun _ => quorum (decide_eq_true ((Nat.mul_le_mul_left _ (by decide)).trans strong))
  · exact ok.inj h ▸ ho

end

lemma buildSkip_certs (h : s.buildSkip info out = .ok out') (ho : CertsFor s.slot reached out) :
    CertsFor s.slot reached out' := by
  unfold buildSkip at h
  split at h
  · obtain ⟨_, h⟩ := check_ok.mp h
    rw [← ok.inj h]
    split
    · exact ho.add rfl False.elim
    · exact ho
  · exact ok.inj h ▸ ho

lemma stakeFor_hashstakeAdd {stakes stakes' : List (BlockHash × Nat)} {cap : Nat}
    (h : hashstakeAdd stakes cap hash stake = .ok stakes') : stakeFor stakes' hash = stakeFor stakes hash + stake := by
  unfold hashstakeAdd at h
  unfold stakeFor
  split at h
  · rename_i there
    cases h
    obtain ⟨x, hx⟩ := Option.isSome_iff_exists.mp there
    have hk : x.1 = hash := by simpa using find?_some hx
    have hc : (fun x : BlockHash × Nat => decide (x.1 = hash)) ∘ (fun x => if x.1 = hash then (hash, x.2 + stake) else x) =
        fun x => decide (x.1 = hash) := by
      funext y
      dsimp only [Function.comp]
      split_ifs with hy <;> simp [hy]
    rw [find?_map, hc, hx]
    simp [hk]
  · rename_i absent
    obtain ⟨_, h⟩ := check_ok.mp h
    cases h
    rw [Option.not_isSome_iff_eq_none.mp absent, find?_append, Option.not_isSome_iff_eq_none.mp absent]
    simp

lemma countNotarStake_certs (h : s.countNotarStake info hash stake = .ok (s', out)) :
    CertsFor s.slot (info.isQuorum (stakeFor s.stakes.notar hash + stake) = true) out := by
  simp only [countNotarStake, bind_ok, Prod.exists] at h
  obtain ⟨notar, added, u, o, hc, o₁, hf, o₂, he, o₃, ht, h⟩ := h
  have hr := (recheck_rechecked hc).trans (checkSafeToSkip_rechecked info u o)
  have hn : (u.checkSafeToSkip info o).1.slot = s.slot := hr.same.slot
  have quorum : info.isQuorum (stakeFor (u.checkSafeToSkip info o).1.stakes.notar hash) = true →
      info.isQuorum (stakeFor s.stakes.notar hash + stake) = true := by
    rw [hr.stakes, stakeFor_hashstakeAdd added]
    exact id
  have hs : CertsFor (u.checkSafeToSkip info o).1.slot (info.isQuorum (stakeFor s.stakes.notar hash + stake) = true)
      (u.checkSafeToSkip info o).2 := by
    intro cert hm
    rw [checkSafeToSkip_certs, recheck_certs hc] at hm
    cases hm
  have hl := buildFastFinal_certs quorum ht (buildNotar_certs quorum he (buildNotarFallback_certs hf hs))
  cases h
  exact hn ▸ hl

lemma countNotarFallbackStake_certs (h : s.countNotarFallbackStake info hash stake = .ok (s', out)) :
    CertsFor s.slot False out := by
  obtain ⟨fallback, _, h⟩ := bind_ok.mp h
  obtain ⟨built, hf, h⟩ := bind_ok.mp h
  have hl : CertsFor _ False _ := buildNotarFallback_certs hf (by intro cert hm; cases hm)
  cases h
  exact hl

lemma countSkipStake_certs (h : s.countSkipStake info stake fallback = .ok (s', out)) : CertsFor s.slot False out := by
  obtain ⟨⟨u, o⟩, hc, h⟩ := bind_ok.mp h
  obtain ⟨built, hf, h⟩ := bind_ok.mp h
  have hs : CertsFor u.slot False o := by
    intro cert hm
    rw [recheckPending_certs hc] at hm
    cases hm
  have hl := buildSkip_certs hf hs
  intro cert hm
  have ho : (u.checkSafeToSkip info built).2 = out := congrArg Prod.snd (ok.inj h)
  rw [← ho, checkSafeToSkip_certs] at hm
  exact ⟨(hl cert hm).1.trans (recheckPending_same hc).slot, (hl cert hm).2⟩

lemma countFinalizeStake_certs (h : s.countFinalizeStake info stake = .ok (s', out)) :
    CertsFor s.slot (info.isQuorum (s.stakes.finalize + stake) = true) out := by
  unfold countFinalizeStake at h
  simp only at h
  split at h
  · rename_i met
    obtain ⟨_, h⟩ := check_ok.mp h
    cases h
    intro cert hm
    rw [mem_singleton.mp hm]
    exact ⟨rfl, fun _ => (Bool.and_eq_true_iff.mp met).1⟩
  · cases h
    exact fun _ m => absurd m not_mem_nil

lemma addVote_certs (h : s.addVote info vote stake = .ok (s', out)) : CertsFor s.slot (s.Reaches info stake vote) out := by
  obtain ⟨⟨u, o⟩, hc, h⟩ := bind_ok.mp h
  have ho : CertsFor s.slot (s.Reaches info stake vote) o := by
    cases vote with
    | notar slot hash rank =>
      have he := countNotarStake_certs hc
      exact he
    | notarFallback slot hash rank =>
      have he := countNotarFallbackStake_certs (check_ok.mp hc).2
      exact he
    | skip slot rank | skipFallback slot rank =>
      have he := countSkipStake_certs hc
      exact he
    | final slot rank =>
      have he := countFinalizeStake_certs hc
      exact he
  simp only at h
  split at h
  · intro cert hm
    rw [recheckPending_certs h] at hm
    exact ho cert hm
  · cases h
    exact ho

end SlotState

namespace Pool

lemma liftSlot_ok {α : Type} {x : Except SlotFault α} {a : α} : liftSlot x = .ok a ↔ x = .ok a := by
  cases x <;> simp [liftSlot]

lemma slotState_cases (h : p.slotState slot = .ok (state, p')) :
    state.slot = slot ∧ state ∈ p'.slotStates ∧
      (p' = p ∨ p.querySlot slot = none ∧ p.slotStates.length < p.slotMax ∧ p.selectInfo slot = some state.epochInfo ∧
        p' = { p with slotStates := p.slotStates ++ [state] }) := by
  unfold slotState at h
  split at h
  · rename_i hf
    cases h
    refine ⟨by simpa using find?_some hf, mem_of_find?_eq_some hf, .inl rfl⟩
  · rename_i hn
    obtain ⟨hr, h⟩ := check_ok.mp h
    split at h
    · cases h
    · rename_i info hc
      cases h
      exact ⟨rfl, by simp, .inr ⟨hn, hr, hc, rfl⟩⟩

lemma pushReady_eq (p : Pool) (ready : List ParentReady) : p.pushReady ready =
    { p with poolEvents := p.poolEvents ++ ready.map fun r => .parentReady r.slot r.parent } := by
  induction ready generalizing p with
  | nil => simp [pushReady]
  | cons r rest ih =>
    rw [pushReady, foldl_cons, ← pushReady, ih]
    simp [push]

end Pool

end Firebam.Votor
