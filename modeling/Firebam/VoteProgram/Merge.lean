import Firebam.VoteProgram.Basic

/-! What process_new_vote_state demands of the new votes: among themselves, of the new root, and of
each vote they replace. -/
namespace Firebam.VoteProgram
open Lib List

variable {newRoot : Option Slot} {votes new merged : List LandedVote} {current : LandedVote}
  {next : List LandedVote → Except Err (List LandedVote)} {s s' : VoteState} {timestamp : Option Int}
  {epoch a b : Nat} {currentSlot slot : Slot} {previous : Option Lockout}

@[mk_iff]
structure Follows (previous vote : Lockout) : Prop where
  slot : previous.slot < vote.slot
  conf : vote.confirmationCount < previous.confirmationCount
  locked : vote.slot.val ≤ previous.lastLockedOutSlot

structure Stands (root : Option Slot) (vote : Lockout) : Prop where
  low : 1 ≤ vote.confirmationCount
  high : vote.confirmationCount ≤ maxLockoutHistory
  above : ∀ r ∈ root, r.val ≠ 0 → r < vote.slot

instance (previous vote : Lockout) : Decidable (Follows previous vote) := decidable_of_iff' _ (follows_iff ..)

instance (root : Option Slot) (vote : Lockout) : Decidable (Stands root vote) :=
  decidable_of_iff (1 ≤ vote.confirmationCount ∧ vote.confirmationCount ≤ maxLockoutHistory ∧
    root.all fun r => decide (r.val ≠ 0 → r < vote.slot)) <| by
      rw [Option.all_eq_true]
      simp only [decide_eq_true_eq]
      exact ⟨fun ⟨low, high, above⟩ => ⟨low, high, above⟩, fun ⟨low, high, above⟩ => ⟨low, high, above⟩⟩

lemma checkVotes_cons {vote : LandedVote} {newer : List LandedVote} :
    checkVotes newRoot previous (vote :: newer) = .ok () ↔ Stands newRoot vote.lockout ∧
      (∀ p ∈ previous, Follows p vote.lockout) ∧ checkVotes newRoot (some vote.lockout) newer = .ok () := by
  have hu (c : Prop) [Decidable c] (e : Err) (x : Except Err Unit) :
      (if c then .error e else x) = .ok () ↔ ¬ c ∧ x = .ok () := by split <;> simp [*]
  dsimp only [checkVotes]
  simp only [hu, Option.any_eq_true, decide_eq_true_eq, not_exists, not_and]
  constructor
  · rintro ⟨ho, hh, ha, ht, hc, hl, h⟩
    refine ⟨⟨Nat.pos_of_ne_zero ho, not_lt.mp hh, fun r hm hn => ?_⟩, fun p hm => ?_, h⟩
    · exact Fin.not_le.mp fun le => ha r hm le hn
    · exact ⟨Fin.not_le.mp (ht p hm), not_le.mp (hc p hm), not_lt.mp (hl p hm)⟩
  · rintro ⟨hs, hf, he⟩
    refine ⟨ne_of_gt hs.low, not_lt.mpr hs.high, fun r hm le hn => ?_, ?_, ?_, ?_, he⟩
    · exact Fin.not_lt.mpr le (hs.above r hm hn)
    · exact fun p hm => Fin.not_le.mpr (hf p hm).slot
    · exact fun p hm => not_le.mpr (hf p hm).conf
    · exact fun p hm => not_lt.mpr (hf p hm).locked

lemma checkVotes_iff : checkVotes newRoot previous votes = .ok () ↔
    (∀ v ∈ votes, Stands newRoot v.lockout) ∧ (previous.toList ++ votes.map LandedVote.lockout).IsChain Follows := by
  induction votes generalizing previous with
  | nil => cases previous <;> simp [checkVotes]
  | cons vote newer ih =>
    rw [checkVotes_cons, ih, forall_mem_cons]
    cases previous with
    | none =>
      simp only [Option.toList_none, nil_append, map_cons, Option.toList_some, singleton_append]
      simp [and_assoc]
    | some p =>
      simp only [Option.toList_some, singleton_append, map_cons, isChain_cons_cons]
      simp only [Option.mem_def, Option.some.injEq, forall_eq']
      tauto

def Keeps (new : List Lockout) (vote : Lockout) : Prop :=
  (∃ w ∈ new, w.slot = vote.slot ∧ vote.confirmationCount ≤ w.confirmationCount) ∨
    ∀ w ∈ new, vote.slot ≤ w.slot → vote.slot.val + 2 ^ vote.confirmationCount < w.slot.val

abbrev lockouts (votes : List LandedVote) : List Lockout := votes.map LandedVote.lockout

lemma slot_lt {a b : Slot} (hn : ¬ a < b) (ha : a ≠ b) : b < a :=
  Nat.lt_of_le_of_ne (Fin.not_lt.mp hn) fun eq => ha (Fin.ext eq.symm)

lemma satAdd_lt (lt : satAdd a b < slot.val) : a + b < slot.val := by
  have ht := slot.isLt
  unfold satAdd at lt
  omega

lemma lt_satAdd (lt : a + b < slot.val) : satAdd a b < slot.val := by
  have ht := slot.isLt
  unfold satAdd
  omega

lemma mergeFrom_ok (hd : new.Pairwise fun a b => a.slot < b.slot)
    (hh : current.lockout.confirmationCount ≤ maxLockoutHistory) (hn : ∃ w ∈ new, current.slot < w.slot)
    (h : mergeFrom current next new = .ok merged) :
    ∃ passed rest tail, new = passed ++ rest ∧ (∀ w ∈ passed, w.slot ≤ current.slot) ∧ next rest = .ok tail ∧
      lockouts merged = lockouts passed ++ lockouts tail ∧ Keeps (lockouts new) current.lockout := by
  induction new generalizing merged with
  | nil => exact absurd hn (by simp)
  | cons w rest ih =>
    obtain ⟨hf, ha⟩ := pairwise_cons.mp hd
    unfold mergeFrom at h
    split at h
    · rename_i hb
      split at h
      · cases h
      rename_i hp
      rw [min_eq_left hh] at hp
      have he := satAdd_lt (not_le.mp hp)
      refine ⟨[], w :: rest, merged, rfl, fun _ no => (nomatch no), h, rfl, .inr ?_⟩
      refine forall_mem_cons.mpr ⟨fun _ => he, fun l hm _ => ?_⟩
      obtain ⟨v, ht, rfl⟩ := mem_map.mp hm
      exact lt_trans he (hf v ht)
    · rename_i hw
      split at h
      · rename_i hs
        split at h
        · cases h
        rename_i hc
        obtain ⟨tail, hr, eq⟩ := map_ok.mp h
        subst eq
        refine ⟨[w], rest, tail, rfl, ?_, hr, rfl, .inl ⟨w.lockout, .head _, hs.symm, not_lt.mp hc⟩⟩
        exact fun v hm => mem_singleton.mp hm ▸ Fin.le_of_eq hs.symm
      · rename_i ne
        obtain ⟨more, hr, eq⟩ := map_ok.mp h
        subst eq
        have ho : w.slot < current.slot := slot_lt hw ne
        have hg : ∃ v ∈ rest, current.slot < v.slot := by
          obtain ⟨v, hm, lt⟩ := hn
          rcases mem_cons.mp hm with rfl | hm
          · exact absurd lt hw
          · exact ⟨v, hm, lt⟩
        obtain ⟨passed, left, tail, hl, le, hi, eq, hk⟩ := ih ha hg hr
        refine ⟨w :: passed, left, tail, congrArg _ hl, ?_, hi, congrArg (w.lockout :: ·) eq, ?_⟩
        · exact forall_mem_cons.mpr ⟨Fin.le_of_lt ho, le⟩
        · refine hk.imp (fun ⟨v, hm, hj⟩ => ⟨v, .tail _ hm, hj⟩) fun all => ?_
          refine forall_mem_cons.mpr ⟨fun le => ?_, all⟩
          exact absurd ho (Fin.not_lt.mpr le)

lemma Keeps.append {passed rest : List Lockout} {vote : Lockout} (hk : Keeps rest vote)
    (hl : ∀ w ∈ passed, w.slot < vote.slot) : Keeps (passed ++ rest) vote := by
  refine hk.imp (fun ⟨w, hm, ho⟩ => ⟨w, mem_append_right _ hm, ho⟩) fun all w hm le => ?_
  rcases mem_append.mp hm with hb | ha
  · exact absurd (hl w hb) (Fin.not_lt.mpr le)
  · exact all w ha le

lemma mergeVotes_ok (hd : votes.Pairwise fun a b => a.slot < b.slot)
    (hh : ∀ v ∈ votes, v.lockout.confirmationCount ≤ maxLockoutHistory) (hr : new.Pairwise fun a b => a.slot < b.slot)
    (hn : ∀ v ∈ votes, ∃ w ∈ new, v.slot < w.slot) (h : mergeVotes votes new = .ok merged) :
    lockouts merged = lockouts new ∧ ∀ v ∈ votes, Keeps (lockouts new) v.lockout := by
  induction votes generalizing new merged with
  | nil =>
    cases h
    exact ⟨rfl, nofun⟩
  | cons current later ih =>
    obtain ⟨hi, hd⟩ := pairwise_cons.mp hd
    obtain ⟨hc, hh⟩ := forall_mem_cons.mp hh
    obtain ⟨ha, hn⟩ := forall_mem_cons.mp hn
    obtain ⟨passed, rest, tail, hp, le, hx, eq, he⟩ := mergeFrom_ok hr hc ha h
    subst hp
    have ho : ∀ v ∈ later, ∀ w ∈ passed, w.slot < v.slot := fun v hm w hb =>
      Fin.lt_of_le_of_lt (le w hb) (hi v hm)
    have hg : ∀ v ∈ later, ∃ w ∈ rest, v.slot < w.slot := by
      intro v hm
      obtain ⟨w, ht, lt⟩ := hn v hm
      rcases mem_append.mp ht with hb | hf
      · exact absurd lt (Fin.not_lt.mpr (Fin.le_of_lt (ho v hm w hb)))
      · exact ⟨w, hf, lt⟩
    obtain ⟨hs, hk⟩ := ih hd hh (pairwise_append.mp hr).2.1 hg hx
    have hw : lockouts (passed ++ rest) = lockouts passed ++ lockouts rest := map_append
    refine ⟨eq.trans (hs ▸ hw.symm), forall_mem_cons.mpr ⟨he, fun v hm => ?_⟩⟩
    rw [hw]
    refine (hk v hm).append fun l ht => ?_
    obtain ⟨w, hb, rfl⟩ := mem_map.mp ht
    exact ho v hm w hb

lemma mergeFrom_of_keeps (hd : new.Pairwise fun a b => a.slot < b.slot)
    (hh : current.lockout.confirmationCount ≤ maxLockoutHistory) (hk : Keeps (lockouts new) current.lockout)
    (hg : ∀ passed rest, new = passed ++ rest → (∀ w ∈ passed, w.slot ≤ current.slot) → ∃ tail, next rest = .ok tail) :
    ∃ merged, mergeFrom current next new = .ok merged := by
  induction new with
  | nil => exact ⟨[], rfl⟩
  | cons w rest ih =>
    obtain ⟨hf, hd⟩ := pairwise_cons.mp hd
    unfold mergeFrom
    split
    · rename_i hb
      have he : current.slot.val + 2 ^ current.lockout.confirmationCount < w.slot.val := by
        rcases hk with ⟨v, hm, hs, -⟩ | all
        · obtain ⟨u, ht, rfl⟩ := mem_map.mp hm
          have le : ∀ v ∈ w :: rest, w.slot ≤ v.slot := forall_mem_cons.mpr ⟨Fin.le_refl _, fun v hl => Fin.le_of_lt (hf v hl)⟩
          exact absurd (Fin.lt_of_lt_of_le hb (le u ht)) (Fin.not_lt.mpr (Fin.le_of_eq hs))
        · exact all w.lockout (.head _) (Fin.le_of_lt hb)
      rw [min_eq_left hh, if_neg (not_le.mpr (lt_satAdd he))]
      exact hg [] (w :: rest) rfl nofun
    · rename_i hn
      split
      · rename_i hs
        have hc : current.lockout.confirmationCount ≤ w.lockout.confirmationCount := by
          rcases hk with ⟨v, hm, eq, hc⟩ | all
          · obtain ⟨u, ht, rfl⟩ := mem_map.mp hm
            rcases mem_cons.mp ht with rfl | hl
            · exact hc
            · exact absurd (hf u hl) (Fin.not_lt.mpr (Fin.le_of_eq (eq.trans hs)))
          · have he := all w.lockout (.head _) (Fin.le_of_eq hs)
            have hq : current.lockout.slot.val = w.lockout.slot.val := congrArg Fin.val hs
            exact absurd (hq ▸ he) (not_lt.mpr (Nat.le_add_right _ _))
        rw [if_neg (not_lt.mpr hc)]
        obtain ⟨tail, h⟩ := hg [w] rest rfl fun v hm => mem_singleton.mp hm ▸ Fin.le_of_eq hs.symm
        exact ⟨_, congrArg _ h⟩
      · rename_i ne
        have ho : w.slot < current.slot := slot_lt hn ne
        have ha : Keeps (lockouts rest) current.lockout := by
          rcases hk with ⟨v, hm, eq, hc⟩ | all
          · rcases mem_cons.mp hm with rfl | hl
            · exact absurd eq.symm ne
            · exact .inl ⟨v, hl, eq, hc⟩
          · exact .inr fun v hm => all v (.tail _ hm)
        obtain ⟨more, h⟩ := ih hd ha fun passed left hp le =>
          hg (w :: passed) left (congrArg _ hp) (forall_mem_cons.mpr ⟨Fin.le_of_lt ho, le⟩)
        exact ⟨_, congrArg _ h⟩

lemma mergeVotes_of_keeps (ho : votes.Pairwise fun a b => a.slot < b.slot)
    (hh : ∀ v ∈ votes, v.lockout.confirmationCount ≤ maxLockoutHistory)
    (hr : new.Pairwise fun a b => a.slot < b.slot) (he : ∀ v ∈ votes, Keeps (lockouts new) v.lockout) :
    ∃ merged, mergeVotes votes new = .ok merged := by
  induction votes generalizing new with
  | nil => exact ⟨new, rfl⟩
  | cons current later ih =>
    obtain ⟨hf, ho⟩ := pairwise_cons.mp ho
    obtain ⟨hc, hh⟩ := forall_mem_cons.mp hh
    obtain ⟨hn, he⟩ := forall_mem_cons.mp he
    refine mergeFrom_of_keeps hr hc hn fun passed rest hp le => ?_
    subst hp
    refine ih ho hh (pairwise_append.mp hr).2.1 fun v hm => ?_
    have hw : lockouts (passed ++ rest) = lockouts passed ++ lockouts rest := map_append
    have hk := he v hm
    rw [hw] at hk
    rcases hk with ⟨w, ht, hs, hc⟩ | all
    · refine .inl ⟨w, (mem_append.mp ht).resolve_left fun hb => ?_, hs, hc⟩
      obtain ⟨u, m, rfl⟩ := mem_map.mp hb
      exact absurd (Fin.lt_of_le_of_lt (le u m) (hf v hm)) (Fin.not_lt.mpr (Fin.le_of_eq hs.symm))
    · exact .inr fun w ht => all w (mem_append_right _ ht)

lemma mem_drop_rooted {v : LandedVote} (hm : v ∈ votes)
    (ha : ∀ r ∈ newRoot, r < v.slot) : v ∈ votes.drop (rootedCount votes newRoot) := by
  cases newRoot with
  | none => exact hm
  | some r =>
    let p (v : LandedVote) := decide (v.slot ≤ r)
    have hd : (votes.takeWhile p ++ votes.dropWhile p).drop (votes.takeWhile p).length = _ := drop_left
    rw [takeWhile_append_dropWhile] at hd
    rw [← takeWhile_append_dropWhile (p := p) (l := votes)] at hm
    refine hd ▸ (mem_append.mp hm).resolve_left fun hb => ?_
    exact Fin.not_lt.mpr (of_decide_eq_true (all_eq_true.mp all_takeWhile v hb)) (ha r rfl)

lemma land_ok {last : Slot} (h : s.land merged last newRoot timestamp epoch currentSlot = .ok s') :
    lockouts s'.votes = lockouts merged ∧ s'.rootSlot = newRoot := by
  obtain ⟨stamped, -, h⟩ := bind_ok.mp h
  cases h
  refine ⟨?_, rfl⟩
  dsimp only [lockouts]
  rw [map_map]
  refine map_congr_left fun v _ => ?_
  dsimp only [Function.comp]
  split <;> rfl

lemma process_ok (h : s.processNewVoteState new newRoot timestamp epoch currentSlot = .ok s') :
    new.length ≤ maxLockoutHistory ∧ (∀ r ∈ s.rootSlot, ∃ r' ∈ newRoot, r ≤ r') ∧ checkVotes newRoot none new = .ok () ∧
      s'.rootSlot = newRoot ∧ ∃ merged, mergeVotes (s.votes.drop (rootedCount s.votes newRoot)) new = .ok merged ∧
        lockouts s'.votes = lockouts merged := by
  unfold VoteState.processNewVoteState at h
  split at h
  · cases h
  obtain ⟨hf, h⟩ := check_ok.mp h
  obtain ⟨hr, h⟩ := check_ok.mp h
  obtain ⟨⟨⟩, hc, h⟩ := bind_ok.mp h
  obtain ⟨merged, hm, h⟩ := bind_ok.mp h
  obtain ⟨hs, set⟩ := land_ok h
  refine ⟨hf, fun r hx => ?_, hc, set, merged, hm, hs⟩
  rw [Option.mem_def.mp hx] at hr
  cases newRoot with
  | none => cases hr
  | some new => exact ⟨new, rfl, of_decide_eq_true hr⟩

end Firebam.VoteProgram
