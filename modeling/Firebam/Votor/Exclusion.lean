import Firebam.Votor.Voter

namespace Firebam.Votor
open Lib List Voter Vote

variable {vote : Vote} {boot slot rank x slotMax : Nat} {owes : Option Nat} {certs' : List Cert} {votes : List Vote}
  {e : Flags} {hash : BlockHash} {v v' : Voter} {write : VoterSlot → VoterSlot} {h h' : Heard} {cert : Cert}
  {info : BlockInfo} {now : Int} {event : Event}

section

section
variable (votes : List Vote)

variable (slot : Nat)

def notars : List BlockHash :=
  votes.filterMap fun
    | .notar s hash _ => if s = slot then some hash else none
    | _ => none

def HasSkip : Prop := ∃ rank, skip slot rank ∈ votes

def HasFallback : Prop :=
  (∃ hash rank, notarFallback slot hash rank ∈ votes) ∨ ∃ rank, skipFallback slot rank ∈ votes

def HasFinal : Prop := ∃ rank, final slot rank ∈ votes

end

structure Exclusive (votes : List Vote) (slot : Nat) : Prop where
  once : (notars votes slot).length ≤ 1
  notarSkip : notars votes slot ≠ [] → ¬ HasSkip votes slot
  finalSkip : HasFinal votes slot → ¬ HasSkip votes slot
  finalFallback : HasFinal votes slot → ¬ HasFallback votes slot

/-- A finalization vote comes after the notarization vote for a block whose certificate we have. -/
def Grounded (boot : Nat) (certs : List Cert) (votes : List Vote) : Prop :=
  ∀ front slot rank back, votes = front ++ final slot rank :: back → slot ≠ boot →
    ∃ hash ∈ notars front slot, ∃ stake, Cert.notar slot hash stake ∈ certs

structure Flags where
  voted : Bool
  votedNotar : Bool
  votedNotarHash : BlockHash
  badWindow : Bool
  blockNotarized : Bool
  blockNotarizedHash : BlockHash
  retired : Bool

def VoterSlot.flags (e : VoterSlot) : Flags :=
  ⟨e.voted, e.votedNotar, e.votedNotarHash, e.badWindow, e.blockNotarized, e.blockNotarizedHash, e.retired⟩

structure Agrees (boot : Nat) (owes : Option Nat) (certs : List Cert) (votes : List Vote) (slot : Nat)
    (e : Flags) : Prop where
  start : slot = boot → e.voted = true ∧ e.votedNotar = true
  notar : notars votes slot = if e.votedNotar ∧ slot ≠ boot then [e.votedNotarHash] else []
  voted : e.votedNotar = true → e.voted = true
  skip : HasSkip votes slot → e.voted = true ∧ e.votedNotar = false
  fallback : HasFallback votes slot → e.badWindow = true ∨ owes = some slot
  bad : HasSkip votes slot → e.badWindow = true
  final : HasFinal votes slot → e.retired = true ∧ e.votedNotar = true ∧ e.badWindow = false
  cert : e.blockNotarized = true → slot ≠ boot → ∃ stake, Cert.notar slot e.blockNotarizedHash stake ∈ certs

variable {certs : List Cert}

lemma notars_append (votes : List Vote) (vote : Vote) (slot : Nat) :
    notars (votes ++ [vote]) slot = notars votes slot ++ notars [vote] slot := filterMap_append

lemma Agrees.exclusive (hr : Agrees boot none certs votes slot e) : Exclusive votes slot where
  once := by
    rw [hr.notar]
    split <;> simp
  notarSkip := by
    intro ho hs
    obtain ⟨_, hu⟩ := hr.skip hs
    rw [hr.notar, hu] at ho
    simp at ho
  finalSkip := by
    intro hf hs
    have hg := (hr.final hf).2.2
    rw [hr.bad hs] at hg
    exact Bool.noConfusion hg
  finalFallback := by
    intro hf ha
    have hg := (hr.final hf).2.2
    have hb := (hr.fallback ha).resolve_right nofun
    rw [hb] at hg
    exact Bool.noConfusion hg

lemma notars_other (ne : vote.slot ≠ slot) : notars [vote] slot = [] := by
  cases vote with
  | notar s h r => simpa [notars, Vote.slot] using ne
  | final | skip | notarFallback | skipFallback => rfl

lemma Agrees.other (ha : Agrees boot owes certs votes slot e) (other : vote.slot ≠ slot) :
    Agrees boot owes certs (votes ++ [vote]) slot e := by
  have hn := notars_other other
  have ho : ∀ w : Vote, w.slot = slot → w ∈ votes ++ [vote] → w ∈ votes := by
    intro w hh hm
    rcases mem_concat.mp hm with hb | hl
    · exact hb
    · exact absurd (hl ▸ hh) other
  have hs : HasSkip (votes ++ [vote]) slot → HasSkip votes slot := fun ⟨r, m⟩ => ⟨r, ho _ rfl m⟩
  have hf : HasFallback (votes ++ [vote]) slot → HasFallback votes slot := by
    rintro (⟨h, r, m⟩ | ⟨r, m⟩)
    · exact .inl ⟨h, r, ho _ rfl m⟩
    · exact .inr ⟨r, ho _ rfl m⟩
  have hi : HasFinal (votes ++ [vote]) slot → HasFinal votes slot := fun ⟨r, m⟩ => ⟨r, ho _ rfl m⟩
  refine ⟨ha.start, ?_, ha.voted, fun s => ha.skip (hs s), fun f => ha.fallback (hf f),
    fun s => ha.bad (hs s), fun f => ha.final (hi f), ha.cert⟩
  rw [notars_append, hn, append_nil]
  exact ha.notar

lemma hasSkip_append : HasSkip (votes ++ [vote]) slot ↔ HasSkip votes slot ∨ ∃ rank, vote = .skip slot rank := by
  simp only [HasSkip, mem_append, mem_singleton, exists_or]
  simp only [eq_comm]

lemma hasFinal_append : HasFinal (votes ++ [vote]) slot ↔ HasFinal votes slot ∨ ∃ rank, vote = .final slot rank := by
  simp only [HasFinal, mem_append, mem_singleton, exists_or]
  simp only [eq_comm]

lemma hasFallback_append :
    HasFallback (votes ++ [vote]) slot ↔ HasFallback votes slot ∨
      (∃ hash rank, vote = .notarFallback slot hash rank) ∨ ∃ rank, vote = .skipFallback slot rank := by
  simp only [HasFallback, mem_append, mem_singleton, exists_or]
  simp only [eq_comm]
  exact or_or_or_comm

section
variable (ha : Agrees boot owes certs votes slot e)
include ha

lemma Agrees.fresh (hu : e.voted = false) : e.votedNotar = false := by
  cases hf : e.votedNotar with
  | false => rfl
  | true => simpa [hu] using ha.voted hf

lemma Agrees.noFinal (hf : e.votedNotar = false) : ¬ HasFinal votes slot := by
  intro hi
  simpa [hf] using (ha.final hi).2.1

lemma Agrees.castNotar (hu : e.voted = false) :
    Agrees boot owes certs (votes ++ [.notar slot hash rank]) slot
      { e with voted := true, votedNotar := true, votedNotarHash := hash } := by
  have ne : slot ≠ boot := by
    intro hs
    simpa [hu] using (ha.start hs).1
  have hf := ha.fresh hu
  have hn : ¬ HasSkip votes slot := by
    intro hk
    simpa [hu] using (ha.skip hk).1
  have ho := ha.noFinal hf
  refine ⟨fun hs => absurd hs ne, ?_, fun _ => rfl, ?_, ?_, ?_, ?_, ha.cert⟩
  · rw [notars_append, ha.notar]
    simp [hf, ne, notars]
  · simp [hasSkip_append, hn]
  · simp only [hasFallback_append]
    rintro (hl | ⟨_, _, eq⟩ | ⟨_, eq⟩)
    · exact ha.fallback hl
    · cases eq
    · cases eq
  · simp [hasSkip_append, hn]
  · simp [hasFinal_append, ho]

lemma Agrees.castSkip (hu : e.voted = false) :
    Agrees boot owes certs (votes ++ [.skip slot rank]) slot { e with voted := true, badWindow := true } := by
  have hf := ha.fresh hu
  have hn := ha.noFinal hf
  refine ⟨fun hs => ?_, ?_, fun _ => rfl, fun _ => ⟨rfl, hf⟩, fun _ => .inl rfl, fun _ => rfl, ?_, ha.cert⟩
  · simpa [hu] using (ha.start hs).1
  · rw [notars_append, ha.notar]
    simp [notars]
  · simp [hasFinal_append, hn]

lemma Agrees.castFinal (hv : e.votedNotar = true) (hg : e.badWindow = false) :
    Agrees boot owes certs (votes ++ [.final slot rank]) slot { e with retired := true } := by
  refine ⟨ha.start, ?_, ha.voted, ?_, ?_, ?_, fun _ => ⟨rfl, hv, hg⟩, ha.cert⟩
  · rw [notars_append, ha.notar]
    simp [notars]
  · simpa [hasSkip_append] using ha.skip
  · simpa [hasFallback_append] using ha.fallback
  · simpa [hasSkip_append] using ha.bad

end

lemma Agrees.castFallback (ha : Agrees boot (some slot) certs votes slot e)
    (hk : (∃ hash rank, vote = .notarFallback slot hash rank) ∨ ∃ rank, vote = .skipFallback slot rank) :
    Agrees boot (some slot) certs (votes ++ [vote]) slot e := by
  have he : notars [vote] slot = [] := by
    rcases hk with ⟨_, _, rfl⟩ | ⟨_, rfl⟩ <;> rfl
  have hn : ∀ r, vote ≠ .skip slot r := by
    rcases hk with ⟨_, _, rfl⟩ | ⟨_, rfl⟩ <;> exact fun _ => nofun
  have ho : ∀ r, vote ≠ .final slot r := by
    rcases hk with ⟨_, _, rfl⟩ | ⟨_, rfl⟩ <;> exact fun _ => nofun
  refine ⟨ha.start, ?_, ha.voted, ?_, fun _ => .inr rfl, ?_, ?_, ha.cert⟩
  · rw [notars_append, he, append_nil]
    exact ha.notar
  · simpa [hasSkip_append, hn] using ha.skip
  · simpa [hasSkip_append, hn] using ha.bad
  · simpa [hasFinal_append, ho] using ha.final

section
variable (ha : Agrees boot owes certs votes slot e)
include ha

lemma Agrees.settle (ho : e.retired = false) : Agrees boot none certs votes slot { e with badWindow := true } := by
  refine ⟨ha.start, ha.notar, ha.voted, ha.skip, fun _ => .inl rfl, fun _ => rfl, ?_, ha.cert⟩
  intro hf
  simpa [ho] using (ha.final hf).1

lemma Agrees.notarized {stake : Nat} (hs : Cert.notar slot hash stake ∈ certs) :
    Agrees boot owes certs votes slot { e with blockNotarized := true, blockNotarizedHash := hash } :=
  ⟨ha.start, ha.notar, ha.voted, ha.skip, ha.fallback, ha.bad, ha.final,
    fun _ _ => ⟨stake, hs⟩⟩

lemma Agrees.mono (hm : certs ⊆ certs') : Agrees boot owes certs' votes slot e := by
  refine ⟨ha.start, ha.notar, ha.voted, ha.skip, ha.fallback, ha.bad, ha.final, ?_⟩
  intro hf ne
  obtain ⟨stake, hs⟩ := ha.cert hf ne
  exact ⟨stake, hm hs⟩

end

lemma Agrees.owed {ne : Nat} (ha : Agrees boot (some ne) certs votes slot e) (hd : slot ≠ ne) :
    Agrees boot none certs votes slot e := by
  refine ⟨ha.start, ha.notar, ha.voted, ha.skip, ?_, ha.bad, ha.final, ha.cert⟩
  intro hf
  rcases ha.fallback hf with hb | owed
  · exact .inl hb
  · exact absurd (Option.some.inj owed).symm hd

lemma Agrees.owing (ha : Agrees boot none certs votes slot e) : Agrees boot owes certs votes slot e := by
  refine ⟨ha.start, ha.notar, ha.voted, ha.skip, ?_, ha.bad, ha.final, ha.cert⟩
  exact fun hf => .inl ((ha.fallback hf).resolve_right nofun)

lemma Exclusive.other (hx : Exclusive votes slot) (other : vote.slot ≠ slot) : Exclusive (votes ++ [vote]) slot := by
  have ho := notars_other other
  have hs : ¬ ∃ r, vote = .skip slot r := fun ⟨r, eq⟩ => other (eq ▸ rfl)
  have hf : ¬ ∃ r, vote = .final slot r := fun ⟨r, eq⟩ => other (eq ▸ rfl)
  have ha : ¬ ((∃ h r, vote = .notarFallback slot h r) ∨ ∃ r, vote = .skipFallback slot r) := by
    rintro (⟨h, r, eq⟩ | ⟨r, eq⟩) <;> exact other (eq ▸ rfl)
  obtain ⟨he, hn, hp, hi⟩ := hx
  refine ⟨?_, ?_, ?_, ?_⟩
  · rwa [notars_append, ho, append_nil]
  · rwa [notars_append, ho, append_nil, hasSkip_append, or_iff_left hs]
  · rwa [hasFinal_append, or_iff_left hf, hasSkip_append, or_iff_left hs]
  · rwa [hasFinal_append, or_iff_left hf, hasFallback_append, or_iff_left ha]

lemma Grounded.append (hg : Grounded boot certs votes)
    (hl : ∀ slot rank, vote = .final slot rank → slot ≠ boot →
      ∃ hash ∈ notars votes slot, ∃ stake, Cert.notar slot hash stake ∈ certs) :
    Grounded boot certs (votes ++ [vote]) := by
  intro front slot rank back hp ne
  rcases eq_nil_or_concat back with rfl | ⟨back, x, rfl⟩
  · obtain ⟨rfl, hs⟩ := append_inj' hp rfl
    exact hl slot rank (singleton_inj.mp hs) ne
  · have hi : votes ++ [vote] = (front ++ .final slot rank :: back) ++ [x] := by
      rw [hp, concat_eq_append, append_assoc, cons_append]
    exact hg front slot rank back (append_inj' hi rfl).1 ne

lemma Grounded.mono (hg : Grounded boot certs votes) (hm : certs ⊆ certs') : Grounded boot certs' votes := by
  intro front slot rank back hp ne
  obtain ⟨hash, hv, stake, hs⟩ := hg front slot rank back hp ne
  exact ⟨hash, hv, stake, hm hs⟩

end

lemma mem_windowSlots {start : Nat} (hm : slot ∈ windowSlots start) : start ≤ slot := by
  unfold windowSlots at hm
  split at hm
  · obtain ⟨i, _, rfl⟩ := mem_map.mp hm
    exact Nat.le_add_right ..
  · exact absurd hm not_mem_nil

lemma firstSlotInWindow_mono {a b : Nat} (le : firstSlotInWindow a ≤ b) :
    firstSlotInWindow a ≤ firstSlotInWindow b := by
  unfold firstSlotInWindow slotsPerWindow at *
  omega

section
variable (hd : v.stateMut slot write = .ok v') (hk : ∀ e, (write e).slot = e.slot)
include hd hk

lemma state_stateMut :
    v'.state x = (if x = slot then write (v.state x) else v.state x) ∧ v' = { v with slotStates := v'.slotStates } := by
  unfold stateMut at hd
  split at hd
  · rename_i e hf
    cases hd
    refine ⟨?_, rfl⟩
    have hs : ∀ e : VoterSlot, (if e.slot = slot then write e else e).slot = e.slot := by
      intro e
      split
      · exact hk e
      · rfl
    simp only [state, query, find?_map, Function.comp_def, hs]
    cases hm : v.slotStates.find? fun e => decide (e.slot = x) with
    | none =>
      have ne : x ≠ slot := by
        rintro rfl
        exact absurd (hf.symm.trans hm) nofun
      simp [ne]
    | some f =>
      have ha : f.slot = x := by simpa using find?_some hm
      simp [ha]
  · rename_i hn
    obtain ⟨_, hd⟩ := check_ok.mp hd
    cases hd
    refine ⟨?_, rfl⟩
    simp only [state, query, find?_append]
    by_cases hh : x = slot
    · subst hh
      have none : (v.slotStates.find? fun e => decide (e.slot = x)) = none := hn
      simp [none, hk]
    · have ne : ¬ slot = x := fun eq => hh eq.symm
      simp [hh, hk, ne]

lemma flags_stateMut (x : Nat) :
    (v'.state x).flags = if x = slot then (write (v.state slot)).flags else (v.state x).flags := by
  rw [(state_stateMut hd hk).1]
  by_cases hh : x = slot
  · subst hh
    rw [if_pos rfl, if_pos rfl]
  · rw [if_neg hh, if_neg hh]

end

structure SameFlags (v v' : Voter) : Prop where
  votes : v'.voteEvents = v.voteEvents
  flags : ∀ x, (v'.state x).flags = (v.state x).flags
  final : v'.highestFinalCertSlot = v.highestFinalCertSlot

lemma SameFlags.trans {v'' : Voter} (hf : SameFlags v v') (hs : SameFlags v' v'') : SameFlags v v'' :=
  ⟨hs.votes.trans hf.votes, fun x => (hs.flags x).trans (hf.flags x), hs.final.trans hf.final⟩

lemma SameFlags.stateMut (hd : v.stateMut slot write = .ok v') (hs : ∀ e, (write e).slot = e.slot)
    (hk : ∀ e, (write e).flags = e.flags) : SameFlags v v' := by
  refine ⟨?_, ?_, ?_⟩
  · rw [(state_stateMut (x := slot) hd hs).2]
  · intro x
    rw [(state_stateMut hd hs).1]
    split
    · exact hk _
    · rfl
  · rw [(state_stateMut (x := slot) hd hs).2]

lemma SameFlags.arm (hd : v.arm slot write = .ok v') (hl : ∀ e, (write e).slot = e.slot)
    (hk : ∀ e, (write e).flags = e.flags) : SameFlags v v' := by
  obtain ⟨mid, hw, hd⟩ := bind_ok.mp hd
  have hs := SameFlags.stateMut hw hl hk
  cases hd
  split
  · exact ⟨hs.votes, hs.flags, hs.final⟩
  · exact hs

lemma SameFlags.setTimeouts (hd : v.setTimeouts slot = .ok v') : SameFlags v v' := by
  obtain ⟨_, hd⟩ := check_ok.mp hd
  obtain ⟨mid, ha, hd⟩ := bind_ok.mp hd
  have hf : SameFlags v mid := SameFlags.arm ha (fun _ => rfl) fun _ => rfl
  obtain ⟨⟨deadline, last⟩, hl, rfl⟩ := map_ok.mp hd
  have he := foldlM_preserves (I := fun acc => SameFlags v acc.2) ?_ hf hl
  · exact he
  · rintro ⟨d, u⟩ s _ ⟨d', u'⟩ hs hr
    obtain ⟨w, ha, hd⟩ := bind_ok.mp hr
    cases hd
    exact hs.trans (SameFlags.arm ha (fun _ => rfl) fun _ => rfl)

lemma pushVote_ok (hd : v.pushVote vote = .ok v') : v' = { v with voteEvents := v.voteEvents ++ [vote] } := by
  obtain ⟨_, hd⟩ := check_ok.mp hd
  exact (Except.ok.inj hd).symm

lemma pushCert_ok (hd : v.pushCert cert = .ok v') : v' = { v with certEvents := v.certEvents ++ [cert] } := by
  obtain ⟨_, hd⟩ := check_ok.mp hd
  exact (Except.ok.inj hd).symm

section

structure Voter.Inv (boot : Nat) (owes : Option Nat) (certs : List Cert) (v : Voter) : Prop where
  tracked : ∀ slot, v.firstUnprunedSlot ≤ slot → Agrees boot owes certs v.voteEvents slot (v.state slot).flags
  past : ∀ slot, slot < v.firstUnprunedSlot → Exclusive v.voteEvents slot
  grounded : Grounded boot certs v.voteEvents

variable {certs : List Cert}

namespace Voter.Inv

section
variable (inv : v.Inv boot owes certs)
include inv

lemma same (hk : SameFlags v v') : v'.Inv boot owes certs := by
  have hf : v'.firstUnprunedSlot = v.firstUnprunedSlot := by
    rw [firstUnprunedSlot, hk.final, firstUnprunedSlot]
  refine ⟨?_, ?_, hk.votes ▸ inv.grounded⟩
  · intro x hm
    rw [hk.votes, hk.flags]
    exact inv.tracked x (hf ▸ hm)
  · intro x hb
    rw [hk.votes]
    exact inv.past x (hf ▸ hb)

lemma mono (hm : certs ⊆ certs') : v.Inv boot owes certs' :=
  ⟨fun x hx => (inv.tracked x hx).mono hm, inv.past, inv.grounded.mono hm⟩

lemma written (hd : v.stateMut slot write = .ok v') (hs : ∀ e, (write e).slot = e.slot)
    (hn : v.firstUnprunedSlot ≤ slot → Agrees boot owes certs v.voteEvents slot (write (v.state slot)).flags) :
    v'.Inv boot owes certs := by
  have hr := (state_stateMut (x := slot) hd hs).2
  have hv : v'.voteEvents = v.voteEvents := by rw [hr]
  have hf : v'.firstUnprunedSlot = v.firstUnprunedSlot := by rw [hr]; rfl
  refine ⟨?_, ?_, hv ▸ inv.grounded⟩
  · intro x hm
    rw [hf] at hm
    rw [hv, (state_stateMut hd hs).1]
    by_cases hh : x = slot
    · subst hh
      rw [if_pos rfl]
      exact hn hm
    · rw [if_neg hh]
      exact inv.tracked x hm
  · intro x hb
    rw [hv]
    exact inv.past x (hf ▸ hb)

end

lemma cast (vote : Vote) (ha : v.Inv boot owes certs)
    (hv : v'.voteEvents = v.voteEvents ++ [vote]) (hi : v'.highestFinalCertSlot = v.highestFinalCertSlot)
    (hn : vote.slot = slot) (hm : v.firstUnprunedSlot ≤ slot)
    (hl : ∀ x, (v'.state x).flags = if x = slot then e else (v.state x).flags)
    (ho : Agrees boot owes certs (v.voteEvents ++ [vote]) slot e)
    (hg : ∀ slot rank, vote = .final slot rank → slot ≠ boot →
      ∃ hash ∈ notars v.voteEvents slot, ∃ stake, Cert.notar slot hash stake ∈ certs) : v'.Inv boot owes certs := by
  have hf : v'.firstUnprunedSlot = v.firstUnprunedSlot := by
    rw [firstUnprunedSlot, hi, firstUnprunedSlot]
  refine ⟨?_, ?_, ?_⟩
  · intro x ht
    rw [hv, hl]
    by_cases hh : x = slot
    · rw [if_pos hh, hh]
      exact ho
    · rw [if_neg hh]
      exact (ha.tracked x (hf ▸ ht)).other fun eq => hh (eq.symm.trans hn)
  · intro x hb
    rw [hv]
    rw [hf] at hb
    refine (ha.past x hb).other ?_
    omega
  · rw [hv]
    exact ha.grounded.append hg

lemma owing (hi : v.Inv boot none certs) : v.Inv boot owes certs :=
  ⟨fun x hm => (hi.tracked x hm).owing, hi.past, hi.grounded⟩

section
variable (inv : v.Inv boot owes certs)
include inv

lemma tryFinal (hd : v.tryFinal slot hash = .ok v') : v'.Inv boot owes certs := by
  obtain ⟨hx, hd⟩ := check_ok.mp hd
  have ha := inv.tracked slot hx
  by_cases hm : ((v.state slot).blockNotarized && decide ((v.state slot).blockNotarizedHash = hash) &&
      ((v.state slot).votedNotar && decide ((v.state slot).votedNotarHash = hash)) &&
      !(v.state slot).badWindow) = true
  · simp only [hm, if_true] at hd
    obtain ⟨mid, hp, hd⟩ := bind_ok.mp hd
    cases pushVote_ok hp
    have hf := flags_stateMut hd fun _ => rfl
    have hr := (state_stateMut (x := slot) hd fun _ => rfl).2
    simp only [Bool.and_eq_true, decide_eq_true_eq, Bool.not_eq_true'] at hm
    obtain ⟨⟨⟨hn, hc⟩, hv, ho⟩, hg⟩ := hm
    refine inv.cast (.final slot (v.ownRank slot)) (by rw [hr]) (by rw [hr]) rfl hx hf
      (ha.castFinal hv hg) ?_
    · rintro s r eq ne
      cases eq
      refine ⟨hash, ?_, ?_⟩
      · rw [ha.notar, if_pos ⟨hv, ne⟩]
        exact mem_singleton.mpr ho.symm
      · obtain ⟨stake, hs⟩ := ha.cert hn ne
        exact ⟨stake, hc ▸ hs⟩
  · simp only [hm] at hd
    cases hd
    exact inv

lemma tryNotar {voted : Bool} (hd : v.tryNotar slot info = .ok (voted, v')) : v'.Inv boot owes certs := by
  obtain ⟨hm, hd⟩ := check_ok.mp hd
  by_cases hb : v.hasVoted slot = true
  · simp only [hb, if_true] at hd
    cases hd
    exact inv
  by_cases hv : v.validParent slot info.parent = true
  · simp only [hb, hv, Bool.not_true] at hd
    obtain ⟨mid, hp, hd⟩ := bind_ok.mp hd
    cases pushVote_ok hp
    obtain ⟨mid, hw, hd⟩ := bind_ok.mp hd
    obtain ⟨last, hi, hd⟩ := bind_ok.mp hd
    cases hd
    have hf := flags_stateMut hw fun _ => rfl
    have hr := (state_stateMut (x := slot) hw fun _ => rfl).2
    have hu : (v.state slot).voted = false := by simpa [hasVoted] using hb
    refine tryFinal ?_ hi
    exact inv.cast (.notar slot info.hash (v.ownRank slot)) (by rw [hr]) (by rw [hr]) rfl hm hf
      ((inv.tracked slot hm).castNotar hu) fun _ _ => nofun
  · simp only [hb, hv] at hd
    cases hd
    exact inv

lemma skipSlot (hm : v.firstUnprunedSlot ≤ slot) (hd : v.skipSlot slot = .ok v') :
    v'.Inv boot owes certs ∧ v'.highestFinalCertSlot = v.highestFinalCertSlot ∧
      ∀ x, (v'.state x).retired = (v.state x).retired := by
  by_cases hb : v.hasVoted slot = true
  · simp only [Voter.skipSlot, hb, if_true] at hd
    cases hd
    exact ⟨inv, rfl, fun _ => rfl⟩
  · simp only [Voter.skipSlot, hb] at hd
    obtain ⟨mid, hw, hd⟩ := bind_ok.mp hd
    cases pushVote_ok hd
    have hf := flags_stateMut hw fun _ => rfl
    have hr := (state_stateMut (x := slot) hw fun _ => rfl).2
    have hu : (v.state slot).voted = false := by simpa [hasVoted] using hb
    have hv : mid.voteEvents = v.voteEvents := by rw [hr]
    have hi : mid.highestFinalCertSlot = v.highestFinalCertSlot := by rw [hr]
    refine ⟨?_, hi, ?_⟩
    · exact inv.cast (.skip slot (mid.ownRank slot)) (congrArg (· ++ _) hv) hi rfl hm hf
        ((inv.tracked slot hm).castSkip hu) fun _ _ => nofun
    · intro x
      have hs := congrArg Flags.retired (hf x)
      refine hs.trans ?_
      by_cases hh : x = slot
      · rw [if_pos hh, hh]
        rfl
      · rw [if_neg hh]
        rfl

lemma trySkipWindow (hd : v.trySkipWindow slot = .ok v') :
    v'.Inv boot owes certs ∧ v'.highestFinalCertSlot = v.highestFinalCertSlot ∧
      ∀ x, (v'.state x).retired = (v.state x).retired := by
  obtain ⟨m, hd⟩ := check_ok.mp hd
  refine foldlM_preserves (I := fun u => u.Inv boot owes certs ∧
    u.highestFinalCertSlot = v.highestFinalCertSlot ∧ ∀ x, (u.state x).retired = (v.state x).retired)
    ?_ ⟨inv, rfl, fun _ => rfl⟩ hd
  rintro u s hm u' ⟨hv, hf, he⟩ ho
  have ht : u.firstUnprunedSlot ≤ s := by
    rw [firstUnprunedSlot, hf]
    exact le_trans (firstSlotInWindow_mono m) (mem_windowSlots hm)
  obtain ⟨hn, hi, hr⟩ := hv.skipSlot ht ho
  exact ⟨hn, hi.trans hf, fun x => (hr x).trans (he x)⟩

lemma checkPendingBlocks (hd : v.checkPendingBlocks = .ok v') : v'.Inv boot owes certs := by
  refine foldlM_preserves (I := fun u => u.Inv boot owes certs) ?_ inv hd
  intro u s _ u' hi hr
  by_cases hp : (u.state s).pendingBlock = true
  · simp only [retryPending, hp, if_true] at hr
    obtain ⟨⟨voted, next⟩, ht, rfl⟩ := map_ok.mp hr
    exact hi.tryNotar ht
  · simp only [retryPending, hp] at hr
    cases hr
    exact hi

end

variable (inv : v.Inv boot none certs)
include inv

lemma castFallback (hm : v.firstUnprunedSlot ≤ slot) (hj : (v.state slot).retired = false)
    (hk : (∃ hash rank, vote = .notarFallback slot hash rank) ∨ ∃ rank, vote = .skipFallback slot rank)
    (hg : v.castFallback slot vote = .ok v') : v'.Inv boot none certs := by
  obtain ⟨mid, hp, hg⟩ := bind_ok.mp hg
  cases pushVote_ok hp
  obtain ⟨mid, hs, hg⟩ := bind_ok.mp hg
  have hn : vote.slot = slot := by
    rcases hk with ⟨_, _, rfl⟩ | ⟨_, rfl⟩ <;> rfl
  have ho : v.Inv boot (some slot) certs := inv.owing
  have hc : ({ v with voteEvents := v.voteEvents ++ [vote] } : Voter).Inv boot (some slot) certs := by
    refine ho.cast vote rfl rfl hn hm (e := (v.state slot).flags) ?_
      ((ho.tracked slot hm).castFallback hk) ?_
    · intro x
      by_cases hh : x = slot
      · rw [if_pos hh, hh]
        rfl
      · rw [if_neg hh]
        rfl
    · rintro s r rfl
      rcases hk with ⟨_, _, eq⟩ | ⟨_, eq⟩ <;> cases eq
  obtain ⟨hd, hl, hr⟩ := hc.trySkipWindow hs
  have hf : mid.firstUnprunedSlot = v.firstUnprunedSlot := by
    rw [firstUnprunedSlot, hl]
    rfl
  have he := (state_stateMut (x := slot) hg fun _ => rfl).2
  have hv : v'.voteEvents = mid.voteEvents := by rw [he]
  have hi : v'.firstUnprunedSlot = mid.firstUnprunedSlot := by rw [he]; rfl
  have ha := flags_stateMut hg fun _ => rfl
  refine ⟨?_, ?_, hv ▸ hd.grounded⟩
  · intro x ht
    rw [hv, ha]
    rw [hi] at ht
    by_cases hh : x = slot
    · rw [if_pos hh, hh]
      exact (hd.tracked slot (hf ▸ hm)).settle ((hr slot).trans hj)
    · rw [if_neg hh]
      exact (hd.tracked x ht).owed hh
  · intro x hb
    rw [hv]
    exact hd.past x (hi ▸ hb)

lemma raise (slot : Nat) :
    ({ v with highestFinalCertSlot := max v.highestFinalCertSlot slot } : Voter).Inv boot none certs := by
  have hl : v.firstUnprunedSlot ≤ firstSlotInWindow (max v.highestFinalCertSlot slot) := by
    unfold firstUnprunedSlot firstSlotInWindow slotsPerWindow
    omega
  refine ⟨?_, ?_, inv.grounded⟩
  · intro x hm
    exact inv.tracked x (le_trans hl hm)
  · intro x hb
    by_cases ho : x < v.firstUnprunedSlot
    · exact inv.past x ho
    · exact (inv.tracked x (Nat.le_of_not_lt ho)).exclusive

lemma prune : v.prune.Inv boot none certs := by
  refine ⟨?_, inv.past, inv.grounded⟩
  intro x (hm : v.firstUnprunedSlot ≤ x)
  have hs : v.prune.state x = v.state x := by
    simp only [Voter.state, Voter.query, Voter.prune, find?_filter]
    congr 2
    funext e
    by_cases hh : e.slot = x
    · simpa [hh] using .inr hm
    · simp [hh]
  rw [hs]
  exact inv.tracked x hm

lemma handleCertCreated (hs : cert ∈ certs) (hd : v.handleCertCreated cert = .ok v') : v'.Inv boot none certs := by
  have hp : ∀ {u : Voter}, u.Inv boot none certs → u.pushCert cert = .ok v' → v'.Inv boot none certs := by
    intro u hi hd
    rw [pushCert_ok hd]
    exact hi.same ⟨rfl, fun _ => rfl, rfl⟩
  cases cert with
  | notar slot hash stake =>
    obtain ⟨first, hw, hd⟩ := bind_ok.mp hd
    obtain ⟨mid, hh, hd⟩ := bind_ok.mp hd
    refine hp (tryFinal ?_ hh) hd
    exact inv.written hw (fun _ => rfl) fun hm => (inv.tracked slot hm).notarized hs
  | final slot stake | fastFinal slot hash stake =>
    obtain ⟨first, ht, hd⟩ := bind_ok.mp hd
    exact hp ((inv.same (.setTimeouts ht)).raise slot).prune hd
  | skip slot stake | notarFallback slot hash stake => exact hp inv hd

lemma addParentReady {parent : BlockId} (hd : v.addParentReady slot parent = .ok v') : v'.Inv boot none certs := by
  obtain ⟨mid, ht, hd⟩ := bind_ok.mp hd
  have hf := inv.same (.stateMut ht (fun _ => rfl) fun _ => rfl)
  split at hd
  · cases hd
    exact hf
  · obtain ⟨_, hd⟩ := check_ok.mp hd
    exact hf.same (.stateMut hd (fun _ => rfl) fun _ => rfl)

lemma handlePoolEvent {event : PoolEvent} (hs : ∀ cert, event = .certCreated cert → cert ∈ certs)
    (hf : ∀ slot certs votes, event ≠ .standstill slot certs votes)
    (hd : v.handlePoolEvent event now = .ok v') : v'.Inv boot none certs := by
  have ht : ({ v with now := now } : Voter).Inv boot none certs := inv.same ⟨rfl, fun _ => rfl, rfl⟩
  unfold Voter.handlePoolEvent at hd
  by_cases hi : ({ v with now := now } : Voter).shouldIgnorePoolEvent event = true
  · simp only [hi, if_true] at hd
    cases hd
    exact ht
  simp only [hi] at hd
  cases event with
  | parentReady slot parent =>
    obtain ⟨mid, ha, hd⟩ := bind_ok.mp hd
    obtain ⟨last, hc, hd⟩ := bind_ok.mp hd
    exact ((ht.addParentReady ha).checkPendingBlocks hc).same (.setTimeouts hd)
  | safeToNotar block =>
    simp only [shouldIgnorePoolEvent, isRetired, Bool.or_eq_true, decide_eq_true_eq, not_or,
      Bool.not_eq_true, not_lt] at hi
    exact ht.castFallback hi.1 hi.2 (.inl ⟨_, _, rfl⟩) hd
  | safeToSkip slot =>
    simp only [shouldIgnorePoolEvent, isRetired, Bool.or_eq_true, decide_eq_true_eq, not_or,
      Bool.not_eq_true, not_lt] at hi
    exact ht.castFallback hi.1 hi.2 (.inr ⟨_, rfl⟩) hd
  | certCreated cert => exact ht.handleCertCreated (hs cert rfl) hd
  | standstill slot cs vs => exact absurd rfl (hf slot cs vs)

lemma handleReplayCompleted (hd : v.handleReplayCompleted slot info = .ok v') : v'.Inv boot none certs := by
  unfold Voter.handleReplayCompleted at hd
  split at hd
  · cases hd
    exact inv
  obtain ⟨⟨voted, mid⟩, ht, hd⟩ := bind_ok.mp hd
  have hi := inv.tryNotar ht
  cases voted with
  | true => exact hi.checkPendingBlocks hd
  | false =>
    obtain ⟨last, hw, hd⟩ := bind_ok.mp hd
    cases hd
    have hn := hi.same (.stateMut hw (fun _ => rfl) fun _ => rfl)
    split
    · exact hn
    · exact hn.same ⟨rfl, fun _ => rfl, rfl⟩

lemma pollTimeout (hd : v.pollTimeout now = .ok v') : v'.Inv boot none certs := by
  have ht : ({ v with now := now } : Voter).Inv boot none certs := inv.same ⟨rfl, fun _ => rfl, rfl⟩
  unfold Voter.pollTimeout at hd
  simp only at hd
  split at hd
  · cases hd
    exact ht
  · obtain ⟨mid, hw, hd⟩ := bind_ok.mp hd
    cases hd
    have hi : mid.Inv boot none certs := by
      refine ht.same (.stateMut hw ?_ ?_)
      · intro e
        split <;> rfl
      · intro e
        split <;> rfl
    split
    · exact hi.same ⟨rfl, fun _ => rfl, rfl⟩
    · exact hi

lemma step (hs : ∀ cert now, event = .pool (.certCreated cert) now → cert ∈ certs)
    (hf : ∀ slot certs votes now, event ≠ .pool (.standstill slot certs votes) now)
    (hd : v.step event = .ok v') : v'.Inv boot none certs := by
  cases event with
  | pool event now =>
    refine inv.handlePoolEvent ?_ ?_ hd
    · exact fun cert eq => hs cert now (by rw [eq])
    · exact fun slot cs vs eq => hf slot cs vs now (by rw [eq])
  | firstShred slot =>
    simp only [Voter.step] at hd
    split at hd
    · cases hd
      exact inv
    · exact inv.same (.stateMut hd (fun _ => rfl) fun _ => rfl)
  | invalidBlock slot | replayDead slot | timeout slot | timeoutCrashedLeader slot =>
    simp only [Voter.step] at hd
    split at hd
    · cases hd
      exact inv
    · exact (inv.trySkipWindow hd).1
  | replayCompleted slot info =>
    simp only [Voter.step] at hd
    split at hd
    · cases hd
      exact inv
    · exact inv.handleReplayCompleted hd
  | pollTimeout now => exact inv.pollTimeout hd
  | pollVote | pollCert =>
    cases hd
    exact inv.same ⟨rfl, fun _ => rfl, rfl⟩
  | advanceEpoch rank slot =>
    cases hd
    unfold advanceEpoch
    split
    · exact inv.same ⟨rfl, fun _ => rfl, rfl⟩
    · split <;> exact inv.same ⟨rfl, fun _ => rfl, rfl⟩

end Voter.Inv

end

structure Heard where
  voter : Voter
  certs : List Cert

def Event.certs : Event → List Cert
  | .pool (.certCreated cert) _ => [cert]
  | _ => []

def Heard.step (h : Heard) (event : Event) : Except VoterFault Heard := do
  let v ← h.voter.step event
  .ok ⟨v, h.certs ++ event.certs⟩

/-- A standstill event re-broadcasts votes that were cast before. -/
def Event.Fresh : Event → Prop
  | .pool (.standstill _ _ _) _ => False
  | _ => True

instance : DecidablePred Event.Fresh := fun event => by
  unfold Event.Fresh
  split <;> infer_instance

def recorded (votes : List Vote) (slot : Nat) : SlotVotes :=
  (votes.filter fun vote => vote.slot = slot).foldl (fun v vote =>
    if (v.checkSlashableOffence vote).isSome || v.shouldIgnoreVote vote then v
    else match vote with
      | .notarFallback _ _ rank =>
        if notarFallbackVoteMax ≤ (v.notarFallbacksOf rank).length then v else v.record vote
      | _ => v.record vote) {}

/-- The votes of a run: they do not contradict each other, and no vote is slashable when it
reaches the slot state that has recorded the earlier ones. -/
structure Heard.Honest (boot : Nat) (h : Heard) : Prop where
  exclusive : ∀ slot, Exclusive h.voter.voteEvents slot
  grounded : Grounded boot h.certs h.voter.voteEvents
  unslashable : ∀ front vote back, h.voter.voteEvents = front ++ vote :: back →
    (recorded front vote.slot).checkSlashableOffence vote = none

structure SlotVotes.From (v : SlotVotes) (votes : List Vote) (slot : Nat) : Prop where
  notar : ∀ rank hash, (rank, hash) ∈ v.notar → Vote.notar slot hash rank ∈ votes
  notarFallback : ∀ rank hash, (rank, hash) ∈ v.notarFallback → Vote.notarFallback slot hash rank ∈ votes
  skip : ∀ rank ∈ v.skip, Vote.skip slot rank ∈ votes
  skipFallback : ∀ rank ∈ v.skipFallback, Vote.skipFallback slot rank ∈ votes
  finalize : ∀ rank ∈ v.finalize, final slot rank ∈ votes

lemma SlotVotes.From.record {v : SlotVotes} (hr : v.From votes slot) (hm : vote ∈ votes)
    (hh : vote.slot = slot) : (v.record vote).From votes slot := by
  obtain ⟨ho, hn, hk, hs, hf⟩ := hr
  cases vote <;> cases hh <;> constructor <;> simp only [SlotVotes.record, slot] at * <;> grind

lemma recorded_from (votes : List Vote) (slot : Nat) : (recorded votes slot).From votes slot := by
  refine List.foldlRecOn (motive := fun v : SlotVotes => v.From votes slot) _ _ ?_ ?_
  · constructor <;> simp
  · intro v ho vote hm
    obtain ⟨hf, hh⟩ := mem_filter.mp hm
    have hr := ho.record hf (by simpa using hh)
    split
    · exact ho
    · split
      · split
        · exact ho
        · exact hr
      · exact hr

lemma mem_notars : hash ∈ notars votes slot ↔ ∃ rank, notar slot hash rank ∈ votes := by
  simp only [notars, mem_filterMap]
  constructor
  · rintro ⟨vote, hm, eq⟩
    cases vote with
    | notar s h r =>
      by_cases hh : s = slot
      · subst hh
        simp only [if_true, Option.some.injEq] at eq
        exact ⟨r, eq ▸ hm⟩
      · simp [hh] at eq
    | final | skip | notarFallback | skipFallback => simp at eq
  · rintro ⟨rank, hm⟩
    exact ⟨_, hm, by simp⟩

lemma unslashable_of_exclusive {front back : List Vote} (hn : vote.slot = slot)
    (hx : Exclusive (front ++ vote :: back) slot) : (recorded front slot).checkSlashableOffence vote = none := by
  have ho := recorded_from front slot
  have hb : ∀ w ∈ front, w ∈ front ++ vote :: back := fun w hy => mem_append_left _ hy
  have hh : vote ∈ front ++ vote :: back := by simp
  have hu : HasFinal (front ++ vote :: back) slot ∨ notars (front ++ vote :: back) slot ≠ [] →
      ∀ rank, rank ∉ (recorded front slot).skip := by
    rintro hg rank skip
    have he : HasSkip (front ++ vote :: back) slot := ⟨rank, hb _ (ho.skip rank skip)⟩
    rcases hg with final | notar
    · exact hx.finalSkip final he
    · exact hx.notarSkip notar he
  have hl : HasSkip (front ++ vote :: back) slot ∨ HasFallback (front ++ vote :: back) slot →
      ∀ rank, rank ∉ (recorded front slot).finalize := by
    rintro hg rank final
    have he : HasFinal (front ++ vote :: back) slot := ⟨rank, hb _ (ho.finalize rank final)⟩
    rcases hg with skip | hm
    · exact hx.finalSkip he skip
    · exact hx.finalFallback he hm
  have ha : ∀ rank voted, (recorded front slot).notarOf rank = some voted → voted ∈ notars front slot := by
    intro rank voted hf
    obtain ⟨⟨r, w⟩, hy, rfl⟩ := Option.map_eq_some_iff.mp hf
    exact mem_notars.mpr ⟨r, ho.notar r w (mem_of_find?_eq_some hy)⟩
  have hs : notars (front ++ vote :: back) slot = notars front slot ++ notars (vote :: back) slot := filterMap_append
  cases vote with
  | notar s hash rank =>
    subst hn
    simp only [slot] at *
    have voted : hash ∈ notars (front ++ .notar s hash rank :: back) s := mem_notars.mpr ⟨rank, hh⟩
    have hi : (recorded front s).notarOf rank = none := by
      cases hf : (recorded front s).notarOf rank with
      | none => rfl
      | some old =>
        -- two notarization votes for the slot
        have hq := length_pos_of_mem (ha rank old hf)
        have ht : 0 < (notars (.notar s hash rank :: back) s).length :=
          length_pos_of_mem (mem_notars.mpr ⟨rank, .head _⟩)
        have hc := hx.once
        rw [hs, length_append] at hc
        omega
    rw [SlotVotes.checkSlashableOffence]
    rw [if_neg (hu (.inr (ne_nil_of_mem voted)) rank), hi]
  | final s rank =>
    subst hn
    simp only [slot] at *
    have final : HasFinal (front ++ .final s rank :: back) s := ⟨rank, hh⟩
    have hk : ¬ (rank ∈ (recorded front s).skip ∨ rank ∈ (recorded front s).skipFallback) := by
      rintro (skip | skip)
      · exact hu (.inl final) rank skip
      · exact hx.finalFallback final (.inr ⟨rank, hb _ (ho.skipFallback rank skip)⟩)
    have hp : (recorded front s).notarFallbacksOf rank = [] := by
      rw [eq_nil_iff_forall_not_mem]
      intro hash hy
      obtain ⟨⟨r, w⟩, hj, rfl⟩ := mem_map.mp hy
      have he := ho.notarFallback r w (mem_of_mem_filter hj)
      exact hx.finalFallback final (.inl ⟨w, r, hb _ he⟩)
    rw [SlotVotes.checkSlashableOffence]
    rw [if_neg hk, if_neg (not_not.mpr hp)]
  | skip s rank =>
    subst hn
    simp only [slot] at *
    have skip : HasSkip (front ++ .skip s rank :: back) s := ⟨rank, hh⟩
    have hd : (recorded front s).notarOf rank = none := by
      cases hf : (recorded front s).notarOf rank with
      | none => rfl
      | some old =>
        have he := ha rank old hf
        refine absurd skip (hx.notarSkip ?_)
        rw [hs]
        exact ne_nil_of_mem (mem_append_left _ he)
    rw [SlotVotes.checkSlashableOffence]
    rw [if_neg (hl (.inl skip) rank), hd]
    rfl
  | notarFallback s hash rank =>
    subst hn
    simp only [slot] at *
    exact if_neg (hl (.inr (.inl ⟨hash, rank, hh⟩)) rank)
  | skipFallback s rank =>
    subst hn
    simp only [slot] at *
    exact if_neg (hl (.inr (.inr ⟨rank, hh⟩)) rank)

lemma Voter.Inv.honest (hi : h.voter.Inv boot none h.certs) : h.Honest boot := by
  have he : ∀ slot, Exclusive h.voter.voteEvents slot := by
    intro slot
    by_cases ho : slot < h.voter.firstUnprunedSlot
    · exact hi.past slot ho
    · exact (hi.tracked slot (Nat.le_of_not_lt ho)).exclusive
  refine ⟨he, hi.grounded, ?_⟩
  intro front vote back hs
  exact unslashable_of_exclusive rfl (hs ▸ he vote.slot)

lemma init_inv (hd : init slotMax slot now = .ok v) : v.Inv slot none [] := by
  obtain ⟨mid, hw, hd⟩ := bind_ok.mp hd
  have hs := SameFlags.setTimeouts hd
  have hr := (state_stateMut (x := slot) hw fun _ => rfl).2
  have hf := flags_stateMut hw fun _ => rfl
  have hv : mid.voteEvents = [] := by rw [hr]
  refine Inv.same ?_ hs
  refine ⟨?_, ?_, ?_⟩
  · intro x _
    rw [hv, hf]
    by_cases hh : x = slot
    · rw [if_pos hh, hh]
      constructor <;> simp [notars, HasSkip, HasFallback, HasFinal, VoterSlot.flags]
    · rw [if_neg hh]
      constructor <;> simp [notars, HasSkip, HasFallback, HasFinal, VoterSlot.flags, state, query, hh]
  · intro x _
    rw [hv]
    constructor <;> simp [notars, HasSkip, HasFallback, HasFinal]
  · rw [hv]
    intro front s r back hp
    simp at hp

lemma Heard.step_inv (hi : h.voter.Inv boot none h.certs) (hf : event.Fresh)
    (hd : h.step event = .ok h') : h'.voter.Inv boot none h'.certs := by
  obtain ⟨v, hs, hd⟩ := bind_ok.mp hd
  cases hd
  refine (hi.mono (subset_append_left ..)).step ?_ ?_ hs
  · rintro cert now rfl
    exact mem_concat_self
  · rintro slot certs votes now rfl
    exact hf

/-- After ag_votor_init, whatever the events and their order, the votes of the voter never
contradict each other. -/
theorem votes_honest {slotMax : Nat} {now : Int} {v : Voter} {events : List Event}
    (start : init slotMax boot now = .ok v) (fresh : ∀ event ∈ events, event.Fresh)
    (done : run Heard.step ⟨v, []⟩ events = .ok h) : h.Honest boot := by
  have inv : (⟨v, []⟩ : Heard).voter.Inv boot none (⟨v, []⟩ : Heard).certs := init_inv start
  generalize (⟨v, []⟩ : Heard) = first at inv done
  induction events generalizing first with
  | nil =>
    cases done
    exact inv.honest
  | cons event events ih =>
    obtain ⟨mid, stepped, rest⟩ := (run_cons_ok Heard.step).mp done
    have later : ∀ e ∈ events, e.Fresh := fun e mem => fresh e (mem_cons_of_mem event mem)
    exact ih later mid (Heard.step_inv inv (fresh event (.head _)) stepped) rest

def notarizedThenSkipped : List Event :=
  [.replayCompleted 1 ⟨7, 0, 0⟩, .pool (.certCreated (.notar 1 7 60)) 5, .timeout 2]

theorem notarized_then_skipped_honest : ∃ v, init 8 0 0 = .ok v ∧
    ∃ h, run Heard.step ⟨v, []⟩ notarizedThenSkipped = .ok h ∧
      h.voter.voteEvents = [.notar 1 7 0, .final 1 0, .skip 2 0, .skip 3 0] ∧ h.Honest 0 :=
  ⟨_, rfl, _, rfl, rfl, votes_honest (show init 8 0 0 = .ok _ from rfl)
    (show ∀ event ∈ notarizedThenSkipped, event.Fresh by decide) rfl⟩

/-- A certificate for the boot slot with a hash of zeros: the boot slot counts as voted with that
hash, so a finalization vote is cast without a notarization vote. -/
theorem boot_slot_finalized_unvoted : ∃ v, init 8 0 0 = .ok v ∧
    ∃ h, run Heard.step ⟨v, []⟩ [.pool (.certCreated (.notar 0 0 60)) 5] = .ok h ∧ h.voter.voteEvents = [.final 0 0] :=
  ⟨_, rfl, _, rfl, rfl⟩

end Firebam.Votor
