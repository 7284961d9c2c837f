import Firebam.VoteProgram.Basic

/-! What check_and_filter_proposed_vote_state leaves of a proposal. -/
namespace Firebam.VoteProgram
open Lib List Option

variable {indexes : List Nat} {front back lockouts : List Lockout} {votes : List LandedVote}
  {slotHashes : List SlotHash} {earliest : Slot} {c c' : Scan} {s : VoteState} {p : Proposal} {root : Option Slot}
  {l last : Lockout}

def erased (indexes : List Nat) (lockouts : List Lockout) : List Lockout := indexes.foldl List.eraseIdx lockouts

lemma erased_append (hd : indexes.Pairwise (· > ·)) (hb : ∀ i ∈ indexes, i < front.length) :
    erased indexes (front ++ back) = erased indexes front ++ back := by
  induction indexes generalizing front with
  | nil => rfl
  | cons i rest ih =>
    obtain ⟨hs, hd⟩ := pairwise_cons.mp hd
    have m := hb i (.head _)
    have ht : erased (i :: rest) (front ++ back) = erased rest (front.eraseIdx i ++ back) :=
      congrArg (erased rest) (eraseIdx_append_of_lt_length m back)
    rw [ht]
    refine ih hd fun j hm => ?_
    have hl := hs j hm
    rw [length_eraseIdx_of_lt m]
    omega

lemma popFiltered_ok (hd : indexes.Pairwise (· > ·)) (hb : ∀ i ∈ indexes, i < lockouts.length) :
    popFiltered indexes lockouts.length lockouts = .ok (erased indexes lockouts) := by
  induction indexes generalizing lockouts with
  | nil => rfl
  | cons i rest ih =>
    obtain ⟨hm, hd⟩ := pairwise_cons.mp hd
    have m := hb i (.head _)
    have hs : (lockouts.eraseIdx i).length = lockouts.length - 1 := length_eraseIdx_of_lt m
    unfold popFiltered
    rw [if_neg (by omega), if_neg (by omega), ← hs]
    refine ih hd fun j hx => ?_
    have hl := hm j hx
    omega

lemma exists_of_containsSlot {slot : Slot} (hf : containsSlot votes slot = true) : ∃ v ∈ votes, v.slot = slot := by
  unfold containsSlot at hf
  cases ht : votes[searchFrom votes slot votes.length 0 votes.length]? with
  | none =>
    rw [ht] at hf
    cases hf
  | some v =>
    rw [ht] at hf
    exact ⟨v, mem_of_getElem? ht, of_decide_eq_true hf⟩

inductive Rounds (votes : List LandedVote) (slotHashes : List SlotHash) (earliest : Slot) (c : Scan) (l : Lockout) :
    Scan → Prop where
  | root (set : c.rootToCheck ≠ none) : Rounds votes slotHashes earliest c l { c with rootToCheck := none }
  | old (unset : c.rootToCheck = none) (older : l.slot < earliest) (known : containsSlot votes l.slot = true) :
      Rounds votes slotHashes earliest c l { c with lockoutsIndex := c.lockoutsIndex + 1 }
  | filter (unset : c.rootToCheck = none) (older : l.slot < earliest) :
      Rounds votes slotHashes earliest c l
        { c with lockoutsIndex := c.lockoutsIndex + 1, toFilter := c.lockoutsIndex :: c.toFilter }
  | newer : Rounds votes slotHashes earliest c l { c with slotHashesIndex := c.slotHashesIndex - 1 }
  | found (unset : c.rootToCheck = none) (h : SlotHash) (there : slotHashes[c.slotHashesIndex - 1]? = some h)
      (same : h.slot = l.slot) :
      Rounds votes slotHashes earliest c l
        { c with lockoutsIndex := c.lockoutsIndex + 1, slotHashesIndex := c.slotHashesIndex - 1 }

lemma round_ok (hh : lockouts[c.lockoutsIndex]? = some l)
    (hd : c.round votes lockouts slotHashes earliest = .ok c') : Rounds votes slotHashes earliest c l c' := by
  unfold Scan.round at hd
  rw [hh] at hd
  cases hn : slotHashes[c.slotHashesIndex - 1]? with
  | none =>
    rw [hn] at hd
    cases hd
  | some h =>
    rw [hn] at hd
    cases ht : c.rootToCheck with
    | none =>
      simp only [ht, getD_none, true_and, if_true] at hd
      split at hd
      · cases hd
      split at hd
      · split at hd
        · split at hd
          · cases hd
          · rename_i hy
            have ho : l.slot < earliest := Fin.not_le.mp hy
            cases hd
            split
            · rename_i hk
              have hr : Rounds votes slotHashes earliest c l _ := .old ht ho hk
              rwa [ht] at hr
            · have hr : Rounds votes slotHashes earliest c l _ := .filter ht ho
              rwa [ht] at hr
        · cases hd
      · split at hd
        · cases hd
          have hr : Rounds votes slotHashes earliest c l _ := .newer
          rwa [ht] at hr
        · rename_i hb ha
          have hs : h.slot = l.slot := Fin.le_antisymm (Fin.not_lt.mp hb) (Fin.not_lt.mp ha)
          cases hd
          have hr : Rounds votes slotHashes earliest c l _ := .found ht h hn hs
          rwa [ht] at hr
    | some r =>
      have set : c.rootToCheck ≠ none := by simp [ht]
      simp only [ht, getD_some, reduceCtorEq, false_and, if_false] at hd
      split at hd
      · split at hd
        · split at hd
          · cases hd
          · cases hd
            exact .root set
        · cases hd
      · split at hd
        · cases hd
          have hr : Rounds votes slotHashes earliest c l _ := .newer
          rwa [ht] at hr
        · cases hd
          exact .root set

def Known (votes : List LandedVote) (slotHashes : List SlotHash) (slot : Slot) : Prop :=
  (∃ h ∈ slotHashes, h.slot = slot) ∨ ∃ v ∈ votes, v.slot = slot

structure Scanned (votes : List LandedVote) (lockouts : List Lockout) (slotHashes : List SlotHash) (earliest : Slot)
    (c : Scan) : Prop where
  le : c.lockoutsIndex ≤ lockouts.length
  decreasing : c.toFilter.Pairwise (· > ·)
  below : ∀ i ∈ c.toFilter, i < c.lockoutsIndex
  known : ∀ l ∈ erased c.toFilter (lockouts.take c.lockoutsIndex), Known votes slotHashes l.slot
  last : c.lockoutsIndex = lockouts.length → ∀ l, lockouts.getLast? = some l → earliest ≤ l.slot →
    (erased c.toFilter (lockouts.take c.lockoutsIndex)).getLast? = some l ∧
      ∃ h, slotHashes[c.slotHashesIndex]? = some h ∧ h.slot = l.slot

lemma getLast_of_next {i : Nat} (hh : lockouts[i]? = some l) (hf : i + 1 = lockouts.length)
    (ht : lockouts.getLast? = some last) : last = l := by
  rw [getLast?_eq_getElem?, ← hf, Nat.add_sub_cancel, hh] at ht
  exact (some.inj ht).symm

section
variable (hc : Scanned votes lockouts slotHashes earliest c)
include hc

lemma Scanned.erased_next (hh : lockouts[c.lockoutsIndex]? = some l) :
    erased c.toFilter (lockouts.take (c.lockoutsIndex + 1)) =
      erased c.toFilter (lockouts.take c.lockoutsIndex) ++ [l] := by
  obtain ⟨m, eq⟩ := List.getElem?_eq_some_iff.mp hh
  rw [take_add_one, hh]
  refine erased_append hc.decreasing fun i hm => ?_
  rw [length_take_of_le hc.le]
  exact hc.below i hm

lemma Scanned.step (hh : lockouts[c.lockoutsIndex]? = some l) (hd : Rounds votes slotHashes earliest c l c') :
    Scanned votes lockouts slotHashes earliest c' := by
  obtain ⟨m, -⟩ := List.getElem?_eq_some_iff.mp hh
  have hn := hc.erased_next hh
  have hl : ∀ i ∈ c.toFilter, i < c.lockoutsIndex + 1 := fun i hm => Nat.lt_succ_of_lt (hc.below i hm)
  have he : Known votes slotHashes l.slot →
      ∀ l' ∈ erased c.toFilter (lockouts.take (c.lockoutsIndex + 1)), Known votes slotHashes l'.slot := by
    intro hk
    rw [hn]
    exact forall_mem_concat.mpr ⟨hc.known, hk⟩
  cases hd with
  | root set => exact ⟨hc.le, hc.decreasing, hc.below, hc.known, hc.last⟩
  | old hu ho hk =>
    refine ⟨m, hc.decreasing, hl, he (.inr (exists_of_containsSlot hk)), fun hf last hp hy => ?_⟩
    rw [getLast_of_next hh hf hp] at hy
    exact absurd ho (Fin.not_lt.mpr hy)
  | filter hu ho =>
    have hg : erased (c.lockoutsIndex :: c.toFilter) (lockouts.take (c.lockoutsIndex + 1)) =
        erased c.toFilter (lockouts.take c.lockoutsIndex) := by
      have hr : (lockouts.take (c.lockoutsIndex + 1)).eraseIdx c.lockoutsIndex = lockouts.take c.lockoutsIndex := by
        rw [take_add_one, hh]
        have ha := length_take_of_le hc.le
        rw [eraseIdx_append_of_length_le (Nat.le_of_eq ha), ha, Nat.sub_self]
        exact append_nil _
      exact congrArg (erased c.toFilter) hr
    refine ⟨m, pairwise_cons.mpr ⟨hc.below, hc.decreasing⟩, fun i hm => ?_,
      fun l' hm => ?_, fun hf last hp hy => ?_⟩
    · rcases mem_cons.mp hm with rfl | hb
      · exact Nat.lt_succ_self _
      · exact hl i hb
    · rw [hg] at hm
      exact hc.known l' hm
    · rw [getLast_of_next hh hf hp] at hy
      exact absurd ho (Fin.not_lt.mpr hy)
  | newer =>
    refine ⟨hc.le, hc.decreasing, hc.below, hc.known, fun hf => ?_⟩
    exact absurd hf (Nat.ne_of_lt m)
  | found hu h ht hs =>
    refine ⟨m, hc.decreasing, hl, he (.inl ⟨h, mem_of_getElem? ht, hs⟩), fun hf last hp hy => ?_⟩
    have eq := getLast_of_next hh hf hp
    subst eq
    rw [hn]
    exact ⟨getLast?_concat, h, ht, hs⟩

lemma loop_ok {n : Nat} (h : Scan.loop votes lockouts slotHashes earliest n c = .ok c') :
    Scanned votes lockouts slotHashes earliest c' := by
  induction n generalizing c with
  | zero => cases h
  | succ n ih =>
    unfold Scan.loop at h
    split_ifs at h with hm
    · obtain ⟨m, hr, he⟩ := bind_ok.mp h
      have hh := getElem?_eq_getElem hm.1
      exact ih (hc.step hh (round_ok hh hr)) he
    · cases h
      exact hc

end

structure Filtered (s : VoteState) (slotHashes : List SlotHash) (p : Proposal) (lockouts : List Lockout) : Prop where
  known : ∀ l ∈ lockouts, Known s.votes slotHashes l.slot
  last : ∃ last, lockouts.getLast? = some last ∧ (∀ v ∈ s.votes.getLast?, v.slot < last.slot) ∧
    ∃ h ∈ slotHashes, h.slot = last.slot ∧ h.hash = p.hash

lemma filterProposed_ok (ha : p.lockouts.getLast? = some last)
    (hn : ∀ v ∈ s.votes.getLast?, v.slot < last.slot) (hy : earliest ≤ last.slot)
    (ho : s.filterProposed slotHashes earliest p = .ok (lockouts, root)) : Filtered s slotHashes p lockouts := by
  obtain ⟨c, hl, ho⟩ := bind_ok.mp ho
  obtain ⟨hf, ho⟩ := check_ok.mp ho
  obtain ⟨hh, ho⟩ := check_ok.mp ho
  obtain ⟨left, hp, ho⟩ := bind_ok.mp ho
  cases ho
  have hg : Scanned s.votes p.lockouts slotHashes earliest
      ⟨s.knownRoot earliest p.root, 0, slotHashes.length, []⟩ := by
    refine ⟨Nat.zero_le _, .nil, fun _ no => (nomatch no), fun _ no => (nomatch no), fun hm l ha => ?_⟩
    rw [length_eq_zero_iff.mp hm.symm] at ha
    cases ha
  have hc := loop_ok hg hl
  obtain ⟨-, hd, hb, hk, hi⟩ := hc
  obtain ⟨he, h, ht, hs⟩ := hi hf last ha hy
  rw [hf] at hb
  rw [hf, take_length] at hk he
  rw [popFiltered_ok hd hb] at hp
  cases hp
  rw [ht] at hh
  exact ⟨hk, last, he, hn, h, mem_of_getElem? ht, hs, some.inj hh⟩

lemma checkAndFilter_ok (h : s.checkAndFilterProposedVoteState slotHashes p = .ok (lockouts, root)) :
    Filtered s slotHashes p lockouts := by
  unfold VoteState.checkAndFilterProposedVoteState at h
  split at h
  · cases h
  rename_i last ht
  split at h
  · cases h
  rename_i hn
  split at h
  · cases h
  rename_i oldest hb
  split at h
  · cases h
  rename_i hy
  refine filterProposed_ok ht (fun v hm => ?_) (Fin.not_lt.mp hy) h
  rw [mem_def.mp hm] at hn
  exact Fin.not_le.mp (by simpa using hn)

end Firebam.VoteProgram
