import Firebam.Tower.Basic

/-! The votes of a tower as a stack: what expires, what doubles and what is rooted. -/
namespace Firebam.Choreo
open Lib List

variable {votes below pushed : List Vote} {slot n : Nat} {root : Option Nat}

/-- What fd_tower_verify checks, newest vote first, and the bounds of the confirmation counts. -/
structure Stacked (votes : List Vote) : Prop where
  slots : votes.Pairwise fun newer older => older.slot < newer.slot
  confs : votes.Pairwise fun newer older => newer.conf < older.conf
  low : ∀ vote ∈ votes, 1 ≤ vote.conf
  high : ∀ vote ∈ votes, vote.conf ≤ voteMax
  few : votes.length ≤ voteMax

lemma Stacked.nil : Stacked [] :=
  ⟨.nil, .nil, forall_mem_nil _, forall_mem_nil _, Nat.zero_le _⟩

lemma Stacked.sublist {fewer : List Vote} (hs : Stacked votes) (hu : fewer.Sublist votes) : Stacked fewer :=
  ⟨hs.slots.sublist hu, hs.confs.sublist hu, fun v m => hs.low v (hu.subset m),
    fun v m => hs.high v (hu.subset m), le_trans hu.length_le hs.few⟩

lemma simulateVote_sublist (votes : List Vote) (slot : Nat) : (simulateVote votes slot).Sublist votes :=
  (dropWhile_suffix _).sublist

lemma doubled_slots (n : Nat) (votes : List Vote) : (doubled n votes).map Vote.slot = votes.map Vote.slot := by
  induction votes generalizing n with
  | nil => rfl
  | cons vote older ih =>
    unfold doubled
    split
    · simp only [map_cons, ih]
    · rfl

lemma doubled_length (n : Nat) (votes : List Vote) : (doubled n votes).length = votes.length := by
  have hs := congrArg List.length (doubled_slots n votes)
  simpa using hs

lemma doubled_confs (hc : votes.Pairwise fun newer older => newer.conf < older.conf)
    (hl : ∀ vote ∈ votes, n + 1 ≤ vote.conf) :
    (doubled n votes).Pairwise (fun newer older => newer.conf < older.conf) ∧
      ∀ vote ∈ doubled n votes, n + 2 ≤ vote.conf := by
  induction votes generalizing n with
  | nil => exact ⟨.nil, forall_mem_nil _⟩
  | cons vote older ih =>
    obtain ⟨hf, hr⟩ := pairwise_cons.mp hc
    have hh := hl vote (.head _)
    unfold doubled
    split
    · rename_i he
      have ha : ∀ v ∈ older, n + 1 + 1 ≤ v.conf := by
        intro v m
        have := hf v m
        omega
      obtain ⟨hs, hb⟩ := ih hr ha
      refine ⟨pairwise_cons.mpr ⟨?_, hs⟩, ?_⟩
      · intro v m
        have := hb v m
        simp only
        omega
      · intro v m
        rcases mem_cons.mp m with rfl | m
        · simp only
          omega
        · have := hb v m
          omega
    · rename_i hg
      refine ⟨hc, ?_⟩
      intro v m
      rcases mem_cons.mp m with rfl | m
      · omega
      · have := hf v m
        omega

lemma doubled_high {top : Nat} (hh : ∀ vote ∈ votes, vote.conf ≤ top) (hr : n + votes.length + 1 ≤ top) :
    ∀ vote ∈ doubled n votes, vote.conf ≤ top := by
  induction votes generalizing n with
  | nil => exact forall_mem_nil _
  | cons vote older ih =>
    have hl : (vote :: older).length = older.length + 1 := rfl
    unfold doubled
    split_ifs with he
    · intro v m
      rcases mem_cons.mp m with rfl | m
      · simp only
        omega
      · exact ih (fun v m => hh v (.tail _ m)) (by omega) v m
    · exact hh

lemma conf_getLast {vote : Vote} (hc : votes.Pairwise fun newer older => newer.conf < older.conf)
    (hw : ∀ vote ∈ votes, n + 1 ≤ vote.conf) (hl : votes.getLast? = some vote) : n + votes.length ≤ vote.conf := by
  induction votes generalizing n with
  | nil => simp at hl
  | cons first older ih =>
    obtain ⟨hb, hr⟩ := pairwise_cons.mp hc
    have hh := hw first (.head _)
    cases older with
    | nil =>
      cases hl
      exact hh
    | cons second older =>
      have ha : ∀ v ∈ second :: older, n + 1 + 1 ≤ v.conf := by
        intro v m
        have := hb v m
        omega
      have ho := ih hr ha (by simpa using hl)
      simp only [length_cons] at ho ⊢
      omega

def Pushed (votes : List Vote) (slot : Nat) (below : List Vote) : Option Nat → Prop
  | none => below = simulateVote votes slot ∧ below.length ≠ voteMax
  | some r => below.length + 1 = voteMax ∧ ∃ vote : Vote, vote.slot = r ∧ simulateVote votes slot = below ++ [vote]

lemma Pushed.sublist (h : Pushed votes slot below root) : below.Sublist (simulateVote votes slot) := by
  cases root with
  | none => exact h.1 ▸ List.Sublist.refl _
  | some r =>
    obtain ⟨-, vote, -, hp⟩ := h
    exact hp ▸ sublist_append_left _ _

lemma pushVote_ok (hs : votes.Pairwise fun newer older => older.slot < newer.slot)
    (h : pushVote votes slot = .ok (pushed, root)) :
    (∀ vote ∈ votes, vote.slot < slot) ∧ ∃ below, Pushed votes slot below root ∧
      pushed = ⟨slot, 1⟩ :: doubled 0 below := by
  obtain ⟨newer, h⟩ := check_ok.mp h
  have ha : ∀ vote ∈ votes, vote.slot < slot := by
    cases votes with
    | nil => exact forall_mem_nil _
    | cons last older =>
      have ht := newer last rfl
      intro vote m
      rcases mem_cons.mp m with rfl | m
      · exact ht
      · exact lt_trans ((pairwise_cons.mp hs).1 vote m) ht
  refine ⟨ha, ?_⟩
  dsimp only at h
  split at h
  · rename_i hf
    cases h
    have hn : simulateVote votes slot ≠ [] := by
      intro ho
      rw [ho] at hf
      exact absurd hf (by decide)
    refine ⟨(simulateVote votes slot).dropLast, ?_, rfl⟩
    rw [getLast?_eq_getLast_of_ne_nil hn]
    refine ⟨?_, _, rfl, (dropLast_append_getLast hn).symm⟩
    rw [length_dropLast, hf]
    decide
  · rename_i hr
    cases h
    exact ⟨_, ⟨rfl, hr⟩, rfl⟩

lemma Stacked.room (hs : Stacked votes) (h : Pushed votes slot below root) : below.length < voteMax := by
  cases root with
  | none =>
    obtain ⟨rfl, hf⟩ := h
    exact lt_of_le_of_ne (hs.sublist (simulateVote_sublist votes slot)).few hf
  | some r =>
    have hu := h.1
    omega

lemma Stacked.rooted {r : Nat} (hs : Stacked votes) (h : Pushed votes slot below (some r)) :
    ∃ vote : Vote, vote.slot = r ∧ vote.conf = voteMax ∧ simulateVote votes slot = below ++ [vote] := by
  obtain ⟨hf, vote, hn, hp⟩ := h
  have hk := hs.sublist (simulateVote_sublist votes slot)
  have hl : (simulateVote votes slot).getLast? = some vote := by
    rw [hp]
    exact getLast?_concat
  have hc := conf_getLast (n := 0) hk.confs hk.low hl
  have hb := hk.high vote (mem_of_getLast? hl)
  rw [hp, length_append, length_singleton] at hc
  exact ⟨vote, hn, by omega, hp⟩

lemma Stacked.push (ht : Stacked votes) (ha : ∀ vote ∈ votes, vote.slot < slot)
    (hu : below.Sublist votes) (hr : below.length < voteMax) : Stacked (⟨slot, 1⟩ :: doubled 0 below) := by
  have he := ht.sublist hu
  obtain ⟨hc, hw⟩ := doubled_confs (n := 0) he.confs he.low
  have hm : ∀ vote ∈ doubled 0 below, ∃ old ∈ below, old.slot = vote.slot := by
    intro vote m
    have hl := mem_map_of_mem (f := Vote.slot) m
    rw [doubled_slots] at hl
    exact mem_map.mp hl
  have ho : (doubled 0 below).Pairwise fun newer older => older.slot < newer.slot := by
    have hl : ((doubled 0 below).map Vote.slot).Pairwise fun newer older => older < newer := by
      rw [doubled_slots]
      exact pairwise_map.mpr he.slots
    exact pairwise_map.mp hl
  refine ⟨pairwise_cons.mpr ⟨?_, ho⟩, pairwise_cons.mpr ⟨?_, hc⟩, ?_, ?_, ?_⟩
  · intro vote m
    obtain ⟨old, hi, hs⟩ := hm vote m
    rw [← hs]
    exact ha old (hu.subset hi)
  · intro vote m
    exact hw vote m
  · intro vote m
    rcases mem_cons.mp m with rfl | m
    · exact le_refl 1
    · exact Nat.le_of_succ_le (hw vote m)
  · intro vote m
    rcases mem_cons.mp m with rfl | m
    · exact Nat.le_of_ble_eq_true rfl
    · exact doubled_high he.high (by omega) vote m
  · rw [length_cons, doubled_length]
    exact hr

end Firebam.Choreo
