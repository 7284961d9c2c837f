import Firebam.Tower.Stack
import Firebam.VoteProgram.Proposal

/-! The stack of votes of the tower and that of the vote program. -/
namespace Firebam.VoteProgram
open Lib List LandedVote VoteState
open Firebam.Choreo (Vote Stacked Pushed simulateVote doubled pushVote voteMax)

variable {s t : VoteState} {currentSlot : Slot} {epoch n : Nat} {votes' below l l' : List Vote} {new : Option Nat}
  {v : Vote} {c : Cast} {cs more : List Cast} {α : Type}

local instance neZeroSlot : NeZero (2 ^ 64) := inferInstance

section

def LandedVote.vote (v : LandedVote) : Vote := ⟨v.slot.val, v.lockout.confirmationCount⟩

def stack (votes : List LandedVote) : List Vote := (votes.map vote).reverse

variable {votes : List LandedVote} {slot : Slot}

lemma mem_stack : v ∈ stack votes ↔ ∃ w ∈ votes, w.vote = v := by
  unfold stack
  rw [mem_reverse, mem_map]

lemma stack_concat (votes : List LandedVote) (v : LandedVote) : stack (votes ++ [v]) = v.vote :: stack votes := by
  unfold stack
  rw [map_append, reverse_append]
  rfl

lemma expires_iff {v : LandedVote} (hh : v.lockout.confirmationCount ≤ maxLockoutHistory) (lt : v.slot < slot)
    (hr : slot.val + 2 ^ 31 < 2 ^ 64) :
    decide (v.vote.expirationSlot < slot.val) = !v.lockout.isLockedOutAtSlot slot := by
  have hp : 2 ^ v.lockout.confirmationCount ≤ 2 ^ 31 := Nat.pow_le_pow_right (by decide) hh
  have hb : v.lockout.slot.val < slot.val := lt
  have hf : v.lockout.slot.val + 2 ^ v.lockout.confirmationCount < 2 ^ 64 := by omega
  have hu : v.vote.expirationSlot = v.lockout.slot.val + 2 ^ v.lockout.confirmationCount := Nat.mod_eq_of_lt hf
  have hs : v.lockout.lastLockedOutSlot = v.lockout.slot.val + 2 ^ v.lockout.confirmationCount := by
    unfold Lockout.lastLockedOutSlot Lockout.getLockout satAdd
    rw [min_eq_left hh]
    omega
  unfold Lockout.isLockedOutAtSlot
  rw [hu, hs, Bool.eq_iff_iff]
  simp

lemma dropWhile_congr {p q : α → Bool} {l : List α} (hs : ∀ a ∈ l, p a = q a) : l.dropWhile p = l.dropWhile q := by
  induction l with
  | nil => rfl
  | cons a rest ih =>
    obtain ⟨hn, hl⟩ := forall_mem_cons.mp hs
    rw [dropWhile_cons, dropWhile_cons, hn, ih hl]

lemma stack_popExpired (hh : ∀ v ∈ votes, v.lockout.confirmationCount ≤ maxLockoutHistory)
    (hn : ∀ v ∈ votes, v.slot < slot) (hr : slot.val + 2 ^ 31 < 2 ^ 64) :
    stack (popExpiredVotes votes slot) = simulateVote (stack votes) slot.val := by
  unfold stack popExpiredVotes simulateVote
  rw [← map_reverse, reverse_reverse, ← map_reverse, dropWhile_map]
  refine congrArg (List.map vote) (dropWhile_congr fun v hx => ?_)
  have m := mem_reverse.mp hx
  exact (expires_iff (hh v m) (hn v m) hr).symm

section
variable (hc : l.Pairwise fun newer older => newer.conf < older.conf)
include hc

lemma raise_eq_self (hl : ∀ v ∈ l, n + 2 ≤ v.conf) :
    l.mapIdx (fun i v => if v.conf ≤ n + i + 1 then (⟨v.slot, v.conf + 1⟩ : Vote) else v) = l := by
  induction l generalizing n with
  | nil => rfl
  | cons v older ih =>
    obtain ⟨hf, hc⟩ := pairwise_cons.mp hc
    have hh := hl v (.head _)
    have hr := ih (n := n + 1) hc fun w hx => by
      have := hf w hx
      omega
    rw [mapIdx_cons, if_neg (by omega)]
    refine congrArg _ (Eq.trans ?_ hr)
    refine congrArg (fun f => List.mapIdx f older) ?_
    funext i w
    rw [add_right_comm n 1 i, add_assoc n i 1]

lemma doubled_eq_raise (hw : ∀ v ∈ l, n + 1 ≤ v.conf) :
    doubled n l = l.mapIdx fun i v => if v.conf ≤ n + i + 1 then (⟨v.slot, v.conf + 1⟩ : Vote) else v := by
  induction l generalizing n with
  | nil => rfl
  | cons v older ih =>
    obtain ⟨hf, ho⟩ := pairwise_cons.mp hc
    have hh := hw v (.head _)
    unfold doubled
    split
    · rename_i hn
      have hr := ih (n := n + 1) ho fun w hx => by
        have := hf w hx
        omega
      rw [mapIdx_cons, if_pos (by omega), hr]
      refine congrArg _ (congrArg (fun f => List.mapIdx f older) ?_)
      funext i w
      rw [add_right_comm n 1 i, add_assoc n i 1]
    · rename_i hg
      refine (raise_eq_self hc fun w hx => ?_).symm
      rcases mem_cons.mp hx with rfl | hl
      · omega
      · have := hf w hl
        omega

end

lemma stack_doubleLockouts {landed : LandedVote} (hf : landed.lockout.confirmationCount = 0)
    (ht : Stacked (stack votes)) :
    stack (doubleLockouts (votes ++ [landed])) = ⟨landed.slot.val, 1⟩ :: doubled 0 (stack votes) := by
  have hl : (votes ++ [landed]).length = votes.length + 1 := length_append
  unfold doubleLockouts
  rw [mapIdx_concat, stack_concat, hl]
  refine congrArg₂ List.cons ?_ ?_
  · rw [hf, if_pos (Nat.lt_succ_self _)]
    simp [vote, Lockout.increaseConfirmationCount, slot, hf]
  · rw [doubled_eq_raise ht.confs ht.low]
    unfold stack
    rw [mapIdx_reverse]
    refine congrArg List.reverse (ext_getElem (by simp) fun i hs _ => ?_)
    have hx : i < votes.length := by simpa using hs
    have hh := ht.high _ (mem_stack.mpr ⟨votes.get ⟨i, hx⟩, get_mem _ _, rfl⟩)
    simp only [get_eq_getElem, length_map, getElem_map, getElem_mapIdx, vote] at hh ⊢
    have hb : votes[i].lockout.confirmationCount ≤ 31 := hh
    by_cases hn : i + votes[i].lockout.confirmationCount < votes.length + 1
    · rw [if_pos hn, if_pos (by omega)]
      simp only [Lockout.increaseConfirmationCount, slot, Vote.mk.injEq, true_and]
      omega
    · rw [if_neg hn, if_neg (by omega)]

end

section
variable {slot : Slot}

lemma next_agrees (hd : Stacked (stack s.votes)) (hn : ∀ v ∈ s.votes, v.slot < slot) (hr : slot.val + 2 ^ 31 < 2 ^ 64) :
    ∃ root, pushVote (stack s.votes) slot.val = .ok (stack (s.processNextVoteSlot slot epoch currentSlot).votes, root) ∧
      (s.processNextVoteSlot slot epoch currentSlot).rootSlot.map Fin.val = root.or (s.rootSlot.map Fin.val) := by
  have hh : ∀ v ∈ s.votes, v.lockout.confirmationCount ≤ maxLockoutHistory := fun v hx =>
    hd.high _ (mem_stack.mpr ⟨v, hx, rfl⟩)
  have hl : s.votes.getLast?.any (fun v => decide (slot ≤ v.slot)) = false := by
    cases hc : s.votes.getLast? with
    | none => rfl
    | some v => exact decide_eq_false (Fin.not_le.mpr (hn v (mem_of_getLast? hc)))
  have ha : ∀ vote ∈ (stack s.votes).head?, vote.slot < slot.val := by
    intro vote hx
    obtain ⟨v, ht, rfl⟩ := mem_stack.mp (mem_of_head? hx)
    exact hn v ht
  have ho := stack_popExpired hh hn hr
  have hk : Stacked (stack (popExpiredVotes s.votes slot)) := by
    rw [ho]
    exact hd.sublist (Choreo.simulateVote_sublist _ _)
  unfold pushVote processNextVoteSlot
  rw [check_of _ ha, ← ho, hl]
  simp only [Bool.false_eq_true, if_false]
  cases hp : popExpiredVotes s.votes slot with
  | nil => exact ⟨none, rfl, by simp⟩
  | cons oldest later =>
    rw [hp] at hk
    have he : (stack (oldest :: later)).length = (oldest :: later).length := by simp [stack]
    have hs : stack (oldest :: later) = stack later ++ [oldest.vote] := by simp [stack]
    have hi : voteMax = maxLockoutHistory := rfl
    dsimp only
    rw [he, hi]
    by_cases hf : (oldest :: later).length = maxLockoutHistory
    · rw [if_pos hf, if_pos hf]
      have hb : Stacked (stack later) := hk.sublist (hs ▸ sublist_append_left _ _)
      refine ⟨some oldest.slot.val, ?_, rfl⟩
      rw [stack_doubleLockouts rfl hb, hs, dropLast_concat, getLast?_concat]
      rfl
    · rw [if_neg hf, if_neg hf]
      refine ⟨none, ?_, by simp⟩
      rw [stack_doubleLockouts rfl hk]
      rfl

end

section
variable {votes : List Vote} {root : Option Nat} {slot : Nat}

structure Firm (votes : List Vote) (root : Option Nat) : Prop where
  stacked : Stacked votes
  reach : votes.IsChain fun newer older => newer.slot ≤ older.slot + 2 ^ older.conf
  above : ∀ r ∈ root, ∀ v ∈ votes, r < v.slot

def Grows (v w : Vote) : Prop := w.slot = v.slot ∧ v.conf ≤ w.conf

lemma doubled_grows (n : Nat) (l : List Vote) : List.Forall₂ Grows l (doubled n l) := by
  induction l generalizing n with
  | nil => exact .nil
  | cons v older ih =>
    unfold doubled
    split
    · exact .cons ⟨rfl, Nat.le_succ _⟩ (ih _)
    · exact forall₂_same.mpr fun _ _ => ⟨rfl, le_refl _⟩

lemma exists_grown (hs : List.Forall₂ Grows l l') (hx : v ∈ l) : ∃ w ∈ l', Grows v w := by
  induction hs with
  | nil => cases hx
  | cons hf hr ih =>
    rcases mem_cons.mp hx with rfl | m
    · exact ⟨_, .head _, hf⟩
    · obtain ⟨w, ht, hg⟩ := ih m
      exact ⟨w, .tail _ ht, hg⟩

lemma slot_of_doubled {w : Vote} (hx : w ∈ doubled n l) : ∃ v ∈ l, w.slot = v.slot := by
  have hl := mem_map_of_mem (f := Vote.slot) hx
  rw [Choreo.doubled_slots] at hl
  obtain ⟨v, ht, hs⟩ := mem_map.mp hl
  exact ⟨v, ht, hs.symm⟩

lemma reach_grows (hg : List.Forall₂ Grows l l')
    (he : l.IsChain fun newer older => newer.slot ≤ older.slot + 2 ^ older.conf) :
    l'.IsChain fun newer older => newer.slot ≤ older.slot + 2 ^ older.conf := by
  induction hg with
  | nil => exact .nil
  | cons hf hr ih =>
    cases hr with
    | nil => exact .singleton _
    | cons hs hm =>
      obtain ⟨hn, he⟩ := isChain_cons_cons.mp he
      refine isChain_cons_cons.mpr ⟨?_, ih he⟩
      have hp := Nat.pow_le_pow_right (show 0 < 2 by decide) hs.2
      rw [hf.1, hs.1]
      omega

lemma expired_iff (hh : v.conf ≤ voteMax) (lt : v.slot < slot) (hr : slot + 2 ^ 31 < 2 ^ 64) :
    v.expirationSlot < slot ↔ v.slot + 2 ^ v.conf < slot := by
  have hp : 2 ^ v.conf ≤ 2 ^ 31 := Nat.pow_le_pow_right (by decide) hh
  have hs : v.expirationSlot = v.slot + 2 ^ v.conf := Nat.mod_eq_of_lt (by omega)
  rw [hs]

lemma Pushed.isPrefix (hp : Pushed votes slot below new) : below <+: simulateVote votes slot := by
  cases new with
  | none => exact hp.1 ▸ prefix_refl _
  | some r =>
    obtain ⟨-, vote, -, ha⟩ := hp
    exact ha ▸ prefix_append _ _

lemma Pushed.root_mem {r : Nat} (hp : Pushed votes slot below (some r)) : ∃ vote ∈ votes, vote.slot = r := by
  obtain ⟨-, vote, hn, ha⟩ := hp
  refine ⟨vote, (Choreo.simulateVote_sublist votes slot).subset ?_, hn⟩
  rw [ha]
  exact mem_append_right _ (mem_singleton_self vote)

lemma Firm.push (hf : Firm votes root) (hd : ∀ r ∈ root, r < slot) (hm : slot + 2 ^ 31 < 2 ^ 64)
    (h : pushVote votes slot = .ok (votes', new)) :
    Firm votes' (new.or root) ∧ ∀ r ∈ root, ∃ r' ∈ new.or root, r ≤ r' := by
  obtain ⟨newer, below, hp, rfl⟩ := Choreo.pushVote_ok hf.stacked.slots h
  have hu : below.Sublist votes := hp.sublist.trans (Choreo.simulateVote_sublist _ _)
  obtain ⟨above, hk⟩ := Pushed.isPrefix hp
  have hc : (simulateVote votes slot).IsChain fun newer older => newer.slot ≤ older.slot + 2 ^ older.conf :=
    hf.reach.suffix (dropWhile_suffix _)
  have hr := doubled_grows 0 below
  refine ⟨⟨hf.stacked.push newer hu (hf.stacked.room hp), ?_, fun r hx w ht => ?_⟩, fun r hx => ?_⟩
  · have he := reach_grows hr (hk ▸ hc).left_of_append
    cases hg : doubled 0 below with
    | nil => exact .singleton _
    | cons w more =>
      rw [hg] at he hr
      refine isChain_cons_cons.mpr ⟨?_, he⟩
      obtain ⟨v, older, hw, -, hh⟩ := forall₂_cons_right_iff.mp hr
      have hj : (simulateVote votes slot).head? = some v := by
        obtain ⟨more, eq⟩ := Pushed.isPrefix hp
        rw [← eq, hh]
        rfl
      have hl := head?_dropWhile_not (fun vote : Vote => decide (vote.expirationSlot < slot)) votes
      have m : v ∈ votes := hu.subset (hh ▸ .head _)
      unfold simulateVote at hj
      rw [hj] at hl
      have hn := (expired_iff (hf.stacked.high v m) (newer v m) hm).not.mp (of_decide_eq_false hl)
      have ho := Nat.pow_le_pow_right (show 0 < 2 by decide) hw.2
      rw [hw.1]
      dsimp only
      omega
  · cases new with
    | none =>
      rcases mem_cons.mp ht with rfl | m
      · exact hd r hx
      · obtain ⟨v, ha, hs⟩ := slot_of_doubled m
        exact hs ▸ hf.above r hx v (hu.subset ha)
    | some r' =>
      obtain rfl : r' = r := Option.some.inj hx
      obtain ⟨-, vote, rfl, hh⟩ := hp
      have hi := hf.stacked.slots.sublist (Choreo.simulateVote_sublist votes slot)
      rw [hh] at hi
      have hb : vote ∈ votes := (Choreo.simulateVote_sublist votes slot).subset (by rw [hh]; simp)
      rcases mem_cons.mp ht with rfl | m
      · exact newer vote hb
      · obtain ⟨v, ha, hs⟩ := slot_of_doubled m
        exact hs ▸ (pairwise_append.mp hi).2.2 v ha vote (mem_singleton_self vote)
  · cases new with
    | none => exact ⟨r, hx, le_refl r⟩
    | some r' =>
      obtain ⟨vote, ht, rfl⟩ := Pushed.root_mem hp
      exact ⟨vote.slot, rfl, le_of_lt (hf.above r hx vote ht)⟩

inductive Covered (v : Vote) (votes : List Vote) (root : Option Nat) : Prop where
  | rooted (r : Nat) (set : root = some r) (le : v.slot ≤ r)
  | kept (w : Vote) (mem : w ∈ votes) (grows : Grows v w)
  | gone (past : ∀ w ∈ votes, v.slot ≤ w.slot → v.slot + 2 ^ v.conf < w.slot)
      (last : ∃ w ∈ votes, v.slot + 2 ^ v.conf < w.slot)

lemma Firm.expired (hi : Firm votes root) (hn : ∀ v ∈ votes, v.slot < slot) (hr : slot + 2 ^ 31 < 2 ^ 64)
    (hx : v ∈ votes) (hu : v ∉ simulateVote votes slot) :
    v.slot + 2 ^ v.conf < slot ∧ ∀ w ∈ simulateVote votes slot, w.slot < v.slot := by
  have hp : votes.takeWhile _ ++ simulateVote votes slot = votes := takeWhile_append_dropWhile
  have hf : v ∈ votes.takeWhile fun vote => decide (vote.expirationSlot < slot) := by
    rw [← hp] at hx
    exact (mem_append.mp hx).resolve_right hu
  have ht := mem_takeWhile_imp hf
  have he : v.expirationSlot < slot := of_decide_eq_true ht
  have ho := hi.stacked.slots
  rw [← hp] at ho
  refine ⟨(expired_iff (hi.stacked.high v hx) (hn v hx) hr).mp he, fun w m => ?_⟩
  exact (pairwise_append.mp ho).2.2 v hf w m

lemma Covered.push (hj : Firm votes root) (hr : slot + 2 ^ 31 < 2 ^ 64)
    (h : pushVote votes slot = .ok (votes', new)) (hc : Covered v votes root) : Covered v votes' (new.or root) := by
  obtain ⟨he, below, hp, rfl⟩ := Choreo.pushVote_ok hj.stacked.slots h
  have hu : below.Sublist votes := hp.sublist.trans (Choreo.simulateVote_sublist _ _)
  cases hc with
  | rooted r set le =>
    subst set
    cases new with
    | none => exact .rooted r rfl le
    | some r' =>
      obtain ⟨vote, ht, rfl⟩ := Pushed.root_mem hp
      exact .rooted vote.slot rfl (le_trans le (le_of_lt (hj.above r rfl vote ht)))
  | kept w hx hg =>
    by_cases hh : w ∈ simulateVote votes slot
    · have hf : ∀ {w}, w ∈ below → Grows v w → Covered v (⟨slot, 1⟩ :: doubled 0 below) (new.or root) := by
        intro w m hg
        obtain ⟨w', ht, hk⟩ := exists_grown (doubled_grows 0 below) m
        exact .kept w' (.tail _ ht) ⟨hk.1.trans hg.1, le_trans hg.2 hk.2⟩
      cases new with
      | none => exact hf (hp.1 ▸ hh) hg
      | some r =>
        obtain ⟨-, vote, hn, ha⟩ := hp
        rw [ha] at hh
        rcases mem_concat.mp hh with m | hm
        · exact hf m hg
        · rw [hm] at hg
          exact .rooted r rfl (le_of_eq (hg.1.symm.trans hn))
    · obtain ⟨hq, hd⟩ := hj.expired he hr hx hh
      have ho := Nat.pow_le_pow_right (show 0 < 2 by decide) hg.2
      have hb : v.slot + 2 ^ v.conf < slot := by
        rw [← hg.1]
        omega
      refine .gone (forall_mem_cons.mpr ⟨fun _ => hb, fun u ht le => ?_⟩) ⟨⟨slot, 1⟩, .head _, hb⟩
      obtain ⟨u', m, hs⟩ := slot_of_doubled ht
      have hl := hd u' (hp.sublist.subset m)
      rw [hg.1, ← hs] at hl
      exact absurd hl (not_lt.mpr le)
  | gone hq hv =>
    obtain ⟨w, hx, hb⟩ := hv
    have hi : v.slot + 2 ^ v.conf < slot := lt_trans hb (he w hx)
    refine .gone (forall_mem_cons.mpr ⟨fun _ => hi, fun u ht le => ?_⟩) ⟨⟨slot, 1⟩, .head _, hi⟩
    obtain ⟨u', m, hs⟩ := slot_of_doubled ht
    rw [hs] at le ⊢
    exact hq u' (hu.subset m) le

end

section
variable {root : Option Slot} {votes : List LandedVote}

lemma isChain_and {R S : α → α → Prop} {l : List α} (left : l.IsChain R) (hi : l.IsChain S) :
    l.IsChain fun a b => R a b ∧ S a b := by
  induction left with
  | nil => exact .nil
  | singleton a => exact .singleton a
  | cons_cons hf hr ih =>
    obtain ⟨hn, hi⟩ := isChain_cons_cons.mp hi
    exact .cons_cons ⟨hf, hn⟩ (ih hi)

lemma chain_stack {R : Vote → Vote → Prop} :
    (stack votes).IsChain R ↔ votes.IsChain fun older newer => R newer.vote older.vote := by
  unfold stack
  rw [isChain_reverse, isChain_map]

lemma VoteState.Formed.stacked (hd : s.Formed) : Stacked (stack s.votes) where
  slots := by
    have ho : s.votes.Pairwise fun a b => a.slot < b.slot := sorted_of_follows hd.follows
    exact pairwise_reverse.mpr (pairwise_map.mpr ho)
  confs := by
    have hr : IsTrans Lockout fun a b => b.confirmationCount < a.confirmationCount :=
      ⟨fun _ _ _ hf hs => lt_trans hs hf⟩
    have hc := hd.follows.imp fun _ _ hn => hn.conf
    have ho := (pairwise_map (f := lockout)).mp (isChain_iff_pairwise.mp hc)
    exact pairwise_reverse.mpr (pairwise_map.mpr ho)
  low := fun v hx => by
    obtain ⟨w, ht, rfl⟩ := mem_stack.mp hx
    exact (hd.stands w ht).low
  high := fun v hx => by
    obtain ⟨w, ht, rfl⟩ := mem_stack.mp hx
    exact (hd.stands w ht).high
  few := by
    unfold stack
    rw [length_reverse, length_map]
    exact hd.few

lemma VoteState.Valid.firm (hv : s.Valid) : Firm (stack s.votes) (s.rootSlot.map Fin.val) where
  stacked := hv.toFormed.stacked
  reach := by
    have hc : s.votes.IsChain fun a b => Follows a.lockout b.lockout :=
      (isChain_map lockout).mp hv.follows
    have hh : ∀ v ∈ s.votes, v.lockout.confirmationCount ≤ maxLockoutHistory := fun v hx => (hv.stands v hx).high
    refine chain_stack.mpr (hc.imp_of_mem_imp fun older newer hx _ hn => ?_)
    have hl := hn.locked
    unfold Lockout.lastLockedOutSlot Lockout.getLockout satAdd at hl
    rw [min_eq_left (hh older hx)] at hl
    exact le_trans hl (min_le_left _ _)
  above := fun r hx v ht => by
    obtain ⟨root, set, rfl⟩ := Option.map_eq_some_iff.mp hx
    obtain ⟨w, m, rfl⟩ := mem_stack.mp ht
    exact hv.above root set w m

lemma Firm.checked (hi : Firm (stack votes) (root.map Fin.val)) :
    (∀ v ∈ votes, Stands root v.lockout) ∧ (lockouts votes).IsChain Follows := by
  constructor
  · intro v hx
    have ht := mem_stack.mpr ⟨v, hx, rfl⟩
    refine ⟨hi.stacked.low _ ht, hi.stacked.high _ ht, fun r set _ => ?_⟩
    exact hi.above r.val (Option.map_eq_some_iff.mpr ⟨r, set, rfl⟩) _ ht
  · have hs := chain_stack.mp hi.stacked.slots.isChain
    have hc := chain_stack.mp hi.stacked.confs.isChain
    have hr := chain_stack.mp hi.reach
    refine (isChain_map lockout).mpr ?_
    refine (isChain_and hs (isChain_and hc hr)).imp_of_mem_imp fun older newer hx _ hb => ?_
    obtain ⟨ho, hf, hl⟩ := hb
    refine ⟨ho, hf, ?_⟩
    have hh : older.lockout.confirmationCount ≤ maxLockoutHistory :=
      hi.stacked.high _ (mem_stack.mpr ⟨older, hx, rfl⟩)
    have hp := newer.lockout.slot.isLt
    unfold Lockout.lastLockedOutSlot Lockout.getLockout satAdd
    rw [min_eq_left hh]
    exact Nat.le_min.mpr ⟨hl, by omega⟩

lemma above_of_mem_drop {v : LandedVote} (hs : votes.Pairwise fun a b => a.slot < b.slot)
    (hx : v ∈ votes.drop (rootedCount votes root)) : ∀ r ∈ root, r < v.slot := by
  intro r set
  obtain rfl : root = some r := set
  induction votes with
  | nil => simp at hx
  | cons first rest ih =>
    obtain ⟨ho, hs⟩ := pairwise_cons.mp hs
    by_cases le : first.slot ≤ r
    · have hc : rootedCount (first :: rest) (some r) = rootedCount rest (some r) + 1 := by simp [rootedCount, le]
      rw [hc, drop_succ_cons] at hx
      exact ih hs hx
    · have hc : rootedCount (first :: rest) (some r) = 0 := by simp [rootedCount, le]
      rw [hc] at hx
      rcases mem_cons.mp hx with rfl | hl
      · exact Fin.not_le.mp le
      · exact Fin.lt_trans (Fin.not_le.mp le) (ho v hl)

lemma Covered.keeps {v : LandedVote} (ha : ∀ r ∈ root, r < v.slot)
    (hc : Covered v.vote (stack votes) (root.map Fin.val)) : Keeps (lockouts votes) v.lockout := by
  cases hc with
  | rooted r set le =>
    obtain ⟨r', hs, rfl⟩ := Option.map_eq_some_iff.mp set
    exact absurd (ha r' hs) (Fin.not_lt.mpr le)
  | kept w hx hg =>
    obtain ⟨u, ht, rfl⟩ := mem_stack.mp hx
    exact .inl ⟨u.lockout, mem_map_of_mem ht, Fin.ext hg.1, hg.2⟩
  | gone hp hl =>
    refine .inr fun l hx le => ?_
    obtain ⟨u, ht, rfl⟩ := mem_map.mp hx
    exact hp u.vote (mem_stack.mpr ⟨u, ht, rfl⟩) le

def landed (votes : List Vote) : List LandedVote := votes.reverse.map fun v => ⟨0, ⟨Fin.ofNat (2 ^ 64) v.slot, v.conf⟩⟩

lemma landed_stack (votes : List LandedVote) : landed (stack votes) = (lockouts votes).map fun l => ⟨0, l⟩ := by
  unfold landed stack lockouts
  rw [reverse_reverse, map_map, map_map]
  refine map_congr_left fun v _ => ?_
  simp [vote, slot]

lemma accepts_of_covered (he : Firm (stack s.votes) (s.rootSlot.map Fin.val))
    (hi : Firm (stack votes) (root.map Fin.val)) (hn : votes ≠ []) (ho : ∀ r ∈ s.rootSlot, ∃ r' ∈ root, r ≤ r')
    (hv : ∀ v ∈ s.votes, Covered v.vote (stack votes) (root.map Fin.val)) :
    ∃ s', s.processNewVoteState (landed (stack votes)) root none epoch currentSlot = .ok s' := by
  rw [landed_stack]
  have hp : lockouts ((lockouts votes).map fun l => (⟨0, l⟩ : LandedVote)) = lockouts votes := by
    simp [lockouts, Function.comp_def]
  have hl : ((lockouts votes).map fun l => (⟨0, l⟩ : LandedVote)).length = (stack votes).length := by simp [lockouts, stack]
  have ha : ((lockouts votes).map fun l => (⟨0, l⟩ : LandedVote)) ≠ [] := by simpa [lockouts] using hn
  generalize hj : ((lockouts votes).map fun l => (⟨0, l⟩ : LandedVote)) = sent at hp hl ha ⊢
  obtain ⟨-, hf⟩ := he.checked
  obtain ⟨hb, hw⟩ := hi.checked
  have hs := sorted_of_follows hf
  rw [← hp] at hw
  have hc : checkVotes root none sent = .ok () := by
    refine checkVotes_iff.mpr ⟨fun v hx => ?_, hw⟩
    have m : v.lockout ∈ lockouts votes := hp ▸ mem_map_of_mem hx
    obtain ⟨w, ht, eq⟩ := mem_map.mp m
    exact eq ▸ hb w ht
  have hd : ∀ v ∈ s.votes.drop (rootedCount s.votes root), v ∈ s.votes := fun v => mem_of_mem_drop
  obtain ⟨merged, hm⟩ : ∃ merged, mergeVotes (s.votes.drop (rootedCount s.votes root)) sent = .ok merged :=
    mergeVotes_of_keeps (hs.sublist (drop_sublist _ _))
      (fun v hx => he.stacked.high _ (mem_stack.mpr ⟨v, hd v hx, rfl⟩)) (sorted_of_follows hw)
      fun v hx => hp ▸ (hv v (hd v hx)).keeps (above_of_mem_drop hs hx)
  have hr : (s.rootSlot.all fun r => root.any fun r' => decide (r ≤ r')) = true := by
    cases hg : s.rootSlot with
    | none => rfl
    | some r =>
      obtain ⟨r', set, le⟩ := ho r hg
      simp [Option.mem_def.mp set, le]
  unfold processNewVoteState
  rw [getLast?_eq_getLast_of_ne_nil ha]
  dsimp only
  rw [check_of _ (hl ▸ hi.stacked.few), check_of _ hr, hc]
  exact ⟨_, bind_ok.mpr ⟨(), rfl, bind_ok.mpr ⟨merged, hm, rfl⟩⟩⟩

end

structure Cast where
  slot : Slot
  epoch : Nat
  currentSlot : Slot

def VoteState.cast (s : VoteState) (c : Cast) : VoteState := s.processNextVoteSlot c.slot c.epoch c.currentSlot

def VoteState.casts (s : VoteState) (cs : List Cast) : VoteState := cs.foldl cast s

def towerStep (t : List Vote × Option Nat) (slot : Nat) : Except Choreo.Fault (List Vote × Option Nat) :=
  (pushVote t.1 slot).map fun pushed => (pushed.1, pushed.2.or t.2)

def VoteState.tower (s : VoteState) : List Vote × Option Nat := (stack s.votes, s.rootSlot.map Fin.val)

/-- A slot that can be voted for: above the votes and the root, and not among the last slots. -/
structure Votable (s : VoteState) (slot : Slot) : Prop where
  newer : ∀ v ∈ s.votes, v.slot < slot
  rooted : ∀ r ∈ s.rootSlot, r < slot
  room : slot.val + 2 ^ 31 < 2 ^ 64

structure Steps (s s' : VoteState) : Prop where
  firm : Firm s'.tower.1 s'.tower.2
  onward : ∀ r ∈ s.rootSlot, ∃ r' ∈ s'.rootSlot, r ≤ r'
  covered : ∀ v, Covered v s.tower.1 s.tower.2 → Covered v s'.tower.1 s'.tower.2

lemma Steps.trans {s' s'' : VoteState} (hf : Steps s s') (hs : Steps s' s'') : Steps s s'' := by
  refine ⟨hs.firm, fun r hx => ?_, fun v hn => hs.covered v (hf.covered v hn)⟩
  obtain ⟨r', he, le⟩ := hf.onward r hx
  obtain ⟨r'', hm, hl⟩ := hs.onward r' he
  exact ⟨r'', hm, Fin.le_trans le hl⟩

section
variable (hm : Firm s.tower.1 s.tower.2)
include hm

lemma cast_steps (hv : Votable s c.slot) :
    towerStep s.tower c.slot.val = .ok (s.cast c).tower ∧ Steps s (s.cast c) ∧
      (∃ older, (s.cast c).tower.1 = ⟨c.slot.val, 1⟩ :: older) ∧
      ∀ v ∈ (s.cast c).votes, v.slot = c.slot ∨ ∃ w ∈ s.votes, v.slot = w.slot := by
  obtain ⟨root, hp, set⟩ : ∃ root, pushVote s.tower.1 c.slot.val = .ok ((s.cast c).tower.1, root) ∧
      (s.cast c).tower.2 = root.or s.tower.2 := next_agrees hm.stacked hv.newer hv.room
  have hr : ∀ r ∈ s.tower.2, r < c.slot.val := by
    intro r hx
    obtain ⟨r', he, rfl⟩ := Option.map_eq_some_iff.mp hx
    exact hv.rooted r' he
  have h : towerStep s.tower c.slot.val = .ok (s.cast c).tower := by
    refine map_ok.mpr ⟨_, hp, ?_⟩
    exact Prod.ext rfl set.symm
  obtain ⟨hf, ho⟩ := hm.push hr hv.room hp
  obtain ⟨-, below, ha, hc⟩ := Choreo.pushVote_ok hm.stacked.slots hp
  have eq : root.or s.tower.2 = (s.cast c).tower.2 := set.symm
  refine ⟨h, ⟨eq ▸ hf, fun r hx => ?_, fun v hn => ?_⟩, ⟨_, hc⟩, fun v hx => ?_⟩
  · obtain ⟨r', hb, le⟩ := ho r.val (Option.map_eq_some_iff.mpr ⟨r, hx, rfl⟩)
    rw [eq] at hb
    obtain ⟨new, he, rfl⟩ := Option.map_eq_some_iff.mp hb
    exact ⟨new, he, le⟩
  · exact eq ▸ hn.push hm hv.room hp
  · have ht := mem_stack.mpr ⟨v, hx, rfl⟩
    have m : v.vote ∈ ⟨c.slot.val, 1⟩ :: doubled 0 below := hc ▸ ht
    rcases mem_cons.mp m with new | hl
    · exact .inl (Fin.ext (congrArg Vote.slot new))
    · obtain ⟨w, hw, hs⟩ := slot_of_doubled hl
      have hk := (ha.sublist.trans (Choreo.simulateVote_sublist _ _)).subset hw
      obtain ⟨u, hh, rfl⟩ := mem_stack.mp hk
      exact .inr ⟨u, hh, Fin.ext hs⟩

lemma Votable.cast {slot : Slot} (hv : Votable s c.slot) (lt : c.slot < slot)
    (next : Votable s slot) : Votable (s.cast c) slot := by
  obtain ⟨-, ht, ⟨older, ho⟩, hl⟩ := cast_steps hm hv
  refine ⟨fun v hx => ?_, fun r hx => ?_, next.room⟩
  · rcases hl v hx with hs | ⟨w, hd, hs⟩
    · exact hs ▸ lt
    · exact hs ▸ next.newer w hd
  · have hr := ht.firm.above r.val (Option.map_eq_some_iff.mpr ⟨r, hx, rfl⟩) ⟨c.slot.val, 1⟩ (ho ▸ .head _)
    exact lt_trans hr lt

lemma casts_steps (hi : (cs ++ more).Pairwise fun a b => a.slot < b.slot) (hv : ∀ c ∈ cs ++ more, Votable s c.slot) :
    run towerStep s.tower (cs.map fun c => c.slot.val) = .ok (s.casts cs).tower ∧ Steps s (s.casts cs) ∧
      (∀ c ∈ more, Votable (s.casts cs) c.slot) ∧ (cs ≠ [] → (s.casts cs).votes ≠ []) := by
  induction cs generalizing s with
  | nil =>
    refine ⟨rfl, ⟨hm, fun r hx => ⟨r, hx, Fin.le_refl r⟩, fun v hw => hw⟩, hv, fun no => absurd rfl no⟩
  | cons c rest ih =>
    obtain ⟨hf, hi⟩ := pairwise_cons.mp hi
    obtain ⟨hw, hv⟩ := forall_mem_cons.mp hv
    obtain ⟨h, hs, ⟨older, ha⟩, -⟩ := cast_steps hm hw
    have hl : ∀ d ∈ rest ++ more, Votable (s.cast c) d.slot := fun d hx =>
      hw.cast hm (hf d hx) (hv d hx)
    obtain ⟨hr, hp, ht, ho⟩ := ih hs.firm hi hl
    refine ⟨(run_cons_ok towerStep).mpr ⟨_, h, hr⟩, hs.trans hp, ht, fun _ => ?_⟩
    cases rest with
    | nil =>
      intro hh
      have he : (s.cast c).votes = [] := hh
      have hn : (s.cast c).tower.1 = [] := congrArg stack he
      rw [ha] at hn
      cases hn
    | cons d rest => exact ho (cons_ne_nil _ _)

end

/-- The tower and the vote program agree after each vote, and the tower after any vote is accepted by
the vote program after any earlier one. -/
theorem tower_accepted (valid : s.Valid) (increasing : cs.Pairwise fun a b => a.slot < b.slot)
    (votable : ∀ c ∈ cs, Votable s c.slot) :
    (∀ k, run towerStep s.tower ((cs.take k).map fun c => c.slot.val) = .ok (s.casts (cs.take k)).tower) ∧
      ∀ i j, i < j → j ≤ cs.length → ∀ t, run towerStep s.tower ((cs.take j).map fun c => c.slot.val) = .ok t →
        ∀ epoch currentSlot, ∃ s', (s.casts (cs.take i)).processNewVoteState (landed t.1)
          (t.2.map (Fin.ofNat (2 ^ 64))) none epoch currentSlot = .ok s' := by
  have firm : Firm s.tower.1 s.tower.2 := valid.firm
  -- the run is cut at the earlier point; what is after it is a run from there
  have point : ∀ k, _ := fun k => @casts_steps s (cs.take k) (cs.drop k) firm
    (by rw [take_append_drop]; exact increasing) (by rw [take_append_drop]; exact votable)
  refine ⟨fun k => (point k).1, fun i j lt le t done epoch currentSlot => ?_⟩
  obtain ⟨-, steps, votable', -⟩ := point i
  have first : cs.take i ++ (cs.take j).drop i = cs.take j := by
    have inner := take_append_drop i (cs.take j)
    rwa [take_take, min_eq_left (le_of_lt lt)] at inner
  have rest : (cs.take j).drop i ++ cs.drop j = cs.drop i := by
    refine (append_right_inj (cs.take i)).mp ?_
    rw [← append_assoc, first, take_append_drop, take_append_drop]
  obtain ⟨-, steps', -, some⟩ := @casts_steps _ ((cs.take j).drop i) (cs.drop j) steps.firm
    (by rw [rest]; exact increasing.sublist (drop_sublist _ _)) (by rw [rest]; exact votable')
  have reached : (s.casts (cs.take i)).casts ((cs.take j).drop i) = s.casts (cs.take j) := by
    have split : s.casts (cs.take i ++ (cs.take j).drop i) = _ := foldl_append
    rw [first] at split
    exact split.symm
  rw [reached] at steps' some
  have nonempty : (s.casts (cs.take j)).votes ≠ [] := by
    refine some (ne_nil_of_length_pos ?_)
    rw [length_drop, length_take]
    omega
  obtain rfl : (s.casts (cs.take j)).tower = t := Except.ok.inj ((point j).1.symm.trans done)
  have root : (s.casts (cs.take j)).tower.2.map (Fin.ofNat (2 ^ 64)) = (s.casts (cs.take j)).rootSlot := by
    simp [tower, Function.comp_def]
  rw [root]
  refine accepts_of_covered steps.firm steps'.firm nonempty steps'.onward fun v mem => steps'.covered v.vote ?_
  exact .kept v.vote (mem_stack.mpr ⟨v, mem, rfl⟩) ⟨rfl, le_refl _⟩

def twoMore : List Cast := [⟨12, 0, 13⟩, ⟨15, 0, 16⟩]

theorem two_more_accepted :
    (∀ k, run towerStep twoVotes.tower ((twoMore.take k).map fun c => c.slot.val) = .ok (twoVotes.casts (twoMore.take k)).tower) ∧
      ∀ i j, i < j → j ≤ twoMore.length → ∀ t,
        run towerStep twoVotes.tower ((twoMore.take j).map fun c => c.slot.val) = .ok t → ∀ epoch currentSlot, ∃ s',
          (twoVotes.casts (twoMore.take i)).processNewVoteState (landed t.1) (t.2.map (Fin.ofNat (2 ^ 64))) none epoch
            currentSlot = .ok s' := by
  have valid : twoVotes.Valid := ⟨⟨by decide, by decide, by decide⟩, fun r mem v there => by
    obtain rfl : 9 = r := Option.some.inj mem
    revert v
    decide⟩
  refine tower_accepted valid (by decide) fun c mem => ⟨?_, fun r set => ?_, ?_⟩
  · revert c
    decide
  · obtain rfl : 9 = r := Option.some.inj set
    revert c
    decide
  · revert c
    decide

def lastSlots : VoteState := ⟨[⟨1, ⟨18446744073709551614, 1⟩⟩], none, [], ⟨0, 0⟩⟩

theorem last_slots_disagree : lastSlots.Valid ∧ (∀ v ∈ lastSlots.votes, v.slot < (18446744073709551615 : Slot)) ∧
    ∃ votes root, pushVote (stack lastSlots.votes) 18446744073709551615 = .ok (votes, root) ∧
      votes ≠ stack (lastSlots.processNextVoteSlot 18446744073709551615 0 18446744073709551615).votes := by
  refine ⟨⟨⟨by decide, by decide, by decide⟩, nofun⟩, by decide, [⟨18446744073709551615, 1⟩], none, ?_, ?_⟩
  · decide +kernel
  · decide +kernel

end Firebam.VoteProgram
