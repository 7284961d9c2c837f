import Firebam.StakeDelegations.Basic

/-! The staking rewards of an epoch: one loop gives every delegation its points and adds them up, a
second one pays every delegation its share and splits it between the staker and the voter. What the
stake history says of a delegation is left open. -/
namespace Firebam.Rewards
open Lib StakeDelegations

structure Stake extends Delegation where
  state : Tag

structure Credits where
  epoch : UInt16
  creditsDelta : UInt64
  prevCreditsDelta : UInt64

structure EpochCredits where
  baseCredits : UInt64
  entries : List Credits
  fastPathOk : Bool

structure Vote where
  commission : UInt16
  epochCredits : EpochCredits

structure Points where
  points : Nat
  newCreditsObserved : UInt64
  forceCreditsUpdateWithSkippedReward : Bool

structure StakeRewards where
  stakerRewards : UInt64
  voterRewards : UInt64
  newCreditsObserved : UInt64

structure Split where
  voterPortion : UInt64
  stakerPortion : UInt64
  isSplit : Bool

inductive Fault where
  | intermediate | fitU64

structure Bank where
  rewardedEpoch : UInt64
  alpenglowEnabled : Bool
  removeInactiveStakes : Bool
  relaxPostExecMinBalanceCheck : Bool
  maxStakeAccounts : Nat
  activationStatus : Delegation → UInt64 → Entry
  isInactive : Delegation → UInt64 → Bool
  isWarmedPlateau : Delegation → UInt16 → Bool
  rentExemptMinimumBalance : UInt32 → UInt64
  voteMap : Pubkey → Option Vote
  rewardStake : Pubkey → UInt64

def maxBps : Nat := 10000

def voteCommissionSplit (commission : UInt16) (on : UInt64) : Split :=
  let c := min commission.toNat maxBps
  if c = 0 then ⟨0, on, false⟩
  else if c = maxBps then ⟨on, 0, false⟩
  else ⟨.ofNat (on.toNat * c / maxBps), .ofNat (on.toNat * (maxBps - c) / maxBps), true⟩

def voteCommissionSplitPreserveLamports (commission : UInt16) (on : UInt64) : Split :=
  let c := min commission.toNat maxBps
  if c = 0 then ⟨0, on, false⟩
  else if c = maxBps then ⟨on, 0, false⟩
  else
    let staker := .ofNat (on.toNat * (maxBps - c) / maxBps)
    ⟨on - staker, staker, true⟩

def stakeEpochsAreNormal (s : Stake) : Bool :=
  s.activationEpoch = 65535 ∨ s.deactivationEpoch = 65535 ∨ s.activationEpoch ≤ s.deactivationEpoch

def EpochCredits.creditsInVote (c : EpochCredits) : UInt64 :=
  match c.entries.getLast? with
  | some e => c.baseCredits + e.creditsDelta
  | none => 0

/-- fd_epoch_credits_fast_path_ok -/
def EpochCredits.fastPathCheck (c : EpochCredits) : Bool :=
  (∀ e ∈ c.entries, c.baseCredits.toNat + e.creditsDelta.toNat < 2 ^ 64 ∧ e.prevCreditsDelta ≤ e.creditsDelta) ∧
    c.entries.IsChain fun d e => e.prevCreditsDelta = d.creditsDelta ∧ d.epoch ≤ e.epoch

def earnedCredits (creditsInStake observed initial final : UInt64) : UInt64 :=
  if creditsInStake < initial then final - initial else if creditsInStake < final then final - observed else 0

namespace Bank
variable (b : Bank)

/-- The loop of `calculate_stake_points_and_credits`, which adds up modulo 2^128 (modulo 0: exactly). -/
def epochPoints (modulus : Nat) (c : EpochCredits) (s : Stake) : List Credits → Nat → UInt64 → Nat × UInt64
  | [], points, observed => (points, observed)
  | e :: es, points, observed =>
    let final := c.baseCredits + e.creditsDelta
    let initial := c.baseCredits + e.prevCreditsDelta
    if c.fastPathOk ∧ final ≤ s.creditsObserved then epochPoints modulus c s es points observed
    else
      let earned := earnedCredits s.creditsObserved observed initial final
      let amount := (b.activationStatus s.toDelegation e.epoch.toUInt64).1
      if stakeEpochsAreNormal s ∧ c.fastPathOk ∧ amount = 0 ∧ s.deactivationEpoch < e.epoch then
        (points, c.creditsInVote)
      else epochPoints modulus c s es ((points + amount.toNat * earned.toNat) % modulus) (max observed final)

def calculateStakePointsAndCredits (c : EpochCredits) (s : Stake) : Points :=
  if c.creditsInVote < s.creditsObserved then ⟨0, c.creditsInVote, true⟩
  else if c.creditsInVote = s.creditsObserved then ⟨0, c.creditsInVote, false⟩
  else
    let (points, observed) := b.epochPoints (2 ^ 128) c s c.entries 0 s.creditsObserved
    ⟨points, observed, false⟩

def effectiveStake (s : Stake) (target : UInt16) (fastPathEpoch : UInt64) : UInt64 :=
  if target.toUInt64 = fastPathEpoch ∧ (s.state = .warmed ∨ s.state = .cooled) then
    if s.state = .warmed then s.stake else 0
  else (b.activationStatus s.toDelegation target.toUInt64).1

def calculateStakePointsFast (c : EpochCredits) (s : Stake) (fastPathEpoch : UInt64) : Points :=
  let slow := b.calculateStakePointsAndCredits c s
  if ¬ stakeEpochsAreNormal s ∨ ¬ c.fastPathOk then slow
  else match c.entries with
    | [] => slow
    | first :: rest =>
      let last := rest.getLastD first
      if c.creditsInVote ≤ s.creditsObserved then slow
      else if c.baseCredits + last.prevCreditsDelta ≤ s.creditsObserved then
        ⟨(b.effectiveStake s last.epoch fastPathEpoch).toNat * (c.creditsInVote - s.creditsObserved).toNat,
          c.creditsInVote, false⟩
      -- the last entry is above what was observed, so one is found
      else match c.entries.find? fun e => s.creditsObserved < c.baseCredits + e.creditsDelta with
        | none => slow
        | some e =>
          if b.isWarmedPlateau s.toDelegation e.epoch then
            let start := max s.creditsObserved (c.baseCredits + first.prevCreditsDelta)
            ⟨s.stake.toNat * (c.creditsInVote - start).toNat, c.creditsInVote, false⟩
          else slow

def calculateAlpenglowPoints (c : EpochCredits) (s : Stake) (validatorRewardEpochStake : UInt64) : Points :=
  if c.creditsInVote < s.creditsObserved then ⟨0, c.creditsInVote, true⟩
  else if c.creditsInVote = s.creditsObserved then ⟨0, s.creditsObserved, false⟩
  else match c.entries.getLast? with
    | none => ⟨0, s.creditsObserved, false⟩
    | some last =>
      if last.epoch.toUInt64 ≠ b.rewardedEpoch then ⟨0, s.creditsObserved, false⟩
      else
        let earned := c.creditsInVote - max s.creditsObserved (c.baseCredits + last.prevCreditsDelta)
        let effective := (b.activationStatus s.toDelegation b.rewardedEpoch).1
        if earned = 0 ∨ effective = 0 then ⟨0, c.creditsInVote, false⟩
        else if validatorRewardEpochStake = 0 then ⟨0, c.creditsInVote, true⟩
        else ⟨earned.toNat * effective.toNat / validatorRewardEpochStake.toNat, c.creditsInVote, false⟩

def calculateStakePointsForReward (s : Stake) (towerFastPathEpoch : UInt64) (v : Vote) : Vote × Points :=
  (v, if b.alpenglowEnabled then b.calculateAlpenglowPoints v.epochCredits s (b.rewardStake s.voteAccount)
    else b.calculateStakePointsFast v.epochCredits s towerFastPathEpoch)

def redeemRewards (s : Stake) (v : Vote) (totalRewards : UInt64) (totalPoints : Nat) (r : Points) :
    Except Fault (Option StakeRewards) :=
  let unpaid : StakeRewards := ⟨0, 0, r.newCreditsObserved⟩
  let forward := if b.alpenglowEnabled ∧ r.newCreditsObserved ≠ s.creditsObserved then some unpaid else none
  if totalRewards = 0 ∨ s.activationEpoch.toUInt64 = b.rewardedEpoch ∨ r.forceCreditsUpdateWithSkippedReward then
    .ok (some unpaid)
  else if r.points = 0 ∨ ¬ b.alpenglowEnabled ∧ totalPoints = 0 then .ok forward
  else do
    require .intermediate (b.alpenglowEnabled ∨ r.points * totalRewards.toNat < 2 ^ 128)
    let rewards := if b.alpenglowEnabled then r.points else r.points * totalRewards.toNat / totalPoints
    require .fitU64 (rewards < 2 ^ 64)
    if rewards = 0 then return forward
    let split := if b.alpenglowEnabled then voteCommissionSplitPreserveLamports v.commission (.ofNat rewards)
      else voteCommissionSplit v.commission (.ofNat rewards)
    if ¬ b.alpenglowEnabled ∧ split.isSplit ∧ (split.voterPortion = 0 ∨ split.stakerPortion = 0) then return none
    return some ⟨split.stakerPortion, split.voterPortion, r.newCreditsObserved⟩

abbrev Cache := Nat → Option (Vote × Points)

def skipped (s : Stake) : Bool := b.removeInactiveStakes && b.isInactive s.toDelegation b.rewardedEpoch

def earned (s : Stake) : Option (Vote × Points) :=
  if b.skipped s then none
  else (b.voteMap s.voteAccount).map (b.calculateStakePointsForReward s b.rewardedEpoch)

def pointsOf (s : Stake) : Nat := (b.earned s).elim 0 fun x => x.2.points

def pointsTurn (st : Nat × Cache) (e : Nat × Stake) : Nat × Cache :=
  (if b.alpenglowEnabled then st.1 else (st.1 + b.pointsOf e.2) % 2 ^ 128,
    if e.1 < b.maxStakeAccounts then Function.update st.2 e.1 (b.earned e.2) else st.2)

def calculateRewardPointsPartitioned (cache : Cache) (ds : List (Nat × Stake)) : Nat × Cache :=
  ds.foldl b.pointsTurn (0, cache)

def delegationMayNeedAdjustment (s : Stake) : Bool :=
  let minimum := b.rentExemptMinimumBalance s.accDlen
  let status := b.activationStatus s.toDelegation b.rewardedEpoch
  min s.stake (if minimum ≤ s.lamports then s.lamports - minimum else 0) ≠ s.stake ∧
    ¬ (status.1 = 0 ∧ status.2.1 = 0)

def rewardsTurn (totalRewards : UInt64) (isRecalculation : Bool) (st : Nat × Cache) (e : Nat × Stake) :
    Except Fault (Option StakeRewards) :=
  if b.skipped e.2 then .ok none
  else
    -- the largest epoch is no epoch of a vote account: no tag is read
    let found := if ¬ isRecalculation ∧ e.1 < b.maxStakeAccounts then st.2 e.1
      else (b.voteMap e.2.voteAccount).map (b.calculateStakePointsForReward e.2 18446744073709551615)
    let adjusted := if b.relaxPostExecMinBalanceCheck ∧ b.delegationMayNeedAdjustment e.2 then
      some ⟨0, 0, e.2.creditsObserved⟩ else none
    match found with
    | none => .ok adjusted
    | some (v, r) => (b.redeemRewards e.2 v totalRewards st.1 r).map (·.or adjusted)

def calculateStakeVoteRewards (totalRewards : UInt64) (isRecalculation : Bool) (st : Nat × Cache)
    (ds : List (Nat × Stake)) : Except Fault (List (Option StakeRewards)) :=
  ds.mapM (b.rewardsTurn totalRewards isRecalculation st)

end Bank

def StakeRewards.amount (w : StakeRewards) : Nat := w.stakerRewards.toNat + w.voterRewards.toNat

def paid (w : Option StakeRewards) : Nat := w.elim 0 StakeRewards.amount

lemma paid_adjusted (c : Prop) [Decidable c] (n : UInt64) : paid (if c then some ⟨0, 0, n⟩ else none) = 0 := by
  split_ifs <;> rfl

lemma toNat_portion (on : UInt64) {n : Nat} (h : n ≤ maxBps) :
    (UInt64.ofNat (on.toNat * n / maxBps)).toNat = on.toNat * n / maxBps := by
  refine UInt64.toNat_ofNat_of_lt' (lt_of_le_of_lt ?_ on.toNat_lt)
  exact Nat.div_le_of_le_mul (mul_comm maxBps _ ▸ Nat.mul_le_mul_left _ h)

lemma split_le (c : UInt16) (on : UInt64) :
    (voteCommissionSplit c on).stakerPortion.toNat + (voteCommissionSplit c on).voterPortion.toNat ≤ on.toNat := by
  have hc := min_le_right c.toNat maxBps
  unfold voteCommissionSplit
  dsimp only
  split_ifs
  · simp
  · simp
  · simp only [toNat_portion on hc, toNat_portion on (Nat.sub_le maxBps _)]
    refine Nat.div_add_div_le_add_div.trans (Nat.div_le_of_le_mul ?_)
    rw [← mul_add, Nat.sub_add_cancel hc, mul_comm]

lemma split_preserve (c : UInt16) (on : UInt64) :
    (voteCommissionSplitPreserveLamports c on).stakerPortion.toNat +
      (voteCommissionSplitPreserveLamports c on).voterPortion.toNat = on.toNat := by
  unfold voteCommissionSplitPreserveLamports
  dsimp only
  split_ifs
  · simp
  · simp
  · have hl : UInt64.ofNat (on.toNat * (maxBps - min c.toNat maxBps) / maxBps) ≤ on := by
      rw [UInt64.le_iff_toNat_le, toNat_portion on (Nat.sub_le _ _)]
      exact Nat.div_le_of_le_mul (mul_comm maxBps _ ▸ Nat.mul_le_mul_left _ (Nat.sub_le _ _))
    rw [UInt64.toNat_sub_of_le _ _ hl]
    exact Nat.add_sub_cancel' (UInt64.le_iff_toNat_le.mp hl)

section
variable {b : Bank} {s : Stake} {tr : UInt64}

lemma redeemRewards_bounded (ht : b.alpenglowEnabled = false) (s : Stake) (tr : UInt64) (v : Vote) {r : Points}
    {total : Nat} (hr : r.points ≤ total) :
    Ends (· = .intermediate ∧ 2 ^ 128 ≤ r.points * tr.toNat) (paid · ≤ r.points * tr.toNat / total)
      (b.redeemRewards s v tr total r) := by
  have hq : r.points * tr.toNat / total < 2 ^ 64 :=
    lt_of_le_of_lt (Nat.div_le_of_le_mul (Nat.mul_le_mul_right _ hr)) tr.toNat_lt
  unfold Bank.redeemRewards
  simp only [ht, Bool.false_eq_true, false_and, if_false, false_or, not_false_eq_true, true_and]
  by_cases hp : r.points * tr.toNat < 2 ^ 128
  · rw [check_of _ hp, check_of _ hq]
    split_ifs
    iterate 4 exact Nat.zero_le _
    have hs := split_le v.commission (.ofNat (r.points * tr.toNat / total))
    rwa [UInt64.toNat_ofNat_of_lt' hq] at hs
  · simp only [require, hp, if_false]
    split_ifs
    iterate 2 exact Nat.zero_le _
    all_goals exact ⟨rfl, not_lt.mp hp⟩

def Bank.Tagged (b : Bank) (s : Stake) : Prop :=
  let effective := (b.activationStatus s.toDelegation b.rewardedEpoch).1
  (s.state = .warmed → effective = s.stake) ∧ (s.state = .cooled → effective = 0)

lemma effectiveStake_untagged (h : b.Tagged s) (e : UInt16) :
    b.effectiveStake s e b.rewardedEpoch = b.effectiveStake s e 18446744073709551615 := by
  have hn : e.toUInt64 ≠ 18446744073709551615 := by
    intro he
    have := congrArg UInt64.toNat he
    have hl := e.toNat_lt
    simp at this
    omega
  have hm : b.effectiveStake s e 18446744073709551615 = (b.activationStatus s.toDelegation e.toUInt64).1 :=
    if_neg fun h => hn h.1
  rw [hm, Bank.effectiveStake]
  split_ifs with he hw
  · rw [he.1, h.1 hw]
  · rw [he.1, h.2 (he.2.resolve_left hw)]
  · rfl

lemma points_untagged (h : b.Tagged s) :
    b.calculateStakePointsForReward s b.rewardedEpoch = b.calculateStakePointsForReward s 18446744073709551615 := by
  funext v
  simp only [Bank.calculateStakePointsForReward, Bank.calculateStakePointsFast, effectiveStake_untagged h]

lemma rewardsTurn_bounded (ht : b.alpenglowEnabled = false) {isRecalculation : Bool} {st : Nat × Bank.Cache}
    {i : Nat} (h : b.Tagged s ∨ isRecalculation = false ∧ i < b.maxStakeAccounts) (hc : i < b.maxStakeAccounts → st.2 i = b.earned s) (hp : b.pointsOf s ≤ st.1) :
    Ends (· = .intermediate ∧ 2 ^ 128 ≤ b.pointsOf s * tr.toNat) (paid · ≤ b.pointsOf s * tr.toNat / st.1)
      (b.rewardsTurn tr isRecalculation st (i, s)) := by
  unfold Bank.rewardsTurn
  by_cases hs : b.skipped s
  · rw [if_pos hs]
    exact Nat.zero_le _
  · rw [if_neg hs]
    have hf : (if ¬ isRecalculation ∧ i < b.maxStakeAccounts then st.2 i
        else (b.voteMap s.voteAccount).map (b.calculateStakePointsForReward s 18446744073709551615)) = b.earned s := by
      split_ifs with hi
      · exact hc hi.2
      · rw [Bank.earned, if_neg hs, points_untagged (h.resolve_right (by simpa using hi))]
    simp only [hf]
    cases he : b.earned s with
    | none => exact le_of_eq_of_le (paid_adjusted _ _) (Nat.zero_le _)
    | some x =>
      have hx : b.pointsOf s = x.2.points := by simp [Bank.pointsOf, he]
      have hr := redeemRewards_bounded ht s tr x.1 (hx ▸ hp)
      rw [hx]
      dsimp only
      cases hw : b.redeemRewards s x.1 tr st.1 x.2 with
      | error e =>
        rw [hw] at hr
        exact hr
      | ok w =>
        rw [hw] at hr
        cases w with
        | none => exact le_of_eq_of_le (paid_adjusted _ _) (Nat.zero_le _)
        | some w => exact hr

lemma pointsTurns (ht : b.alpenglowEnabled = false) {ds : List (Nat × Stake)} {n : Nat} {c : Bank.Cache}
    (h : n + (ds.map fun e => b.pointsOf e.2).sum < 2 ^ 128) :
    (ds.foldl b.pointsTurn (n, c)).1 = n + (ds.map fun e => b.pointsOf e.2).sum := by
  induction ds generalizing n c with
  | nil => rfl
  | cons e ds ih =>
    rw [List.map_cons, List.sum_cons, ← add_assoc] at h ⊢
    have hm : (n + b.pointsOf e.2) % 2 ^ 128 = n + b.pointsOf e.2 :=
      Nat.mod_eq_of_lt (lt_of_le_of_lt (Nat.le_add_right _ _) h)
    rw [List.foldl_cons, Bank.pointsTurn, ht, if_neg Bool.false_ne_true, hm]
    exact ih h

lemma cache_other {ds : List (Nat × Stake)} {i : Nat} {st : Nat × Bank.Cache} (h : i ∉ ds.map Prod.fst) :
    (ds.foldl b.pointsTurn st).2 i = st.2 i := by
  induction ds generalizing st with
  | nil => rfl
  | cons e ds ih =>
    rw [List.map_cons, List.mem_cons, not_or] at h
    rw [List.foldl_cons, ih h.2]
    unfold Bank.pointsTurn
    dsimp only
    split_ifs
    · exact Function.update_of_ne h.1 _ _
    · rfl

lemma cache_earned {ds : List (Nat × Stake)} {st : Nat × Bank.Cache} (h : (ds.map Prod.fst).Nodup)
    {e : Nat × Stake} (he : e ∈ ds) (hi : e.1 < b.maxStakeAccounts) :
    (ds.foldl b.pointsTurn st).2 e.1 = b.earned e.2 := by
  induction ds generalizing st with
  | nil => cases he
  | cons d ds ih =>
    rw [List.map_cons, List.nodup_cons] at h
    rw [List.foldl_cons]
    rcases List.mem_cons.mp he with rfl | he
    · rw [cache_other h.1]
      simp [Bank.pointsTurn, hi]
    · exact ih h.2 he

lemma shares_le {α : Type} (w : α → Nat) (t n : Nat) (l : List α) :
    (l.map fun a => w a * t / n).sum ≤ (l.map w).sum * t / n := by
  induction l with
  | nil => exact Nat.zero_le _
  | cons a l ih =>
    rw [List.map_cons, List.sum_cons, List.map_cons, List.sum_cons, Nat.add_mul]
    exact (Nat.add_le_add_left ih _).trans Nat.div_add_div_le_add_div

lemma paid_within (hb : b.alpenglowEnabled = false) {cache : Bank.Cache} {ds : List (Nat × Stake)} {isRecalculation : Bool}
    (hd : (ds.map Prod.fst).Nodup)
    (ht : ∀ d ∈ ds, b.Tagged d.2 ∨ isRecalculation = false ∧ d.1 < b.maxStakeAccounts) :
    let st := b.calculateRewardPointsPartitioned cache ds
    st.1 = (ds.map fun d => b.pointsOf d.2).sum →
    match b.calculateStakeVoteRewards tr isRecalculation st ds with
      | .error e => ∃ d ∈ ds, e = .intermediate ∧ 2 ^ 128 ≤ b.pointsOf d.2 * tr.toNat
      | .ok ws => (ws.map paid).sum ≤ tr.toNat := by
  intro st hst
  have hp (d : Nat × Stake) (mem : d ∈ ds) : b.pointsOf d.2 ≤ st.1 := by
    rw [hst]
    exact List.single_le_sum (fun _ _ => Nat.zero_le _) _ (List.mem_map_of_mem mem)
  have hm := mapM_bounded (l := ds) (f := b.rewardsTurn tr isRecalculation st) (p := paid)
    (P := fun d e => e = .intermediate ∧ 2 ^ 128 ≤ b.pointsOf d.2 * tr.toNat)
    (w := fun d => b.pointsOf d.2 * tr.toNat / st.1) fun d mem =>
      rewardsTurn_bounded hb (ht d mem) (cache_earned hd mem) (hp d mem)
  unfold Bank.calculateStakeVoteRewards
  cases hr : ds.mapM (b.rewardsTurn tr isRecalculation st) with
  | error e =>
    rw [hr] at hm
    exact hm
  | ok ws =>
    rw [hr] at hm
    refine (le_trans hm (shares_le (fun d => b.pointsOf d.2) _ _ ds)).trans ?_
    rw [← hst]
    exact Nat.div_le_of_le_mul le_rfl

lemma redeemRewards_split (ht : b.alpenglowEnabled = false) {v : Vote} {r : Points} {total : Nat} {w : StakeRewards}
    (hc : 0 < v.commission.toNat ∧ v.commission.toNat < maxBps) (h : b.redeemRewards s v tr total r = .ok (some w))
    (hz : w.stakerRewards = 0 ∨ w.voterRewards = 0) : w.amount = 0 := by
  have hs (on : UInt64) : (voteCommissionSplit v.commission on).isSplit = true := by
    simp [voteCommissionSplit, min_eq_left hc.2.le, hc.1.ne', hc.2.ne]
  unfold Bank.redeemRewards at h
  simp only [ht, Bool.false_eq_true, false_and, if_false, false_or, not_false_eq_true, true_and, hs] at h
  split_ifs at h with _ _ _ hn
  · cases h
    rfl
  · cases h
  · obtain ⟨_, h⟩ := check_ok.mp h
    obtain ⟨_, ⟨⟩⟩ := check_ok.mp h
  · obtain ⟨_, h⟩ := check_ok.mp h
    obtain ⟨_, ⟨⟩⟩ := check_ok.mp h
  · obtain ⟨_, h⟩ := check_ok.mp h
    obtain ⟨_, ⟨⟩⟩ := check_ok.mp h
    exact absurd hz.symm hn

lemma toNat_max (x y : UInt64) : (max x y).toNat = max x.toNat y.toNat := by
  rw [show max x y = if x ≤ y then y else x from rfl]
  split_ifs with h
  · exact (max_eq_right (UInt64.le_iff_toNat_le.mp h)).symm
  · exact (max_eq_left (UInt64.lt_iff_toNat_lt.mp (UInt64.not_le.mp h)).le).symm

lemma earned_le {seen observed initial final : UInt64} (lo : seen.toNat ≤ observed.toNat)
    (hi : observed.toNat ≤ max seen.toNat initial.toNat) (le : initial.toNat ≤ final.toNat) :
    observed.toNat + (earnedCredits seen observed initial final).toNat ≤ (max observed final).toNat := by
  rw [toNat_max]
  simp only [earnedCredits, UInt64.lt_iff_toNat_lt]
  split_ifs with first second
  · rw [UInt64.toNat_sub_of_le _ _ (UInt64.le_iff_toNat_le.mpr le)]
    omega
  · rw [UInt64.toNat_sub_of_le _ _ (UInt64.le_iff_toNat_le.mpr (by omega))]
    omega
  · exact le_max_left _ _

lemma points_le {n o k m : Nat} (amount : UInt64) (bound : n ≤ (2 ^ 64 - 1) * o) (earned : o + k ≤ m) :
    n + amount.toNat * k ≤ (2 ^ 64 - 1) * m :=
  calc n + amount.toNat * k ≤ (2 ^ 64 - 1) * o + (2 ^ 64 - 1) * k :=
        Nat.add_le_add bound (Nat.mul_le_mul_right k (Nat.le_pred_of_lt amount.toNat_lt))
    _ = (2 ^ 64 - 1) * (o + k) := (Nat.mul_add _ _ _).symm
    _ ≤ (2 ^ 64 - 1) * m := Nat.mul_le_mul_left _ earned

lemma epochPoints_exact {c : EpochCredits} {es : List Credits} {points : Nat} {observed : UInt64}
    (fits : ∀ e ∈ es, c.baseCredits.toNat + e.creditsDelta.toNat < 2 ^ 64 ∧ e.prevCreditsDelta ≤ e.creditsDelta)
    (chain : es.IsChain fun d e => e.prevCreditsDelta = d.creditsDelta ∧ d.epoch ≤ e.epoch)
    (lo : s.creditsObserved.toNat ≤ observed.toNat)
    (hi : ∀ e ∈ es.head?, observed.toNat ≤ max s.creditsObserved.toNat (c.baseCredits + e.prevCreditsDelta).toNat)
    (bound : points ≤ (2 ^ 64 - 1) * observed.toNat) :
    b.epochPoints (2 ^ 128) c s es points observed = b.epochPoints 0 c s es points observed := by
  induction es generalizing points observed with
  | nil => rfl
  | cons e es ih =>
    obtain ⟨fit, below⟩ := fits e List.mem_cons_self
    obtain ⟨next, chain⟩ := List.isChain_cons.mp chain
    have below := UInt64.le_iff_toNat_le.mp below
    have hi := hi e rfl
    have le : (c.baseCredits + e.prevCreditsDelta).toNat ≤ (c.baseCredits + e.creditsDelta).toNat := by
      rw [UInt64.toNat_add, UInt64.toNat_add, Nat.mod_eq_of_lt fit, Nat.mod_eq_of_lt (by omega)]
      omega
    replace ih := fun points observed => @ih points observed (fun e mem => fits e (List.mem_cons_of_mem _ mem)) chain
    have earned := earned_le lo hi le
    have small := points_le (b.activationStatus s.toDelegation e.epoch.toUInt64).1 bound earned
    have reach (n : Nat) (le : n ≤ max s.creditsObserved.toNat (c.baseCredits + e.creditsDelta).toNat) (f : Credits)
        (mem : f ∈ es.head?) : n ≤ max s.creditsObserved.toNat (c.baseCredits + f.prevCreditsDelta).toNat := by
      rwa [(next f mem).1]
    have wide := toNat_max observed (c.baseCredits + e.creditsDelta)
    simp only [Bank.epochPoints]
    split_ifs with skip
    · have skip := UInt64.le_iff_toNat_le.mp skip.2
      exact ih _ _ lo (reach _ (by omega)) bound
    · rfl
    · rw [Nat.mod_zero, Nat.mod_eq_of_lt (lt_of_le_of_lt small ?_)]
      · exact ih _ _ (by omega) (reach _ (by omega)) small
      · have := (max observed (c.baseCredits + e.creditsDelta)).toNat_lt
        omega

end

/-- No more than the total is paid out in an epoch without alpenglow, when the points of all
delegations together fit their 128 bits and the tags are right wherever points are found again. -/
theorem rewards_within_total (b : Bank) (cache : Bank.Cache) (ds : List (Nat × Stake)) (totalRewards : UInt64)
    (isRecalculation : Bool) : let st := b.calculateRewardPointsPartitioned cache ds
    (b.alpenglowEnabled = false → (ds.map Prod.fst).Nodup →
      (∀ d ∈ ds, b.Tagged d.2 ∨ isRecalculation = false ∧ d.1 < b.maxStakeAccounts) →
      (ds.map fun d => b.pointsOf d.2).sum < 2 ^ 128 →
      st.1 = (ds.map fun d => b.pointsOf d.2).sum ∧
      match b.calculateStakeVoteRewards totalRewards isRecalculation st ds with
        | .error e => ∃ d ∈ ds, e = .intermediate ∧ 2 ^ 128 ≤ b.pointsOf d.2 * totalRewards.toNat
        | .ok ws => (ws.map paid).sum ≤ totalRewards.toNat) ∧
    (∀ c s, c.fastPathCheck →
      b.epochPoints (2 ^ 128) c s c.entries 0 s.creditsObserved = b.epochPoints 0 c s c.entries 0 s.creditsObserved) ∧
    (∀ c on, (voteCommissionSplit c on).stakerPortion.toNat + (voteCommissionSplit c on).voterPortion.toNat ≤ on.toNat ∧
      (voteCommissionSplitPreserveLamports c on).stakerPortion.toNat +
        (voteCommissionSplitPreserveLamports c on).voterPortion.toNat = on.toNat) ∧
    ∀ s v r,
      (b.alpenglowEnabled = false → 0 < v.commission.toNat ∧ v.commission.toNat < maxBps → ∀ w,
        b.redeemRewards s v totalRewards st.1 r = .ok (some w) → w.stakerRewards = 0 ∨ w.voterRewards = 0 → w.amount = 0) ∧
      (r.forceCreditsUpdateWithSkippedReward →
        b.redeemRewards s v totalRewards st.1 r = .ok (some ⟨0, 0, r.newCreditsObserved⟩)) := by
  intro st
  refine ⟨fun hb hd ht hs => ?_, fun c s hc => ?_, fun c on => ⟨split_le c on, split_preserve c on⟩,
    fun s v r => ⟨fun hb hc w => redeemRewards_split hb hc, fun hf => if_pos (.inr (.inr hf))⟩⟩
  · have hst : st.1 = (ds.map fun d => b.pointsOf d.2).sum := by
      have hp := pointsTurns hb (n := 0) (c := cache) (by rwa [Nat.zero_add])
      rwa [Nat.zero_add] at hp
    exact ⟨hst, paid_within hb hd ht hst⟩
  · obtain ⟨fits, chain⟩ := of_decide_eq_true hc
    exact epochPoints_exact fits chain le_rfl (fun _ _ => le_max_left _ _) (Nat.zero_le _)

def sampleBank (alpenglow : Bool) (commission : UInt16) : Bank where
  rewardedEpoch := 1
  alpenglowEnabled := alpenglow
  removeInactiveStakes := false
  relaxPostExecMinBalanceCheck := false
  maxStakeAccounts := 8
  activationStatus := fun d _ => (if d.deactivationEpoch = 65535 then d.stake else 0, 0, 0)
  isInactive := fun _ _ => false
  isWarmedPlateau := fun _ _ => false
  rentExemptMinimumBalance := fun _ => 0
  voteMap := fun _ => some ⟨commission, 0, [⟨1, 9223372036854775808, 0⟩], true⟩
  rewardStake := fun _ => 9223372036854775808

def sampleStake (stake : UInt64) (deactivation : UInt16) (state : Tag) : Stake :=
  ⟨⟨0, stake, 0, 0, 0, 0, deactivation, 0⟩, state⟩

def samplePaid (b : Bank) (total : UInt64) (isRecalculation : Bool) (ds : List (Nat × Stake)) :
    Option (List (UInt64 × UInt64)) :=
  (b.calculateStakeVoteRewards total isRecalculation (b.calculateRewardPointsPartitioned (fun _ => none) ds) ds).toOption.map
    fun ws => ws.map fun w => w.elim (0, 0) fun w => (w.stakerRewards, w.voterRewards)

def sampleStakes : List (Nat × Stake) :=
  [(0, sampleStake 1 65535 .warmed), (1, sampleStake 5 0 .cooled), (2, sampleStake 2 65535 .unknown)]

def sampleCredits : EpochCredits := ⟨5, [⟨0, 10, 0⟩, ⟨1, 30, 10⟩], true⟩

theorem three_stakes_paid : ∃ ws, (sampleBank false 5000).calculateStakeVoteRewards 31 true
      ((sampleBank false 5000).calculateRewardPointsPartitioned (fun _ => none) sampleStakes) sampleStakes = .ok ws ∧
    samplePaid (sampleBank false 5000) 31 true sampleStakes = some [(5, 5), (0, 0), (10, 10)] ∧ (ws.map paid).sum ≤ 31 ∧
    (sampleBank false 5000).epochPoints (2 ^ 128) sampleCredits (sampleStake 7 65535 .unknown) sampleCredits.entries 0 0 =
      (210, 35) := by
  have all := rewards_within_total (sampleBank false 5000) (fun _ => none) sampleStakes 31 true
  have shown : samplePaid (sampleBank false 5000) 31 true sampleStakes = some [(5, 5), (0, 0), (10, 10)] := by decide +kernel
  have within := (all.1 rfl (by decide) (by simp [sampleStakes, Bank.Tagged, sampleBank, sampleStake]) (by decide +kernel)).2
  have exact := all.2.1 sampleCredits (sampleStake 7 65535 .unknown) (by decide)
  unfold samplePaid at shown ⊢
  generalize (sampleBank false 5000).calculateStakeVoteRewards 31 true _ sampleStakes = r at within shown ⊢
  cases r with
  | error e => cases shown
  | ok ws => exact ⟨ws, rfl, shown, within, exact.trans (by decide +kernel)⟩

/-- A part for each condition of the theorem. A commission of 0, and alpenglow, pay one portion of two. -/
theorem rewards_beyond_total :
    samplePaid (sampleBank true 0) 1 false [(0, sampleStake 3 65535 .unknown)] = some [(3, 0)] ∧
    samplePaid (sampleBank false 0) 1 false ((4, sampleStake 1 65535 .unknown) :: [0, 1, 2, 3].map fun i =>
      (i, sampleStake 9223372036854775808 65535 .unknown)) = some ((1, 0) :: .replicate 4 (9223372036854775808, 0)) ∧
    samplePaid (sampleBank false 0) 1 true [(0, sampleStake 1 65535 .unknown), (1, sampleStake 3 65535 .cooled)] =
      some [(1, 0), (3, 0)] ∧
    samplePaid (sampleBank false 0) 4 false [(0, sampleStake 9223372036854775808 65535 .unknown)] = none ∧
    samplePaid (sampleBank true 5000) 1 false [(0, sampleStake 1 65535 .unknown)] = some [(0, 1)] ∧
    (let es : List Credits := .replicate 2 ⟨1, 18446744073709551615, 1⟩
      let s := sampleStake 18446744073709551615 65535 .unknown
      (sampleBank false 0).epochPoints (2 ^ 128) ⟨0, es, false⟩ s es 0 0 ≠
        (sampleBank false 0).epochPoints 0 ⟨0, es, false⟩ s es 0 0) := by
  decide +kernel

end Firebam.Rewards
