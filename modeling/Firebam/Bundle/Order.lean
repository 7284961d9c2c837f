import Firebam.Lib.Word

namespace Firebam.Bundle
open Lib List

variable {width n d j k cost prevCost b : Nat} {o x y : OrdTxn} {done : List OrdTxn}

structure OrdTxn where
  rewards : Nat
  computeEst : Nat

def bundleLPrime : Nat := 37896771
def bundleN : Nat := 313721

def CostInRange (cost : Nat) : Prop := 1020 ≤ cost ∧ cost ≤ 1551570

def fit (width : Nat) (exact : Int) : StateM Nat Nat := fun lost =>
  let value := (exact % 2 ^ width).toNat
  (value, if value = exact then lost else lost + 1)

def compareWorse (x y : OrdTxn) : Bool :=
  x.rewards * y.computeEst % wordSize < y.rewards * x.computeEst % wordSize

def rcToRelBundleIdx (r c : Nat) : Nat := wsub bundleN (r * 2 ^ 32 % wordSize / (c * bundleLPrime % wordSize))

def scaleUp (computeEst next prevCost : Nat) : StateM Nat Nat := do
  let scaled ← fit 64 (computeEst * next)
  let sum ← fit 64 (scaled + prevCost)
  let up ← fit 64 (sum - 1)
  fit 32 (up / prevCost : Nat)

def nextReward (prevReward prevCost computeEst : Nat) : StateM Nat Nat := do
  let next ← fit 64 (prevReward + 1)
  scaleUp computeEst next prevCost

def assign (prevReward prevCost : Nat) (done : List OrdTxn) : List Nat → StateM Nat (List OrdTxn)
  | [] => return done
  | computeEst :: before => do
    let rewards ← nextReward prevReward prevCost computeEst
    assign rewards computeEst (⟨rewards, computeEst⟩ :: done) before

def insertBundleImpl (bundleIdx : Nat) (costs : List Nat) : StateM Nat (List OrdTxn) := do
  let left ← fit 64 (bundleN - bundleIdx)
  let scaled ← fit 64 (bundleLPrime * left)
  let prevReward ← fit 64 (scaled - 1)
  assign prevReward (2 ^ 32) [] costs.reverse

lemma fit_nat (hs : n < 2 ^ width) : fit width n = pure n := by
  have hv : ((n : Int) % 2 ^ width).toNat = n := by
    have hm : (n : Int) % 2 ^ width = n := Int.emod_eq_of_lt (by omega) (by exact_mod_cast hs)
    rw [hm, Int.toNat_natCast]
  funext lost
  simp only [fit, hv, if_pos]
  rfl

lemma bind_run {α β : Type} (m : StateM Nat α) (f : α → StateM Nat β) (lost : Nat) :
    (m >>= f) lost = f (m lost).1 (m lost).2 := rfl

lemma fit_pred (hp : 0 < n) (hs : n ≤ 2 ^ width) : fit width (n - 1) = pure (n - 1) := by
  have hc : (n : Int) - 1 = (n - 1 : Nat) := by omega
  rw [hc]
  exact fit_nat (by omega)

def scaled (cost n d : Nat) : Nat := (cost * n + d - 1) / d

lemma scaled_bounds (hp : 0 < d) : cost * n ≤ scaled cost n d * d ∧ scaled cost n d * d < cost * n + d := by
  have hl := Nat.lt_div_mul_add (a := cost * n + d - 1) hp
  have hh := Nat.div_mul_le_self (cost * n + d - 1) d
  unfold scaled
  omega

lemma scaleUp_exact (hp : 0 < d) (hs : cost * n + d < 2 ^ 64) (hf : scaled cost n d < 2 ^ 32) :
    scaleUp cost n d = pure (scaled cost n d) := by
  unfold scaleUp
  rw [← Nat.cast_mul, fit_nat (by omega), pure_bind]
  rw [← Nat.cast_add, fit_nat (by omega), pure_bind]
  rw [fit_pred (by omega) (by omega), pure_bind]
  exact fit_nat hf

def OrdTxn.ratio (o : OrdTxn) : ℚ := o.rewards / o.computeEst

def bundleL : ℚ := bundleLPrime / 2 ^ 32

structure Within (j k : Nat) (o : OrdTxn) : Prop where
  cost : CostInRange o.computeEst
  low : bundleL * j ≤ o.ratio
  high : o.ratio < bundleL * j + 2 * k / 1020 + 1 / o.computeEst

lemma CostInRange.pos (hr : CostInRange cost) : (0 : ℚ) < cost := by
  have hl := hr.1
  exact_mod_cast (by omega : 0 < cost)

lemma CostInRange.inv (hr : CostInRange cost) : (1 : ℚ) / cost ≤ 1 / 1020 := by
  refine one_div_le_one_div_of_le (by norm_num) ?_
  exact_mod_cast hr.1

section
variable (hi : Within j k o)
include hi

lemma Within.mono {k' : Nat} (le : k ≤ k') : Within j k' o := by
  refine ⟨hi.cost, hi.low, hi.high.trans_le ?_⟩
  have le : (k : ℚ) ≤ k' := by exact_mod_cast le
  linarith

lemma Within.lt (hf : k ≤ 4) : o.ratio < bundleL * (j + 1) := by
  have hn := hi.cost.inv
  have hh := (hi.mono hf).high
  have hw : (9 : ℚ) / 1020 ≤ bundleL := by norm_num [bundleL, bundleLPrime]
  push_cast at hh
  linarith

lemma Within.rewards_lt (hf : k ≤ 4) (hx : j ≤ bundleN) : o.rewards < 2 ^ 32 := by
  have ho := hi.cost.pos
  have hh := (hi.mono hf).high
  have hm : (j : ℚ) ≤ bundleN := by exact_mod_cast hx
  have ht : bundleL * j ≤ bundleL * bundleN := mul_le_mul_of_nonneg_left hm (by norm_num [bundleL, bundleLPrime])
  have hc : (o.computeEst : ℚ) ≤ 1551570 := by exact_mod_cast hi.cost.2
  have hr : (o.rewards : ℚ) = o.ratio * o.computeEst := by
    rw [OrdTxn.ratio, div_mul_cancel₀ _ ho.ne']
  have hn : (1 : ℚ) / o.computeEst * o.computeEst = 1 := div_mul_cancel₀ _ ho.ne'
  have hl : o.ratio < bundleL * bundleN + 8 / 1020 + 1 / o.computeEst := by
    push_cast at hh
    linarith
  have hp := mul_lt_mul_of_pos_right hl ho
  rw [← hr, add_mul, hn] at hp
  norm_num [bundleL, bundleLPrime, bundleN] at hp
  have hs : (o.rewards : ℚ) < 4294967296 := by linarith
  exact_mod_cast hs

lemma Within.idx (hf : k ≤ 4) (hm : j ≤ bundleN) : rcToRelBundleIdx o.rewards o.computeEst = bundleN - j := by
  have ho := hi.cost.pos
  have hs : o.rewards * 2 ^ 32 < wordSize := Nat.mul_lt_mul_of_pos_right (hi.rewards_lt hf hm) (by decide)
  have hl := hi.low
  have hh := hi.lt hf
  rw [OrdTxn.ratio, bundleL, div_mul_eq_mul_div, div_le_div_iff₀ (by norm_num) ho] at hl
  rw [OrdTxn.ratio, bundleL, div_mul_eq_mul_div, div_lt_div_iff₀ ho (by norm_num)] at hh
  have hl : bundleLPrime * j * o.computeEst ≤ o.rewards * 2 ^ 32 := by exact_mod_cast hl
  have hh : o.rewards * 2 ^ 32 < bundleLPrime * (j + 1) * o.computeEst := by exact_mod_cast hh
  have hc : o.computeEst * bundleLPrime < wordSize :=
    lt_of_le_of_lt (Nat.mul_le_mul_right _ hi.cost.2) (by decide)
  have hp : o.rewards * 2 ^ 32 / (o.computeEst * bundleLPrime) = j := by
    refine Nat.div_eq_of_lt_le ?_ ?_
    · linarith
    · linarith
  unfold rcToRelBundleIdx
  rw [Nat.mod_eq_of_lt hs, Nat.mod_eq_of_lt hc, hp]
  exact wsub_of_le hm (by decide)

end

lemma compareWorse_iff (left : CostInRange x.computeEst) (hi : CostInRange y.computeEst)
    (hs : x.rewards < 2 ^ 32) (hm : y.rewards < 2 ^ 32) : compareWorse x y = true ↔ x.ratio < y.ratio := by
  have hb : ∀ r c : Nat, r < 2 ^ 32 → CostInRange c → r * c < wordSize := by
    intro r c hs hr
    have hp : r * c ≤ 2 ^ 32 * 1551570 := Nat.mul_le_mul hs.le hr.2
    exact hp.trans_lt (by decide)
  unfold compareWorse OrdTxn.ratio
  rw [Nat.mod_eq_of_lt (hb _ _ hs hi), Nat.mod_eq_of_lt (hb _ _ hm left), decide_eq_true_iff,
    div_lt_div_iff₀ left.pos hi.pos]
  norm_cast

lemma Within.step (hw : Within j k o) (hr : CostInRange cost) :
    Within j (k + 1) ⟨scaled cost (o.rewards + 1) o.computeEst, cost⟩ ∧
      o.ratio < OrdTxn.ratio ⟨scaled cost (o.rewards + 1) o.computeEst, cost⟩ := by
  have pos := hw.cost.pos
  have hp := hr.pos
  obtain ⟨ho, hh⟩ := @scaled_bounds (o.rewards + 1) o.computeEst cost (by exact_mod_cast pos)
  generalize scaled cost (o.rewards + 1) o.computeEst = rewards at ho hh
  have hl : o.ratio + 1 / o.computeEst ≤ rewards / cost := by
    rw [OrdTxn.ratio, ← add_div, div_le_div_iff₀ pos hp, mul_comm]
    exact_mod_cast ho
  have ha : (rewards : ℚ) / cost < o.ratio + 1 / o.computeEst + 1 / cost := by
    rw [OrdTxn.ratio, ← add_div, div_add_div _ _ pos.ne' hp.ne', div_lt_div_iff₀ hp (mul_pos pos hp)]
    have hh : (rewards : ℚ) * o.computeEst < cost * (o.rewards + 1) + o.computeEst := by exact_mod_cast hh
    have scaled := mul_lt_mul_of_pos_right hh hp
    linarith
  have hm : (0 : ℚ) < 1 / o.computeEst := one_div_pos.mpr pos
  have inv := hw.cost.inv
  have hb := hw.high
  have ho := hw.low
  have hs : OrdTxn.ratio ⟨rewards, cost⟩ = rewards / cost := rfl
  refine ⟨⟨hr, ?_, ?_⟩, ?_⟩ <;> rw [hs]
  · linarith
  · push_cast
    linarith
  · linarith

section
variable (ha : CostInRange cost)
include ha

lemma within_first : Within j 0 ⟨scaled cost (bundleLPrime * j) (2 ^ 32), cost⟩ := by
  have hp := ha.pos
  obtain ⟨hl, hh⟩ := @scaled_bounds (bundleLPrime * j) (2 ^ 32) cost (by decide)
  generalize scaled cost (bundleLPrime * j) (2 ^ 32) = rewards at hl hh
  have hl : (cost : ℚ) * (bundleLPrime * j) ≤ rewards * 2 ^ 32 := by exact_mod_cast hl
  have hh : (rewards : ℚ) * 2 ^ 32 < cost * (bundleLPrime * j) + 2 ^ 32 := by exact_mod_cast hh
  refine ⟨ha, ?_, ?_⟩
  · rw [OrdTxn.ratio, le_div_iff₀ hp, bundleL]
    linarith
  · rw [OrdTxn.ratio, div_lt_iff₀ hp, add_mul, div_mul_cancel₀ _ hp.ne', bundleL]
    push_cast
    linarith

lemma nextReward_exact (hw : Within j k o) (hf : k < 4) (hm : j ≤ bundleN) :
    nextReward o.rewards o.computeEst cost = pure (scaled cost (o.rewards + 1) o.computeEst) := by
  have hs := hw.rewards_lt (le_of_lt hf) hm
  have hp : cost * (o.rewards + 1) ≤ 1551570 * 2 ^ 32 := Nat.mul_le_mul ha.2 hs
  obtain ⟨hl, hh⟩ := hw.cost
  rw [nextReward, show (o.rewards : Int) + 1 = (o.rewards + 1 : Nat) by rfl, fit_nat (by omega), pure_bind]
  exact scaleUp_exact (by omega) (by omega) ((hw.step ha).1.rewards_lt hf hm)

lemma first_reward (hx : j ≤ bundleN) :
    (fit 64 ((bundleLPrime * j : Nat) - 1) >>= fun prevReward => nextReward prevReward (2 ^ 32) cost) = fun lost =>
      (scaled cost (bundleLPrime * j) (2 ^ 32), if j = 0 then lost + 2 else lost) := by
  have hm : bundleLPrime * j ≤ bundleLPrime * bundleN := Nat.mul_le_mul_left _ hx
  have hs : cost * (bundleLPrime * j) + 2 ^ 32 < 2 ^ 64 :=
    (Nat.add_le_add_right (Nat.mul_le_mul ha.2 hm) _).trans_lt (by decide)
  have hw : bundleLPrime * j < 2 ^ 64 := hm.trans_lt (by decide)
  have hr := scaleUp_exact (by decide) hs ((@within_first j cost ha).rewards_lt (by decide) hx)
  by_cases hl : j = 0
  · subst hl
    have hb : fit 64 ((bundleLPrime * 0 : Nat) - 1) = fun lost => (2 ^ 64 - 1, lost + 1) := rfl
    have hc : fit 64 ((2 ^ 64 - 1 : Nat) + 1) = fun lost => (bundleLPrime * 0, lost + 1) := rfl
    funext lost
    rw [bind_run, hb, nextReward, bind_run, hc]
    exact congrFun hr (lost + 2)
  · have hp : 0 < bundleLPrime * j := Nat.mul_pos (by decide) (Nat.pos_of_ne_zero hl)
    have hn : ((bundleLPrime * j - 1 : Nat) : Int) + 1 = (bundleLPrime * j : Nat) := by omega
    rw [fit_pred hp hw.le, pure_bind, nextReward, hn, fit_nat hw, pure_bind, hr]
    simp only [if_neg hl]
    rfl

end

structure Filled (j k : Nat) (done : List OrdTxn) : Prop where
  within : ∀ o ∈ done, Within j k o
  sorted : done.Pairwise fun x y => y.ratio < x.ratio

lemma Filled.cons {p : OrdTxn} (hf : Filled j k (o :: done)) (hw : Within j (k + 1) p)
    (ha : o.ratio < p.ratio) : Filled j (k + 1) (p :: o :: done) := by
  refine ⟨forall_mem_cons.mpr ⟨hw, fun q hm => (hf.within q hm).mono (Nat.le_succ k)⟩, ?_⟩
  refine pairwise_cons.mpr ⟨forall_mem_cons.mpr ⟨ha, fun q hm => ?_⟩, hf.sorted⟩
  exact ((pairwise_cons.mp hf.sorted).1 q hm).trans ha

lemma assign_filled (m : j ≤ bundleN) (before : List Nat) (hi : Filled j k (o :: done))
    (hr : k + before.length ≤ 4) (hs : ∀ cost ∈ before, CostInRange cost) :
    ∃ l, assign o.rewards o.computeEst (o :: done) before = pure l ∧ Filled j 4 l ∧
      l.map OrdTxn.computeEst = before.reverse ++ (o :: done).map OrdTxn.computeEst := by
  induction before generalizing o k done with
  | nil =>
    exact ⟨o :: done, rfl, ⟨fun q hm => (hi.within q hm).mono hr, hi.sorted⟩, rfl⟩
  | cons cost before ih =>
    obtain ⟨he, hs⟩ := forall_mem_cons.mp hs
    rw [length_cons] at hr
    have hl := hi.within o (.head _)
    obtain ⟨hw, ha⟩ := hl.step he
    obtain ⟨l, run, hf, hc⟩ := ih (hi.cons hw ha) (by omega) hs
    refine ⟨l, ?_, hf, ?_⟩
    · unfold assign
      rw [nextReward_exact he hl (by omega) m, pure_bind]
      exact run
    · rw [hc, reverse_cons, append_assoc]
      rfl

lemma insertBundleImpl_filled (costs : List Nat) (m : b ≤ bundleN) (ho : 1 ≤ costs.length)
    (he : costs.length ≤ 5) (hn : ∀ cost ∈ costs, CostInRange cost) :
    ∃ l, insertBundleImpl b costs 0 = (l, if b = bundleN then 2 else 0) ∧ Filled (bundleN - b) 4 l ∧
      l.map OrdTxn.computeEst = costs := by
  have hm : bundleLPrime * (bundleN - b) ≤ bundleLPrime * bundleN := Nat.mul_le_mul_left _ (Nat.sub_le _ _)
  rw [show bundleLPrime * bundleN = 11889012894891 by decide] at hm
  cases hr : costs.reverse with
  | nil =>
    rw [reverse_eq_nil_iff.mp hr] at ho
    cases ho
  | cons cost before =>
    have eq : costs = before.reverse ++ [cost] := by
      rw [← costs.reverse_reverse, hr, reverse_cons]
    subst eq
    have ha := hn cost (mem_append_right _ (.head _))
    rw [length_append, length_reverse, length_singleton] at he
    have hf : Filled (bundleN - b) 0 [⟨scaled cost (bundleLPrime * (bundleN - b)) (2 ^ 32), cost⟩] :=
      ⟨forall_mem_singleton.mpr (within_first ha), pairwise_singleton _ _⟩
    obtain ⟨l, hb, hu, hs⟩ := assign_filled (Nat.sub_le _ _) before hf (by omega)
      fun c hx => hn c (mem_append_left _ (mem_reverse.mpr hx))
    refine ⟨l, ?_, hu, hs⟩
    unfold insertBundleImpl
    rw [hr, show (bundleN : Int) - b = (bundleN - b : Nat) by omega, fit_nat (by unfold bundleN; omega), pure_bind]
    rw [← Nat.cast_mul, fit_nat (by omega), pure_bind]
    unfold assign
    rw [← bind_assoc, first_reward ha (Nat.sub_le _ _)]
    change assign _ _ _ before _ = _
    rw [hb]
    have hl : bundleN - b = 0 ↔ b = bundleN := by omega
    simp only [hl]
    rfl

lemma Within.worse {b' : Nat} (hf : Within (bundleN - b) 4 x) (he : Within (bundleN - b') 4 y)
    (hl : b < b') (hx : b' ≤ bundleN) : compareWorse y x = true := by
  have hs := hf.rewards_lt (le_refl 4) (Nat.sub_le _ _)
  have hm := he.rewards_lt (le_refl 4) (Nat.sub_le _ _)
  refine (compareWorse_iff he.cost hf.cost hm hs).mpr ((he.lt (le_refl 4)).trans_le ?_)
  have ne : ((bundleN - b' : Nat) : ℚ) + 1 ≤ (bundleN - b : Nat) := by exact_mod_cast (by omega)
  exact (mul_le_mul_of_nonneg_left ne (by norm_num [bundleL, bundleLPrime])).trans hf.low

/-- Up to five transactions of each bundle are in the order of the bundles and, inside a bundle,
in its own. No value is lost on the way, but at the last index the first reward is computed from
zero less one. -/
theorem bundle_order_encoded (b : Nat) (m : b ≤ bundleN) (costs : List Nat) (one : 1 ≤ costs.length)
    (few : costs.length ≤ 5) (ranges : ∀ cost ∈ costs, CostInRange cost) :
    ∃ l, insertBundleImpl b costs 0 = (l, if b = bundleN then 2 else 0) ∧ l.map OrdTxn.computeEst = costs ∧
      (∀ o ∈ l, o.rewards < 2 ^ 32 ∧ rcToRelBundleIdx o.rewards o.computeEst = b) ∧
      l.Pairwise (fun x y => y.ratio < x.ratio) ∧
      ∀ b' ≤ bundleN, b < b' → ∀ costs' : List Nat, 1 ≤ costs'.length → costs'.length ≤ 5 →
        (∀ cost ∈ costs', CostInRange cost) → ∀ x ∈ l, ∀ y ∈ (insertBundleImpl b' costs' 0).1, compareWorse y x = true := by
  obtain ⟨l, run, filled, same⟩ := insertBundleImpl_filled costs m one few ranges
  refine ⟨l, run, same, fun o mem => ?_, filled.sorted, ?_⟩
  · have within := filled.within o mem
    refine ⟨within.rewards_lt (le_refl 4) (Nat.sub_le _ _), ?_⟩
    rw [within.idx (le_refl 4) (Nat.sub_le _ _)]
    omega
  · intro b' inside' later costs' one' few' ranges' x mem y mem'
    obtain ⟨l', run', filled', -⟩ := insertBundleImpl_filled costs' inside' one' few' ranges'
    rw [run'] at mem'
    exact (filled.within x mem).worse (filled'.within y mem') later inside'

theorem bundle_of_two_ordered : ∃ l, insertBundleImpl 7 [1020, 1551570] 0 = (l, 0) ∧
    l.Pairwise (fun x y => y.ratio < x.ratio) := by
  obtain ⟨l, run, -, -, sorted, -⟩ := bundle_order_encoded 7 (by decide) [1020, 1551570] (by decide) (by decide)
    (by unfold CostInRange; decide)
  exact ⟨l, run, sorted⟩

/-- The last index is in range, and two operations wrap. -/
theorem last_bundle_wraps : ∃ b ≤ bundleN, ∃ cost, CostInRange cost ∧ (insertBundleImpl b [cost] 0).2 = 2 :=
  ⟨bundleN, by decide, 1020, by unfold CostInRange; decide, by decide +kernel⟩

end Firebam.Bundle
