import Firebam.CostTracker.Basic

namespace Firebam.CostTracker

variable {count limit held : Nat} {t : Tracker} {txn : Txn} {accounts : List AccountCost}

open Lib List

/-- What the callers promise about a transaction. -/
@[mk_iff]
structure Txn.Sound (txn : Txn) : Prop where
  signed : 1 ≤ txn.signatureCnt.toNat
  few : txn.accounts.length ≤ 64
  counted : txn.writable.length ≤ txn.writableCnt.toNat

instance (txn : Txn) : Decidable txn.Sound := decidable_of_iff' _ txn.sound_iff

lemma Txn.Sound.writable_le (h : txn.Sound) : txn.writable.length ≤ 64 := by
  unfold Txn.writable
  rw [length_map]
  exact Nat.le_trans (length_filter_le _ _) h.few

lemma cost_ge (h : txn.Sound) (allowPrefund : Bool) :
    720 + 300 * txn.writable.length ≤ transactionCostSum (calculateCost allowPrefund txn) := by
  have hf := h.writable_le
  have hs : 720 ≤ getSignatureCost txn := by
    have := h.signed
    simp only [getSignatureCost, uintSatAdd, uintSatMul, uintMax, costPerSignature]
    omega
  have hl : 300 * txn.writable.length ≤ getWriteLockCost txn.writableCnt.toNat := by
    have := h.counted
    simp only [getWriteLockCost, uintSatMul, uintMax, writeLockUnits]
    omega
  simp only [transactionCostSum, calculateCost, uintSatAdd, uintMax] at *
  omega

section

variable (adjustment : Nat)

lemma addAccount_ok (key : Pubkey) (hr : accounts.length < maxTxnAccWritesPerSlot) :
    ∃ next, addAccount adjustment accounts key = .ok next ∧ next.length ≤ accounts.length + 1 := by
  unfold addAccount
  split
  · rw [check_of _ hr]
    exact ⟨_, rfl, Nat.le_of_eq length_append⟩
  · exact ⟨_, rfl, by rw [length_map]; omega⟩

lemma addAccounts_ok (keys : List Pubkey) (hr : accounts.length + keys.length ≤ maxTxnAccWritesPerSlot) :
    ∃ next, keys.foldlM (addAccount adjustment) accounts = .ok next ∧ next.length ≤ accounts.length + keys.length := by
  induction keys generalizing accounts with
  | nil => exact ⟨accounts, rfl, Nat.le_refl _⟩
  | cons key keys ih =>
    rw [length_cons] at hr ⊢
    obtain ⟨middle, hf, hg⟩ := addAccount_ok adjustment key (by omega : accounts.length < maxTxnAccWritesPerSlot)
    obtain ⟨next, hl, hm⟩ := ih (by omega : middle.length + keys.length ≤ maxTxnAccWritesPerSlot)
    refine ⟨next, ?_, by omega⟩
    rw [foldlM_cons]
    exact bind_ok.mpr ⟨middle, hf, hl⟩

end

/-- The block has paid for its accounts: `count` transactions were added, none with more than 64
writable accounts. -/
structure Paid (limit : Nat) (t : Tracker) (count : Nat) : Prop where
  limited : t.blockCostLimit = limit
  within : t.blockCost ≤ limit
  paid : 720 * count + 300 * t.accounts.length ≤ t.blockCost
  spread : t.accounts.length ≤ 64 * count

lemma within_of_fits {cost : UsageCost} {x : Unit} (hf : wouldFit t txn cost = .ok x) :
    ulongSatAdd t.blockCost (transactionCostSum cost) ≤ t.blockCostLimit :=
  (check_ok.mp hf).1

lemma Paid.room (h : Paid limit t count) (hb : limit ≤ 87500000) {cost writable : Nat}
    (hr : 720 + 300 * writable ≤ cost) (he : writable ≤ 64) (hf : ulongSatAdd t.blockCost cost ≤ t.blockCostLimit) :
    t.accounts.length + writable ≤ maxTxnAccWritesPerSlot := by
  have hs : t.blockCost + cost ≤ 87500000 := by
    have := h.limited
    simp only [ulongSatAdd, ulongMax] at hf
    omega
  have ha := h.paid
  have hp := h.spread
  unfold maxTxnAccWritesPerSlot
  omega

lemma Paid.step (h : Paid limit t count) (hb : limit ≤ 87500000) (hs : txn.Sound) (allowPrefund : Bool) :
    ∃ next, step allowPrefund t txn = .ok next ∧ ∃ count, Paid limit next count := by
  unfold CostTracker.step tryAddCost
  cases ht : wouldFit t txn (calculateCost allowPrefund txn) with
  | error err => exact ⟨t, rfl, count, h⟩
  | ok x =>
    have hf := within_of_fits ht
    have hp := cost_ge hs allowPrefund
    have he := hs.writable_le
    generalize transactionCostSum (calculateCost allowPrefund txn) = cost at hf hp ⊢
    obtain ⟨accounts, ha, hg⟩ := addAccounts_ok cost txn.writable (h.room hb hp he hf)
    refine ⟨_, map_ok.mpr ⟨_, bind_ok.mpr ⟨_, bind_ok.mpr ⟨accounts, ha, rfl⟩, rfl⟩, rfl⟩, count + 1, ?_⟩
    have hl := h.limited
    have hi := h.paid
    have hd := h.spread
    have hm : t.blockCost + cost ≤ limit := by
      simp only [ulongSatAdd, ulongMax] at hf
      omega
    have hu : ulongSatAdd t.blockCost cost = t.blockCost + cost := by
      simp only [ulongSatAdd, ulongMax]
      omega
    refine ⟨hl, ?_, ?_, ?_⟩
    · show ulongSatAdd t.blockCost cost ≤ limit
      omega
    · show 720 * (count + 1) + 300 * accounts.length ≤ ulongSatAdd t.blockCost cost
      omega
    · show accounts.length ≤ 64 * (count + 1)
      omega

lemma init_limit (regime : Regime) (raise : Bool) (hc : ¬ (regime = .ms400 ∧ raise = true)) :
    (init regime.params raise false).blockCostLimit ≤ 87500000 := by
  cases regime <;> cases raise <;> first | decide | exact absurd ⟨rfl, rfl⟩ hc

lemma init_paid (params : SlotParams) (raise : Bool) :
    Paid (init params raise false).blockCostLimit (init params raise false) 0 :=
  ⟨rfl, Nat.zero_le _, Nat.le_refl _, Nat.le_refl _⟩

/-- With any regime and setting of the feature other than 400 ms with raised limits, no sequence
of transactions overflows the account table. -/
theorem accounts_never_overflow (regime : Regime) (raise : Bool) (covered : ¬ (regime = .ms400 ∧ raise = true))
    (allowPrefund : Bool) (txns : List Txn) (sound : ∀ txn ∈ txns, txn.Sound) :
    ∃ t, run (step allowPrefund) (init regime.params raise false) txns = .ok t ∧
      t.accounts.length ≤ maxTxnAccWritesPerSlot := by
  have bounded := init_limit regime raise covered
  obtain ⟨t, ran, count, paid⟩ := run_allowed (step allowPrefund) (fun _ txn => txn.Sound)
    (fun t => ∃ count, Paid (init regime.params raise false).blockCostLimit t count)
    (fun _ _ ⟨_, paid⟩ sound => paid.step bounded sound allowPrefund)
    ⟨0, init_paid regime.params raise⟩ (allowed_of_forall sound _)
  refine ⟨t, ran, ?_⟩
  have limit := paid.within
  have cost := paid.paid
  have spread := paid.spread
  unfold maxTxnAccWritesPerSlot
  omega

def sampleTxns : List Txn :=
  [⟨1, 2, [], [⟨7, true⟩, ⟨8, true⟩, ⟨9, false⟩], 0, 0, 0⟩, ⟨2, 3, [], [⟨8, true⟩, ⟨9, true⟩, ⟨10, true⟩], 0, 0, 0⟩,
    ⟨1, 1, [], [⟨7, true⟩, ⟨10, false⟩], 0, 0, 0⟩]

/-- The theorem at the regime the table was sized for. -/
theorem sample_accounts_never_overflow : (∀ txn ∈ sampleTxns, txn.Sound) ∧
    ∃ t, run (step true) (init Regime.ms350.params true false) sampleTxns = .ok t ∧
      t.accounts.length ≤ maxTxnAccWritesPerSlot :=
  ⟨by decide, accounts_never_overflow .ms350 true (by decide) true _ (by decide)⟩

/-! ### Raised limits in the 400 ms regime

The block limit is then 100 million units. A block of transactions with 64 fresh writable accounts
each costs 19920 units a transaction, and the 4393rd one fits the limit but not the table. -/

def spreadTxn (position : Nat) : Txn where
  signatureCnt := 1
  writableCnt := 64
  instrs := []
  accounts := (List.range 64).map fun j => ⟨64 * position + j, true⟩
  computeUnitLimit := 0
  computeMeter := 0
  loadedAccountsDataSize := 0

lemma spreadTxn_writable (position : Nat) : (spreadTxn position).writable = (List.range 64).map (64 * position + ·) := by
  simp only [Txn.writable, spreadTxn]
  rw [filter_eq_self.mpr (by simp)]
  simp

lemma spreadTxn_sound (position : Nat) : (spreadTxn position).Sound where
  signed := by show 1 ≤ (1 : UInt8).toNat; decide
  few := by simp [spreadTxn]
  counted := by
    rw [spreadTxn_writable]
    simp [spreadTxn]

section
variable (allowPrefund : Bool)

lemma calculateCost_accounts (txn : Txn) (accounts : List Account) :
    calculateCost allowPrefund { txn with accounts := accounts } = calculateCost allowPrefund txn := rfl

lemma spreadTxn_calculateCost (position : Nat) :
    calculateCost allowPrefund (spreadTxn position) = ⟨720, 19200, 0, 0, 0, 0⟩ := by
  have hf : ∀ allowPrefund, calculateCost allowPrefund (spreadTxn 0) = ⟨720, 19200, 0, 0, 0, 0⟩ := by decide +kernel
  exact (calculateCost_accounts allowPrefund (spreadTxn 0) _).trans (hf allowPrefund)

lemma spreadTxn_cost (position : Nat) :
    transactionCostSum (calculateCost allowPrefund (spreadTxn position)) = 19920 := by
  rw [spreadTxn_calculateCost]
  decide

lemma spreadTxn_allocated (position : Nat) :
    (calculateCost allowPrefund (spreadTxn position)).allocatedAccountsDataSize = 0 := by
  rw [spreadTxn_calculateCost]

end

structure Filled (count : Nat) (t : Tracker) : Prop where
  blockCost : t.blockCost = 19920 * count
  allocated : t.allocatedAccountsDataSize = 0
  blockCostLimit : t.blockCostLimit = 100000000
  accountCostLimit : t.accountCostLimit = 40000000
  dataSizeLimit : t.dataSizeLimit = 100000000
  accounts : t.accounts.map (·.account) = List.range (64 * count)

lemma init_filled : Filled 0 (init Regime.ms400.params true false) := ⟨rfl, rfl, rfl, rfl, rfl, rfl⟩

lemma find_numbered {key : Nat}
    (hn : accounts.map (·.account) = List.range held) (hf : held ≤ key) : find accounts key = none := by
  refine find?_eq_none.mpr fun a hm => ?_
  have m : a.account ∈ List.range held := hn ▸ mem_map_of_mem hm
  have hb := mem_range.mp m
  simp only [decide_eq_true_eq]
  exact Nat.ne_of_lt (Nat.lt_of_lt_of_le hb hf)

lemma addNumbered (adjustment : Nat)
    (hn : accounts.map (·.account) = List.range held) (more : Nat) (hr : held + more ≤ maxTxnAccWritesPerSlot) :
    ∃ next, ((List.range more).map (held + ·)).foldlM (addAccount adjustment) accounts = .ok next ∧
      next.map (·.account) = List.range (held + more) := by
  induction more with
  | zero => exact ⟨accounts, rfl, hn⟩
  | succ more ih =>
    obtain ⟨middle, hf, hl⟩ := ih (by omega)
    have hu : middle.length = held + more := by
      have := congrArg List.length hl
      rwa [length_map, length_range] at this
    rw [range_succ, map_append, foldlM_append]
    refine ⟨middle ++ [⟨held + more, adjustment⟩], bind_ok.mpr ⟨middle, hf, ?_⟩, ?_⟩
    · simp only [map_cons, map_nil, foldlM_cons, foldlM_nil]
      unfold addAccount
      rw [find_numbered hl (Nat.le_refl _)]
      simp only
      rw [check_of _ (by omega)]
      rfl
    · rw [map_append, hl, map_singleton, ← range_succ]
      rfl

lemma spreadTxn_fits (h : Filled count t) (he : count ≤ 4392) (allowPrefund : Bool) :
    wouldFit t (spreadTxn count) (calculateCost allowPrefund (spreadTxn count)) = .ok () := by
  unfold wouldFit
  simp only [spreadTxn_cost, spreadTxn_allocated, h.blockCost, h.allocated, h.blockCostLimit, h.accountCostLimit, h.dataSizeLimit]
  rw [check_of _ (by simp only [ulongSatAdd, ulongMax]; omega), check_of _ (by decide),
    check_of _ (by decide)]
  refine require_of _ _ fun key hm chained hh => ?_
  rw [spreadTxn_writable] at hm
  obtain ⟨j, _, rfl⟩ := mem_map.mp hm
  rw [find_numbered h.accounts (Nat.le_add_right _ _)] at hh
  cases hh

lemma Filled.step (h : Filled count t) (he : count < 4392) (allowPrefund : Bool) :
    ∃ next, step allowPrefund t (spreadTxn count) = .ok next ∧ Filled (count + 1) next := by
  obtain ⟨accounts, ha, hn⟩ := addNumbered 19920 h.accounts 64 (by unfold maxTxnAccWritesPerSlot; omega)
  unfold CostTracker.step tryAddCost
  rw [spreadTxn_fits h (by omega) allowPrefund]
  simp only [spreadTxn_cost, spreadTxn_allocated, addTransactionExecutionCost, spreadTxn_writable]
  refine ⟨_, map_ok.mpr ⟨_, bind_ok.mpr ⟨_, bind_ok.mpr ⟨accounts, ha, rfl⟩, rfl⟩, rfl⟩, ?_⟩
  refine ⟨?_, ?_, h.blockCostLimit, h.accountCostLimit, h.dataSizeLimit, hn⟩
  · show ulongSatAdd t.blockCost 19920 = 19920 * (count + 1)
    rw [h.blockCost]
    simp only [ulongSatAdd, ulongMax]
    omega
  · show (t.allocatedAccountsDataSize + 0) % 2 ^ 64 = 0
    simp [h.allocated]

lemma filled_run (allowPrefund : Bool) (he : count ≤ 4392) :
    ∃ t, run (step allowPrefund) (init Regime.ms400.params true false) ((List.range count).map spreadTxn) = .ok t ∧
      Filled count t := by
  induction count with
  | zero => exact ⟨_, rfl, init_filled⟩
  | succ count ih =>
    obtain ⟨t, hr, hf⟩ := ih (by omega)
    obtain ⟨next, hs, hm⟩ := hf.step (by omega) allowPrefund
    refine ⟨next, ?_, hm⟩
    rw [range_succ, map_append]
    exact (run_append_ok _).mpr ⟨t, hr, (run_cons_ok _).mpr ⟨next, hs, rfl⟩⟩

lemma Filled.overflow (h : Filled 4392 t) (allowPrefund : Bool) :
    CostTracker.step allowPrefund t (spreadTxn 4392) = .error .accountsUsed := by
  obtain ⟨full, ha, hn⟩ := addNumbered 19920 h.accounts 35 (by unfold maxTxnAccWritesPerSlot; omega)
  have hu : full.length = 281123 := by
    have := congrArg List.length hn
    rwa [length_map, length_range] at this
  have hk : (List.range 64).map (64 * 4392 + ·) =
      (List.range 35).map (64 * 4392 + ·) ++ 281123 :: (List.range 28).map (281124 + ·) := by decide +kernel
  have next : addAccount 19920 full 281123 = .error .accountsUsed := by
    unfold addAccount
    rw [find_numbered hn (by omega)]
    simp [require, hu, maxTxnAccWritesPerSlot]
    rfl
  unfold CostTracker.step tryAddCost
  rw [spreadTxn_fits h (by omega) allowPrefund]
  simp only [spreadTxn_cost, spreadTxn_allocated, addTransactionExecutionCost, spreadTxn_writable]
  rw [hk, foldlM_append, ha]
  simp only [foldlM_cons, bind, Except.bind, next]
  rfl

/-- In the 400 ms regime with raised limits a block of 4393 transactions ends in the assertion. -/
theorem raised_block_overflows :
    (∀ txn ∈ (List.range 4393).map spreadTxn, txn.Sound) ∧
    run (step false) (init Regime.ms400.params true false) ((List.range 4393).map spreadTxn) = .error .accountsUsed := by
  constructor
  · intro txn mem
    obtain ⟨position, _, rfl⟩ := mem_map.mp mem
    exact spreadTxn_sound position
  · obtain ⟨t, ran, filled⟩ := filled_run false (Nat.le_refl 4392)
    have last := filled.overflow false
    rw [range_succ, map_append]
    exact run_append_error _ ran (by simp only [map_cons, map_nil, run, last])

end Firebam.CostTracker
