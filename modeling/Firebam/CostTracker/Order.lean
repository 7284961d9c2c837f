import Firebam.CostTracker.Basic

namespace Firebam.CostTracker

open Lib List

variable {all : List Pubkey} {accounts : List AccountCost} {key : Pubkey} {start t : Tracker}
  {l r : List (Txn × UsageCost)} {x : Txn × UsageCost} {f : Txn × UsageCost → Nat} {c : Nat}

/-- The transactions of a block with the costs they were given, in the order they are committed. -/
abbrev Block := List (Txn × UsageCost)

def addAll (t : Tracker) : Block → Except Fault (Option Tracker)
  | [] => .ok (some t)
  | x :: xs => do
    match ← tryAddCost t x.1 x.2 with
    | (t, none) => addAll t xs
    | (_, some _) => .ok none

def costOf (x : Txn × UsageCost) : Nat := transactionCostSum x.2

def sizeOf (x : Txn × UsageCost) : Nat := x.2.allocatedAccountsDataSize

def chargeOf (key : Pubkey) (x : Txn × UsageCost) : Nat := if key ∈ x.1.writable then costOf x else 0

def total (f : Txn × UsageCost → Nat) (l : Block) : Nat := (l.map f).sum

def held (accounts : List AccountCost) (key : Pubkey) : Nat := (find accounts key).elim 0 (·.cost)

structure Fits (t : Tracker) (l : Block) : Prop where
  block : total costOf l ≤ t.blockCostLimit
  single : ∀ x ∈ l, costOf x ≤ t.accountCostLimit
  size : total sizeOf l ≤ t.dataSizeLimit
  account : ∀ key, total (chargeOf key) l ≤ t.accountCostLimit

structure Table (all : List Pubkey) (accounts : List AccountCost) : Prop where
  nodup : (accounts.map (·.account)).Nodup
  within : ∀ key ∈ accounts.map (·.account), key ∈ all

structure Sums (all : List Pubkey) (start : Tracker) (l : Block) (t : Tracker) : Prop where
  table : Table all t.accounts
  eq : t = { start with blockCost := total costOf l, allocatedAccountsDataSize := total sizeOf l, accounts := t.accounts }
  held : ∀ key, held t.accounts key = total (chargeOf key) l

structure Small (t : Tracker) : Prop where
  block : t.blockCostLimit < ulongMax
  size : t.dataSizeLimit < ulongMax
  account : t.accountCostLimit < uintMax

lemma held_append (ha : find accounts key = none) (k : Pubkey) :
    held (accounts ++ [⟨key, c⟩]) k = held accounts k + if k = key then c else 0 := by
  unfold held find at *
  rw [find?_append]
  by_cases hk : k = key
  · subst hk
    simp [ha]
  · have hn : decide (key = k) = false := decide_eq_false fun h => hk h.symm
    simp [hn, hk]

lemma find_account {a : AccountCost} (h : find accounts key = some a) : a.account = key := by
  unfold find at h
  simpa using find?_some h

lemma find_map {f : AccountCost → AccountCost} (hf : ∀ a, (f a).account = a.account) (k : Pubkey) :
    find (accounts.map f) k = (find accounts k).map f := by
  unfold find
  rw [find?_map]
  simp [hf]

lemma addAccount_held (ht : Table all accounts) (hk : key ∈ all) (hr : all.length ≤ maxTxnAccWritesPerSlot)
    (hc : held accounts key + c ≤ uintMax) :
    ∃ next, addAccount c accounts key = .ok next ∧ Table all next ∧
      ∀ k, held next k = held accounts k + if k = key then c else 0 := by
  unfold addAccount
  cases hf : find accounts key with
  | none =>
    have hn : key ∉ accounts.map (·.account) := by
      intro h
      obtain ⟨a, ha, rfl⟩ := mem_map.mp h
      simpa using find?_eq_none.mp hf a ha
    have hnew : ((accounts ++ [(⟨key, c⟩ : AccountCost)]).map (·.account)).Nodup := by
      rw [map_append]
      refine nodup_append.mpr ⟨ht.nodup, nodup_singleton _, fun a ha b hb h => hn ?_⟩
      rw [h, mem_singleton.mp hb] at ha
      exact ha
    have hall : ∀ k ∈ (accounts ++ [(⟨key, c⟩ : AccountCost)]).map (·.account), k ∈ all := by
      intro k h
      rw [map_append, mem_append] at h
      exact h.elim (ht.within k) fun h => mem_singleton.mp h ▸ hk
    have hl := (subperm_of_subset hnew hall).length_le
    rw [length_map, length_append, length_singleton] at hl
    exact ⟨_, check_of _ (by omega) _, ⟨hnew, hall⟩, held_append hf⟩
  | some a =>
    have ha := find_account hf
    have hm : ∀ x : AccountCost, (if x.account = key then { x with cost := uintSatAdd x.cost c } else x).account =
        x.account := fun x => by split <;> rfl
    refine ⟨_, rfl, ⟨?_, ?_⟩, fun k => ?_⟩
    · rw [map_map]
      simpa [Function.comp_def, hm] using ht.nodup
    · rw [map_map]
      simpa [Function.comp_def, hm] using ht.within
    · unfold held at *
      rw [find_map hm]
      cases hg : find accounts k with
      | none =>
        have : k ≠ key := fun h => by rw [h, hf] at hg; cases hg
        simp [this]
      | some b =>
        have hb := find_account hg
        by_cases h : k = key
        · subst h
          rw [hf] at hg hc
          cases hg
          simp only [Option.elim_some] at hc
          simp [ha, uintSatAdd, min_eq_left hc]
        · simp [hb, h]

lemma addAccounts_held {keys : List Pubkey} (hd : keys.Nodup) (hr : all.length ≤ maxTxnAccWritesPerSlot)
    (ht : Table all accounts) (hk : ∀ key ∈ keys, key ∈ all) (hc : ∀ key ∈ keys, held accounts key + c ≤ uintMax) :
    ∃ next, keys.foldlM (addAccount c) accounts = .ok next ∧ Table all next ∧
      ∀ k, held next k = held accounts k + if k ∈ keys then c else 0 := by
  induction keys generalizing accounts with
  | nil => exact ⟨accounts, rfl, ht, fun k => by simp⟩
  | cons key keys ih =>
    obtain ⟨hn, hd⟩ := nodup_cons.mp hd
    obtain ⟨mid, hf, hm, hh⟩ := addAccount_held ht (hk key (.head _)) hr (hc key (.head _))
    have hs (k : Pubkey) (hx : k ∈ keys) : held mid k + c ≤ uintMax := by
      have hne : k ≠ key := fun h => hn (h ▸ hx)
      rw [hh, if_neg hne]
      exact hc k (.tail _ hx)
    obtain ⟨next, hl, htn, hheld⟩ := ih hd hm (fun k hx => hk k (.tail _ hx)) hs
    refine ⟨next, ?_, htn, fun k => ?_⟩
    · rw [foldlM_cons]
      exact bind_ok.mpr ⟨mid, hf, hl⟩
    · rw [hheld, hh, add_assoc]
      by_cases h : k = key
      · subst h
        simp [hn]
      · simp [h]

lemma total_concat : total f (l ++ [x]) = total f l + f x := by simp [total]

lemma total_le : total f l ≤ total f (l ++ r) := by simp [total]

lemma total_perm (hp : r.Perm l) : total f r = total f l := (hp.map f).sum_eq

lemma satAdd_le {a b n : Nat} (h : n < ulongMax) : ulongSatAdd a b ≤ n ↔ a + b ≤ n := by
  unfold ulongSatAdd
  omega

lemma fit_accounts {limit : Nat} (hm : limit < uintMax) (hc : c ≤ limit) :
    (∀ a ∈ find accounts key, ulongSatAdd a.cost c ≤ limit) ↔ held accounts key + c ≤ limit := by
  have hu : limit < ulongMax := lt_trans hm (by decide : uintMax < ulongMax)
  unfold held
  cases find accounts key with
  | none => simp [hc]
  | some a => simp [satAdd_le hu]

lemma Fits.concat (hf : Fits start l) : Fits start (l ++ [x]) ↔ total costOf l + costOf x ≤ start.blockCostLimit ∧
    costOf x ≤ start.accountCostLimit ∧ total sizeOf l + sizeOf x ≤ start.dataSizeLimit ∧
    ∀ key ∈ x.1.writable, total (chargeOf key) l + costOf x ≤ start.accountCostLimit := by
  constructor
  · rintro ⟨hb, hc, hz, ha⟩
    rw [total_concat] at hb hz
    refine ⟨hb, (forall_mem_concat.mp hc).2, hz, fun key hk => ?_⟩
    have ha := ha key
    rwa [total_concat, chargeOf, if_pos hk] at ha
  · rintro ⟨hb, hc, hz, ha⟩
    rw [← total_concat] at hb hz
    refine ⟨hb, forall_mem_concat.mpr ⟨hf.single, hc⟩, hz, fun key => ?_⟩
    rw [total_concat, chargeOf]
    split_ifs with hk
    · exact ha key hk
    · exact hf.account key

lemma wouldFit_iff (hs : Sums all start l t) (hf : Fits start l) (hm : Small start) {u : Unit} :
    wouldFit t x.1 x.2 = .ok u ↔ Fits start (l ++ [x]) := by
  rw [hf.concat, hs.eq]
  unfold wouldFit
  rw [check_ok, check_ok, check_ok, require_ok]
  simp only [satAdd_le hm.block, satAdd_le hm.size]
  refine and_congr_right fun _ => and_congr_right fun hc => and_congr_right fun _ => forall₂_congr fun key _ => ?_
  rw [← hs.held key]
  exact fit_accounts hm.account hc

lemma tryAddCost_sums (hs : Sums all start l t) (hf : Fits start l) (hm : Small start) (hd : x.1.writable.Nodup)
    (hk : ∀ key ∈ x.1.writable, key ∈ all) (hr : all.length ≤ maxTxnAccWritesPerSlot) :
    (Fits start (l ++ [x]) → ∃ t', tryAddCost t x.1 x.2 = .ok (t', none) ∧ Sums all start (l ++ [x]) t') ∧
      (¬ Fits start (l ++ [x]) → ∃ err, tryAddCost t x.1 x.2 = .ok (t, some err)) := by
  unfold tryAddCost
  cases hw : wouldFit t x.1 x.2 with
  | error err => exact ⟨fun h => absurd (hw.symm.trans ((wouldFit_iff hs hf hm (u := ())).mpr h)) nofun, fun _ => ⟨err, rfl⟩⟩
  | ok u =>
    have h := (wouldFit_iff hs hf hm).mp hw
    refine ⟨fun _ => ?_, fun hn => absurd h hn⟩
    obtain ⟨hb, -, hz, ha⟩ := hf.concat.mp h
    have hc (key : Pubkey) (hx : key ∈ x.1.writable) : held t.accounts key + costOf x ≤ uintMax :=
      hs.held key ▸ (ha key hx).trans hm.account.le
    obtain ⟨next, hn, ht, hh⟩ := addAccounts_held hd hr hs.table hk hc
    refine ⟨_, bind_ok.mpr ⟨_, bind_ok.mpr ⟨next, hn, rfl⟩, rfl⟩, ht, ?_, fun key => ?_⟩
    · have hbl : ulongSatAdd (total costOf l) (costOf x) = total costOf l + costOf x := min_eq_left (hb.trans hm.block.le)
      have hsz := Nat.mod_eq_of_lt (hz.trans_lt (lt_trans hm.size (by decide : ulongMax < 2 ^ 64)))
      rw [hs.eq, total_concat, total_concat, ← hbl, ← hsz]
      rfl
    · rw [total_concat, ← hs.held key]
      exact hh key

lemma Fits.left (h : Fits start (l ++ r)) : Fits start l where
  block := total_le.trans h.block
  single := fun x hm => h.single x (mem_append_left _ hm)
  size := total_le.trans h.size
  account := fun key => total_le.trans (h.account key)

lemma addAll_sums (hs : Sums all start l t) (hf : Fits start l) (hm : Small start) (hd : ∀ x ∈ r, x.1.writable.Nodup)
    (hk : ∀ x ∈ r, ∀ key ∈ x.1.writable, key ∈ all) (hr : all.length ≤ maxTxnAccWritesPerSlot) :
    (Fits start (l ++ r) → ∃ t', addAll t r = .ok (some t') ∧ Sums all start (l ++ r) t') ∧
      (¬ Fits start (l ++ r) → addAll t r = .ok none) := by
  induction r generalizing l t with
  | nil =>
    rw [append_nil]
    exact ⟨fun _ => ⟨t, rfl, hs⟩, fun hn => absurd hf hn⟩
  | cons x r ih =>
    have hx := tryAddCost_sums hs hf hm (hd x (.head _)) (hk x (.head _)) hr
    have he : l ++ x :: r = (l ++ [x]) ++ r := by simp
    rw [he]
    by_cases h : Fits start (l ++ [x])
    · obtain ⟨t', ht, hs'⟩ := hx.1 h
      have hn := ih hs' h (fun y hy => hd y (.tail _ hy)) (fun y hy => hk y (.tail _ hy))
      have ha : addAll t (x :: r) = addAll t' r := by rw [addAll, ht]; rfl
      rwa [ha]
    · obtain ⟨err, ht⟩ := hx.2 h
      have ha : addAll t (x :: r) = .ok none := by rw [addAll, ht]; rfl
      exact ⟨fun hf => absurd hf.left h, fun _ => ha⟩

lemma Fits.perm (hp : r.Perm l) (h : Fits t l) : Fits t r where
  block := total_perm hp ▸ h.block
  single := fun x hm => h.single x (hp.mem_iff.mp hm)
  size := total_perm hp ▸ h.size
  account := fun key => total_perm hp ▸ h.account key

lemma init_small (regime : Regime) (raise larger : Bool) : Small (init regime.params raise larger) := by
  cases regime <;> cases raise <;> cases larger <;> exact ⟨by decide, by decide, by decide⟩

/-- The transactions of a block are accepted in one order when they are in every order, namely when
the sums of their costs are within the limits. -/
theorem verdict_order_free (regime : Regime) (raise larger : Bool) (l : Block) (distinct : ∀ x ∈ l, x.1.writable.Nodup)
    (room : (l.flatMap fun x => x.1.writable).dedup.length ≤ maxTxnAccWritesPerSlot) :
    let start := init regime.params raise larger
    (∀ r, r.Perm l → ((∃ t, addAll start r = .ok (some t)) ↔ Fits start l) ∧
      (¬ Fits start l → addAll start r = .ok none) ∧
      ∀ t, addAll start r = .ok (some t) → t.blockCost = total costOf l ∧ t.allocatedAccountsDataSize = total sizeOf l ∧
        ∀ key, held t.accounts key = total (chargeOf key) l) ∧
    ∀ t txn cost t' err, tryAddCost t txn cost = .ok (t', some err) → t' = t := by
  intro start
  have hs : Sums (l.flatMap fun x => x.1.writable).dedup start [] start :=
    ⟨⟨nodup_nil, nofun⟩, rfl, fun _ => rfl⟩
  have hf : Fits start [] := ⟨Nat.zero_le _, nofun, Nat.zero_le _, fun _ => Nat.zero_le _⟩
  refine ⟨fun r hp => ?_, fun t txn cost t' err h => ?_⟩
  · have hr := addAll_sums hs hf (init_small regime raise larger) (fun x mem => distinct x (hp.mem_iff.mp mem))
      (fun x mem key hk => mem_dedup.mpr (mem_flatMap.mpr ⟨x, hp.mem_iff.mp mem, hk⟩)) room
    rw [nil_append] at hr
    have hn : ¬ Fits start l → addAll start r = .ok none := fun hn => hr.2 fun h => hn (h.perm hp.symm)
    refine ⟨⟨fun ⟨t, ht⟩ => ?_, fun h => ?_⟩, hn, fun t ht => ?_⟩
    · by_contra h
      cases ht.symm.trans (hn h)
    · obtain ⟨t, ht, _⟩ := hr.1 (h.perm hp)
      exact ⟨t, ht⟩
    · have h : Fits start r := by
        by_contra h
        cases ht.symm.trans (hr.2 h)
      obtain ⟨t', ht', hsum⟩ := hr.1 h
      cases ht.symm.trans ht'
      refine ⟨?_, ?_, fun key => (hsum.held key).trans (total_perm hp)⟩
      · rw [hsum.eq]
        exact total_perm hp
      · rw [hsum.eq]
        exact total_perm hp
  · unfold tryAddCost at h
    split at h
    · cases h
      rfl
    · obtain ⟨_, _, h⟩ := bind_ok.mp h
      cases h

def sampleTxn (key : Pubkey) : Txn × UsageCost :=
  (⟨1, 1, [], [⟨key, true⟩], 0, 0, 0⟩, ⟨720, 300, 0, 0, 0, 0⟩)

theorem two_transactions_either_order :
    ∃ t, addAll (init Regime.ms400.params false false) [sampleTxn 2, sampleTxn 1] = .ok (some t) ∧ t.blockCost = 2040 :=
  ⟨_, rfl, (((verdict_order_free .ms400 false false [sampleTxn 1, sampleTxn 2] (by decide) (by decide)).1
    [sampleTxn 2, sampleTxn 1] (.swap _ _ _)).2.2 _ rfl).1⟩

end Firebam.CostTracker
