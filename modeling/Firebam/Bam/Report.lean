import Firebam.Lib.Check

/-! What the scheduler is told about a batch that was executed. -/
namespace Firebam.Bam
open Lib List

def commitCancelled : Nat := 38

/-- fd_bam_txn_err_from_runtime_err. Error `-k` of the runtime is reason `k - 1`; the three nonce
errors are BLOCKHASH_NOT_FOUND, and what has no case is COMMIT_CANCELLED. -/
def txnErrFromRuntimeErr (err : Int) : Nat :=
  if err ∈ [-50, -51, -52] then 7
  else if -err ∈ [2, 3, 4, 5, 6, 7, 8, 9, 13, 14, 15, 18, 21, 22, 23, 24, 25, 26, 27, 29, 30, 31, 32, 33, 34, 37] then
    (-err - 1).toNat
  else commitCancelled

def sanitizeFailure : Int := -15

structure Result where
  bundleTxnCnt : Nat
  executionSuccess : Bool := false
  schedulingError : Option Nat := none
  transactionErr : Nat → Nat := fun _ => 0
  transactionErrCount : Nat := 0
  sanitizeSuccess : Nat → Bool := fun _ => false
  deser : Option (Nat × Nat) := none

namespace Result
variable (res : Result) (idx reason : Nat)

def markSanitizeSuccess : Result :=
  { res with sanitizeSuccess := fun i => (i = idx ∧ idx < 5) || res.sanitizeSuccess i }

def setTxnError : Result :=
  { res with transactionErr := fun i => if i = idx ∧ idx < 5 then reason else res.transactionErr i }

def addTxnError : Result :=
  if 5 ≤ idx then res
  else { res.setTxnError idx reason with transactionErrCount := res.transactionErrCount + 1 }

def markNotCommittedTxnError : Result :=
  let res := { res with executionSuccess := false }
  let res := if res.transactionErrCount ≠ res.bundleTxnCnt then
      { (range res.bundleTxnCnt).foldl (fun res i => res.setTxnError i commitCancelled) res with
        transactionErrCount := res.bundleTxnCnt }
    else res
  res.setTxnError idx reason

def fillTxnResult (err : Int) : Result := if err ≠ sanitizeFailure then res.markSanitizeSuccess idx else res

end Result

inductive Outcome where
  | landed (err : Int)
  | dropped (err : Int)
deriving DecidableEq

def Outcome.err : Outcome → Int
  | .landed err | .dropped err => err

def Result.member (res : Result) (idx : Nat) : Outcome → Result
  | .landed err =>
    (if err ≠ 0 then res.addTxnError idx (txnErrFromRuntimeErr err) else res).fillTxnResult idx err
  | .dropped err =>
    { res.markNotCommittedTxnError idx (txnErrFromRuntimeErr err) with executionSuccess := false }.fillTxnResult idx err

def handleMicroblock (cnt : Nat) (outs : List Outcome) : Result :=
  outs.zipIdx.foldl (fun res (o, i) => res.member i o) { bundleTxnCnt := cnt, executionSuccess := true }

def failedIdx (outs : List Outcome) : Option Nat := outs.findIdx? (· ≠ .landed 0)

def Result.cancelAll (res : Result) (cnt failed : Nat) (err : Int) : Result :=
  (range cnt).foldl (fun res i =>
    (if i ≠ failed ∨ err ≠ sanitizeFailure then res.markSanitizeSuccess i else res).addTxnError i commitCancelled) res

/-- handle_bundle with a batch that is to be reverted. If its accounts cannot be prepared, the first
transaction counts as the failed one; nothing is executed then, and every error is cleared. -/
def handleBundle (prepared : Bool) (outs : List Outcome) : Result :=
  let res : Result := { bundleTxnCnt := outs.length }
  let outs := if prepared then outs else outs.map fun _ => .landed 0
  match if prepared then failedIdx outs else some 0 with
  | none => { outs.zipIdx.foldl (fun res (o, i) => res.fillTxnResult i o.err) res with executionSuccess := true }
  | some failed =>
    let err := (outs.getD failed (.landed 0)).err
    let res := (res.cancelAll outs.length failed err).setTxnError failed (txnErrFromRuntimeErr err)
    (outs.take (failed + 1)).zipIdx.foldl (fun res (o, i) => res.fillTxnResult i o.err) res

def result (revertOnError prepared : Bool) (outs : List Outcome) : Result :=
  if revertOnError then handleBundle prepared outs else handleMicroblock outs.length outs

inductive Message where
  | committed
  | deserializationError (index reason : Nat)
  | schedulingError (reason : Nat)
  | transactionError (index reason : Nat)
  | genericInvalid (message : String)
deriving DecidableEq

def encode (res : Result) : Message :=
  if res.executionSuccess then .committed
  else match res.deser, res.schedulingError with
    | some (index, reason), _ => .deserializationError index reason
    | none, some reason => .schedulingError reason
    | none, none => match (range res.bundleTxnCnt).find? fun i => !res.sanitizeSuccess i with
      | some i => .deserializationError i 4
      | none =>
        if res.transactionErrCount = 0 then .genericInvalid "bundle execution failed"
        else match (range res.bundleTxnCnt).find? fun i => res.transactionErr i ≠ commitCancelled with
          | some i => .transactionError i (res.transactionErr i)
          | none => if 1 < res.bundleTxnCnt then .schedulingError 0 else .transactionError 0 (res.transactionErr 0)

variable {res : Result} {outs done : List Outcome} {o : Outcome} {n i reason : Nat} {errs : Nat → Nat}

structure Reports (res : Result) (n : Nat) (errs : Nat → Nat) : Prop where
  cnt : res.bundleTxnCnt = n
  early : res.deser = none ∧ res.schedulingError = none
  failed : res.executionSuccess = false
  sane : ∀ i < n, res.sanitizeSuccess i = true
  counted : res.transactionErrCount ≠ 0
  errs : ∀ i < n, res.transactionErr i = errs i

lemma Reports.encode (hr : Reports res n errs) (hx : i < n) (he : errs i ≠ commitCancelled)
    (hi : ∀ j < i, errs j = commitCancelled) : encode res = .transactionError i (errs i) := by
  have hs : (range n).find? (fun i => !res.sanitizeSuccess i) = none := by
    refine find?_eq_none.mpr fun j hm => ?_
    simp [hr.sane j (mem_range.mp hm)]
  have hf : (range n).find? (fun i => res.transactionErr i ≠ commitCancelled) = some i := by
    refine find?_range_eq_some.mpr ⟨?_, mem_range.mpr hx, fun j hl => ?_⟩
    · simpa [hr.errs i hx] using he
    · simp [hr.errs j (hl.trans hx), hi j hl]
  unfold Bam.encode
  rw [hr.cnt, hr.failed, hr.early.1, hr.early.2]
  simp only [Bool.false_eq_true, if_false, hs, if_neg hr.counted, hf, hr.errs i hx]

lemma cancel_eq (res : Result) (n : Nat) : (range n).foldl (fun res i => res.setTxnError i commitCancelled) res =
    { res with transactionErr := fun i => if i < n ∧ i < 5 then commitCancelled else res.transactionErr i } := by
  induction n with
  | zero => simp
  | succ n ih =>
    rw [range_succ, foldl_append, ih]
    simp only [foldl_cons, foldl_nil, Result.setTxnError]
    congr 1
    funext i
    grind

structure Built (n : Nat) (done : List Outcome) (res : Result) : Prop where
  cnt : res.bundleTxnCnt = n
  early : res.deser = none ∧ res.schedulingError = none
  sane : ∀ i < done.length, res.sanitizeSuccess i = true

lemma handleMicroblock_concat (n : Nat) (done : List Outcome) (o : Outcome) :
    handleMicroblock n (done ++ [o]) = (handleMicroblock n done).member done.length o := by
  simp [handleMicroblock, zipIdx_append]

section
variable (err : Int) (res : Result) (idx : Nat)

lemma fill_eq : (res.fillTxnResult idx err).transactionErr = res.transactionErr ∧
    (res.fillTxnResult idx err).transactionErrCount = res.transactionErrCount ∧
    (res.fillTxnResult idx err).executionSuccess = res.executionSuccess := by
  unfold Result.fillTxnResult
  split <;> exact ⟨rfl, rfl, rfl⟩

lemma member_landed_zero : (res.member idx (.landed 0)).transactionErr = res.transactionErr ∧
    (res.member idx (.landed 0)).transactionErrCount = res.transactionErrCount ∧
    (res.member idx (.landed 0)).executionSuccess = res.executionSuccess := by
  simp only [Result.member, ne_eq, not_true_eq_false, if_false]
  exact fill_eq ..

lemma member_landed (hs : err ≠ 0) (hi : idx < 5) :
    (∀ j, j ≠ idx → (res.member idx (.landed err)).transactionErr j = res.transactionErr j) ∧
    (res.member idx (.landed err)).transactionErrCount = res.transactionErrCount + 1 ∧
    (res.member idx (.landed err)).executionSuccess = res.executionSuccess := by
  obtain ⟨he, hc, hx⟩ := fill_eq err (res.addTxnError idx (txnErrFromRuntimeErr err)) idx
  simp only [Result.member, ne_eq, hs, not_false_eq_true, if_true]
  rw [he, hc, hx, Result.addTxnError, if_neg (by omega)]
  exact ⟨fun j ne => if_neg fun h => ne h.1, rfl, rfl⟩

lemma member_dropped (hc : res.bundleTxnCnt = n) (hn : n ≤ 5) (hi : idx < n) :
    (∀ j < n, (res.member idx (.dropped err)).transactionErr j = if j = idx then txnErrFromRuntimeErr err
      else if res.transactionErrCount ≠ n then commitCancelled else res.transactionErr j) ∧
    (res.member idx (.dropped err)).transactionErrCount = n ∧
    (res.member idx (.dropped err)).executionSuccess = false := by
  obtain ⟨he, hk, hx⟩ := fill_eq err { res.markNotCommittedTxnError idx (txnErrFromRuntimeErr err) with
    executionSuccess := false } idx
  dsimp only [Result.member]
  rw [he, hk, hx]
  dsimp only [Result.markNotCommittedTxnError]
  rw [hc, cancel_eq]
  by_cases hr : res.transactionErrCount = n
  · rw [if_neg (not_not.mpr hr)]
    refine ⟨fun j lt => ?_, hr, rfl⟩
    simp [Result.setTxnError, hr, hi.trans_le hn]
  · rw [if_pos hr]
    refine ⟨fun j lt => ?_, rfl, rfl⟩
    simp [Result.setTxnError, hr, hi.trans_le hn, lt, lt.trans_le hn]

end

lemma Built.member (hb : Built n done res) (hf : done.length < 5) (ha : o.err ≠ sanitizeFailure) :
    Built n (done ++ [o]) (res.member done.length o) := by
  have fill {res : Result} (hb : Built n done res) : Built n (done ++ [o]) (res.fillTxnResult done.length o.err) := by
    unfold Result.fillTxnResult
    rw [if_pos ha]
    refine ⟨hb.cnt, hb.early, fun i hl => ?_⟩
    rw [length_append, length_singleton] at hl
    by_cases he : i = done.length
    · simp [Result.markSanitizeSuccess, he, hf]
    · simp [Result.markSanitizeSuccess, hb.sane i (by omega)]
  cases o with
  | landed err =>
    refine fill ?_
    split
    · rw [Result.addTxnError, if_neg (by omega)]
      exact ⟨hb.cnt, hb.early, hb.sane⟩
    · exact hb
  | dropped err =>
    refine fill ?_
    unfold Result.markNotCommittedTxnError
    simp only [cancel_eq]
    split <;> exact ⟨hb.cnt, hb.early, hb.sane⟩

lemma handleMicroblock_built (hn : outs.length ≤ 5) (hs : ∀ o ∈ outs, o.err ≠ sanitizeFailure) :
    Built n outs (handleMicroblock n outs) := by
  induction outs using reverseRecOn with
  | nil => exact ⟨rfl, ⟨rfl, rfl⟩, fun _ lt => absurd lt (Nat.not_lt_zero _)⟩
  | append_singleton done o ih =>
    obtain ⟨hs, ho⟩ := forall_mem_concat.mp hs
    rw [length_append, length_singleton] at hn
    rw [handleMicroblock_concat]
    exact (ih (by omega) hs).member (by omega) ho

def Unmarked (n : Nat) (done : List Outcome) (res : Result) : Prop :=
  (∀ err, .dropped err ∉ done) ∧ res.transactionErrCount ≤ done.length ∨
    n ≤ res.transactionErrCount ∧ (res.transactionErrCount = n → ∀ j < n, res.transactionErr j = commitCancelled)

lemma handleMicroblock_unmarked (hn : n ≤ 5) (hl : outs.length ≤ n) (hs : ∀ o ∈ outs, o.err ≠ sanitizeFailure)
    (hr : ∀ err, .dropped err ∈ outs → txnErrFromRuntimeErr err = commitCancelled) :
    Unmarked n outs (handleMicroblock n outs) := by
  induction outs using reverseRecOn with
  | nil => exact .inl ⟨fun _ => not_mem_nil, le_refl 0⟩
  | append_singleton done o ih =>
    have hb := handleMicroblock_built (n := n) (by rw [length_append] at hl; omega) (forall_mem_concat.mp hs).1
    have hd := ih (by rw [length_append] at hl; omega) (forall_mem_concat.mp hs).1 fun err m => hr err (mem_append_left _ m)
    rw [length_append, length_singleton] at hl
    rw [handleMicroblock_concat]
    cases o with
    | landed err =>
      have quiet : (∀ e, .dropped e ∉ done) → ∀ e, .dropped e ∉ done ++ [.landed err] := fun hq e m =>
        hq e ((mem_concat_of_ne (by simp)).mp m)
      by_cases he : err = 0
      · subst he
        obtain ⟨hx, hc, -⟩ := member_landed_zero (handleMicroblock n done) done.length
        unfold Unmarked
        rw [hx, hc, length_append]
        exact hd.imp_left fun hq => ⟨quiet hq.1, Nat.le_succ_of_le hq.2⟩
      · obtain ⟨-, hc, -⟩ := member_landed err (handleMicroblock n done) done.length he (by omega)
        unfold Unmarked
        rw [hc, length_append]
        exact hd.imp (fun hq => ⟨quiet hq.1, Nat.succ_le_succ hq.2⟩) fun hq => ⟨Nat.le_succ_of_le hq.1, by omega⟩
    | dropped err =>
      obtain ⟨hx, hc, -⟩ := member_dropped err _ done.length hb.cnt hn hl
      refine .inr ⟨hc.ge, fun _ j lt => ?_⟩
      rw [hx j lt, hr err mem_concat_self, ite_eq_left_iff]
      intro _
      split_ifs with eq
      · rfl
      · rcases hd with ⟨-, le⟩ | ⟨-, all⟩
        · omega
        · exact all (not_not.mp eq) j lt

/-- No transaction lands with an error and has one behind it that is dropped. -/
def Kept (after : List Outcome) : Prop := after.Pairwise fun a b => ∀ e err, a = .landed e → b = .dropped err → e = 0

structure Marked (n i reason : Nat) (after : List Outcome) (res : Result) : Prop where
  failed : res.executionSuccess = false
  counted : n ≤ res.transactionErrCount
  kept : Kept after → res.transactionErr i = reason ∧ (∀ j < i, res.transactionErr j = commitCancelled) ∧
    (res.transactionErrCount = n ↔ ∀ e, .landed e ∈ after → e = 0)
  lost : ¬Kept after → res.transactionErr i = commitCancelled

lemma Marked.member {after : List Outcome} {k : Nat} (hm : Marked n i reason after res) (hc : res.bundleTxnCnt = n)
    (hn : n ≤ 5) (hi : i < k) (hk : k < n) : Marked n i reason (after ++ [o]) (res.member k o) := by
  cases o with
  | landed err =>
    have same : Kept (after ++ [.landed err]) ↔ Kept after := by simp [Kept, pairwise_append]
    by_cases he : err = 0
    · subst he
      obtain ⟨hx, ht, hs⟩ := member_landed_zero res k
      refine ⟨hs ▸ hm.failed, ht ▸ hm.counted, ?_, ?_⟩
      · rw [same, hx, ht]
        simpa [or_imp, forall_and] using hm.kept
      · rw [same, hx]
        exact hm.lost
    · obtain ⟨hx, ht, hs⟩ := member_landed err res k he (by omega)
      refine ⟨hs ▸ hm.failed, by rw [ht]; exact Nat.le_succ_of_le hm.counted, fun kept => ?_, fun lost => ?_⟩
      · obtain ⟨hr, hl, -⟩ := hm.kept (same.mp kept)
        refine ⟨(hx i hi.ne).trans hr, fun j lt => (hx j (by omega)).trans (hl j lt), ?_⟩
        have := hm.counted
        rw [ht]
        exact iff_of_false (by omega) fun all => he (all err mem_concat_self)
      · rw [hx i hi.ne]
        exact hm.lost (mt same.mpr lost)
  | dropped err =>
    obtain ⟨hx, ht, hs⟩ := member_dropped err res k hc hn hk
    have more : Kept (after ++ [.dropped err]) ↔ Kept after ∧ ∀ e, .landed e ∈ after → e = 0 := by
      unfold Kept
      rw [pairwise_append]
      simp only [mem_singleton, forall_eq, pairwise_singleton, true_and]
      refine and_congr_right fun _ => ⟨fun all e m => all _ m e err rfl rfl, fun all a m e _ eq _ => all e (eq ▸ m)⟩
    refine ⟨hs, ht.ge, fun kept => ?_, fun lost => ?_⟩
    · obtain ⟨kept, quiet⟩ := more.mp kept
      obtain ⟨hr, hl, count⟩ := hm.kept kept
      have old (j : Nat) (lt : j < k) : (res.member k (.dropped err)).transactionErr j = res.transactionErr j := by
        rw [hx j (lt.trans hk), if_neg lt.ne, if_neg (not_not.mpr (count.mpr quiet))]
      refine ⟨(old i hi).trans hr, fun j lt => (old j (lt.trans hi)).trans (hl j lt), ?_⟩
      exact iff_of_true ht fun e m => quiet e ((mem_concat_of_ne (by simp)).mp m)
    · rw [hx i (hi.trans hk), if_neg hi.ne, ite_eq_left_iff, not_not]
      intro eq
      refine hm.lost fun kept => lost (more.mpr ⟨kept, (hm.kept kept).2.2.mp eq⟩)

lemma handleMicroblock_marked {before after : List Outcome} {err : Int} (hn : n ≤ 5)
    (hl : (before ++ .dropped err :: after).length ≤ n)
    (hs : ∀ o ∈ before ++ .dropped err :: after, o.err ≠ sanitizeFailure)
    (hr : ∀ e, .dropped e ∈ before → txnErrFromRuntimeErr e = commitCancelled) :
    Marked n before.length (txnErrFromRuntimeErr err) after (handleMicroblock n (before ++ .dropped err :: after)) := by
  have hf := hl.trans hn
  induction after using reverseRecOn with
  | nil =>
    rw [length_append, length_singleton] at hl
    have hb := handleMicroblock_built (n := n) (by omega) (forall_mem_concat.mp hs).1
    have hu := handleMicroblock_unmarked hn (by omega) (forall_mem_concat.mp hs).1 hr
    obtain ⟨hx, ht, hd⟩ := member_dropped err _ before.length hb.cnt hn hl
    rw [handleMicroblock_concat]
    refine ⟨hd, ht.ge, fun _ => ⟨(hx _ hl).trans (if_pos rfl), fun j lt => ?_, ?_⟩, fun lost => absurd Pairwise.nil lost⟩
    · rw [hx j (by omega), if_neg lt.ne, ite_eq_left_iff, not_not]
      intro eq
      rcases hu with ⟨-, le⟩ | ⟨-, all⟩
      · omega
      · exact all eq j (by omega)
    · exact iff_of_true ht fun e m => absurd m not_mem_nil
  | append_singleton after o ih =>
    rw [← cons_append, ← append_assoc] at hl hs hf ⊢
    rw [length_append, length_singleton] at hl hf
    have hb := handleMicroblock_built (n := n) (by omega) (forall_mem_concat.mp hs).1
    rw [handleMicroblock_concat]
    refine (ih (by omega) (forall_mem_concat.mp hs).1 (by omega)).member hb.cnt hn ?_ (by omega)
    simp

lemma Reports.fill (hr : Reports res n errs) (i : Nat) (err : Int) : Reports (res.fillTxnResult i err) n errs := by
  unfold Result.fillTxnResult
  split
  · exact { hr with sane := fun j hl => by simp [Result.markSanitizeSuccess, hr.sane j hl] }
  · exact hr

lemma cancelAll_eq (res : Result) {failed : Nat} {err : Int} (hs : err ≠ sanitizeFailure) (hf : n ≤ 5) :
    res.cancelAll n failed err = { res with
      transactionErr := fun i => if i < n then commitCancelled else res.transactionErr i
      transactionErrCount := res.transactionErrCount + n
      sanitizeSuccess := fun i => i < n || res.sanitizeSuccess i } := by
  unfold Result.cancelAll
  induction n with
  | zero => simp
  | succ n ih =>
    rw [range_succ, foldl_append, ih (by omega)]
    simp only [foldl_cons, foldl_nil, if_pos (Or.inr hs), Result.addTxnError, Result.setTxnError,
      Result.markSanitizeSuccess, if_neg (show ¬5 ≤ n by omega)]
    congr 1
    · funext i
      grind
    · funext i
      grind

def failure (prepared : Bool) (outs : List Outcome) : Option (Nat × Int) :=
  if prepared then (failedIdx outs).map fun failed => (failed, (outs.getD failed (.landed 0)).err) else some (0, 0)

lemma handleBundle_reports {prepared : Bool} {failed : Nat} {err : Int} (he : outs.length ≤ 5) (hp : failed < outs.length)
    (hn : ∀ o ∈ outs, o.err ≠ sanitizeFailure) (hf : failure prepared outs = some (failed, err)) :
    Reports (handleBundle prepared outs) outs.length fun i =>
      if i = failed then txnErrFromRuntimeErr err else commitCancelled := by
  have base (sane : err ≠ sanitizeFailure) (fills : List (Outcome × Nat)) :
      Reports (fills.foldl (fun res (o, i) => res.fillTxnResult i o.err)
        ((Result.cancelAll { bundleTxnCnt := outs.length } outs.length failed err).setTxnError failed
          (txnErrFromRuntimeErr err))) outs.length fun i => if i = failed then txnErrFromRuntimeErr err else commitCancelled := by
    rw [cancelAll_eq _ sane he]
    refine foldlRecOn (motive := fun res => Reports res outs.length _) _ _ ?_ fun res hr x _ => hr.fill _ _
    refine ⟨rfl, ⟨rfl, rfl⟩, rfl, fun i hl => ?_, ?_, fun i hl => ?_⟩
    · simp [Result.setTxnError, hl]
    · simp only [Result.setTxnError]
      omega
    · simp [Result.setTxnError, hl, hp.trans_le he]
  unfold handleBundle
  cases prepared with
  | true =>
    simp only [failure, if_true, Option.map_eq_some_iff, Prod.mk.injEq] at hf ⊢
    obtain ⟨_, found, rfl, rfl⟩ := hf
    rw [found]
    refine base (hn _ ?_) _
    rw [getD_eq_getElem _ _ hp]
    exact getElem_mem hp
  | false =>
    simp only [failure, Bool.false_eq_true, if_false, Option.some.injEq, Prod.mk.injEq] at hf ⊢
    obtain ⟨rfl, rfl⟩ := hf
    have err : ((outs.map fun _ => Outcome.landed 0).getD 0 (.landed 0)).err = 0 := by
      cases outs <;> rfl
    rw [err, length_map]
    exact base (by decide) _

lemma encode_reason (h : encode res = .transactionError i reason) : reason = res.transactionErr i := by
  unfold encode at h
  split at h
  · cases h
  split at h
  · cases h
  · cases h
  split at h
  · cases h
  split at h
  · cases h
  split at h
  · cases h
    rfl
  · split at h
    · cases h
    · cases h
      rfl

section
variable (revertOnError prepared : Bool) (outs : List Outcome)

def Uncommitted (i reason : Nat) : Prop :=
  if revertOnError then ∃ failed err, failure prepared outs = some (failed, err) ∧ failed < outs.length ∧ i < outs.length ∧
    reason = if i = failed then txnErrFromRuntimeErr err else commitCancelled
  else ∃ err, outs[i]? = some (.dropped err) ∧ reason = txnErrFromRuntimeErr err

/-- The first transaction that is not committed for a reason other than COMMIT_CANCELLED. -/
def FirstReal (i reason : Nat) : Prop :=
  Uncommitted revertOnError prepared outs i reason ∧ reason ≠ commitCancelled ∧
    ∀ j < i, ∀ other, Uncommitted revertOnError prepared outs j other → other = commitCancelled

end

lemma reported_iff {revertOnError prepared : Bool} (few : outs.length ≤ 5) (sane : ∀ o ∈ outs, o.err ≠ sanitizeFailure)
    (first : FirstReal revertOnError prepared outs i reason) :
    encode (result revertOnError prepared outs) = .transactionError i reason ↔
      (revertOnError = false → Kept (outs.drop (i + 1))) := by
  obtain ⟨failed, real, first⟩ := first
  cases revertOnError with
  | false =>
    obtain ⟨err, here, rfl⟩ := failed
    obtain ⟨short, here⟩ := List.getElem?_eq_some_iff.mp here
    have split : outs = outs.take i ++ .dropped err :: outs.drop (i + 1) := by
      rw [← here, getElem_cons_drop, take_append_drop]
    have len : (outs.take i).length = i := length_take_of_le short.le
    have early (e : Int) (m : .dropped e ∈ outs.take i) : txnErrFromRuntimeErr e = commitCancelled := by
      obtain ⟨j, lt, eq⟩ := mem_iff_getElem.mp m
      rw [getElem_take] at eq
      exact first j (len ▸ lt) _ ⟨e, List.getElem?_eq_some_iff.mpr ⟨_, eq⟩, rfl⟩
    have marked := handleMicroblock_marked few (le_of_eq (congrArg length split.symm)) (split ▸ sane) early
    rw [← split, len] at marked
    have built := handleMicroblock_built (n := outs.length) few sane
    have reports : Reports (handleMicroblock outs.length outs) outs.length (handleMicroblock outs.length outs).transactionErr :=
      ⟨built.cnt, built.early, marked.failed, built.sane, by have := marked.counted; omega, fun _ _ => rfl⟩
    rw [imp_iff_right rfl]
    constructor
    · intro reported
      by_contra lost
      exact real ((encode_reason reported).trans (marked.lost lost))
    · intro kept
      obtain ⟨eq, lower, -⟩ := marked.kept kept
      exact (reports.encode short (eq ▸ real) lower).trans (congrArg _ eq)
  | true =>
    refine iff_of_true ?_ fun off => absurd off.symm Bool.false_ne_true
    obtain ⟨f, err, found, inside, short, rfl⟩ := failed
    refine (handleBundle_reports few inside sane found).encode short real fun j lower => ?_
    exact first j lower _ ⟨f, err, found, inside, lower.trans short, rfl⟩

/-- The first transaction that fails for a reason of its own is reported, with that reason, exactly
if there is one and, in a batch that is not reverted, none lands with an error between it and another
one that is dropped. -/
theorem first_failure_reported (revertOnError prepared : Bool) (outs : List Outcome) (few : outs.length ≤ 5)
    (sane : ∀ o ∈ outs, o.err ≠ sanitizeFailure) :
    (∃ i reason, FirstReal revertOnError prepared outs i reason ∧
      encode (result revertOnError prepared outs) = .transactionError i reason) ↔
    ∃ i reason, FirstReal revertOnError prepared outs i reason ∧ (revertOnError = false → Kept (outs.drop (i + 1))) :=
  exists_congr fun _ => exists_congr fun _ => and_congr_right (reported_iff few sane)

/-- One lands with an error behind the one that is reported. Without its accounts a bundle has none to report. -/
theorem landed_behind_reported :
    (∃ i reason, FirstReal false true [.dropped (-7), .landed (-9)] i reason ∧
      encode (result false true [.dropped (-7), .landed (-9)]) = .transactionError i reason) ∧
    ¬∃ i reason, FirstReal true false [.landed 0, .landed 0] i reason ∧
      encode (result true false [.landed 0, .landed 0]) = .transactionError i reason := by
  constructor
  · refine (first_failure_reported false true [.dropped (-7), .landed (-9)] (by decide) (by decide)).mpr ⟨0, 6, ?_⟩
    exact ⟨⟨⟨-7, rfl, rfl⟩, by decide, fun j lower => absurd lower (Nat.not_lt_zero j)⟩,
      fun _ => pairwise_singleton _ _⟩
  · rw [first_failure_reported true false [.landed 0, .landed 0] (by decide) (by decide)]
    rintro ⟨i, reason, ⟨⟨failed, err, same, -, -, rfl⟩, real, -⟩, -⟩
    cases same
    revert real
    split <;> decide

/-- Between two transactions that are dropped one lands with an error: the second one is reported. -/
theorem landed_error_hides_failure : FirstReal false true [.dropped (-7), .landed (-9), .dropped (-8)] 0 6 ∧
    encode (result false true [.dropped (-7), .landed (-9), .dropped (-8)]) = .transactionError 2 7 :=
  ⟨⟨⟨-7, rfl, rfl⟩, by decide, fun j lower => absurd lower (Nat.not_lt_zero j)⟩, by decide⟩

end Firebam.Bam
