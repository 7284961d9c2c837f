import Firebam.Executor.Basic
import Firebam.Lib.Keyed
import Firebam.Lib.Lists

/-! What fd_vm_prepare_instruction returns: every reference carries the union of the flags asked
for its account, and every account was found in the caller with at least these flags. -/
namespace Firebam.Executor

open Lib List

variable {a d : InstrAccount} {caller : InstrInfo} {places seen : List Nat} {refs kept : List InstrAccount}
  {signers : List Pubkey} {txn : Txn} {key : Pubkey} {i j n : Nat} {st st' : List InstrAccount × List Nat}
  {m : AcctMeta}

lemma findIndexOfAccount_some (hf : txn.findIndexOfAccount key = some i) : txn.keys[i]? = some key := by
  obtain ⟨j, _, hh⟩ := exists_of_findSome?_eq_some hf
  dsimp only at hh
  split at hh
  · rename_i ha
    cases hh
    exact ha
  · cases hh

lemma Txn.index_unique (hf : txn.keys[i]? = some key) (hs : txn.keys[j]? = some key) : i = j := by
  obtain ⟨hi, ei⟩ := List.getElem?_eq_some_iff.mp hf
  obtain ⟨hj, ej⟩ := List.getElem?_eq_some_iff.mp hs
  exact (txn.keys_nodup.getElem_inj_iff).mp (ei.trans ej.symm)

lemma Txn.keys_ushortMax : txn.keys[ushortMax]? = none := by
  have hs := txn.keys_limit
  refine getElem?_eq_none ?_
  unfold transactionAccountLockLimit at hs
  unfold ushortMax
  omega

lemma setup_refs (seen : List Nat) (n : Nat) (refs : List AccountRef) :
    (setupInstrAccounts seen n refs).map (·.toAccountRef) = refs := by
  induction refs generalizing seen n with
  | nil => rfl
  | cons r refs ih =>
    unfold setupInstrAccounts
    split
    · rw [map_cons, ih]
    · split
      · rw [map_cons, ih]
      · rw [map_cons, ih]

lemma mem_setup {refs : List AccountRef} (hx : a ∈ setupInstrAccounts seen n refs) : a.toAccountRef ∈ refs := by
  have hm := mem_map_of_mem (f := fun a : InstrAccount => a.toAccountRef) hx
  rwa [setup_refs] at hm

def counted (accounts : List InstrAccount) : List Nat :=
  (accounts.filter fun a => !a.isDuplicate).map (·.indexInTransaction)

lemma setup_counted {refs : List AccountRef} (hk : ∀ r ∈ refs, r.indexInTransaction ≠ ushortMax) :
    Lists (counted (setupInstrAccounts seen n refs)) fun i => i ∉ seen ∧ ∃ r ∈ refs, r.indexInTransaction = i := by
  induction refs generalizing seen n with
  | nil => exact Lists.nil fun i h => by simp at h
  | cons r refs ih =>
    have hl (seen : List Nat) := @ih seen (n + 1) fun q hm => hk q (mem_cons_of_mem r hm)
    unfold setupInstrAccounts
    rw [if_neg (hk r mem_cons_self)]
    split
    · rename_i ha
      refine (hl seen).congr fun i => ?_
      simp only [exists_mem_cons_iff]
      constructor
      · rintro ⟨hr, hf⟩
        exact ⟨hr, .inr hf⟩
      · rintro ⟨hr, rfl | hf⟩
        · exact absurd ha hr
        · exact ⟨hr, hf⟩
    · rename_i hi
      have split := (hl (r.indexInTransaction :: seen)).cons (x := r.indexInTransaction) (by simp)
      refine Lists.congr split fun i => ?_
      rw [exists_mem_cons_iff]
      simp only [mem_cons, not_or]
      constructor
      · rintro (rfl | ⟨⟨_, hr⟩, hf⟩)
        · exact ⟨hi, .inl rfl⟩
        · exact ⟨hr, .inr hf⟩
      · rintro ⟨hr, rfl | hf⟩
        · exact .inl rfl
        · by_cases hs : i = r.indexInTransaction
          · exact .inl hs
          · exact .inr ⟨⟨hs, hr⟩, hf⟩

def asked (flag : AccountRef → Bool) (refs : List InstrAccount) (i : Nat) : Bool :=
  refs.any fun b => decide (b.indexInTransaction = i) && flag b.toAccountRef

def united (refs : List InstrAccount) (a : InstrAccount) : InstrAccount :=
  { a with
    isWritable := asked (·.isWritable) refs a.indexInTransaction
    isSigner := asked (·.isSigner) refs a.indexInTransaction }

def Placed (refs kept : List InstrAccount) (places : List Nat) : Prop :=
  ∀ (k : Nat) (a : InstrAccount), refs[k]? = some a → ∃ (j : Nat) (d : InstrAccount),
    places[k]? = some j ∧ kept[j]? = some d ∧ d.indexInTransaction = a.indexInTransaction

structure Deduped (refs kept : List InstrAccount) (places : List Nat) : Prop where
  length : places.length = refs.length
  placed : Placed refs kept places
  distinct : (kept.map (·.indexInTransaction)).Nodup
  united : ∀ d ∈ kept, d.isWritable = asked (·.isWritable) refs d.indexInTransaction ∧
    d.isSigner = asked (·.isSigner) refs d.indexInTransaction
  origin : ∀ d ∈ kept, ∃ a ∈ refs, a.indexInTransaction = d.indexInTransaction ∧ a.indexInCaller = d.indexInCaller
  known : ∀ a ∈ refs, a.indexInTransaction ≠ ushortMax

lemma Deduped.nil : Deduped [] [] [] where
  length := rfl
  placed := by simp [Placed]
  distinct := nodup_nil
  united := by simp
  origin := by simp
  known := by simp

lemma asked_concat (flag : AccountRef → Bool) (refs : List InstrAccount) (a : InstrAccount) (i : Nat) :
    asked flag (refs ++ [a]) i = (asked flag refs i || (decide (a.indexInTransaction = i) && flag a.toAccountRef)) := by
  simp [asked]

lemma placed_concat (he : places.length = refs.length) (hd : Placed refs kept places) (hn : kept[j]? = some d)
    (hs : d.indexInTransaction = a.indexInTransaction) : Placed (refs ++ [a]) kept (places ++ [j]) := by
  intro k b hh
  rw [getElem?_append] at hh ⊢
  rw [he]
  split at hh
  · rename_i hm
    rw [if_pos hm]
    exact hd k b hh
  · rename_i ho
    rw [if_neg ho]
    rw [getElem?_singleton] at hh ⊢
    split at hh
    · rename_i hl
      cases hh
      rw [if_pos hl]
      exact ⟨j, d, rfl, hn, hs⟩
    · cases hh

section
variable (h : Deduped refs kept places) (new : a.indexInTransaction ≠ ushortMax)
include h new

lemma Deduped.repeated (hf : (kept.findIdx? fun d => d.indexInTransaction = a.indexInTransaction) = some j) :
    Deduped (refs ++ [a]) (kept.modify j a.unite) (places ++ [j]) := by
  obtain ⟨m, hh, _⟩ := findIdx?_eq_some_iff_getElem.mp hf
  have hh := of_decide_eq_true hh
  have hm := modify_findIdx (f := a.unite) h.distinct hf
  refine ⟨by simp [h.length], ?_, ?_, ?_, ?_, forall_mem_append.mpr ⟨h.known, forall_mem_singleton.mpr new⟩⟩
  · refine placed_concat (d := a.unite kept[j]) h.length ?_ (by simp [m]) hh
    intro k b hk
    obtain ⟨i, d, hp, ht, hs⟩ := h.placed k b hk
    have ha : (kept.modify j a.unite)[i]? = some (if j = i then a.unite d else d) := by
      rw [getElem?_modify, ht]
      rfl
    refine ⟨i, _, hp, ha, ?_⟩
    split <;> exact hs
  · rw [hm, map_map]
    refine (map_congr_left fun d _ => ?_ : _ = kept.map (·.indexInTransaction)) ▸ h.distinct
    dsimp only [Function.comp]
    split <;> rfl
  · rw [hm]
    intro d' hx
    obtain ⟨d, ho, rfl⟩ := mem_map.mp hx
    have hl := h.united d ho
    rw [asked_concat, asked_concat]
    split
    · rename_i hs
      simp [InstrAccount.unite, hl, hs]
    · rename_i ne
      simp [hl, Ne.symm ne]
  · rw [hm]
    intro d' hx
    obtain ⟨d, ho, rfl⟩ := mem_map.mp hx
    obtain ⟨b, he, hs, hc⟩ := h.origin d ho
    refine ⟨b, mem_append_left _ he, ?_⟩
    split <;> exact ⟨hs, hc⟩

lemma Deduped.first (hn : (kept.findIdx? fun d => d.indexInTransaction = a.indexInTransaction) = none) :
    Deduped (refs ++ [a]) (kept ++ [a]) (places ++ [kept.length]) := by
  have hu : ∀ d ∈ kept, d.indexInTransaction ≠ a.indexInTransaction := by
    intro d hm hs
    exact of_decide_eq_false (findIdx?_eq_none_iff.mp hn d hm) hs
  have hh : ∀ b ∈ refs, b.indexInTransaction ≠ a.indexInTransaction := by
    intro b hm hs
    obtain ⟨k, ha⟩ := mem_iff_getElem?.mp hm
    obtain ⟨j, d, _, ht, hq⟩ := h.placed k b ha
    exact hu d (mem_of_getElem? ht) (hq.trans hs)
  have hd (flag : AccountRef → Bool) : asked flag refs a.indexInTransaction = false := by
    refine any_eq_false.mpr fun b hm => ?_
    simp [hh b hm]
  refine ⟨by simp [h.length], ?_, ?_, ?_, ?_, forall_mem_append.mpr ⟨h.known, forall_mem_singleton.mpr new⟩⟩
  · refine placed_concat h.length (fun k b ha => ?_) (d := a) (by simp) rfl
    obtain ⟨i, d, hp, ht, hs⟩ := h.placed k b ha
    exact ⟨i, d, hp, getElem?_append_left (List.getElem?_eq_some_iff.mp ht).1 ▸ ht, hs⟩
  · refine keys_concat h.distinct fun hm => ?_
    obtain ⟨d, ho, hs⟩ := mem_map.mp hm
    exact hu d ho hs
  · intro d hm
    rw [asked_concat, asked_concat]
    rcases mem_concat.mp hm with ho | hl
    · simp [h.united d ho, Ne.symm (hu d ho)]
    · cases hl
      simp [hd]
  · intro d hm
    rcases mem_concat.mp hm with ho | hl
    · obtain ⟨b, he, hs⟩ := h.origin d ho
      exact ⟨b, mem_append_left _ he, hs⟩
    · cases hl
      exact ⟨a, by simp, rfl, rfl⟩

end

lemma dedupAccount_ok (h : Deduped refs st.1 st.2) (hd : dedupAccount st a = .ok st') :
    Deduped (refs ++ [a]) st'.1 st'.2 := by
  unfold dedupAccount at hd
  obtain ⟨he, hd⟩ := check_ok.mp hd
  split at hd
  · rename_i j hf
    cases hd
    exact h.repeated he hf
  · rename_i hn
    cases hd
    exact h.first he hn

lemma dedup_ok {todo : List InstrAccount} (h : Deduped refs st.1 st.2) (hd : todo.foldlM dedupAccount st = .ok st') :
    Deduped (refs ++ todo) st'.1 st'.2 := by
  induction todo generalizing refs st with
  | nil =>
    cases hd
    simpa using h
  | cons a todo ih =>
    rw [foldlM_cons] at hd
    obtain ⟨mid, hf, hr⟩ := bind_ok.mp hd
    simpa using ih (dedupAccount_ok h hf) hr

def Permitted (txn : Txn) (caller : InstrInfo) (signers : List Pubkey) (idx : Nat)
    (writable signer : Bool) : Prop :=
  ∃ key, caller.keyOfAccountAtIndex txn idx = some key ∧ (writable → caller.isWritableIdx idx) ∧
    (signer → caller.isSignerIdx idx ∨ key ∈ signers)

lemma checkPrivileges_ok (hd : checkPrivileges txn caller signers d = .ok ()) :
    Permitted txn caller signers d.indexInCaller d.isWritable d.isSigner := by
  unfold checkPrivileges at hd
  split at hd
  · cases hd
  · rename_i key ha
    obtain ⟨hw, hd⟩ := check_ok.mp hd
    exact ⟨key, ha, hw, require_ok.mp hd⟩

lemma normalize_ok {b : InstrAccount}
    (h : Deduped refs kept places) (hr : (a, j) ∈ refs.zip places) (hd : normalize kept a j = .ok b) :
    b = united refs a := by
  obtain ⟨k, hk⟩ := mem_iff_getElem?.mp hr
  obtain ⟨he, hp⟩ := getElem?_zip_eq_some.mp hk
  obtain ⟨i, d, ha, ht, hs⟩ := h.placed k a he
  cases hp.symm.trans ha
  unfold normalize at hd
  rw [ht] at hd
  cases hd
  have hf := h.united d (mem_of_getElem? ht)
  rw [hs] at hf
  simp [united, hf]

lemma prepareInstruction_ok {callee out : InstrInfo} {programId : Pubkey}
    (hd : prepareInstruction txn callee caller programId signers = .ok out) :
    out = { callee with accounts := callee.accounts.map (united callee.accounts) } ∧
    (∀ a ∈ callee.accounts, a.indexInTransaction ≠ ushortMax) ∧
    ∀ a ∈ callee.accounts, ∃ b ∈ callee.accounts, b.indexInTransaction = a.indexInTransaction ∧
      Permitted txn caller signers b.indexInCaller (united callee.accounts a).isWritable
        (united callee.accounts a).isSigner := by
  unfold prepareInstruction at hd
  obtain ⟨⟨kept, places⟩, hh, hd⟩ := bind_ok.mp hd
  obtain ⟨_, hc, hd⟩ := bind_ok.mp hd
  obtain ⟨accounts, ho, hd⟩ := bind_ok.mp hd
  obtain ⟨_, hd⟩ := check_ok.mp hd
  cases hd
  have h : Deduped ([] ++ callee.accounts) kept places := dedup_ok Deduped.nil hh
  rw [nil_append] at h
  have hm := mapM_ok (fun p hr b hb => normalize_ok h hr hb) ho
  refine ⟨?_, h.known, fun a hx => ?_⟩
  · have hf : (callee.accounts.zip places).map Prod.fst = callee.accounts :=
      map_fst_zip h.length.ge
    rw [hm, ← hf, map_map, hf]
    rfl
  · obtain ⟨k, ha⟩ := mem_iff_getElem?.mp hx
    obtain ⟨j, d, _, ht, hs⟩ := h.placed k a ha
    have m := mem_of_getElem? ht
    obtain ⟨b, he, hq, hi⟩ := h.origin d m
    have hp := checkPrivileges_ok (forM_ok hc d m)
    have hl := h.united d m
    rw [hl.1, hl.2, hs, ← hi] at hp
    exact ⟨b, he, hq.trans hs, hp⟩

lemma metaRef_key (hk : (metaRef txn caller m).indexInTransaction ≠ ushortMax) :
    txn.keys[(metaRef txn caller m).indexInTransaction]? = some m.pubkey := by
  unfold metaRef at hk ⊢
  cases hf : txn.findIndexOfAccount m.pubkey with
  | none => exact absurd (by rw [hf]; rfl) hk
  | some i => exact findIndexOfAccount_some hf

lemma permitted_in_caller {writable signer : Bool}
    (hp : Permitted txn caller signers (metaRef txn caller m).indexInCaller writable signer) :
    ∃ b ∈ caller.accounts, txn.keys[b.indexInTransaction]? = some m.pubkey ∧
      (writable → b.isWritable) ∧ (signer → b.isSigner ∨ m.pubkey ∈ signers) := by
  obtain ⟨key, ha, hm, hn⟩ := hp
  unfold metaRef at ha hm hn
  unfold InstrInfo.keyOfAccountAtIndex at ha
  split_ifs at ha with hx
  · rw [Txn.keys_ushortMax] at ha
    cases ha
  · cases hf : caller.findIdxOfInstrAccount txn m.pubkey with
    | none => exact absurd (by rw [hf]; rfl) hx
    | some i =>
      rw [hf, Option.getD_some] at ha hm hn
      obtain ⟨hs, hh, _⟩ := findIdx?_eq_some_iff_getElem.mp hf
      have hh := of_decide_eq_true hh
      have ht : caller.accounts[i]? = some caller.accounts[i] := getElem?_eq_getElem hs
      rw [ht, Option.bind_some, hh] at ha
      cases ha
      refine ⟨caller.accounts[i], getElem_mem hs, hh, fun w => ?_, fun s => ?_⟩
      · simpa [InstrInfo.isWritableIdx, ht] using hm w
      · simpa [InstrInfo.isSignerIdx, ht] using hn s

end Firebam.Executor
