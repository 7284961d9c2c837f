import Firebam.Executor.Prepare

/-! The instructions on the stack: no invocation gives its callee more than the caller has, so the
flags of the executing instruction go back to the transaction or to a derived address. -/
namespace Firebam.Executor

open Lib List

variable {f caller out instr : InstrInfo} {i n : Nat} {env : Env} {txn : Txn} {refs : List InstrAccount} {cpi : Cpi}
  {signers : List Pubkey} {r r' : Runtime} {program : Pubkey} {m : AcctMeta} {a : InstrAccount}

namespace InstrInfo

def Has (f : InstrInfo) (i : Nat) : Prop := ∃ a ∈ f.accounts, a.indexInTransaction = i
def Writes (f : InstrInfo) (i : Nat) : Prop := ∃ a ∈ f.accounts, a.indexInTransaction = i ∧ a.isWritable
def Signs (f : InstrInfo) (i : Nat) : Prop := ∃ a ∈ f.accounts, a.indexInTransaction = i ∧ a.isSigner

structure Valid (txn : Txn) (f : InstrInfo) : Prop where
  agree : ∀ a ∈ f.accounts, ∀ b ∈ f.accounts, a.indexInTransaction = b.indexInTransaction →
    a.isWritable = b.isWritable ∧ a.isSigner = b.isSigner
  bound : ∀ a ∈ f.accounts, a.indexInTransaction < txn.keys.length
  counted : Lists (counted f.accounts) f.Has

end InstrInfo

def Derived (env : Env) (txn : Txn) (f : InstrInfo) (i : Nat) : Prop :=
  ∃ program key seeds, txn.keys[f.programId]? = some program ∧ txn.keys[i]? = some key ∧
    env.derivePda program seeds = some key

structure Passed (env : Env) (txn : Txn) (callee caller : InstrInfo) : Prop where
  has : ∀ i, callee.Has i → caller.Has i
  writes : ∀ i, callee.Writes i → caller.Writes i
  signs : ∀ i, callee.Signs i → caller.Signs i ∨ Derived env txn caller i

def FromTxn (env : Env) (txn : Txn) (f : InstrInfo) : Prop :=
  ∀ a ∈ f.accounts, a.isWritable = txn.accountIsWritableIdx env a.indexInTransaction ∧
    a.isSigner = txn.isSigner a.indexInTransaction

structure Safe (env : Env) (txn : Txn) (stack : List InstrInfo) : Prop where
  valid : ∀ f ∈ stack, f.Valid txn
  chain : stack.IsChain (Passed env txn)
  top : ∀ f ∈ stack.getLast?, FromTxn env txn f

lemma Safe.nil : Safe env txn [] := ⟨by simp, .nil, by simp⟩

lemma Safe.single (hv : f.Valid txn) (ht : FromTxn env txn f) : Safe env txn [f] := by
  refine ⟨fun g hm => ?_, .singleton f, fun g hl => ?_⟩
  · cases mem_singleton.mp hm
    exact hv
  · cases hl
    exact ht

lemma Safe.cons {g : InstrInfo} {outer : List InstrInfo} (h : Safe env txn (g :: outer))
    (hv : f.Valid txn) (hp : Passed env txn f g) : Safe env txn (f :: g :: outer) := by
  refine ⟨fun e hm => ?_, isChain_cons_cons.mpr ⟨hp, h.chain⟩, h.top⟩
  rcases mem_cons.mp hm with rfl | ho
  · exact hv
  · exact h.valid e ho

lemma Safe.outer (inner : List InstrInfo) {outer : List InstrInfo} (h : Safe env txn (inner ++ outer)) :
    Safe env txn outer := by
  refine ⟨fun f hm => h.valid f (mem_append_right inner hm), (isChain_append.mp h.chain).2.1, ?_⟩
  intro f hl
  refine h.top f ?_
  rw [getLast?_append, hl]
  rfl

lemma Safe.outer_of {outer : List InstrInfo} {P : InstrInfo → Prop}
    (hb : ∀ callee caller, Passed env txn callee caller → P callee → P caller)
    (h : Safe env txn (f :: outer)) (hh : P f) : ∀ g ∈ outer, P g := by
  induction outer generalizing f with
  | nil => simp
  | cons g outer ih =>
    have ha := hb f g (isChain_cons_cons.mp h.chain).1 hh
    exact forall_mem_cons.mpr ⟨ha, ih (Safe.outer [f] h) ha⟩

lemma Safe.has_outer {outer : List InstrInfo} (h : Safe env txn (f :: outer)) (hh : f.Has i) : ∀ g ∈ outer, g.Has i :=
  h.outer_of (fun _ _ hp => hp.has i) hh

lemma Safe.writes_outer {outer : List InstrInfo}
    (h : Safe env txn (f :: outer)) (hw : f.Writes i) : ∀ g ∈ outer, g.Writes i :=
  h.outer_of (fun _ _ hp => hp.writes i) hw

/-- Some enclosing instruction gave the signature, and every level below passed it on. -/
def GivenBy (env : Env) (txn : Txn) (stack : List InstrInfo) (i : Nat) : Prop :=
  ∃ below giver above, stack = below ++ giver :: above ∧ below ≠ [] ∧ Derived env txn giver i ∧ ∀ g ∈ below, g.Signs i

lemma Safe.signs_outer {outer : List InstrInfo} (h : Safe env txn (f :: outer)) (hb : f.Signs i) :
    txn.isSigner i ∨ GivenBy env txn (f :: outer) i := by
  induction outer generalizing f with
  | nil =>
    obtain ⟨a, hm, rfl, hs⟩ := hb
    exact .inl ((h.top f rfl a hm).2 ▸ hs)
  | cons g outer ih =>
    have hp := (isChain_cons_cons.mp h.chain).1
    rcases hp.signs i hb with hh | hd
    · rcases ih (Safe.outer [f] h) hh with hi | ⟨below, giver, above, ht, _, hg, ha⟩
      · exact .inl hi
      · exact .inr ⟨f :: below, giver, above, by rw [ht, cons_append], by simp, hg,
          forall_mem_cons.mpr ⟨hb, ha⟩⟩
    · exact .inr ⟨[f], g, outer, rfl, by simp, hd, forall_mem_singleton.mpr hb⟩

/-! ### What is pushed -/

lemma has_setup {seen : List Nat} {refs : List AccountRef} :
    (∃ a ∈ setupInstrAccounts seen n refs, a.indexInTransaction = i) ↔ ∃ r ∈ refs, r.indexInTransaction = i := by
  constructor
  · rintro ⟨a, hm, rfl⟩
    exact ⟨a.toAccountRef, mem_setup hm, rfl⟩
  · rintro ⟨r, hm, rfl⟩
    rw [← setup_refs seen n refs] at hm
    obtain ⟨a, m, rfl⟩ := mem_map.mp hm
    exact ⟨a, m, rfl⟩

lemma counted_setup {refs : List AccountRef} (hk : ∀ r ∈ refs, r.indexInTransaction ≠ ushortMax) :
    Lists (counted (setupInstrAccounts [] n refs))
      fun i => ∃ a ∈ setupInstrAccounts [] n refs, a.indexInTransaction = i := by
  refine (setup_counted hk).congr fun i => ?_
  rw [has_setup]
  simp

lemma initFromTxnInstr_fromTxn (env : Env) (txn : Txn) (instr : TxnInstr) :
    FromTxn env txn (initFromTxnInstr env txn instr) := by
  intro a hm
  obtain ⟨idx, _, hs⟩ := mem_map.mp (mem_setup hm)
  rw [← hs]
  exact ⟨rfl, rfl⟩

lemma initFromTxnInstr_valid (env : Env) {instr : TxnInstr} (hx : instr ∈ txn.instrs) :
    (initFromTxnInstr env txn instr).Valid txn := by
  have hf := initFromTxnInstr_fromTxn env txn instr
  have hm : ∀ r ∈ instr.accounts.map (txnRef env txn), r.indexInTransaction < txn.keys.length := by
    intro r hr
    obtain ⟨idx, m, rfl⟩ := mem_map.mp hr
    exact txn.instrs_bound instr hx idx m
  refine ⟨fun a ha b hb hs => ?_, fun a ha => hm _ (mem_setup ha), counted_setup fun r hr => ?_⟩
  · rw [(hf a ha).1, (hf b hb).1, (hf a ha).2, (hf b hb).2, hs]
    exact ⟨rfl, rfl⟩
  · have hl := txn.keys_limit
    have m := hm r hr
    unfold transactionAccountLockLimit at hl
    unfold ushortMax
    omega

lemma counted_united (refs accounts : List InstrAccount) : counted (accounts.map (united refs)) = counted accounts := by
  unfold counted
  rw [filter_map, map_map]
  rfl

structure Prepared (txn : Txn) (caller : InstrInfo) (cpi : Cpi) (signers : List Pubkey)
    (refs : List InstrAccount) : Prop where
  made : refs.map (·.toAccountRef) = cpi.metas.map (metaRef txn caller)
  known : ∀ m ∈ cpi.metas, txn.keys[(metaRef txn caller m).indexInTransaction]? = some m.pubkey
  inCaller : ∀ a ∈ refs, ∃ b ∈ caller.accounts, b.indexInTransaction = a.indexInTransaction ∧
    ((united refs a).isWritable → b.isWritable) ∧ ((united refs a).isSigner → b.isSigner ∨
      ∃ key ∈ signers, txn.keys[a.indexInTransaction]? = some key)
  counted : Lists (counted refs) fun i => ∃ a ∈ refs, a.indexInTransaction = i

lemma Prepared.key (h : Prepared txn caller cpi signers refs) (hx : a ∈ refs) : ∃ m ∈ cpi.metas, metaRef txn caller m = a.toAccountRef ∧
      txn.keys[a.indexInTransaction]? = some m.pubkey := by
  have hm : a.toAccountRef ∈ refs.map (·.toAccountRef) := mem_map_of_mem hx
  rw [h.made] at hm
  obtain ⟨m, hi, hs⟩ := mem_map.mp hm
  have ha := h.known m hi
  rw [hs] at ha
  exact ⟨m, hi, hs, ha⟩

lemma prepared_ok
    (hd : prepareInstruction txn (instructionToInstr txn caller cpi) caller cpi.programId signers = .ok out) :
    ∃ refs, Prepared txn caller cpi signers refs ∧ out.accounts = refs.map (united refs) := by
  obtain ⟨rfl, hk, hp⟩ := prepareInstruction_ok hd
  refine ⟨(instructionToInstr txn caller cpi).accounts, ?_, rfl⟩
  have hh : (instructionToInstr txn caller cpi).accounts.map (·.toAccountRef) =
      cpi.metas.map (metaRef txn caller) := setup_refs _ _ _
  have hn : ∀ r ∈ cpi.metas.map (metaRef txn caller), r.indexInTransaction ≠ ushortMax := by
    rw [← hh]
    intro r hx
    obtain ⟨a, hi, rfl⟩ := mem_map.mp hx
    exact hk a hi
  have hb : ∀ m ∈ cpi.metas, txn.keys[(metaRef txn caller m).indexInTransaction]? = some m.pubkey :=
    fun m hx => metaRef_key (hn _ (mem_map_of_mem hx))
  refine ⟨hh, hb, fun a hx => ?_, counted_setup hn⟩
  obtain ⟨c, hi, hs, hp⟩ := hp a hx
  have hm : c.toAccountRef ∈ cpi.metas.map (metaRef txn caller) :=
    hh ▸ mem_map_of_mem (f := fun a : InstrAccount => a.toAccountRef) hi
  obtain ⟨m, hc, hq⟩ := mem_map.mp hm
  have ha := hb m hc
  rw [hq] at ha
  rw [show c.indexInCaller = (metaRef txn caller m).indexInCaller by rw [hq]] at hp
  obtain ⟨b, hf, ht, he, hy⟩ := permitted_in_caller hp
  refine ⟨b, hf, (Txn.index_unique ht ha).trans hs, he, fun hr => ?_⟩
  exact (hy hr).imp_right fun hg => ⟨m.pubkey, hg, hs ▸ ha⟩

lemma mem_united (ha : out.accounts = refs.map (united refs))
    (hm : a ∈ out.accounts) : ∃ c ∈ refs, a = united refs c := by
  rw [ha] at hm
  obtain ⟨c, m, rfl⟩ := mem_map.mp hm
  exact ⟨c, m, rfl⟩

section
variable (h : Prepared txn caller cpi signers refs)
include h

lemma Prepared.valid (hc : out.accounts = refs.map (united refs)) : out.Valid txn := by
  refine ⟨fun a ha b hb hs => ?_, fun a ha => ?_, ?_⟩
  · obtain ⟨c, _, rfl⟩ := mem_united hc ha
    obtain ⟨d, _, rfl⟩ := mem_united hc hb
    have hs : c.indexInTransaction = d.indexInTransaction := hs
    simp [united, hs]
  · obtain ⟨c, hm, rfl⟩ := mem_united hc ha
    obtain ⟨m, _, _, ht⟩ := h.key hm
    exact (List.getElem?_eq_some_iff.mp ht).1
  · rw [hc, counted_united]
    refine h.counted.congr fun i => ?_
    unfold InstrInfo.Has
    rw [hc]
    simp [united]

lemma Prepared.passed (hc : out.accounts = refs.map (united refs)) (hr : txn.keys[caller.programId]? = some program)
    (hd : ∀ key ∈ signers, ∃ seeds ∈ cpi.signersSeeds, env.derivePda program seeds = some key) :
    Passed env txn out caller := by
  refine ⟨?_, ?_, ?_⟩
  · rintro i ⟨a, hx, rfl⟩
    obtain ⟨c, m, rfl⟩ := mem_united hc hx
    obtain ⟨b, hf, hs, _⟩ := h.inCaller c m
    exact ⟨b, hf, hs⟩
  · rintro i ⟨a, hx, rfl, hw⟩
    obtain ⟨c, m, rfl⟩ := mem_united hc hx
    obtain ⟨b, hf, hs, hm, _⟩ := h.inCaller c m
    exact ⟨b, hf, hs, hm hw⟩
  · rintro i ⟨a, hx, rfl, hi⟩
    obtain ⟨c, m, rfl⟩ := mem_united hc hx
    obtain ⟨b, hf, hs, _, ha⟩ := h.inCaller c m
    rcases ha hi with hh | ⟨key, hg, ht⟩
    · exact .inl ⟨b, hf, hs, hh⟩
    · obtain ⟨seeds, _, he⟩ := hd key hg
      exact .inr ⟨program, key, seeds, hr, ht, he⟩

def requested (flag : AcctMeta → Nat) (cpi : Cpi) (key : Pubkey) : Bool :=
  cpi.metas.any fun m => decide (m.pubkey = key) && flag m != 0

lemma Prepared.same_index {n : AcctMeta} (hm : m ∈ cpi.metas) (hn : n ∈ cpi.metas) :
    (metaRef txn caller n).indexInTransaction = (metaRef txn caller m).indexInTransaction ↔ n.pubkey = m.pubkey := by
  constructor
  · intro hs
    have ha := h.known n hn
    rw [hs, h.known m hm] at ha
    exact (Option.some.inj ha).symm
  · intro hs
    unfold metaRef
    rw [hs]

lemma Prepared.asked_eq {flag : AccountRef → Bool} {byte : AcctMeta → Nat}
    (hr : ∀ n, flag (metaRef txn caller n) = (byte n != 0)) (hm : m ∈ cpi.metas) :
    asked flag refs (metaRef txn caller m).indexInTransaction = requested byte cpi m.pubkey := by
  have ht : asked flag refs (metaRef txn caller m).indexInTransaction = (refs.map (·.toAccountRef)).any fun r =>
        decide (r.indexInTransaction = (metaRef txn caller m).indexInTransaction) && flag r := by
    rw [any_map]
    rfl
  rw [ht, h.made, any_map, Bool.eq_iff_iff]
  unfold requested
  simp only [any_eq_true, Function.comp, Bool.and_eq_true, decide_eq_true_eq, hr]
  constructor
  · rintro ⟨n, hn, hs, set⟩
    exact ⟨n, hn, (h.same_index hm hn).mp hs, set⟩
  · rintro ⟨n, hn, hs, set⟩
    exact ⟨n, hn, (h.same_index hm hn).mpr hs, set⟩

lemma Prepared.union (hc : out.accounts = refs.map (united refs)) {k : Nat}
    (hb : out.accounts[k]? = some a) (ht : cpi.metas[k]? = some m) :
    txn.keys[a.indexInTransaction]? = some m.pubkey ∧
    a.isWritable = requested (·.isWritable) cpi m.pubkey ∧
    a.isSigner = requested (·.isSigner) cpi m.pubkey := by
  rw [hc, getElem?_map] at hb
  obtain ⟨c, ha, rfl⟩ := Option.map_eq_some_iff.mp hb
  have hm := congrArg (·[k]?) h.made
  simp only [getElem?_map, ha, ht, Option.map_some, Option.some.injEq] at hm
  have hx := mem_of_getElem? ht
  have hi : c.indexInTransaction = (metaRef txn caller m).indexInTransaction := by rw [hm]
  have hw : asked (·.isWritable) refs c.indexInTransaction = requested (·.isWritable) cpi m.pubkey :=
    hi ▸ h.asked_eq (fun n => rfl) hx
  have hs : asked (·.isSigner) refs c.indexInTransaction = requested (·.isSigner) cpi m.pubkey :=
    hi ▸ h.asked_eq (fun n => rfl) hx
  exact ⟨hi ▸ h.known m hx, hw, hs⟩

lemma Prepared.granted (hx : m ∈ cpi.metas) :
    ∃ b ∈ caller.accounts, txn.keys[b.indexInTransaction]? = some m.pubkey ∧
      (m.isWritable ≠ 0 → b.isWritable) ∧ (m.isSigner ≠ 0 → b.isSigner ∨ m.pubkey ∈ signers) := by
  have hm : metaRef txn caller m ∈ refs.map (·.toAccountRef) := h.made ▸ mem_map_of_mem hx
  obtain ⟨a, hi, hs⟩ := mem_map.mp hm
  have ha := h.known m hx
  have hn : a.indexInTransaction = (metaRef txn caller m).indexInTransaction := by rw [← hs]
  obtain ⟨b, hf, hq, he, hy⟩ := h.inCaller a hi
  have hw : (united refs a).isWritable = requested (·.isWritable) cpi m.pubkey :=
    (congrArg _ hn).trans (h.asked_eq (fun n => rfl) hx)
  have hr : (united refs a).isSigner = requested (·.isSigner) cpi m.pubkey :=
    (congrArg _ hn).trans (h.asked_eq (fun n => rfl) hx)
  rw [hn] at hq hy
  refine ⟨b, hf, hq ▸ ha, fun set => he ?_, fun set => ?_⟩
  · rw [hw]
    exact any_eq_true.mpr ⟨m, hx, by simp [set]⟩
  · refine (hy ?_).imp_right fun hg => ?_
    · rw [hr]
      exact any_eq_true.mpr ⟨m, hx, by simp [set]⟩
    · obtain ⟨key, hd, ht⟩ := hg
      cases ht.symm.trans ha
      exact hd

end

/-! ### What a step does to the stack -/

lemma instrStackPush_ok (hd : instrStackPush env txn r instr = .ok r') :
    ∃ starting, sumAccountLamports r instr = .ok starting ∧
      r'.stack = { instr with startingLamports := starting } :: r.stack ∧
      r'.accounts = updateInstructionsSysvar env txn r := by
  unfold instrStackPush at hd
  obtain ⟨_, hd⟩ := check_ok.mp hd
  obtain ⟨_, hd⟩ := check_ok.mp hd
  unfold txnCtxPush at hd
  obtain ⟨starting, hs, hd⟩ := bind_ok.mp hd
  obtain ⟨_, _, hd⟩ := bind_ok.mp hd
  obtain ⟨_, hd⟩ := check_ok.mp hd
  obtain ⟨_, hd⟩ := check_ok.mp hd
  cases hd
  exact ⟨starting, hs, rfl, rfl⟩

lemma deriveSigners_ok {seeds : List Seeds} (hd : deriveSigners env program seeds = .ok signers) :
    ∀ key ∈ signers, ∃ s ∈ seeds, env.derivePda program s = some key := by
  unfold deriveSigners at hd
  obtain ⟨_, hd⟩ := check_ok.mp hd
  intro key hx
  obtain ⟨s, m, hm⟩ := mem_of_mapM hd hx
  refine ⟨s, m, ?_⟩
  split at hm
  · rename_i hf
    cases hm
    exact hf
  · cases hm

lemma cpiEntrypoint_ok (hd : cpiEntrypoint env txn r caller program cpi = .ok r') :
    ∃ signers refs callee, (∀ key ∈ signers, ∃ s ∈ cpi.signersSeeds, env.derivePda program s = some key) ∧
      Prepared txn caller cpi signers refs ∧ callee.accounts = refs.map (united refs) ∧
      sumAccountLamports r callee = .ok callee.startingLamports ∧ r'.stack = callee :: r.stack ∧
      ∃ n, r'.accounts = updateInstructionsSysvar env txn { r with traceLength := n } := by
  unfold cpiEntrypoint at hd
  obtain ⟨_, hd⟩ := check_ok.mp hd
  obtain ⟨_, hd⟩ := check_ok.mp hd
  obtain ⟨_, hd⟩ := check_ok.mp hd
  obtain ⟨signers, he, hd⟩ := bind_ok.mp hd
  obtain ⟨_, hd⟩ := check_ok.mp hd
  obtain ⟨callee, hp, hd⟩ := bind_ok.mp hd
  obtain ⟨refs, h, hc⟩ := prepared_ok hp
  obtain ⟨starting, hu, hs, ha⟩ := instrStackPush_ok hd
  exact ⟨signers, refs, { callee with startingLamports := starting }, deriveSigners_ok he, h, hc,
    hu, hs, _, ha⟩

lemma callSetter_ok {idx : Nat} {setter : Setter} (hd : callSetter txn r instr idx setter = .ok r') :
    ∃ a acc out, instr.accounts[idx]? = some a ∧ r.accounts[a.indexInTransaction]? = some acc ∧
      setter.apply ⟨acc, a.isWritable, decide (txn.keys[instr.programId]? = some acc.owner)⟩
        r.accountsResizeDelta = .ok out ∧
      r'.stack = r.stack ∧ r'.accounts = r.accounts.set a.indexInTransaction out.1 := by
  unfold callSetter at hd
  split at hd
  · cases hd
  · rename_i a hh
    split at hd
    · cases hd
    · rename_i acc ht
      obtain ⟨out, ha, hd⟩ := bind_ok.mp hd
      cases hd
      have hw : instr.isWritableIdx idx = a.isWritable := by simp [InstrInfo.isWritableIdx, hh]
      rw [hw] at ha
      exact ⟨a, acc, out, hh, ht, ha, rfl, rfl⟩

lemma instrStackPop_ok (hd : instrStackPop r = .ok r') :
    ∃ f rest, r.stack = f :: rest ∧ sumAccountLamports r f = .ok f.startingLamports ∧
      r' = { r with stack := rest } := by
  unfold instrStackPop at hd
  split at hd
  · cases hd
  · rename_i f rest hs
    obtain ⟨ending, hu, hd⟩ := bind_ok.mp hd
    obtain ⟨hb, hd⟩ := check_ok.mp hd
    cases hd
    exact ⟨f, rest, hs, hb ▸ hu, rfl⟩

lemma step_invoke_ok (hd : step env txn r (.invoke cpi) = .ok r') :
    ∃ caller outer program, r.stack = caller :: outer ∧ txn.keys[caller.programId]? = some program ∧
      cpiEntrypoint env txn r caller program cpi = .ok r' := by
  unfold step at hd
  dsimp only at hd
  split at hd
  · cases hd
  · rename_i caller outer hs
    split at hd
    · cases hd
    · rename_i program hr
      exact ⟨caller, outer, program, hs, hr, hd⟩

lemma step_begin_ok (hd : step env txn r (.begin i) = .ok r') :
    ∃ instr starting, r.stack = [] ∧ txn.instrs[i]? = some instr ∧
      sumAccountLamports r (initFromTxnInstr env txn instr) = .ok starting ∧
      r'.stack = [{ initFromTxnInstr env txn instr with startingLamports := starting }] ∧
      ∃ n, r'.accounts = updateInstructionsSysvar env txn { r with traceLength := n, currentIdx := i } := by
  unfold step at hd
  dsimp only at hd
  split at hd
  · rename_i instr he ht
    obtain ⟨starting, hu, hs, ha⟩ := instrStackPush_ok hd
    exact ⟨instr, starting, he, ht, hu, by rw [hs, he], _, ha⟩
  · cases hd

lemma step_safe {op : Op} (h : Safe env txn r.stack) (hd : step env txn r op = .ok r') : Safe env txn r'.stack := by
  cases op with
  | begin i =>
    obtain ⟨instr, starting, _, hi, _, ht, _⟩ := step_begin_ok hd
    have hv := initFromTxnInstr_valid env (mem_of_getElem? hi)
    rw [ht]
    exact .single ⟨hv.agree, hv.bound, hv.counted⟩ (initFromTxnInstr_fromTxn env txn instr)
  | set idx setter =>
    unfold step at hd
    dsimp only at hd
    split at hd
    · cases hd
    · obtain ⟨_, _, _, _, _, _, ht, _⟩ := callSetter_ok hd
      rw [ht]
      exact h
  | invoke cpi =>
    obtain ⟨caller, outer, program, hs, hr, hc⟩ := step_invoke_ok hd
    obtain ⟨signers, refs, callee, he, hp, ha, _, ht, _⟩ := cpiEntrypoint_ok hc
    rw [ht, hs]
    rw [hs] at h
    exact h.cons (hp.valid ha) (hp.passed ha hr he)
  | ret =>
    obtain ⟨f, rest, hs, _, rfl⟩ := instrStackPop_ok hd
    rw [hs] at h
    exact Safe.outer [f] h

lemma run_safe {accounts : List Account} {ops : List Op}
    (hr : run (step env txn) (start accounts) ops = .ok r) : Safe env txn r.stack :=
  run_preserves (step env txn) (fun r => Safe env txn r.stack) (fun _ _ _ h hd => step_safe h hd) Safe.nil hr

def AsksForMore (env : Env) (txn : Txn) (caller : InstrInfo) (cpi : Cpi) : Prop :=
  ∃ m ∈ cpi.metas, (∀ b ∈ caller.accounts, txn.keys[b.indexInTransaction]? ≠ some m.pubkey) ∨ (m.isWritable ≠ 0 ∧
      ∀ b ∈ caller.accounts, txn.keys[b.indexInTransaction]? = some m.pubkey → ¬ b.isWritable) ∨
    (m.isSigner ≠ 0 ∧ (∀ b ∈ caller.accounts, txn.keys[b.indexInTransaction]? = some m.pubkey → ¬ b.isSigner) ∧
      ∀ program ∈ txn.keys[caller.programId]?, ∀ s ∈ cpi.signersSeeds, env.derivePda program s ≠ some m.pubkey)

lemma asks_refused {outer : List InstrInfo} (hs : r.stack = caller :: outer) (hk : AsksForMore env txn caller cpi) :
    ∃ e, step env txn r (.invoke cpi) = .error e := by
  cases hh : step env txn r (.invoke cpi) with
  | error e => exact ⟨e, rfl⟩
  | ok r' =>
    obtain ⟨c, o, program, ha, hr, hc⟩ := step_invoke_ok hh
    cases hs.symm.trans ha
    obtain ⟨signers, refs, callee, hl, hp, _⟩ := cpiEntrypoint_ok hc
    obtain ⟨m, hx, ho⟩ := hk
    obtain ⟨b, hf, ht, hm, hy⟩ := hp.granted hx
    rcases ho with hn | ⟨set, he⟩ | ⟨set, hd, hu⟩
    · exact absurd ht (hn b hf)
    · exact absurd (hm set) (he b hf ht)
    · rcases hy set with hb | hg
      · exact absurd hb (hd b hf ht)
      · obtain ⟨s, hi, hj⟩ := hl m.pubkey hg
        exact absurd hj (hu program hr s hi)

/-- No privilege escalation: in every state that a transaction reaches, for every instruction on the
stack and those that enclose it, and for every invocation that can follow. -/
theorem no_privilege_escalation (env : Env) (txn : Txn) (accounts : List Account) (ops : List Op)
    (r : Runtime) (reached : run (step env txn) (start accounts) ops = .ok r) :
    (∀ inner f outer, r.stack = inner ++ f :: outer →
      (∀ a ∈ f.accounts, ∀ b ∈ f.accounts, a.indexInTransaction = b.indexInTransaction →
        a.isWritable = b.isWritable ∧ a.isSigner = b.isSigner) ∧
      (outer = [] → FromTxn env txn f) ∧
      ∀ a ∈ f.accounts, (∀ g ∈ outer, g.Has a.indexInTransaction) ∧
        (a.isWritable → ∀ g ∈ outer, g.Writes a.indexInTransaction) ∧
        (a.isSigner → txn.isSigner a.indexInTransaction ∨ GivenBy env txn (f :: outer) a.indexInTransaction)) ∧
    (∀ cpi r', step env txn r (.invoke cpi) = .ok r' →
      ∃ f, r'.stack = f :: r.stack ∧ f.accounts.length = cpi.metas.length ∧
        ∀ (k : Nat) a m, f.accounts[k]? = some a → cpi.metas[k]? = some m →
          txn.keys[a.indexInTransaction]? = some m.pubkey ∧
          a.isWritable = requested (·.isWritable) cpi m.pubkey ∧
          a.isSigner = requested (·.isSigner) cpi m.pubkey) ∧
    (∀ caller outer cpi, r.stack = caller :: outer → AsksForMore env txn caller cpi →
      ∃ e, step env txn r (.invoke cpi) = .error e) := by
  have safe := run_safe reached
  refine ⟨fun inner f outer stacked => ?_, fun cpi r' done => ?_,
    fun caller outer cpi stacked asks => asks_refused stacked asks⟩
  · rw [stacked] at safe
    have safe := Safe.outer inner safe
    refine ⟨(safe.valid f (.head _)).agree, fun last => ?_, fun a mem => ⟨?_, ?_, ?_⟩⟩
    · subst last
      exact safe.top f rfl
    · exact safe.has_outer ⟨a, mem, rfl⟩
    · intro writable
      exact safe.writes_outer ⟨a, mem, rfl, writable⟩
    · intro signer
      exact safe.signs_outer ⟨a, mem, rfl, signer⟩
  · obtain ⟨caller, outer, program, _, _, called⟩ := step_invoke_ok done
    obtain ⟨signers, refs, callee, _, prepared, made, _, stack, _⟩ := cpiEntrypoint_ok called
    refine ⟨callee, stack, ?_, fun k a m at_a at_m => prepared.union made at_a at_m⟩
    have sizes := congrArg List.length prepared.made
    rw [length_map, length_map] at sizes
    rw [made, length_map, sizes]

def sampleEnv : Env where
  sysvarInstructionsId := 99
  bpfLoaderUpgradeableId := 98
  isReservedKey _ := false
  derivePda program seeds := if program = 2 ∧ seeds = [[7]] then some 4 else none
  checkAuthorizedProgram _ _ := true
  checkRentState _ _ := true

def sampleTxn : Txn where
  isV0 := false
  signatureCnt := 1
  readonlySignedCnt := 0
  readonlyUnsignedCnt := 3
  acctAddrCnt := 5
  addrTableAdtlWritableCnt := 0
  keys := [1, 4, 2, 3, 99]
  instrs := [⟨2, [0, 1, 3, 1]⟩, ⟨2, [0, 1, 3, 1]⟩]
  keys_nodup := by decide
  keys_limit := by decide
  instrs_bound := by decide

def sampleAccounts : List Account := [⟨50, 0, []⟩, ⟨10, 2, [0]⟩, ⟨1, 8, []⟩, ⟨1, 8, []⟩, ⟨1, 9, [0, 0]⟩]

def sampleCpi : Cpi := ⟨3, [⟨4, 1, 0⟩, ⟨1, 0, 1⟩, ⟨4, 0, 1⟩], [], [[[7]]]⟩

theorem sample_no_privilege_escalation :
    ∃ r, run (step sampleEnv sampleTxn) (start sampleAccounts) [.begin 0, .invoke sampleCpi] = .ok r ∧
      r.stack.length = 2 ∧ ∀ inner f outer, r.stack = inner ++ f :: outer →
        ∀ a ∈ f.accounts, a.isWritable → ∀ g ∈ outer, g.Writes a.indexInTransaction := by
  have ends : endsIn (fun r : Runtime => r.stack.length = 2)
      (run (step sampleEnv sampleTxn) (start sampleAccounts) [.begin 0, .invoke sampleCpi]) = true := by
    decide +kernel
  obtain ⟨r, reached, two⟩ := exists_of_endsIn ends
  refine ⟨r, reached, two, fun inner f outer stacked a mem => ?_⟩
  have all := (no_privilege_escalation sampleEnv sampleTxn sampleAccounts _ r reached).1
  exact ((all inner f outer stacked).2.2 a mem).2.1

end Firebam.Executor
