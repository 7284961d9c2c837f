import Firebam.Executor.Privileges

/-! Lamports over whole transactions: programs as trees of setter calls and invocations, what one
instruction can change, and the sum over all accounts of the transaction. -/
namespace Firebam.Executor

open Lib List

variable {env : Env} {txn : Txn} {r r' s t u : Runtime} {f : InstrInfo}

def Runtime.total (txn : Txn) (r : Runtime) : Nat := (Finset.range txn.keys.length).sum r.lamports

def visible (env : Env) (txn : Txn) (i : Nat) (acc : Account) : Account :=
  if txn.keys[i]? = some env.sysvarInstructionsId then acc.updateCurrentInstrIdx 0 else acc

def Runtime.view (env : Env) (txn : Txn) (r : Runtime) (i : Nat) : Option Account :=
  r.accounts[i]?.map (visible env txn i)

lemma update_lamports (acc : Account) (n : Nat) : (acc.updateCurrentInstrIdx n).lamports = acc.lamports := by
  unfold Account.updateCurrentInstrIdx
  split <;> rfl

lemma update_update (acc : Account) (n : Nat) :
    (acc.updateCurrentInstrIdx n).updateCurrentInstrIdx 0 = acc.updateCurrentInstrIdx 0 := by
  unfold Account.updateCurrentInstrIdx
  split
  · rfl
  · simp

lemma visible_lamports (i : Nat) (acc : Account) : (visible env txn i acc).lamports = acc.lamports := by
  unfold visible
  split
  · exact update_lamports acc 0
  · rfl

lemma lamports_of_view {i : Nat} (hs : r'.view env txn i = r.view env txn i) : r'.lamports i = r.lamports i := by
  have ht (q : Runtime) : q.lamports i = (q.view env txn i).elim 0 (·.lamports) := by
    unfold Runtime.lamports Runtime.view
    cases q.accounts[i]? with
    | none => rfl
    | some acc => exact (visible_lamports i acc).symm
  rw [ht, ht, hs]

lemma view_push (ha : r'.accounts = updateInstructionsSysvar env txn r) (i : Nat) :
    r'.view env txn i = r.view env txn i := by
  unfold Runtime.view
  rw [ha]
  unfold updateInstructionsSysvar
  split
  · rfl
  · rename_i j hf
    rw [getElem?_modify]
    by_cases hh : j = i
    · subst hh
      cases r.accounts[j]? with
      | none => rfl
      | some acc => simp [visible, findIndexOfAccount_some hf, update_update]
    · simp [hh]

/-! ### The setters -/

lemma Setter.apply_ok {b : BorrowedAccount} {delta : Int} {setter : Setter} {out : Account × Int}
    (h : setter.apply b delta = .ok out) :
    b.isWritable ∧ (b.isOwnedByCurrentProgram ∨
      b.acc.lamports ≤ out.1.lamports ∧ out.1.owner = b.acc.owner ∧ out.1.data = b.acc.data) := by
  have hl {n : Nat} {acc : Account} (set : b.setLamports n = .ok acc) :
      b.isWritable ∧ (b.isOwnedByCurrentProgram ∨
        b.acc.lamports ≤ acc.lamports ∧ acc.owner = b.acc.owner ∧ acc.data = b.acc.data) := by
    unfold BorrowedAccount.setLamports at set
    obtain ⟨hs, set⟩ := check_ok.mp set
    obtain ⟨hw, set⟩ := check_ok.mp set
    cases set
    refine ⟨hw, hs.imp_right fun hm => ?_⟩
    split
    · exact ⟨le_refl _, rfl, rfl⟩
    · exact ⟨hm, rfl, rfl⟩
  have hr {n : Nat} {x : Unit} (ha : b.canDataBeResized delta n = .ok x) :
      b.isWritable ∧ b.isOwnedByCurrentProgram := by
    unfold BorrowedAccount.canDataBeResized at ha
    obtain ⟨_, ha⟩ := check_ok.mp ha
    obtain ⟨_, ha⟩ := check_ok.mp ha
    obtain ⟨hw, ha⟩ := check_ok.mp ha
    exact ⟨hw, require_ok.mp ha⟩
  cases setter with
  | setLamports n =>
    obtain ⟨acc, set, rfl⟩ := map_ok.mp h
    exact hl set
  | checkedAddLamports n =>
    obtain ⟨acc, set, rfl⟩ := map_ok.mp h
    exact hl (check_ok.mp set).2
  | checkedSubLamports n =>
    obtain ⟨acc, set, rfl⟩ := map_ok.mp h
    exact hl (check_ok.mp set).2
  | setOwner k =>
    obtain ⟨acc, set, _⟩ := map_ok.mp h
    obtain ⟨ho, set⟩ := check_ok.mp set
    exact ⟨(check_ok.mp set).1, .inl ho⟩
  | setDataFromSlice data =>
    obtain ⟨_, ha, _⟩ := bind_ok.mp h
    exact ⟨(hr ha).1, .inl (hr ha).2⟩
  | setDataLength n =>
    obtain ⟨_, ha, _⟩ := bind_ok.mp h
    exact ⟨(hr ha).1, .inl (hr ha).2⟩

/-- What a change of one account may do while program `key` executes. -/
def TakenBy (key : Option Pubkey) (before after : Account) : Prop :=
  key = some before.owner ∨ before.lamports ≤ after.lamports ∧ after.owner = before.owner ∧ after.data = before.data

lemma TakenBy.visible {key : Option Pubkey} {before after : Account} (i : Nat)
    (h : TakenBy key before after) : TakenBy key (visible env txn i before) (visible env txn i after) := by
  unfold Executor.visible Account.updateCurrentInstrIdx
  rcases h with hw | ⟨hm, ho, hd⟩
  · left
    split
    · split <;> exact hw
    · exact hw
  · right
    rw [hd]
    split
    · split <;> exact ⟨hm, ho, by simp [hd]⟩
    · exact ⟨hm, ho, hd⟩

lemma callSetter_view {idx : Nat} {setter : Setter} (h : callSetter txn r f idx setter = .ok r') (i : Nat) :
    r'.view env txn i = r.view env txn i ∨ f.Writes i ∧
      ∃ before after, r.view env txn i = some before ∧ r'.view env txn i = some after ∧
        TakenBy txn.keys[f.programId]? before after := by
  obtain ⟨a, acc, out, hb, ha, hp, _, hc⟩ := callSetter_ok h
  obtain ⟨hw, ht⟩ := Setter.apply_ok hp
  unfold Runtime.view
  rw [hc, getElem?_set]
  split
  · rename_i hh
    subst hh
    have hm := (List.getElem?_eq_some_iff.mp ha).1
    rw [if_pos hm, ha]
    refine .inr ⟨⟨a, mem_of_getElem? hb, rfl, hw⟩, _, _, rfl, rfl, TakenBy.visible _ ?_⟩
    exact ht.imp_left of_decide_eq_true
  · exact .inl rfl

lemma step_taken {op : Op} (h : step env txn r op = .ok r') {i : Nat} {before : Account}
    (he : r.view env txn i = some before) :
    ∃ after, r'.view env txn i = some after ∧
      TakenBy (r.stack.head?.bind fun f => txn.keys[f.programId]?) before after := by
  have ht (hs : r'.view env txn i = r.view env txn i) : ∃ after, r'.view env txn i = some after ∧
      TakenBy (r.stack.head?.bind fun f => txn.keys[f.programId]?) before after :=
    ⟨before, hs.trans he, .inr ⟨le_refl _, rfl, rfl⟩⟩
  cases op with
  | begin k =>
    obtain ⟨_, _, _, _, _, _, _, after⟩ := step_begin_ok h
    exact ht (view_push after i)
  | set idx setter =>
    unfold step at h
    dsimp only at h
    split at h
    · cases h
    · rename_i f outer hd
      rcases callSetter_view h i with hs | ⟨_, old, new, hw, is, ha⟩
      · exact ht hs
      · cases hw.symm.trans he
        rw [hd]
        exact ⟨new, is, ha⟩
  | invoke cpi =>
    obtain ⟨_, _, _, _, _, hc⟩ := step_invoke_ok h
    obtain ⟨_, _, _, _, _, _, _, _, _, after⟩ := cpiEntrypoint_ok hc
    exact ht (view_push after i)
  | ret =>
    obtain ⟨_, _, _, _, rfl⟩ := instrStackPop_ok h
    exact ht rfl

/-! ### One instruction -/

inductive Action where
  | set (idx : Nat) (setter : Setter)
  | invoke (cpi : Cpi) (body : List Action)

mutual

def Action.ops : Action → List Op
  | .set idx setter => [.set idx setter]
  | .invoke cpi body => .invoke cpi :: (opsOf body ++ [.ret])

def opsOf : List Action → List Op
  | [] => []
  | a :: rest => a.ops ++ opsOf rest

end

lemma sum_ok {accounts : List InstrAccount} {n m : Nat} (h : accounts.foldlM (addLamports r) n = .ok m) :
    m = n + ((counted accounts).map r.lamports).sum := by
  induction accounts generalizing n with
  | nil =>
    cases h
    rfl
  | cons a rest ih =>
    rw [foldlM_cons] at h
    obtain ⟨k, hf, hl⟩ := bind_ok.mp h
    unfold addLamports at hf
    have hs := ih hl
    unfold counted at hs ⊢
    split at hf
    · rename_i hd
      cases hf
      simpa [hd] using hs
    · rename_i hc
      split at hf
      · cases hf
        simpa [hc, add_assoc] using hs
      · cases hf

lemma total_eq {n : Nat} (hv : f.Valid txn) (hf : sumAccountLamports r f = .ok n) (ht : sumAccountLamports r' f = .ok n)
    (ho : ∀ i, ¬ f.Has i → r'.lamports i = r.lamports i) : r'.total txn = r.total txn := by
  have m : (counted f.accounts).toFinset ⊆ Finset.range txn.keys.length := by
    intro i hm
    obtain ⟨a, hl, rfl⟩ := (hv.counted.mem i).mp (mem_toFinset.mp hm)
    exact Finset.mem_range.mpr (hv.bound a hl)
  have hs : (counted f.accounts).toFinset.sum r'.lamports = (counted f.accounts).toFinset.sum r.lamports := by
    rw [sum_toFinset _ hv.counted.nodup, sum_toFinset _ hv.counted.nodup]
    have hb := sum_ok hf
    have ha := sum_ok ht
    omega
  unfold Runtime.total
  rw [← Finset.sum_sdiff m, ← Finset.sum_sdiff m, hs]
  refine congrArg (· + _) (Finset.sum_congr rfl fun i hm => ho i fun hh => ?_)
  exact (Finset.mem_sdiff.mp hm).2 (mem_toFinset.mpr ((hv.counted.mem i).mpr hh))

structure Through (env : Env) (txn : Txn) (f : InstrInfo) (r r' : Runtime) : Prop where
  stack : r'.stack = r.stack
  view : ∀ i, ¬ f.Writes i → r'.view env txn i = r.view env txn i

def Op.pushes : Op → Bool
  | .begin _ => true
  | .invoke _ => true
  | _ => false

lemma pushes_ok {op : Op} (hu : op.pushes) (h : step env txn r op = .ok s) :
    ∃ f, s.stack = f :: r.stack ∧ sumAccountLamports r f = .ok f.startingLamports ∧
      ∀ i, s.view env txn i = r.view env txn i := by
  cases op with
  | begin k =>
    obtain ⟨instr, starting, he, _, hs, hp, _, ha⟩ := step_begin_ok h
    have hv := view_push ha
    exact ⟨_, by rw [hp, he], hs, hv⟩
  | invoke cpi =>
    obtain ⟨_, _, _, _, _, hc⟩ := step_invoke_ok h
    obtain ⟨_, _, callee, _, _, _, starting, hp, _, ha⟩ := cpiEntrypoint_ok hc
    have hv := view_push ha
    exact ⟨callee, hp, starting, hv⟩
  | set idx setter => cases hu
  | ret => cases hu

lemma instr_ok {op : Op} {body : List Op} (hf : Safe env txn r.stack) (hb : op.pushes) (ht : step env txn r op = .ok s)
    (hh : ∀ f t, s.stack = f :: r.stack → run (step env txn) s body = .ok t → Through env txn f s t)
    (h : run (step env txn) s (body ++ [.ret]) = .ok u) :
    u.stack = r.stack ∧ u.total txn = r.total txn ∧
      ∀ f rest, s.stack = f :: rest → ∀ i, ¬ f.Writes i → u.view env txn i = r.view env txn i := by
  obtain ⟨f, hp, hg, hu⟩ := pushes_ok hb ht
  have hv : f.Valid txn := (step_safe hf ht).valid f (by rw [hp]; exact mem_cons_self)
  obtain ⟨t, hc, he⟩ := (run_append_ok _).mp h
  obtain ⟨_, ho, ⟨⟩⟩ := (run_cons_ok _).mp he
  obtain ⟨g, rest, hd, hj, rfl⟩ := instrStackPop_ok ho
  have hk := hh f t hp hc
  cases (hk.stack.trans hp).symm.trans hd
  have hi (i : Nat) (hr : ¬ f.Writes i) : t.view env txn i = r.view env txn i :=
    (hk.view i hr).trans (hu i)
  refine ⟨rfl, total_eq hv hg hj fun i hn => ?_, fun g rest ha i hr => ?_⟩
  · exact lamports_of_view (hi i fun ⟨a, hm, hs, _⟩ => hn ⟨a, hm, hs⟩)
  · cases hp.symm.trans ha
    exact hi i hr

mutual

lemma Action.through (a : Action) {r r' : Runtime} {f : InstrInfo} {outer : List InstrInfo} (he : Safe env txn r.stack)
    (ht : r.stack = f :: outer) (hd : run (step env txn) r a.ops = .ok r') : Through env txn f r r' :=
  match a with
  | .set idx setter => by
    obtain ⟨_, hs, ⟨⟩⟩ := (run_cons_ok _).mp hd
    unfold step at hs
    rw [ht] at hs
    obtain ⟨_, _, _, _, _, _, ha, _⟩ := callSetter_ok hs
    exact ⟨ha, fun i hr => (callSetter_view hs i).resolve_right fun h => hr h.1⟩
  | .invoke cpi body => by
    obtain ⟨s, hc, hn⟩ := (run_cons_ok _).mp hd
    have hf := step_safe he hc
    obtain ⟨g, hp, _⟩ := pushes_ok rfl hc
    obtain ⟨ha, _, hv⟩ := instr_ok he rfl hc (fun g t hp hn => opsOf_through body hf hp hn) hn
    rw [hp, ht] at hf
    refine ⟨ha, fun i hr => hv g r.stack hp i fun hw => hr ?_⟩
    exact hf.writes_outer hw f (.head _)

lemma opsOf_through (as : List Action) {r r' : Runtime} {f : InstrInfo} {outer : List InstrInfo}
    (ha : Safe env txn r.stack) (hs : r.stack = f :: outer)
    (h : run (step env txn) r (opsOf as) = .ok r') : Through env txn f r r' :=
  match as with
  | [] => by
    cases h
    exact ⟨rfl, fun _ _ => rfl⟩
  | a :: rest => by
    obtain ⟨s, hf, hl⟩ := (run_append_ok _).mp h
    have hh := a.through ha hs hf
    have ht := opsOf_through rest (hh.stack ▸ ha) (hh.stack ▸ hs) hl
    exact ⟨ht.stack.trans hh.stack, fun i hr => (ht.view i hr).trans (hh.view i hr)⟩

end

/-! ### The transaction -/

def instrOps (programs : Nat → List Action) (i : Nat) : List Op := .begin i :: (opsOf (programs i) ++ [.ret])

def txnOps (txn : Txn) (programs : Nat → List Action) : List Op :=
  (List.range txn.instrs.length).flatMap (instrOps programs)

def writableLamports (env : Env) (txn : Txn) (r : Runtime) : Nat :=
  (((List.range txn.keys.length).filter (txn.accountIsWritableIdx env)).map r.lamports).sum % 2 ^ 128

def txnCheck (env : Env) (txn : Txn) (before r : Runtime) : Except Err Unit := do
  require .rentState (∀ i ∈ List.range txn.keys.length, txn.accountIsWritableIdx env i →
    ∀ a ∈ before.accounts[i]?, ∀ b ∈ r.accounts[i]?, env.checkRentState a b)
  require .unbalancedTransaction (writableLamports env txn r = writableLamports env txn before)

def executeTxn (env : Env) (txn : Txn) (programs : Nat → List Action) (r : Runtime) : Except Err Runtime := do
  let out ← run (step env txn) r (txnOps txn programs)
  txnCheck env txn r out
  pure out

lemma instrs_total {programs : Nat → List Action} {is : List Nat} (ha : Safe env txn r.stack)
    (h : run (step env txn) r (is.flatMap (instrOps programs)) = .ok u) : u.total txn = r.total txn := by
  induction is generalizing r with
  | nil =>
    cases h
    rfl
  | cons i is ih =>
    rw [flatMap_cons] at h
    obtain ⟨t, hf, hl⟩ := (run_append_ok _).mp h
    obtain ⟨s, hb, hr⟩ := (run_cons_ok _).mp hf
    obtain ⟨hs, ht, _⟩ := instr_ok ha rfl hb
      (fun f t hp hr => opsOf_through _ (step_safe ha hb) hp hr) hr
    exact (ih (hs ▸ ha) hl).trans ht

/-- A transaction that succeeds has conserved lamports: over the whole, over every instruction at
every depth, and no program took from an account it does not own or wrote a read-only one. The index
that the runtime keeps in the instructions sysvar is left out of what is compared. -/
theorem lamports_conserved (env : Env) (txn : Txn) (accounts : List Account) (programs : Nat → List Action)
    (r : Runtime) (done : executeTxn env txn programs (start accounts) = .ok r) :
    r.total txn = (start accounts).total txn ∧
    (∀ before op body after s t u, op.pushes → txnOps txn programs = before ++ (op :: (opsOf body ++ [.ret])) ++ after →
      run (step env txn) (start accounts) before = .ok s → step env txn s op = .ok t →
      run (step env txn) t (opsOf body ++ [.ret]) = .ok u →
      u.total txn = s.total txn ∧
      ∀ f rest, t.stack = f :: rest → ∀ i, ¬ f.Writes i → u.view env txn i = s.view env txn i) ∧
    (∀ before op after s t, txnOps txn programs = before ++ op :: after →
      run (step env txn) (start accounts) before = .ok s → step env txn s op = .ok t →
      ∀ i a, s.view env txn i = some a → ∃ b, t.view env txn i = some b ∧
        (b.lamports < a.lamports ∨ b.owner ≠ a.owner ∨ b.data ≠ a.data →
          ∃ f outer, s.stack = f :: outer ∧ txn.keys[f.programId]? = some a.owner)) := by
  obtain ⟨out, ran, done⟩ := bind_ok.mp done
  obtain ⟨_, _, done⟩ := bind_ok.mp done
  cases done
  refine ⟨instrs_total Safe.nil ran, ?_, ?_⟩
  · intro before op body after s t u pushes _ reached stepped ended
    have safe := run_safe reached
    obtain ⟨_, total, views⟩ := instr_ok safe pushes stepped
      (fun f t pushed ran => opsOf_through body (step_safe safe stepped) pushed ran) ended
    exact ⟨total, views⟩
  · intro before op after s t _ _ stepped i a seen
    obtain ⟨b, now, taken⟩ := step_taken stepped seen
    refine ⟨b, now, fun changed => ?_⟩
    rcases taken with owned | ⟨more, owner, data⟩
    · obtain ⟨f, top, owned⟩ := Option.bind_eq_some_iff.mp owned
      obtain ⟨outer, stacked⟩ := head?_eq_some_iff.mp top
      exact ⟨f, outer, stacked, owned⟩
    · rcases changed with less | other | other
      · exact absurd more (not_le.mpr less)
      · exact absurd owner other
      · exact absurd data other

def samplePrograms : Nat → List Action
  | 0 => [.set 1 (.checkedSubLamports 3), .set 0 (.checkedAddLamports 3), .invoke sampleCpi []]
  | _ => []

theorem sample_lamports_conserved : ∃ r,
    executeTxn sampleEnv sampleTxn samplePrograms (start sampleAccounts) = .ok r ∧ r.lamports 0 = 53 ∧
      r.total sampleTxn = (start sampleAccounts).total sampleTxn := by
  have ends : endsIn (fun r : Runtime => r.lamports 0 = 53)
      (executeTxn sampleEnv sampleTxn samplePrograms (start sampleAccounts)) = true := by
    decide +kernel
  obtain ⟨r, done, paid⟩ := exists_of_endsIn ends
  exact ⟨r, done, paid, (lamports_conserved sampleEnv sampleTxn sampleAccounts samplePrograms r done).1⟩

/-- The instructions sysvar changes during a transaction whose programs do nothing: it is read-only
there and no program of the transaction owns it. -/
theorem sysvar_data_changes : ∃ r, executeTxn sampleEnv sampleTxn (fun _ => []) (start sampleAccounts) = .ok r ∧
      r.accounts[4]? = some ⟨1, 9, [1, 0]⟩ ∧ (start sampleAccounts).accounts[4]? = some ⟨1, 9, [0, 0]⟩ ∧
      sampleTxn.accountIsWritableIdx sampleEnv 4 = false ∧
      ∀ instr ∈ sampleTxn.instrs, sampleTxn.keys[instr.programId]? ≠ some 9 := by
  have ends : endsIn (fun r : Runtime => r.accounts[4]? = some ⟨1, 9, [1, 0]⟩)
      (executeTxn sampleEnv sampleTxn (fun _ => []) (start sampleAccounts)) = true := by
    decide +kernel
  obtain ⟨r, done, changed⟩ := exists_of_endsIn ends
  exact ⟨r, done, changed, rfl, rfl, by decide⟩

end Firebam.Executor
