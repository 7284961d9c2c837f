import Firebam.Lib.Check

/-! The instruction executor of the runtime: the accounts of a transaction, the instruction infos
on the stack, cross-program invocation (fd_vm_syscall_cpi), and the setters of a borrowed account. -/
namespace Firebam.Executor

open Lib

abbrev Pubkey := Nat
abbrev Seeds := List (List Nat)

inductive Err where
  | missingAcc | privilegeEscalation | unsupportedProgramId | reentrancyNotAllowed
  | unbalancedInstr | maxInsnTraceLensExceeded | callDepth | arithmeticOverflow
  | modifiedProgramId | externalAccountLamportSpend | readonlyLamportChange
  | readonlyDataModified | externalDataModified | invalidRealloc | maxAccsDataAllocsExceeded
  | invalidArg | maxInstructionAccountsExceeded | maxInstructionDataLenExceeded
  | tooManySigners | badSeeds | programNotSupported
  | rentState | unbalancedTransaction
  -- Not a code of the source: an operation the executor cannot make in this state.
  | outOfOrder

def ushortMax : Nat := 65535
def maxInstructionTraceLength : Nat := 64
def maxInstructionStackDepth : Nat := 5
def txnInstrAcctMax : Nat := 255
def cpiMaxInstrDataLen : Nat := 10240
def cpiMaxSignerCnt : Nat := 16
def maxPermittedDataLength : Nat := 10 * 2 ^ 20
def maxPermittedAccountDataAllocsPerTxn : Int := 10 * 2 ^ 21
def transactionAccountLockLimit : Nat := 64

structure Account where
  lamports : Nat
  owner : Pubkey
  data : List Nat
  deriving DecidableEq

structure Env where
  sysvarInstructionsId : Pubkey
  bpfLoaderUpgradeableId : Pubkey
  isReservedKey : Pubkey → Bool
  derivePda : Pubkey → Seeds → Option Pubkey
  checkAuthorizedProgram : Pubkey → List Nat → Bool
  checkRentState : Account → Account → Bool

structure TxnInstr where
  programId : Nat
  accounts : List Nat

structure Txn where
  isV0 : Bool
  signatureCnt : Nat
  readonlySignedCnt : Nat
  readonlyUnsignedCnt : Nat
  acctAddrCnt : Nat
  addrTableAdtlWritableCnt : Nat
  keys : List Pubkey
  instrs : List TxnInstr
  keys_nodup : keys.Nodup
  keys_limit : keys.length ≤ transactionAccountLockLimit
  instrs_bound : ∀ i ∈ instrs, ∀ a ∈ i.accounts, a < keys.length

namespace Txn

def isSigner (txn : Txn) (idx : Nat) : Bool := idx < txn.signatureCnt

def isWritable (txn : Txn) (idx : Nat) : Bool :=
  if txn.isV0 && decide (txn.acctAddrCnt ≤ idx) then
    decide (idx < txn.acctAddrCnt + txn.addrTableAdtlWritableCnt)
  else if idx < txn.signatureCnt - txn.readonlySignedCnt then true
  else decide (txn.signatureCnt ≤ idx) && decide (idx < txn.acctAddrCnt - txn.readonlyUnsignedCnt)

def accountIsDemotion (env : Env) (txn : Txn) (idx : Nat) : Bool :=
  txn.instrs.any (fun i => i.programId == idx) && !txn.keys.contains env.bpfLoaderUpgradeableId

def accountIsWritableIdx (env : Env) (txn : Txn) (idx : Nat) : Bool :=
  txn.isWritable idx && !(txn.keys[idx]?.any env.isReservedKey) && !txn.accountIsDemotion env idx

def findIndexOfAccount (txn : Txn) (key : Pubkey) : Option Nat :=
  (List.range txn.keys.length).findSome? fun i =>
    let j := txn.keys.length - 1 - i
    if txn.keys[j]? = some key then some j else none

end Txn

structure AccountRef where
  indexInTransaction : Nat
  indexInCaller : Nat
  isWritable : Bool
  isSigner : Bool

structure InstrAccount extends AccountRef where
  indexInCallee : Nat
  isDuplicate : Bool

structure InstrInfo where
  programId : Nat
  accounts : List InstrAccount
  startingLamports : Nat

def setupInstrAccounts (seen : List Nat) (n : Nat) : List AccountRef → List InstrAccount
  | [] => []
  | r :: rs =>
    if r.indexInTransaction = ushortMax then
      ⟨r, n, false⟩ :: setupInstrAccounts seen (n + 1) rs
    else if r.indexInTransaction ∈ seen then
      ⟨r, n, true⟩ :: setupInstrAccounts seen (n + 1) rs
    else
      ⟨r, n, false⟩ :: setupInstrAccounts (r.indexInTransaction :: seen) (n + 1) rs

def txnRef (env : Env) (txn : Txn) (idx : Nat) : AccountRef :=
  ⟨idx, idx, txn.accountIsWritableIdx env idx, txn.isSigner idx⟩

def initFromTxnInstr (env : Env) (txn : Txn) (instr : TxnInstr) : InstrInfo :=
  ⟨instr.programId, setupInstrAccounts [] 0 (instr.accounts.map (txnRef env txn)), 0⟩

namespace InstrInfo

def isWritableIdx (instr : InstrInfo) (idx : Nat) : Bool :=
  instr.accounts[idx]?.any (·.isWritable)

def isSignerIdx (instr : InstrInfo) (idx : Nat) : Bool :=
  instr.accounts[idx]?.any (·.isSigner)

def findIdxOfInstrAccount (txn : Txn) (instr : InstrInfo) (key : Pubkey) : Option Nat :=
  instr.accounts.findIdx? fun a => txn.keys[a.indexInTransaction]? = some key

def keyOfAccountAtIndex (txn : Txn) (instr : InstrInfo) (idx : Nat) : Option Pubkey :=
  if idx = ushortMax then txn.keys[ushortMax]?
  else instr.accounts[idx]?.bind fun a => txn.keys[a.indexInTransaction]?

end InstrInfo

structure AcctMeta where
  pubkey : Pubkey
  isWritable : Nat
  isSigner : Nat

structure Cpi where
  programId : Pubkey
  metas : List AcctMeta
  data : List Nat
  signersSeeds : List Seeds

def metaRef (txn : Txn) (caller : InstrInfo) (m : AcctMeta) : AccountRef :=
  ⟨(txn.findIndexOfAccount m.pubkey).getD ushortMax, (caller.findIdxOfInstrAccount txn m.pubkey).getD ushortMax,
    m.isWritable != 0, m.isSigner != 0⟩

def instructionToInstr (txn : Txn) (caller : InstrInfo) (cpi : Cpi) : InstrInfo :=
  ⟨(txn.findIndexOfAccount cpi.programId).getD 255, setupInstrAccounts [] 0 (cpi.metas.map (metaRef txn caller)), 0⟩

def InstrAccount.unite (a d : InstrAccount) : InstrAccount :=
  { d with isSigner := d.isSigner || a.isSigner, isWritable := d.isWritable || a.isWritable }

def dedupAccount (st : List InstrAccount × List Nat) (a : InstrAccount) :
    Except Err (List InstrAccount × List Nat) := do
  require .missingAcc (a.indexInTransaction ≠ ushortMax)
  match st.1.findIdx? fun d => d.indexInTransaction = a.indexInTransaction with
  | some j => pure (st.1.modify j a.unite, st.2 ++ [j])
  | none => pure (st.1 ++ [a], st.2 ++ [st.1.length])

def checkPrivileges (txn : Txn) (caller : InstrInfo) (signers : List Pubkey) (d : InstrAccount) : Except Err Unit :=
  match caller.keyOfAccountAtIndex txn d.indexInCaller with
  | none => .error .missingAcc
  | some key => do
    require .privilegeEscalation (d.isWritable → caller.isWritableIdx d.indexInCaller)
    require .privilegeEscalation
      (d.isSigner → caller.isSignerIdx d.indexInCaller ∨ key ∈ signers)

def normalize (kept : List InstrAccount) (a : InstrAccount) (j : Nat) : Except Err InstrAccount :=
  match kept[j]? with
  | none => .error .missingAcc
  | some d => .ok { a with isWritable := d.isWritable, isSigner := d.isSigner }

def prepareInstruction (txn : Txn) (callee caller : InstrInfo) (programId : Pubkey)
    (signers : List Pubkey) : Except Err InstrInfo := do
  let kept ← callee.accounts.foldlM dedupAccount ([], [])
  kept.1.forM (checkPrivileges txn caller signers)
  let accounts ← (callee.accounts.zip kept.2).mapM fun p => normalize kept.1 p.1 p.2
  require .missingAcc (caller.findIdxOfInstrAccount txn programId).isSome
  pure { callee with accounts := accounts }

/-- The runtime during one transaction. The head of the stack is the executing instruction. -/
structure Runtime where
  accounts : List Account
  stack : List InstrInfo
  traceLength : Nat
  currentIdx : Nat
  accountsResizeDelta : Int

def Runtime.lamports (r : Runtime) (i : Nat) : Nat := r.accounts[i]?.elim 0 (·.lamports)

def addLamports (r : Runtime) (total : Nat) (a : InstrAccount) : Except Err Nat :=
  if a.isDuplicate then .ok total
  else if total + r.lamports a.indexInTransaction < 2 ^ 128 then
    .ok (total + r.lamports a.indexInTransaction)
  else .error .arithmeticOverflow

def sumAccountLamports (r : Runtime) (instr : InstrInfo) : Except Err Nat :=
  instr.accounts.foldlM (addLamports r) 0

def Account.updateCurrentInstrIdx (acc : Account) (idx : Nat) : Account :=
  if acc.data.length < 2 then acc
  else { acc with data := acc.data.take (acc.data.length - 2) ++ [idx % 256, idx / 256 % 256] }

def updateInstructionsSysvar (env : Env) (txn : Txn) (r : Runtime) : List Account :=
  match txn.findIndexOfAccount env.sysvarInstructionsId with
  | none => r.accounts
  | some i => r.accounts.modify i (·.updateCurrentInstrIdx r.currentIdx)

def checkCallerBalanced (r : Runtime) : Except Err Unit :=
  match r.stack with
  | [] => .ok ()
  | caller :: _ => do
    let now ← sumAccountLamports r caller
    require .unbalancedInstr (now = caller.startingLamports)

def txnCtxPush (env : Env) (txn : Txn) (r : Runtime) (instr : InstrInfo) : Except Err Runtime := do
  let starting ← sumAccountLamports r instr
  checkCallerBalanced r
  require .maxInsnTraceLensExceeded (r.traceLength ≤ maxInstructionTraceLength)
  require .callDepth (r.stack.length < maxInstructionStackDepth)
  pure { r with
    stack := { instr with startingLamports := starting } :: r.stack
    accounts := updateInstructionsSysvar env txn r }

def instrStackPush (env : Env) (txn : Txn) (r : Runtime) (instr : InstrInfo) :
    Except Err Runtime := do
  require .unsupportedProgramId (instr.programId < txn.keys.length)
  -- Reentrancy is refused unless the caller calls itself.
  require .reentrancyNotAllowed (r.stack.any (fun f => f.programId == instr.programId) →
    r.stack.head?.map (·.programId) = some instr.programId)
  txnCtxPush env txn r instr

def instrStackPop (r : Runtime) : Except Err Runtime :=
  match r.stack with
  | [] => .error .callDepth
  | instr :: rest => do
    let ending ← sumAccountLamports r instr
    require .unbalancedInstr (ending = instr.startingLamports)
    pure { r with stack := rest }

def deriveSigners (env : Env) (program : Pubkey) (seeds : List Seeds) : Except Err (List Pubkey) := do
  require .tooManySigners (seeds.length ≤ cpiMaxSignerCnt)
  seeds.mapM fun s =>
    match env.derivePda program s with
    | some key => .ok key
    | none => .error .badSeeds

def cpiEntrypoint (env : Env) (txn : Txn) (r : Runtime) (caller : InstrInfo) (program : Pubkey)
    (cpi : Cpi) : Except Err Runtime := do
  require .maxInstructionAccountsExceeded (cpi.metas.length ≤ txnInstrAcctMax)
  require .maxInstructionDataLenExceeded (cpi.data.length ≤ cpiMaxInstrDataLen)
  require .invalidArg (∀ m ∈ cpi.metas, m.isSigner ≤ 1 ∧ m.isWritable ≤ 1)
  let signers ← deriveSigners env program cpi.signersSeeds
  require .programNotSupported (env.checkAuthorizedProgram cpi.programId cpi.data)
  let callee ← prepareInstruction txn (instructionToInstr txn caller cpi) caller cpi.programId signers
  instrStackPush env txn { r with traceLength := r.traceLength + 1 } callee

structure BorrowedAccount where
  acc : Account
  isWritable : Bool
  isOwnedByCurrentProgram : Bool

namespace BorrowedAccount

section
variable (b : BorrowedAccount)

def setOwner (owner : Pubkey) : Except Err Account := do
  require .modifiedProgramId b.isOwnedByCurrentProgram
  require .modifiedProgramId b.isWritable
  require .modifiedProgramId (∀ x ∈ b.acc.data, x = 0)
  pure (if b.acc.owner = owner then b.acc else { b.acc with owner := owner })

def setLamports (lamports : Nat) : Except Err Account := do
  require .externalAccountLamportSpend (b.isOwnedByCurrentProgram ∨ b.acc.lamports ≤ lamports)
  require .readonlyLamportChange b.isWritable
  pure (if b.acc.lamports = lamports then b.acc else { b.acc with lamports := lamports })

def checkedAddLamports (lamports : Nat) : Except Err Account := do
  require .arithmeticOverflow (b.acc.lamports + lamports < 2 ^ 64)
  b.setLamports (b.acc.lamports + lamports)

def checkedSubLamports (lamports : Nat) : Except Err Account := do
  require .arithmeticOverflow (lamports ≤ b.acc.lamports)
  b.setLamports (b.acc.lamports - lamports)

end

def longSat (x : Int) : Int := max (-2 ^ 63) (min x (2 ^ 63 - 1))

variable (b : BorrowedAccount)

def resizedDelta (delta : Int) (newLen : Nat) : Int :=
  longSat (delta + longSat (newLen - b.acc.data.length))

def canDataBeChanged : Except Err Unit := do
  require .readonlyDataModified b.isWritable
  require .externalDataModified b.isOwnedByCurrentProgram

def canDataBeResized (delta : Int) (newLen : Nat) : Except Err Unit := do
  require .invalidRealloc (newLen ≤ maxPermittedDataLength)
  require .maxAccsDataAllocsExceeded (b.resizedDelta delta newLen ≤ maxPermittedAccountDataAllocsPerTxn)
  b.canDataBeChanged

def setDataFromSlice (delta : Int) (data : List Nat) :
    Except Err (Account × Int) := do
  b.canDataBeResized delta data.length
  pure ({ b.acc with data := data }, b.resizedDelta delta data.length)

def setDataLength (delta : Int) (newLen : Nat) : Except Err (Account × Int) := do
  b.canDataBeResized delta newLen
  if b.acc.data.length = newLen then pure (b.acc, delta)
  else
    let data := b.acc.data.take newLen ++ List.replicate (newLen - b.acc.data.length) 0
    pure ({ b.acc with data := data }, b.resizedDelta delta newLen)

end BorrowedAccount

inductive Setter where
  | setLamports (lamports : Nat)
  | checkedAddLamports (lamports : Nat)
  | checkedSubLamports (lamports : Nat)
  | setOwner (owner : Pubkey)
  | setDataFromSlice (data : List Nat)
  | setDataLength (newLen : Nat)

def Setter.apply (b : BorrowedAccount) (delta : Int) : Setter → Except Err (Account × Int)
  | .setLamports n => (b.setLamports n).map (·, delta)
  | .checkedAddLamports n => (b.checkedAddLamports n).map (·, delta)
  | .checkedSubLamports n => (b.checkedSubLamports n).map (·, delta)
  | .setOwner k => (b.setOwner k).map (·, delta)
  | .setDataFromSlice data => b.setDataFromSlice delta data
  | .setDataLength n => b.setDataLength delta n

def callSetter (txn : Txn) (r : Runtime) (instr : InstrInfo) (idx : Nat) (setter : Setter) : Except Err Runtime :=
  match instr.accounts[idx]? with
  | none => .error .missingAcc
  | some a =>
    match r.accounts[a.indexInTransaction]? with
    | none => .error .missingAcc
    | some acc => do
      let owned := decide (txn.keys[instr.programId]? = some acc.owner)
      let out ← setter.apply ⟨acc, instr.isWritableIdx idx, owned⟩ r.accountsResizeDelta
      pure { r with
        accounts := r.accounts.set a.indexInTransaction out.1
        accountsResizeDelta := out.2 }

inductive Op where
  | begin (i : Nat)
  | set (idx : Nat) (setter : Setter)
  | invoke (cpi : Cpi)
  | ret

def step (env : Env) (txn : Txn) (r : Runtime) : Op → Except Err Runtime
  | .begin i =>
    match r.stack, txn.instrs[i]? with
    | [], some instr =>
      instrStackPush env txn { r with traceLength := r.traceLength + 1, currentIdx := i }
        (initFromTxnInstr env txn instr)
    | _, _ => .error .outOfOrder
  | .set idx setter =>
    match r.stack with
    | [] => .error .outOfOrder
    | instr :: _ => callSetter txn r instr idx setter
  | .invoke cpi =>
    match r.stack with
    | [] => .error .outOfOrder
    | caller :: _ =>
      match txn.keys[caller.programId]? with
      | none => .error .outOfOrder
      | some program => cpiEntrypoint env txn r caller program cpi
  | .ret => instrStackPop r

def start (accounts : List Account) : Runtime := ⟨accounts, [], 0, 0, 0⟩

end Firebam.Executor
