import Firebam.Lib.Check

/-! The block cost tracker of the runtime (fd_cost_tracker): the cost of an executed transaction,
the limits of a block, and the table of accounts that were writable in it. -/
namespace Firebam.CostTracker

open Lib

def uintMax : Nat := 2 ^ 32 - 1
def ulongMax : Nat := 2 ^ 64 - 1

def uintSatAdd (a b : Nat) : Nat := min (a + b) uintMax
def uintSatMul (a b : Nat) : Nat := min (a * b) uintMax
def ulongSatAdd (a b : Nat) : Nat := min (a + b) ulongMax
def ulongSatMul (a b : Nat) : Nat := min (a * b) ulongMax

def costPerSignature : Nat := 720
def costPerEd25519Signature : Nat := 2400
def costPerSecp256k1Signature : Nat := 6690
def costPerSecp256r1Signature : Nat := 4800
def invCostPerInstrDataByte : Nat := 4
def writeLockUnits : Nat := 300
def accountDataCostPageSize : Nat := 32 * 1024
def heapCost : Nat := 8
def accSzMax : Nat := 10 * 2 ^ 20

def maxTxnAccWritesPerSlot : Nat := 281123

def largerMaxCostPerBlock : Nat := 18 * 30000000

structure SlotParams where
  maxBlockUnits : Nat
  maxWritableAccountUnits : Nat
  maxBlockAccountsDataSizeDelta : Nat

inductive Regime where
  | ms400 | ms350 | ms300 | ms250 | ms200
  deriving DecidableEq

def Regime.params : Regime → SlotParams
  | .ms400 => ⟨60000000, 24000000, 100000000⟩
  | .ms350 => ⟨52500000, 21000000, 87500000⟩
  | .ms300 => ⟨45000000, 18000000, 75000000⟩
  | .ms250 => ⟨37500000, 15000000, 62500000⟩
  | .ms200 => ⟨30000000, 12000000, 50000000⟩

inductive SystemInstr where
  | createAccount (space : Nat)
  | createAccountWithSeed (space : Nat)
  | allocate (space : Nat)
  | allocateWithSeed (space : Nat)
  | createAccountAllowPrefund (space : Nat)
  | other
  deriving DecidableEq

inductive Program where
  | ed25519SigVerify | keccakSecp256k | secp256r1
  | system (decoded : Option SystemInstr)
  | other
  deriving DecidableEq

structure Instr where
  program : Program
  data : List UInt8

abbrev Pubkey := Nat

structure Account where
  key : Pubkey
  isWritable : Bool

structure Txn where
  signatureCnt : UInt8
  writableCnt : UInt32
  instrs : List Instr
  accounts : List Account
  computeUnitLimit : Nat
  computeMeter : Nat
  loadedAccountsDataSize : Nat

section
variable (txn : Txn)

def Txn.writable : List Pubkey := (txn.accounts.filter (·.isWritable)).map (·.key)

def getInstructionsDataCost : Nat :=
  (txn.instrs.map (·.data.length)).sum % 2 ^ 32 / invCostPerInstrDataByte

def precompileSignatures (program : Program) : Nat :=
  (txn.instrs.map fun i => if i.program = program then (i.data.headD 0).toNat else 0).sum % 2 ^ 32

def getSignatureCost : Nat :=
  let signatureCost := uintSatMul costPerSignature txn.signatureCnt.toNat
  let secp256k1 := uintSatMul costPerSecp256k1Signature (precompileSignatures txn .keccakSecp256k)
  let ed25519 := uintSatMul costPerEd25519Signature (precompileSignatures txn .ed25519SigVerify)
  let secp256r1 := uintSatMul costPerSecp256r1Signature (precompileSignatures txn .secp256r1)
  uintSatAdd (uintSatAdd (uintSatAdd signatureCost secp256k1) ed25519) secp256r1

end

def getWriteLockCost (numWriteLocks : Nat) : Nat := uintSatMul numWriteLocks writeLockUnits

def SystemInstr.space (allowPrefund : Bool) : SystemInstr → Option Nat
  | .createAccount space => some space
  | .createAccountWithSeed space => some space
  | .allocate space => some space
  | .allocateWithSeed space => some space
  | .createAccountAllowPrefund space => if allowPrefund then some space else none
  | .other => some 0

def allocated (allowPrefund : Bool) : Nat → List Instr → Nat
  | sum, [] => min (2 * accSzMax) sum
  | sum, i :: rest =>
    match i.program with
    | .system none => 0
    | .system (some decoded) =>
      match decoded.space allowPrefund with
      | none => 0
      | some space => if accSzMax < space then 0 else allocated allowPrefund (ulongSatAdd sum space) rest
    | _ => allocated allowPrefund sum rest

def calculateAllocatedAccountsDataSize (allowPrefund : Bool) (txn : Txn) : Nat :=
  allocated allowPrefund 0 txn.instrs

def calculateLoadedAccountsDataSizeCost (txn : Txn) : Nat :=
  let pages := (uintSatAdd (txn.loadedAccountsDataSize % 2 ^ 32) accountDataCostPageSize - 1) / accountDataCostPageSize
  uintSatMul pages heapCost

structure UsageCost where
  signatureCost : Nat
  writeLockCost : Nat
  dataBytesCost : Nat
  programsExecutionCost : Nat
  loadedAccountsDataSizeCost : Nat
  allocatedAccountsDataSize : Nat
  deriving DecidableEq

def calculateCost (allowPrefund : Bool) (txn : Txn) : UsageCost where
  signatureCost := getSignatureCost txn
  writeLockCost := getWriteLockCost txn.writableCnt.toNat
  dataBytesCost := getInstructionsDataCost txn
  programsExecutionCost := txn.computeUnitLimit % 2 ^ 32 - txn.computeMeter % 2 ^ 32
  loadedAccountsDataSizeCost := calculateLoadedAccountsDataSizeCost txn
  allocatedAccountsDataSize := calculateAllocatedAccountsDataSize allowPrefund txn

def transactionCostSum (cost : UsageCost) : Nat :=
  uintSatAdd (uintSatAdd (uintSatAdd (uintSatAdd (uintSatAdd 0 cost.signatureCost) cost.writeLockCost)
    cost.dataBytesCost) cost.programsExecutionCost) cost.loadedAccountsDataSizeCost

structure AccountCost where
  account : Pubkey
  cost : Nat

structure Tracker where
  blockCost : Nat
  allocatedAccountsDataSize : Nat
  blockCostLimit : Nat
  accountCostLimit : Nat
  dataSizeLimit : Nat
  accounts : List AccountCost

def init (params : SlotParams) (raiseBlockLimits larger : Bool) : Tracker :=
  let scale (limit : Nat) := if raiseBlockLimits then ulongSatMul limit 100 / 60 else limit
  { blockCost := 0
    allocatedAccountsDataSize := 0
    blockCostLimit := if larger then largerMaxCostPerBlock else scale params.maxBlockUnits
    accountCostLimit := scale params.maxWritableAccountUnits
    dataSizeLimit := params.maxBlockAccountsDataSizeDelta
    accounts := [] }

inductive Err where
  | wouldExceedBlockMaxLimit | wouldExceedAccountMaxLimit | wouldExceedAccountDataBlockLimit

def find (accounts : List AccountCost) (key : Pubkey) : Option AccountCost :=
  accounts.find? fun a => decide (a.account = key)

def wouldFit (t : Tracker) (txn : Txn) (txCost : UsageCost) : Except Err Unit := do
  let cost := transactionCostSum txCost
  require .wouldExceedBlockMaxLimit (ulongSatAdd t.blockCost cost ≤ t.blockCostLimit)
  require .wouldExceedAccountMaxLimit (cost ≤ t.accountCostLimit)
  require .wouldExceedAccountDataBlockLimit
    (ulongSatAdd t.allocatedAccountsDataSize txCost.allocatedAccountsDataSize ≤ t.dataSizeLimit)
  require .wouldExceedAccountMaxLimit
    (∀ key ∈ txn.writable, ∀ chained ∈ find t.accounts key, ulongSatAdd chained.cost cost ≤ t.accountCostLimit)

inductive Fault where
  | accountsUsed

def addAccount (adjustment : Nat) (accounts : List AccountCost) (key : Pubkey) : Except Fault (List AccountCost) :=
  match find accounts key with
  | none => do
    require .accountsUsed (accounts.length < maxTxnAccWritesPerSlot)
    .ok (accounts ++ [⟨key, adjustment⟩])
  | some _ => .ok (accounts.map fun a => if a.account = key then { a with cost := uintSatAdd a.cost adjustment } else a)

def addTransactionExecutionCost (t : Tracker) (txn : Txn) (adjustment : Nat) : Except Fault Tracker := do
  let accounts ← txn.writable.foldlM (addAccount adjustment) t.accounts
  .ok { t with accounts := accounts, blockCost := ulongSatAdd t.blockCost adjustment }

def tryAddCost (t : Tracker) (txn : Txn) (txCost : UsageCost) : Except Fault (Tracker × Option Err) :=
  match wouldFit t txn txCost with
  | .error err => .ok (t, some err)
  | .ok _ => do
    let size := (t.allocatedAccountsDataSize + txCost.allocatedAccountsDataSize) % 2 ^ 64
    let t ← addTransactionExecutionCost { t with allocatedAccountsDataSize := size } txn (transactionCostSum txCost)
    .ok (t, none)

def step (allowPrefund : Bool) (t : Tracker) (txn : Txn) : Except Fault Tracker :=
  (tryAddCost t txn (calculateCost allowPrefund txn)).map Prod.fst

end Firebam.CostTracker
