import Firebam.Lib.Bytes

/-! The transaction parser. A cursor moves over the payload; every field is read after a check
that it is there. -/
namespace Firebam.Txn
open Lib Option

variable {i j k n v cnt payloadSz originalSz acctAddrCnt seen seen' : Nat} {c exact_ : Bool} {buf payload : Mem}
  {version : Version} {instrs heads : List Instr} {tables : List AddrLut} {t : Parsed} {l l' : List (Nat × Nat)}

def signatureSz : Nat := 64
def acctAddrSz : Nat := 32
def blockhashSz : Nat := 32
def sigMax : Nat := 12
def acctAddrMax : Nat := 64
def addrTableLookupMax : Nat := 127
def instrMax : Nat := 64
def instrAcctMax : Nat := 255
def mtu : Nat := 4096
def mtuV0 : Nat := 1232
def minSerializedSz : Nat := 134

def v1MinHeapSz : Nat := 32 * 1024
def v1MaxHeapSz : Nat := 256 * 1024
def v1HeapGranularity : Nat := 1024

def cu16DecSz (buf : Mem) (bytesAvail : Nat) : Nat :=
  if 1 ≤ bytesAvail ∧ buf.byte 0 < 128 then 1
  else if 2 ≤ bytesAvail ∧ buf.byte 1 < 128 then
    if buf.byte 1 = 0 then 0 else 2
  else if 3 ≤ bytesAvail ∧ buf.byte 2 < 4 then
    if buf.byte 2 = 0 then 0 else 3
  else 0

def cu16Enc (val : Nat) : List UInt8 :=
  let byte0 := val % 128
  let byte1 := val / 128 % 128
  let byte2 := val / 16384
  if val ≤ 127 then [byte0.toUInt8]
  else if val ≤ 16383 then [(byte0 + 128).toUInt8, byte1.toUInt8]
  else [(byte0 + 128).toUInt8, (byte1 + 128).toUInt8, byte2.toUInt8]

def cu16DecFixed (buf : Mem) (sz : Nat) : Nat :=
  if sz = 1 then buf.byte 0
  else if sz = 2 then buf.byte 0 % 128 + buf.byte 1 * 128
  else buf.byte 0 % 128 + buf.byte 1 % 128 * 128 + buf.byte 2 * 16384

inductive Version | legacy | v0 | v1
  deriving DecidableEq

structure Instr where
  programId : Nat
  acctCnt : Nat
  dataSz : Nat
  acctOff : Nat
  dataOff : Nat
  deriving DecidableEq

structure AddrLut where
  addrOff : Nat
  writableCnt : Nat
  readonlyCnt : Nat
  writableOff : Nat
  readonlyOff : Nat
  deriving DecidableEq

structure Head where
  transactionVersion : Version
  signatureCnt : Nat
  signatureOff : Nat
  messageOff : Nat
  readonlySignedCnt : Nat
  readonlyUnsignedCnt : Nat
  acctAddrCnt : Nat
  acctAddrOff : Nat
  recentBlockhashOff : Nat
  v1TxnConfigValuesOff : Nat
  deriving DecidableEq

structure Parsed extends Head where
  instr : List Instr
  addressTables : List AddrLut
  addrTableAdtlWritableCnt : Nat
  addrTableAdtlCnt : Nat
  deriving DecidableEq

section
variable (payload : Mem) (payloadSz : Nat)

def check (cond : Bool) : Option Unit := if cond then some () else none

def checkLeft (i n : Nat) : Option Unit := check (n ≤ payloadSz - i)

def readByte (i : Nat) : Option (Nat × Nat) := do
  checkLeft payloadSz i 1
  return (payload.byte i, i + 1)

def readCompactU16 (i : Nat) : Option (Nat × Nat) := do
  let outSz := cu16DecSz (payload.shift i) (payloadSz - i)
  check (outSz ≠ 0)
  return (cu16DecFixed (payload.shift i) outSz, i + outSz)

def skip (i n : Nat) : Option Nat := do
  checkLeft payloadSz i n
  return i + n

def popcnt (w : Nat) : Nat := ((List.range 32).filter w.testBit).length

def parseV1Head (acctAddrCnt i : Nat) : Option (Instr × Nat) := do
  let (programId, i) ← readByte payload payloadSz i
  check (0 < programId ∧ programId < acctAddrCnt)
  let (acctCnt, i) ← readByte payload payloadSz i
  checkLeft payloadSz i 2
  return (⟨programId, acctCnt, payload.load i 2, 0, 0⟩, i + 2)

def parseV1Heads (acctAddrCnt : Nat) : Nat → Nat → Option (List Instr × Nat)
  | 0, i => some ([], i)
  | n + 1, i => do
    let (instr, i) ← parseV1Head payload payloadSz acctAddrCnt i
    let (rest, i) ← parseV1Heads acctAddrCnt n i
    return (instr :: rest, i)

def parseV1Payloads (acctAddrCnt : Nat) : List Instr → Nat → Option (List Instr × Nat)
  | [], i => some ([], i)
  | instr :: rest, i => do
    checkLeft payloadSz i instr.acctCnt
    check ((List.range instr.acctCnt).all fun k => payload.byte (i + k) < acctAddrCnt)
    let dataOff := i + instr.acctCnt
    let next ← skip payloadSz dataOff instr.dataSz
    let (rest, last) ← parseV1Payloads acctAddrCnt rest next
    return ({ instr with acctOff := i, dataOff := dataOff } :: rest, last)

def checkHeap (configMask configValuesOff : Nat) : Option Unit :=
  if configMask / 16 % 2 = 1 then
    let requestedHeap := payload.load (configValuesOff + 4 * (popcnt configMask - 1)) 4
    check (v1MinHeapSz ≤ requestedHeap ∧ requestedHeap ≤ v1MaxHeapSz ∧ requestedHeap % v1HeapGranularity = 0)
  else some ()

def parseV1 (originalSz : Nat) (exact : Bool) : Option (Parsed × Nat) := do
  let (versionByte, i) ← readByte payload payloadSz 0
  check (versionByte % 128 = 1)
  let (signatureCnt, i) ← readByte payload payloadSz i
  check (1 ≤ signatureCnt ∧ signatureCnt ≤ sigMax)
  let (roSignedCnt, i) ← readByte payload payloadSz i
  check (roSignedCnt < signatureCnt)
  let (roUnsignedCnt, i) ← readByte payload payloadSz i
  checkLeft payloadSz i 4
  let configMask := payload.load i 4
  let i := i + 4
  check (configMask < 32)
  check (configMask % 2 = configMask / 2 % 2)
  let recentBlockhashOff := i
  let i ← skip payloadSz i blockhashSz
  let (instrCnt, i) ← readByte payload payloadSz i
  check (instrCnt ≤ instrMax)
  let (acctAddrCnt, i) ← readByte payload payloadSz i
  check (signatureCnt ≤ acctAddrCnt ∧ acctAddrCnt ≤ acctAddrMax)
  check (signatureCnt + roUnsignedCnt ≤ acctAddrCnt)
  let acctAddrOff := i
  let i ← skip payloadSz i (acctAddrSz * acctAddrCnt)
  let configValuesOff := i
  let i ← skip payloadSz i (4 * popcnt configMask)
  checkHeap payload configMask configValuesOff
  let (heads, i) ← parseV1Heads payload payloadSz acctAddrCnt instrCnt i
  let (instr, i) ← parseV1Payloads payload payloadSz acctAddrCnt heads i
  let signatureOff := i
  let i ← skip payloadSz i (signatureSz * signatureCnt)
  check (!exact || i = originalSz)
  return (⟨⟨.v1, signatureCnt, signatureOff, 0, roSignedCnt, roUnsignedCnt, acctAddrCnt, acctAddrOff,
    recentBlockhashOff, configValuesOff⟩, instr, [], 0, 0⟩, i)

def parseVersion (signatureCnt i : Nat) : Option (Version × Nat) := do
  let (headerB0, i) ← readByte payload payloadSz i
  if 128 ≤ headerB0 then
    check (headerB0 % 128 = 0)
    let (again, i) ← readByte payload payloadSz i
    check (signatureCnt = again)
    return (.v0, i)
  else
    check (signatureCnt = headerB0)
    return (.legacy, i)

def parseHead : Option (Head × Nat) := do
  let (signatureCnt, i) ← readByte payload payloadSz 0
  check (1 ≤ signatureCnt ∧ signatureCnt ≤ sigMax)
  let signatureOff := i
  let messageOff ← skip payloadSz i (signatureSz * signatureCnt)
  let (version, i) ← parseVersion payload payloadSz signatureCnt messageOff
  let (roSignedCnt, i) ← readByte payload payloadSz i
  check (roSignedCnt < signatureCnt)
  let (roUnsignedCnt, i) ← readByte payload payloadSz i
  let (acctAddrCnt, acctAddrOff) ← readCompactU16 payload payloadSz i
  check (signatureCnt ≤ acctAddrCnt ∧ acctAddrCnt ≤ acctAddrMax)
  check (signatureCnt + roUnsignedCnt ≤ acctAddrCnt)
  let recentBlockhashOff ← skip payloadSz acctAddrOff (acctAddrSz * acctAddrCnt)
  let i ← skip payloadSz recentBlockhashOff blockhashSz
  return (⟨version, signatureCnt, signatureOff, messageOff, roSignedCnt, roUnsignedCnt, acctAddrCnt, acctAddrOff,
    recentBlockhashOff, 0⟩, i)

def maxAcct (i cnt seen : Nat) : Nat := (List.range cnt).foldl (fun seen k => max seen (payload.byte (k + i))) seen

def parseInstr (acctAddrCnt seen i : Nat) : Option (Instr × Nat × Nat) := do
  checkLeft payloadSz i 3
  let programId := payload.byte i
  let (acctCnt, acctOff) ← readCompactU16 payload payloadSz (i + 1)
  check (acctCnt ≤ instrAcctMax)
  let i ← skip payloadSz acctOff acctCnt
  let (dataSz, dataOff) ← readCompactU16 payload payloadSz i
  let i ← skip payloadSz dataOff dataSz
  check (0 < programId ∧ programId < acctAddrCnt)
  return (⟨programId, acctCnt, dataSz, acctOff, dataOff⟩, maxAcct payload acctOff acctCnt seen, i)

def parseInstrs (acctAddrCnt : Nat) : Nat → Nat → Nat → Option (List Instr × Nat × Nat)
  | 0, seen, i => some ([], seen, i)
  | n + 1, seen, i => do
    let (instr, seen, i) ← parseInstr payload payloadSz acctAddrCnt seen i
    let (rest, seen, i) ← parseInstrs acctAddrCnt n seen i
    return (instr :: rest, seen, i)

def parseTable (acctAddrCnt i : Nat) : Option (AddrLut × Nat) := do
  let addrOff := i
  let i ← skip payloadSz i acctAddrSz
  let (writableCnt, writableOff) ← readCompactU16 payload payloadSz i
  let i ← skip payloadSz writableOff writableCnt
  let (readonlyCnt, readonlyOff) ← readCompactU16 payload payloadSz i
  let i ← skip payloadSz readonlyOff readonlyCnt
  check (writableCnt ≤ acctAddrMax - acctAddrCnt)
  check (readonlyCnt ≤ acctAddrMax - acctAddrCnt)
  check (1 ≤ writableCnt + readonlyCnt)
  return (⟨addrOff, writableCnt, readonlyCnt, writableOff, readonlyOff⟩, i)

def parseTables (acctAddrCnt : Nat) : Nat → Nat → Option (List AddrLut × Nat)
  | 0, i => some ([], i)
  | n + 1, i => do
    let (table, i) ← parseTable payload payloadSz acctAddrCnt i
    let (rest, i) ← parseTables acctAddrCnt n i
    return (table :: rest, i)

def parseLookups (version : Version) (acctAddrCnt i : Nat) : Option (List AddrLut × Nat) :=
  if version = .v0 then do
    let (addrTableCnt, i) ← readCompactU16 payload payloadSz i
    check (addrTableCnt ≤ addrTableLookupMax)
    checkLeft payloadSz i (34 * addrTableCnt)
    parseTables payload payloadSz acctAddrCnt addrTableCnt i
  else some ([], i)

def parseLegacy (originalSz : Nat) (exact : Bool) : Option (Parsed × Nat) := do
  let (head, i) ← parseHead payload payloadSz
  let (instrCnt, i) ← readCompactU16 payload payloadSz i
  check (instrCnt ≤ instrMax)
  checkLeft payloadSz i (3 * instrCnt)
  check ((if instrCnt = 0 then 0 else 1) < head.acctAddrCnt)
  let (instr, seen, i) ← parseInstrs payload payloadSz head.acctAddrCnt instrCnt 0 i
  let (tables, i) ← parseLookups payload payloadSz head.transactionVersion head.acctAddrCnt i
  let writable := (tables.map AddrLut.writableCnt).sum
  let adtl := writable + (tables.map AddrLut.readonlyCnt).sum
  check (!exact || i = originalSz)
  check (head.acctAddrCnt + adtl ≤ acctAddrMax)
  check (seen < head.acctAddrCnt + adtl)
  return (⟨head, instr, tables, writable, adtl⟩, i)

end

def parseCore (payload : Mem) (originalSz : Nat) (exact : Bool) : Option (Parsed × Nat) := do
  check (originalSz ≠ 0)
  if 128 ≤ payload.byte 0 then parseV1 payload (min originalSz mtu) originalSz exact
  else parseLegacy payload (min originalSz mtuV0) originalSz exact

def parse (payload : Mem) (payloadSz : Nat) : Option Parsed := (parseCore payload payloadSz true).map Prod.fst

def footprint (instrCnt addrTableLookupCnt : Nat) : Nat := 22 + instrCnt * 10 + addrTableLookupCnt * 8

def descriptorSz (payload : Mem) (originalSz : Nat) (exact : Bool) : Nat :=
  match parseCore payload originalSz exact with
  | none => 0
  | some (t, _) => footprint t.instr.length t.addressTables.length

def Instr.regions (x : Instr) : List (Nat × Nat) := [(x.acctOff, x.acctCnt), (x.dataOff, x.dataSz)]

def AddrLut.regions (x : AddrLut) : List (Nat × Nat) :=
  [(x.addrOff, acctAddrSz), (x.writableOff, x.writableCnt), (x.readonlyOff, x.readonlyCnt)]

/-- The offsets and sizes that are reported, in the order of the wire format. -/
def Parsed.regions (t : Parsed) : List (Nat × Nat) :=
  let signatures := (t.signatureOff, signatureSz * t.signatureCnt)
  let addrs := (t.acctAddrOff, acctAddrSz * t.acctAddrCnt)
  let blockhash := (t.recentBlockhashOff, blockhashSz)
  let instrs := t.instr.flatMap Instr.regions
  if t.transactionVersion = .v1 then blockhash :: addrs :: instrs ++ [signatures]
  else signatures :: addrs :: blockhash :: instrs ++ t.addressTables.flatMap AddrLut.regions

def Parsed.regionsEnd (t : Parsed) : Nat := t.regions.foldl (fun _ r => r.1 + r.2) 0

/-- The bytes behind the last region: the count of an empty list takes one. -/
def Parsed.emptyCounts (t : Parsed) : Nat :=
  match t.transactionVersion with
  | .v1 => 0
  | .legacy => if t.instr = [] then 1 else 0
  | .v0 => if t.addressTables = [] then if t.instr = [] then 2 else 1 else 0

def Ordered : Nat → List (Nat × Nat) → Nat → Prop
  | i, [], j => i = j
  | i, (off, sz) :: rest, j => i ≤ off ∧ Ordered (off + sz) rest j

lemma Ordered.append (hf : Ordered i l j) (hs : Ordered j l' k) : Ordered i (l ++ l') k := by
  induction l generalizing i with
  | nil => exact hf ▸ hs
  | cons r rest ih => exact ⟨hf.1, ih hf.2⟩

lemma Ordered.le (ho : Ordered i l j) : i ≤ j ∧ ∀ r ∈ l, i ≤ r.1 ∧ r.1 + r.2 ≤ j := by
  induction l generalizing i with
  | nil => exact ⟨Nat.le_of_eq ho, nofun⟩
  | cons r rest ih =>
    obtain ⟨hl, rest⟩ := ho
    obtain ⟨le, all⟩ := ih rest
    refine ⟨by omega, List.forall_mem_cons.mpr ⟨⟨hl, le⟩, fun x hm => ?_⟩⟩
    have := all x hm
    exact ⟨by omega, this.2⟩

lemma Ordered.pairwise (ho : Ordered i l j) : l.Pairwise fun a b => a.1 + a.2 ≤ b.1 := by
  induction l generalizing i with
  | nil => exact .nil
  | cons r rest ih => exact .cons (fun x hm => (ho.2.le.2 x hm).1) (ih ho.2)

lemma Ordered.later (ho : Ordered j l k) (hl : i ≤ j) (hs : l ≠ []) : Ordered i l k := by
  cases l with
  | nil => exact absurd rfl hs
  | cons r rest => exact ⟨Nat.le_trans hl ho.1, ho.2⟩

lemma Ordered.behind {α : Type} {f : α → List (Nat × Nat)} {xs : List α} (ho : Ordered j (xs.flatMap f) k)
    (hl : i ≤ j) (he : xs = [] → j = i + 1) (hf : ∀ x, f x ≠ []) :
    ∃ m, Ordered i (xs.flatMap f) m ∧ k = m + if xs = [] then 1 else 0 := by
  cases xs with
  | nil => exact ⟨i, rfl, (ho : j = k) ▸ he rfl⟩
  | cons x rest =>
    refine ⟨k, ho.later hl ?_, rfl⟩
    rw [List.flatMap_cons]
    exact List.append_ne_nil_of_left_ne_nil (hf x) _

lemma Ordered.last (ho : Ordered i l j) : l.foldl (fun _ r => r.1 + r.2) i = j := by
  induction l generalizing i with
  | nil => exact ho
  | cons r rest ih => exact ih ho.2

section

variable {α : Type} {b : α}

lemma check_bind {f : Unit → Option α} : (check c >>= f) = some b ↔ c = true ∧ f () = some b := by
  cases c <;> simp [check]

lemma checkLeft_bind {f : Unit → Option α} :
    (checkLeft payloadSz i n >>= f) = some b ↔ n ≤ payloadSz - i ∧ f () = some b := by
  rw [checkLeft, check_bind, decide_eq_true_iff]

lemma readByte_bind {f : Nat × Nat → Option α} :
    (readByte payload payloadSz i >>= f) = some b ↔ 1 ≤ payloadSz - i ∧ f (payload.byte i, i + 1) = some b := by
  rw [readByte, LawfulMonad.bind_assoc, checkLeft_bind]
  rfl

lemma skip_bind {f : Nat → Option α} :
    (skip payloadSz i n >>= f) = some b ↔ n ≤ payloadSz - i ∧ f (i + n) = some b := by
  rw [skip, LawfulMonad.bind_assoc, checkLeft_bind]
  rfl

lemma readCompactU16_bind {f : Nat × Nat → Option α} : (readCompactU16 payload payloadSz i >>= f) = some b ↔
    ∃ v j, readCompactU16 payload payloadSz i = some (v, j) ∧ f (v, j) = some b :=
  bind_eq_some_iff.trans Prod.exists

end

lemma cu16DecSz_le (buf : Mem) (n : Nat) : cu16DecSz buf n ≤ n := by
  unfold cu16DecSz
  split_ifs <;> omega

lemma cu16DecSz_three (hr : cu16DecSz buf n ≠ 0) : cu16DecSz buf 3 = cu16DecSz buf n := by
  unfold cu16DecSz at hr ⊢
  split_ifs at hr ⊢ <;> omega

lemma readCompactU16_ok (h : readCompactU16 payload payloadSz i = some (v, j)) :
    ∃ k, cu16DecSz (payload.shift i) 3 = k ∧ v = cu16DecFixed (payload.shift i) k ∧ j = i + k ∧ i < j ∧
      j ≤ payloadSz := by
  obtain ⟨hr, he⟩ := check_bind.mp h
  cases he
  have hr := of_decide_eq_true hr
  have hb := cu16DecSz_le (payload.shift i) (payloadSz - i)
  exact ⟨_, cu16DecSz_three hr, rfl, rfl, by omega, by omega⟩

lemma readCompactU16_le (h : readCompactU16 payload payloadSz i = some (v, j)) : i < j ∧ j ≤ payloadSz := by
  obtain ⟨-, -, -, -, hb⟩ := readCompactU16_ok h
  exact hb

lemma readCompactU16_zero (h : readCompactU16 payload payloadSz i = some (0, j)) : j = i + 1 := by
  obtain ⟨k, hs, hv, hn, hl, -⟩ := readCompactU16_ok h
  unfold cu16DecSz at hs
  unfold cu16DecFixed at hv
  split_ifs at hs hv <;> omega

lemma cu16_small (hs : buf.byte 0 < 128) : cu16DecSz buf 3 = 1 := by
  unfold cu16DecSz
  rw [if_pos ⟨by decide, hs⟩]

lemma readCompactU16_small (hs : payload.byte i < 128)
    (h : readCompactU16 payload payloadSz i = some (v, j)) : v = payload.byte i ∧ j = i + 1 ∧ j ≤ payloadSz := by
  obtain ⟨k, hi, hv, hn, -, hb⟩ := readCompactU16_ok h
  have ho : cu16DecSz (payload.shift i) 3 = 1 := cu16_small hs
  rw [ho] at hi
  subst hi
  exact ⟨hv, hn, hb⟩

lemma parseVersion_ok (h : parseVersion payload payloadSz cnt i = some (version, j)) :
    j ≤ payloadSz ∧ (version = .v0 ∧ payload.byte i = 128 ∧ j = i + 2 ∨
      version = .legacy ∧ payload.byte i = cnt ∧ j = i + 1) := by
  have hb := payload.byte_lt i
  simp only [parseVersion, readByte_bind] at h
  obtain ⟨hh, h⟩ := h
  split at h
  · simp only [check_bind, readByte_bind, decide_eq_true_iff] at h
    obtain ⟨hz, ht, -, h⟩ := h
    cases h
    exact ⟨by omega, .inl ⟨rfl, by omega, rfl⟩⟩
  · obtain ⟨hs, h⟩ := check_bind.mp h
    cases h
    exact ⟨by omega, .inr ⟨rfl, (of_decide_eq_true hs).symm, rfl⟩⟩

structure HeadOk (payload : Mem) (payloadSz : Nat) (head : Head) (last h k : Nat) : Prop where
  cnt : head.signatureCnt = payload.byte 0
  positive : 1 ≤ head.signatureCnt
  most : head.signatureCnt ≤ sigMax
  signatures : head.signatureOff = 1
  message : head.messageOff = 1 + 64 * head.signatureCnt
  version : head.transactionVersion = .v0 ∧ payload.byte head.messageOff = 128 ∧ h = head.messageOff + 2 ∨
    head.transactionVersion = .legacy ∧ payload.byte head.messageOff = head.signatureCnt ∧ h = head.messageOff + 1
  signed : head.readonlySignedCnt < head.signatureCnt
  unsigned : head.signatureCnt + head.readonlyUnsignedCnt ≤ head.acctAddrCnt
  compact : cu16DecSz (payload.shift (h + 2)) 3 = k
  accts : head.acctAddrCnt = cu16DecFixed (payload.shift (h + 2)) k
  enough : head.signatureCnt ≤ head.acctAddrCnt
  off : head.acctAddrOff = h + 2 + k
  blockhash : head.recentBlockhashOff = head.acctAddrOff + 32 * head.acctAddrCnt
  next : last = head.recentBlockhashOff + 32
  inside : last ≤ payloadSz

lemma parseHead_ok {head : Head} (hd : parseHead payload payloadSz = some (head, j)) :
    ∃ h k, HeadOk payload payloadSz head j h k := by
  simp only [parseHead, readByte_bind, check_bind, skip_bind, decide_eq_true_iff] at hd
  obtain ⟨hh, hr, hm, hd⟩ := hd
  obtain ⟨⟨version, h⟩, hv, hd⟩ := bind_eq_some_iff.mp hd
  obtain ⟨hf, hk⟩ := parseVersion_ok hv
  simp only [readByte_bind, check_bind, skip_bind, readCompactU16_bind, decide_eq_true_iff] at hd
  obtain ⟨hg, hs, hi, accts, off, ha, he, hu, hj, hb, hd⟩ := hd
  obtain ⟨k, hc, rfl, rfl, -, hn⟩ := readCompactU16_ok ha
  cases hd
  refine ⟨h, k, ⟨rfl, hr.1, hr.2, rfl, rfl, hk, hs, hu, hc, rfl, he.1, rfl, rfl, rfl, ?_⟩⟩
  have hw : blockhashSz = 32 := rfl
  omega

def Instr.Sound (payload : Mem) (acctAddrCnt acctCnt : Nat) (x : Instr) : Prop :=
  0 < x.programId ∧ x.programId < acctAddrCnt ∧ ∀ k < x.acctCnt, payload.byte (x.acctOff + k) < acctCnt

lemma le_maxAcct (payload : Mem) (i cnt seen : Nat) : seen ≤ maxAcct payload i cnt seen ∧
    ∀ k < cnt, payload.byte (i + k) ≤ maxAcct payload i cnt seen := by
  induction cnt with
  | zero => exact ⟨.refl, nofun⟩
  | succ cnt ih =>
    have hs : maxAcct payload i (cnt + 1) seen = max (maxAcct payload i cnt seen) (payload.byte (cnt + i)) := by
      simp [maxAcct, List.range_succ]
    rw [hs]
    refine ⟨by omega, fun k hl => ?_⟩
    rcases Nat.lt_succ_iff_lt_or_eq.mp hl with hl | rfl
    · have := ih.2 k hl
      omega
    · rw [Nat.add_comm]
      omega

structure InstrOk (payload : Mem) (payloadSz i : Nat) (instr : Instr) (last : Nat) : Prop where
  program : instr.programId = payload.byte i
  accts : readCompactU16 payload payloadSz (i + 1) = some (instr.acctCnt, instr.acctOff)
  data : readCompactU16 payload payloadSz (instr.acctOff + instr.acctCnt) = some (instr.dataSz, instr.dataOff)
  next : last = instr.dataOff + instr.dataSz
  inside : last ≤ payloadSz

lemma parseInstr_ok {instr : Instr} (h : parseInstr payload payloadSz acctAddrCnt seen i = some (instr, seen', j)) :
    InstrOk payload payloadSz i instr j ∧ seen ≤ seen' ∧ instr.Sound payload acctAddrCnt (seen' + 1) := by
  simp only [parseInstr, checkLeft_bind, check_bind, skip_bind, readCompactU16_bind, decide_eq_true_iff] at h
  obtain ⟨-, accts, off, he, -, hf, sz, dataOff, hr, ht, hk, h⟩ := h
  have hi := readCompactU16_le hr
  cases h
  obtain ⟨hg, all⟩ := le_maxAcct payload off accts seen
  refine ⟨⟨rfl, he, hr, rfl, by omega⟩, hg, hk.1, hk.2, fun k hl => ?_⟩
  exact Nat.lt_succ_of_le (all k hl)

lemma parseInstrs_ok (ha : i ≤ payloadSz)
    (h : parseInstrs payload payloadSz acctAddrCnt n seen i = some (instrs, seen', j)) :
    j ≤ payloadSz ∧ instrs.length = n ∧ seen ≤ seen' ∧ Ordered i (instrs.flatMap Instr.regions) j ∧
      ∀ x ∈ instrs, x.Sound payload acctAddrCnt (seen' + 1) := by
  induction n generalizing seen i instrs with
  | zero =>
    cases h
    exact ⟨ha, rfl, .refl, rfl, nofun⟩
  | succ n ih =>
    obtain ⟨⟨instr, next, k⟩, hf, h⟩ := bind_eq_some_iff.mp h
    obtain ⟨⟨rest, last, l⟩, ht, h⟩ := bind_eq_some_iff.mp h
    cases h
    obtain ⟨ok, hg, hs⟩ := parseInstr_ok hf
    obtain ⟨hi, hl, hm, ho, all⟩ := ih ok.inside ht
    have hw := readCompactU16_le ok.accts
    have hh := readCompactU16_le ok.data
    refine ⟨hi, congrArg (· + 1) hl, Nat.le_trans hg hm, ?_, List.forall_mem_cons.mpr ⟨?_, all⟩⟩
    · exact Ordered.append (l := instr.regions) ⟨by omega, by omega, ok.next.symm⟩ ho
    · exact ⟨hs.1, hs.2.1, fun k he => Nat.lt_of_lt_of_le (hs.2.2 k he) (Nat.succ_le_succ hm)⟩

lemma parseTables_ok (hs : i ≤ payloadSz) (h : parseTables payload payloadSz acctAddrCnt n i = some (tables, j)) :
    j ≤ payloadSz ∧ tables.length = n ∧ Ordered i (tables.flatMap AddrLut.regions) j := by
  induction n generalizing i tables with
  | zero =>
    cases h
    exact ⟨hs, rfl, rfl⟩
  | succ n ih =>
    obtain ⟨⟨table, k⟩, hr, h⟩ := bind_eq_some_iff.mp h
    obtain ⟨⟨rest, l⟩, ht, h⟩ := bind_eq_some_iff.mp h
    cases h
    simp only [parseTable, check_bind, skip_bind, readCompactU16_bind] at hr
    obtain ⟨hf, writable, off, hd, ha, readonly, offR, he, hb, -, -, -, hr⟩ := hr
    have hw := readCompactU16_le hd
    have hh := readCompactU16_le he
    cases hr
    obtain ⟨hi, hl, ho⟩ := ih (by omega) ht
    refine ⟨hi, congrArg (· + 1) hl, Ordered.append (l := AddrLut.regions _) ?_ ho⟩
    exact ⟨.refl, Nat.le_of_lt hw.1, Nat.le_of_lt hh.1, rfl⟩

lemma parseLookups_ok (hs : i ≤ payloadSz)
    (h : parseLookups payload payloadSz version acctAddrCnt i = some (tables, j)) : j ≤ payloadSz ∧
      (version ≠ .v0 ∧ tables = [] ∧ j = i ∨
       version = .v0 ∧ ∃ k, i < k ∧ (tables = [] → j = i + 1) ∧ Ordered k (tables.flatMap AddrLut.regions) j) := by
  unfold parseLookups at h
  split at h
  · rename_i v0
    simp only [readCompactU16_bind, check_bind, checkLeft_bind] at h
    obtain ⟨cnt, k, hr, -, -, h⟩ := h
    have hn := readCompactU16_le hr
    obtain ⟨hi, hl, ho⟩ := parseTables_ok hn.2 h
    refine ⟨hi, .inr ⟨v0, k, hn.1, ?_, ho⟩⟩
    rintro rfl
    cases hl
    rw [← (ho : k = j)]
    exact readCompactU16_zero hr
  · rename_i ne
    cases h
    exact ⟨hs, .inl ⟨ne, rfl, rfl⟩⟩

structure LegacyOk (payload : Mem) (payloadSz originalSz : Nat) (t : Parsed) (last h k : Nat) : Prop where
  head : HeadOk payload payloadSz t.toHead last h k
  fits : originalSz ≤ payloadSz
  body : ∃ cnt first next seen, readCompactU16 payload payloadSz last = some (cnt, first) ∧
    parseInstrs payload payloadSz t.acctAddrCnt cnt 0 first = some (t.instr, seen, next) ∧
    (t.transactionVersion = .legacy → originalSz = next)

structure Sound (payload : Mem) (payloadSz : Nat) (t : Parsed) (last : Nat) : Prop where
  regions : ∃ m, Ordered 0 t.regions m ∧ last = m + t.emptyCounts
  fits : last ≤ payloadSz
  instrs : ∀ x ∈ t.instr, x.Sound payload t.acctAddrCnt (t.acctAddrCnt + t.addrTableAdtlCnt)
  signers : t.readonlySignedCnt < t.signatureCnt
  writable : t.signatureCnt + t.readonlyUnsignedCnt ≤ t.acctAddrCnt
  lookups : t.addrTableAdtlWritableCnt ≤ t.addrTableAdtlCnt
  total : t.acctAddrCnt + t.addrTableAdtlCnt ≤ acctAddrMax

lemma HeadOk.regions {last h first mid : Nat} (hh : HeadOk payload payloadSz t.toHead last h k)
    (hb : readCompactU16 payload payloadSz last = some (t.instr.length, first))
    (hi : Ordered first (t.instr.flatMap Instr.regions) mid)
    (hd : t.transactionVersion ≠ .v0 ∧ t.addressTables = [] ∧ j = mid ∨ t.transactionVersion = .v0 ∧
      ∃ k, mid < k ∧ (t.addressTables = [] → j = mid + 1) ∧ Ordered k (t.addressTables.flatMap AddrLut.regions) j) :
    ∃ m, Ordered 0 t.regions m ∧ j = m + t.emptyCounts := by
  have hl := (readCompactU16_le hb).1
  have legacy : t.transactionVersion ≠ .v1 := by
    rcases hh.version with ⟨hv, -⟩ | ⟨hv, -⟩ <;> rw [hv] <;> decide
  have hf : Ordered 0 [(t.signatureOff, signatureSz * t.signatureCnt), (t.acctAddrOff, acctAddrSz * t.acctAddrCnt),
      (t.recentBlockhashOff, blockhashSz)] last := by
    have hm := hh.message
    have hc := hh.off
    refine ⟨Nat.zero_le _, ?_, Nat.le_of_eq hh.blockhash.symm, hh.next.symm⟩
    rw [hh.signatures, signatureSz]
    rcases hh.version with ⟨-, -, hx⟩ | ⟨-, -, hx⟩ <;> omega
  obtain ⟨m, ho, eq⟩ := hi.behind (Nat.le_of_lt hl) (fun hn => readCompactU16_zero (hn ▸ hb :))
    fun _ => List.cons_ne_nil _ _
  unfold Parsed.regions Parsed.emptyCounts
  rw [if_neg legacy]
  rcases hd with ⟨ne, hn, rfl⟩ | ⟨v0, k, ha, he, ht⟩
  · refine ⟨m, ?_, ?_⟩
    · rw [hn, List.flatMap_nil, List.append_nil]
      exact hf.append ho
    · cases hv : t.transactionVersion with
      | legacy => exact eq
      | v0 => exact absurd hv ne
      | v1 => exact absurd hv legacy
  · rw [v0]
    by_cases hn : t.addressTables = []
    · refine ⟨m, ?_, ?_⟩
      · rw [hn, List.flatMap_nil, List.append_nil]
        exact hf.append ho
      · have last := he hn
        simp only [hn, if_true]
        split at eq <;> simp_all
    · obtain ⟨m', hr, hq⟩ := ht.behind (i := m) (by omega) (fun nil => absurd nil hn) fun _ => List.cons_ne_nil _ _
      exact ⟨m', (hf.append ho).append hr, by simpa [hn] using hq⟩

lemma parseLegacy_ok (hd : parseLegacy payload payloadSz originalSz exact_ = some (t, j)) :
    (exact_ = true → j = originalSz) ∧ (∃ last h k, LegacyOk payload payloadSz j t last h k) ∧ Sound payload payloadSz t j := by
  obtain ⟨⟨head, last⟩, ha, hd⟩ := bind_eq_some_iff.mp hd
  obtain ⟨h, k, hh⟩ := parseHead_ok ha
  simp only [readCompactU16_bind, check_bind, checkLeft_bind] at hd
  obtain ⟨cnt, first, hf, -, -, -, hd⟩ := hd
  obtain ⟨hu, hm⟩ := readCompactU16_le hf
  obtain ⟨⟨instrs, seen, mid⟩, hi, hd⟩ := bind_eq_some_iff.mp hd
  obtain ⟨hb, hq, -, ho, hn⟩ := parseInstrs_ok hm hi
  obtain ⟨⟨tables, end_⟩, hl, hd⟩ := bind_eq_some_iff.mp hd
  obtain ⟨hg, ht⟩ := parseLookups_ok hb hl
  simp only [check_bind, decide_eq_true_iff] at hd
  obtain ⟨all, hj, hk, hd⟩ := hd
  cases hd
  refine ⟨fun is => ?_, ⟨last, h, k, hh, hg, cnt, first, mid, seen, hf, hi, fun he => ?_⟩, ?_⟩
  · subst is
    exact of_decide_eq_true all
  · rcases ht with ⟨-, -, hs⟩ | ⟨v0, -⟩
    · exact hs
    · exact nomatch v0.symm.trans he
  · refine ⟨HeadOk.regions (t := ⟨head, instrs, tables, _, _⟩) hh (hq ▸ hf) ho ht, hg,
      fun x hx => ?_, hh.signed, hh.unsigned, Nat.le_add_right _ _, hj⟩
    obtain ⟨hp, hr, hc⟩ := hn x hx
    exact ⟨hp, hr, fun k hw => Nat.lt_of_lt_of_le (hc k hw) hk⟩

lemma parseV1Heads_ok (hs : i ≤ payloadSz) (h : parseV1Heads payload payloadSz acctAddrCnt n i = some (heads, j)) :
    i ≤ j ∧ j ≤ payloadSz ∧ ∀ x ∈ heads, 0 < x.programId ∧ x.programId < acctAddrCnt := by
  induction n generalizing i heads with
  | zero =>
    cases h
    exact ⟨.refl, hs, nofun⟩
  | succ n ih =>
    obtain ⟨⟨head, k⟩, hf, h⟩ := bind_eq_some_iff.mp h
    obtain ⟨⟨rest, l⟩, ho, h⟩ := bind_eq_some_iff.mp h
    cases h
    simp only [parseV1Head, readByte_bind, check_bind, checkLeft_bind, decide_eq_true_iff] at hf
    obtain ⟨-, hk, -, he, hf⟩ := hf
    cases hf
    have hl := ih (by omega) ho
    exact ⟨by omega, hl.2.1, List.forall_mem_cons.mpr ⟨hk, hl.2.2⟩⟩

lemma parseV1Payloads_ok (hh : i ≤ payloadSz) (hk : ∀ x ∈ heads, 0 < x.programId ∧ x.programId < acctAddrCnt)
    (h : parseV1Payloads payload payloadSz acctAddrCnt heads i = some (instrs, j)) :
    j ≤ payloadSz ∧ Ordered i (instrs.flatMap Instr.regions) j ∧ ∀ x ∈ instrs, x.Sound payload acctAddrCnt acctAddrCnt := by
  induction heads generalizing i instrs with
  | nil =>
    cases h
    exact ⟨hh, rfl, nofun⟩
  | cons head heads ih =>
    simp only [parseV1Payloads, checkLeft_bind, check_bind, skip_bind, List.all_eq_true, List.mem_range,
      decide_eq_true_iff] at h
    obtain ⟨hl, ha, hf, h⟩ := h
    obtain ⟨⟨rest, last⟩, ht, h⟩ := bind_eq_some_iff.mp h
    cases h
    obtain ⟨hi, ho, hs⟩ := ih (by omega) (fun x hm => hk x (.tail _ hm)) ht
    have ⟨hp, hr⟩ := hk head (.head _)
    refine ⟨hi, Ordered.append (l := Instr.regions _) ⟨.refl, .refl, rfl⟩ ho, ?_⟩
    exact List.forall_mem_cons.mpr ⟨⟨hp, hr, ha⟩, hs⟩

structure V1Ok (payload : Mem) (payloadSz originalSz : Nat) (t : Parsed) : Prop where
  version : payload.byte 0 % 128 = 1
  fits : originalSz ≤ payloadSz
  message : 42 ≤ t.signatureOff
  signatures : originalSz = t.signatureOff + 64 * t.signatureCnt

lemma parseV1_ok (h : parseV1 payload payloadSz originalSz exact_ = some (t, j)) :
    (exact_ = true → j = originalSz) ∧ V1Ok payload payloadSz j t ∧ Sound payload payloadSz t j := by
  simp only [parseV1, readByte_bind, check_bind, checkLeft_bind, skip_bind, decide_eq_true_iff] at h
  obtain ⟨-, hv, -, -, -, hg, -, -, -, -, -, -, -, hj, hm, hu, ha, hc, h⟩ := h
  obtain ⟨-, -, h⟩ := bind_eq_some_iff.mp h
  obtain ⟨⟨heads, i⟩, hh, h⟩ := bind_eq_some_iff.mp h
  obtain ⟨hl, hn, hk⟩ := parseV1Heads_ok (by omega) hh
  obtain ⟨⟨instr, off⟩, hd, h⟩ := bind_eq_some_iff.mp h
  obtain ⟨hp, ho, hs⟩ := parseV1Payloads_ok hn hk hd
  simp only [skip_bind, check_bind] at h
  obtain ⟨hf, all, h⟩ := h
  cases h
  have hw : blockhashSz = 32 := rfl
  have hb := ho.le.1
  refine ⟨fun is => ?_, ⟨hv, by omega, by dsimp only; omega, rfl⟩, ?_⟩
  · subst is
    exact of_decide_eq_true all
  · have hi : Ordered off [(off, signatureSz * payload.byte (0 + 1))] _ := ⟨.refl, rfl⟩
    have he := (ho.append hi).later (Nat.le_trans (Nat.le_add_right _ _) hl) (List.append_ne_nil_of_right_ne_nil _ nofun)
    refine ⟨⟨off + signatureSz * payload.byte (0 + 1), ?_, rfl⟩, by omega, hs, hg, hu, .refl, hm.2⟩
    exact ⟨Nat.zero_le _, by dsimp only; omega, he⟩

lemma parseCore_ok (hd : parseCore payload originalSz exact_ = some (t, j)) :
    (exact_ = true → j = originalSz) ∧ (128 ≤ payload.byte 0 ∧ V1Ok payload (min originalSz mtu) j t ∨
      payload.byte 0 < 128 ∧ ∃ last h k, LegacyOk payload (min originalSz mtuV0) j t last h k) ∧
    ∃ payloadSz ≤ originalSz, Sound payload payloadSz t j := by
  obtain ⟨-, hd⟩ := check_bind.mp hd
  split at hd
  · rename_i hh
    obtain ⟨all, hp, hs⟩ := parseV1_ok hd
    exact ⟨all, .inl ⟨hh, hp⟩, _, Nat.min_le_left _ _, hs⟩
  · rename_i hl
    obtain ⟨all, hp, hs⟩ := parseLegacy_ok hd
    exact ⟨all, .inr ⟨Nat.lt_of_not_le hl, hp⟩, _, Nat.min_le_left _ _, hs⟩

lemma parse_ok (hd : parse payload payloadSz = some t) :
    128 ≤ payload.byte 0 ∧ payloadSz ≤ mtu ∧ V1Ok payload payloadSz payloadSz t ∨
    payload.byte 0 < 128 ∧ payloadSz ≤ mtuV0 ∧ ∃ last h k, LegacyOk payload payloadSz payloadSz t last h k := by
  obtain ⟨⟨t', size⟩, hc, rfl⟩ := Option.map_eq_some_iff.mp hd
  obtain ⟨all, hs, -⟩ := parseCore_ok hc
  rw [all rfl] at hs
  rcases hs with ⟨hh, hs⟩ | ⟨hl, last, h, k, hs⟩ <;> have hf := hs.fits <;>
    rw [Nat.min_eq_left (by omega)] at hs
  · exact .inl ⟨hh, by omega, hs⟩
  · exact .inr ⟨hl, by omega, last, h, k, hs⟩

/-- Whatever the parser accepts is structurally sound. The bytes it consumes end with the last
region, or with the counts of empty lists behind it. -/
theorem parsed_sound (payload : Mem) (originalSz : Nat) (exact_ : Bool) (t : Parsed) (last : Nat)
    (done : parseCore payload originalSz exact_ = some (t, last)) : Sound payload originalSz t last ∧
      (t.regions.Pairwise fun a b => a.1 + a.2 ≤ b.1) ∧ (∀ r ∈ t.regions, r.1 + r.2 ≤ last) ∧
      last = t.regionsEnd + t.emptyCounts ∧
      descriptorSz payload originalSz exact_ = footprint t.instr.length t.addressTables.length := by
  obtain ⟨-, -, payloadSz, small, sound⟩ := parseCore_ok done
  obtain ⟨m, regions, rfl⟩ := sound.regions
  refine ⟨{ sound with fits := Nat.le_trans sound.fits small }, regions.pairwise, fun r mem => ?_, ?_, ?_⟩
  · exact Nat.le_trans (regions.le.2 r mem).2 (Nat.le_add_right _ _)
  · rw [Parsed.regionsEnd, regions.last]
  · rw [descriptorSz, done]

def twoInstrs : Mem := .ofList (1 :: List.replicate 64 0 ++ [128, 1, 0, 1, 2] ++ List.replicate 96 0 ++
  [2, 1, 2, 0, 2, 3, 9, 9, 9, 1, 1, 3, 0] ++ 1 :: List.replicate 32 0 ++ [1, 4, 1, 5])

def twoInstrsParsed : Parsed where
  toHead := ⟨.v0, 1, 1, 65, 0, 1, 2, 70, 134, 0⟩
  instr := [⟨1, 2, 3, 169, 172⟩, ⟨1, 1, 0, 177, 179⟩]
  addressTables := [⟨180, 1, 1, 213, 215⟩]
  addrTableAdtlWritableCnt := 1
  addrTableAdtlCnt := 2

theorem two_instrs_parsed_sound : Sound twoInstrs 216 twoInstrsParsed 216 ∧
    (twoInstrsParsed.regions.Pairwise fun a b => a.1 + a.2 ≤ b.1) ∧ (∀ r ∈ twoInstrsParsed.regions, r.1 + r.2 ≤ 216) ∧
    216 = twoInstrsParsed.regionsEnd + twoInstrsParsed.emptyCounts ∧ descriptorSz twoInstrs 216 true = footprint 2 1 :=
  parsed_sound twoInstrs 216 true twoInstrsParsed 216 (by decide +kernel)

def noInstrs : Mem := .ofList (1 :: List.replicate 64 0 ++ 1 :: 0 :: 0 :: 1 :: List.replicate 65 0)

/-- The count of the instructions is consumed, and no region ends with it. -/
theorem count_behind_regions : ∃ t last, parseCore noInstrs 134 true = some (t, last) ∧ last ≠ t.regionsEnd :=
  ⟨⟨⟨.legacy, 1, 1, 65, 0, 0, 1, 69, 101, 0⟩, [], [], 0, 0⟩, 134, by decide +kernel, by decide⟩

end Firebam.Txn
