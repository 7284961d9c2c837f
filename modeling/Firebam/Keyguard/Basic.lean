import Firebam.Txn.Parse

namespace Firebam.Keyguard
open Lib
open Firebam.Txn (cu16DecSz cu16DecFixed)

section

inductive Role | txsend | gossip | leader | repair | bundle | event | bundleCrank | rserve | bam | unsupported
  deriving DecidableEq

inductive SignType | ed25519 | sha256Ed25519 | pubkeyConcatEd25519 | unsupported
  deriving DecidableEq

inductive Payload | txn | gossip | prune | shred | tlsCv | repair | ping | bundle | event | pong | bamAuth
  deriving DecidableEq

abbrev Pubkey := Vector UInt8 32

structure Authority where
  identityPubkey : Pubkey
  tipPaymentProgram : Pubkey
  tipDistributionProgram : Pubkey

def signReqMtu : Nat := 2048

def ascii (s : String) : List UInt8 := s.toList.map fun c => c.toNat.toUInt8

def spaces : List UInt8 := List.replicate 64 0x20

def cliSignPrefix : List UInt8 := spaces ++ ascii "TLS 1.3, client CertificateVerify" ++ [0]
def srvSignPrefix : List UInt8 := spaces ++ ascii "TLS 1.3, server CertificateVerify" ++ [0]
def eventSignPrefix : List UInt8 := spaces ++ ascii "Firedancer event challenge-response" ++ [0]
def pingPong : List UInt8 := ascii "SOLANA_PING_PONG"
def pruneData : List UInt8 := 0xff :: ascii "SOLANA_PRUNE_DATA"
def bamAuthLabel : List UInt8 := ascii "X_OFF_CHAIN_JITO_BAM_V1" ++ [0]
def bamMaxAuthChallengeSz : Nat := 128

def gossipValueVote : Nat := 1
def gossipValueDuplicateShred : Nat := 9
def gossipValueContactInfo : Nat := 11
def gossipValueCnt : Nat := 14

def repairKinds : List Nat := [8, 9, 10, 12, 13, 14]

def featureSetId : Nat := 241118519
def contactInfoClientFiredancer : Nat := 5
def contactInfoClientBam : Nat := 12

def voteProgramId : List UInt8 :=
  [0x07, 0x61, 0x48, 0x1d, 0x35, 0x74, 0x74, 0xbb, 0x7c, 0x4d, 0x76, 0x24, 0xeb, 0xd3, 0xbd, 0xb3,
    0xd8, 0x35, 0x5e, 0x73, 0xd1, 0x10, 0x43, 0xfc, 0x0d, 0xa3, 0x53, 0x80, 0x00, 0x00, 0x00, 0x00]

end

section
variable (data : Mem) (sz : Nat)

def txnMsgMinSz : Nat := Txn.minSerializedSz - 1 - 64

def matchesV1 : Bool :=
  let sigCnt := data.byte 1
  let instrCnt := data.byte 40
  let addrCnt := data.byte 41
  sigCnt ≠ 0 && sigCnt ≤ Txn.sigMax && 42 ≤ sz && instrCnt ≤ Txn.instrMax && addrCnt ≤ Txn.acctAddrMax &&
    sigCnt ≤ addrCnt

def matchesLegacy (sigCnt cursor : Nat) : Bool :=
  let addrCntSz := cu16DecSz (data.shift (cursor + 2)) 3
  let addrCnt := cu16DecFixed (data.shift (cursor + 2)) addrCntSz
  sigCnt ≠ 0 && sigCnt * 64 ≤ Txn.mtuV0 - txnMsgMinSz && cursor + 2 + 3 ≤ sz && addrCntSz ≠ 0 && sigCnt ≤ addrCnt

variable (signType : SignType)

def matchesTxnMsg : Bool :=
  let headerB0 := data.byte 0
  signType = .ed25519 && txnMsgMinSz ≤ sz &&
    if 128 ≤ headerB0 then
      if headerB0 % 128 = 1 then matchesV1 data sz
      else headerB0 % 128 = 0 && matchesLegacy data sz (data.byte 1) 2
    else matchesLegacy data sz headerB0 1

def matchesPing : Bool := signType = .ed25519 && sz = 32 && data.memeq 0 pingPong

def matchesPong : Bool := signType = .sha256Ed25519 && sz = 48 && data.memeq 0 pingPong

def matchesPruneData : Bool :=
  let pruneCnt := data.load 58 8
  signType = .ed25519 && 106 ≤ sz && data.load 0 8 = 18 && data.memeq 8 pruneData &&
    pruneCnt * 32 + 106 < 2 ^ 64 && sz = pruneCnt * 32 + 106

def matchesGossip : Bool :=
  signType = .ed25519 && 36 ≤ sz && data.load 0 4 < gossipValueCnt

def matchesRepair : Bool :=
  signType = .ed25519 && 36 ≤ sz && repairKinds.contains (data.load 0 4)

def matchesShred : Bool := signType = .ed25519 && sz = 32

def matchesTlsCv : Bool :=
  signType = .ed25519 && (sz = 130 || sz = 146 || sz = 162) &&
    (data.memeq 0 cliSignPrefix || data.memeq 0 srvSignPrefix)

def matchesBundle : Bool := signType = .pubkeyConcatEd25519 && sz = 9

def matchesEvent : Bool :=
  sz = eventSignPrefix.length + 217 && signType = .ed25519 && data.memeq 0 eventSignPrefix

def matchesBamAuth : Bool :=
  signType = .ed25519 && bamAuthLabel.length < sz && sz ≤ bamAuthLabel.length + bamMaxAuthChallengeSz &&
    data.memeq 0 bamAuthLabel

def Payload.fits : Payload → Bool
  | .txn => matchesTxnMsg data sz signType
  | .gossip => matchesGossip data sz signType
  | .prune => matchesPruneData data sz signType
  | .shred => matchesShred sz signType
  | .tlsCv => matchesTlsCv data sz signType
  | .repair => matchesRepair data sz signType
  | .ping => matchesPing data sz signType
  | .pong => matchesPong data sz signType
  | .bundle => matchesBundle sz signType
  | .event => matchesEvent data sz signType
  | .bamAuth => matchesBamAuth data sz signType

def payloadMatch : List Payload :=
  [.txn, .gossip, .repair, .prune, .shred, .tlsCv, .ping, .pong, .bundle, .event, .bamAuth].filter
    (Payload.fits data sz signType)

end

section

def bundleCrank2Sz : Nat := 780
def bundleCrank3Sz : Nat := 895
def bundleCrankSignerOffset : Nat := 69
def bundleCrankTipPaymentOffset : Nat := 613
def bundleCrankTipDistributionOffset : Nat := 709

def crank2Vals : List UInt8 :=
  [0x01] ++
  List.replicate 64 0 ++
  [0x01, 0x00, 0x03, 0x13] ++
  List.replicate 512 0 ++
  [0x03, 0x06, 0x46, 0x6f, 0xe5, 0x21, 0x17, 0x32, 0xff, 0xec, 0xad, 0xba, 0x72, 0xc3, 0x9b, 0xe7,
    0xbc, 0x8c, 0xe5, 0xbb, 0xc5, 0xf7, 0x12, 0x6b, 0x2c, 0x43, 0x9b, 0x3a, 0x40] ++
  List.replicate 35 0 ++
  [0x05, 0x4a, 0x53, 0x5a, 0x99, 0x29, 0x21, 0x06, 0x4d, 0x24, 0xe8, 0x71, 0x60, 0xda, 0x38, 0x7c,
    0x7c, 0x35, 0xb5, 0xdd, 0xbc, 0x92, 0xbb, 0x81, 0xe4, 0x1f, 0xa8, 0x40, 0x41, 0x05, 0x44, 0x8d] ++
  List.replicate 32 0 ++
  [0x04, 0x10, 0x00, 0x05, 0x02, 0x38, 0x44, 0x01, 0x00, 0x11, 0x0d, 0x0a, 0x00, 0x0d, 0x00, 0x01,
    0x02, 0x03, 0x04, 0x05, 0x06, 0x07, 0x08, 0x00, 0x08, 0x45, 0x63, 0x16, 0x47, 0x0b, 0xe7, 0x56,
    0x8f, 0x11, 0x0d, 0x0a, 0x0d, 0x00, 0x0e, 0x01, 0x02, 0x03, 0x04, 0x05, 0x06, 0x07, 0x08, 0x00,
    0x10, 0x86, 0x50, 0x26, 0x89, 0xa5, 0x15, 0x72, 0x7b] ++
  List.replicate 8 0 ++
  [0x12, 0x00, 0x03, 0x00, 0x00, 0x00]

def crank2Mask : List UInt8 :=
  [0xff] ++
  List.replicate 64 0 ++
  [0xff, 0xff, 0xff, 0xff] ++
  List.replicate 512 0 ++
  List.replicate 32 0xff ++
  List.replicate 32 0 ++
  List.replicate 32 0xff ++
  List.replicate 32 0 ++
  List.replicate 12 0xff ++
  [0x00, 0xff, 0x00] ++
  List.replicate 22 0xff ++
  [0x00] ++
  List.replicate 19 0xff ++
  List.replicate 8 0 ++
  [0xff, 0xff, 0xff, 0x00, 0x00, 0x00]

def crank3Vals : List UInt8 :=
  [0x01] ++
  List.replicate 64 0 ++
  [0x01, 0x00, 0x05, 0x15] ++
  List.replicate 512 0 ++
  [0x03, 0x06, 0x46, 0x6f, 0xe5, 0x21, 0x17, 0x32, 0xff, 0xec, 0xad, 0xba, 0x72, 0xc3, 0x9b, 0xe7,
    0xbc, 0x8c, 0xe5, 0xbb, 0xc5, 0xf7, 0x12, 0x6b, 0x2c, 0x43, 0x9b, 0x3a, 0x40] ++
  List.replicate 35 0 ++
  [0x05, 0x4a, 0x53, 0x5a, 0x99, 0x29, 0x21, 0x06, 0x4d, 0x24, 0xe8, 0x71, 0x60, 0xda, 0x38, 0x7c,
    0x7c, 0x35, 0xb5, 0xdd, 0xbc, 0x92, 0xbb, 0x81, 0xe4, 0x1f, 0xa8, 0x40, 0x41, 0x05, 0x44, 0x8d] ++
  List.replicate 96 0 ++
  [0x05, 0x10, 0x00, 0x05, 0x02, 0xd0, 0xfb, 0x01, 0x00, 0x14, 0x05, 0x09, 0x0d, 0x0f, 0x00, 0x13,
    0x2b, 0x78, 0xbf, 0x19, 0xb6, 0x6f, 0x31, 0xb3, 0x37] ++
  List.replicate 35 0 ++
  [0x11, 0x0d, 0x0a, 0x00, 0x0d, 0x00, 0x01, 0x02, 0x03, 0x04, 0x05, 0x06, 0x07, 0x08, 0x00, 0x08,
    0x45, 0x63, 0x16, 0x47, 0x0b, 0xe7, 0x56, 0x8f, 0x11, 0x0d, 0x0a, 0x0d, 0x00, 0x0e, 0x01, 0x02,
    0x03, 0x04, 0x05, 0x06, 0x07, 0x08, 0x00, 0x10, 0x86, 0x50, 0x26, 0x89, 0xa5, 0x15, 0x72, 0x7b] ++
  List.replicate 8 0 ++
  [0x12, 0x00, 0x03, 0x00, 0x00, 0x00]

def crank3Mask : List UInt8 :=
  [0xff] ++
  List.replicate 64 0 ++
  [0xff, 0xff, 0xff, 0xff] ++
  List.replicate 512 0 ++
  List.replicate 32 0xff ++
  List.replicate 32 0 ++
  List.replicate 64 0xff ++
  List.replicate 64 0 ++
  List.replicate 25 0xff ++
  List.replicate 35 0 ++
  [0xff, 0xff, 0xff, 0x00, 0xff, 0x00] ++
  List.replicate 22 0xff ++
  [0x00] ++
  List.replicate 19 0xff ++
  List.replicate 8 0 ++
  [0xff, 0xff, 0xff, 0x00, 0x00, 0x00]

def matchesMask (data : Mem) (mask vals : List UInt8) (crankSz : Nat) : Bool :=
  (List.range (crankSz - 65)).all fun i => mask.getD (i + 65) 0 == 0 || data i == vals.getD (i + 65) 0

end

variable (authority : Authority) (data : Mem) (sz : Nat) (signType : SignType)

def authorizeVoteTxn : Bool :=
  let signerCnt := data.byte 0
  let acctCnt := 2 + signerCnt
  let instrOff := 4 + (acctCnt + 1) * 32
  let programId := data.byte (instrOff + 1)
  let dataSzOff := instrOff + 5
  signType = .ed25519 && sz ≤ Txn.mtuV0 && (signerCnt = 1 || signerCnt = 2) && (signerCnt ≠ 1 || 140 < sz) &&
    (signerCnt ≠ 2 || 172 < sz) && data.byte 1 = signerCnt - 1 && data.byte 2 = 1 &&
    cu16DecSz (data.shift 3) 3 = 1 && data.byte 3 = acctCnt && data.memeq 4 authority.identityPubkey.toList &&
    cu16DecSz (data.shift instrOff) 3 = 1 && data.byte instrOff = 1 && programId = acctCnt - 1 &&
    data.memeq (4 + programId * 32) voteProgramId && cu16DecSz (data.shift (instrOff + 2)) 3 = 1 &&
    data.byte (instrOff + 2) = 2 && data.byte (dataSzOff + cu16DecSz (data.shift dataSzOff) 3) = 14

def skipVarint : Nat → Nat → Nat
  | 0, off => off
  | n + 1, off => if data.byte off < 128 then off + 1 else skipVarint n (off + 1)

def authorizeContactInfo : Bool :=
  let off := skipVarint data 10 36 + 8 + 2
  let last := skipVarint data 3 (skipVarint data 3 (skipVarint data 3 off))
  let clientId := data.byte (last + 8)
  62 ≤ sz && off + 15 ≤ sz && last + 12 ≤ sz && data.load (last + 4) 4 = featureSetId &&
    (clientId = contactInfoClientFiredancer || clientId = contactInfoClientBam)

def authorizeGossipVote : Bool :=
  let sigCnt := data.byte 37
  let voteOff := 38 + 64 * sigCnt
  4 + 1 + 32 + Txn.minSerializedSz + 8 ≤ sz && sigCnt ≠ 0 && sigCnt ≤ 2 &&
    authorizeVoteTxn authority (data.shift voteOff) (sz - (voteOff + 8)) .ed25519

def authorizeDuplicateShred : Bool := 4 + 65 ≤ sz && sz = (4 + 65 + data.load (4 + 57) 8) % 2 ^ 64

def originOff : Option Nat :=
  let tag := data.load 0 4
  if tag = gossipValueVote then
    if authorizeGossipVote authority data sz then some 1 else none
  else if tag = gossipValueContactInfo then
    if authorizeContactInfo data sz then some 0 else none
  else if tag = gossipValueDuplicateShred then
    if authorizeDuplicateShred data sz then some 2 else none
  else none

def authorizeGossip : Bool :=
  signType = .ed25519 && 36 ≤ sz && sz ≤ 1188 - 64 &&
    match originOff authority data sz with
    | none => false
    | some off => 4 + off + 32 ≤ sz && data.memeq (4 + off) authority.identityPubkey.toList

def authorizeBundleCrankTxn : Bool :=
  signType = .ed25519 &&
    (if sz = bundleCrank2Sz - 65 then matchesMask data crank2Mask crank2Vals bundleCrank2Sz
    else sz = bundleCrank3Sz - 65 && matchesMask data crank3Mask crank3Vals bundleCrank3Sz &&
      data.memeq (bundleCrankTipDistributionOffset - 65) authority.tipDistributionProgram.toList) &&
    data.memeq (bundleCrankSignerOffset - 65) authority.identityPubkey.toList &&
    data.memeq (bundleCrankTipPaymentOffset - 65) authority.tipPaymentProgram.toList

def authorizePing : Bool := signType = .ed25519 && sz = 32 && data.memeq 0 pingPong

def authorizePong : Bool := signType = .sha256Ed25519 && sz = 48 && data.memeq 0 pingPong

def authorizeGossipPrune : Bool :=
  signType = .ed25519 && 66 ≤ sz && data.load 0 8 = 18 && data.memeq 8 pruneData &&
    data.memeq 26 authority.identityPubkey.toList

def authorizeRepair : Bool :=
  let discriminant := data.load 0 4
  signType = .ed25519 && 80 ≤ sz && 8 ≤ discriminant && discriminant ≤ 14 &&
    data.memeq 4 authority.identityPubkey.toList

def authorizeTlsCv : Bool := signType = .ed25519 && sz = 130 && data.memeq 0 cliSignPrefix

def payloadAuthorize (role : Role) : Bool :=
  let mask := payloadMatch data sz signType
  sz ≤ signReqMtu &&
    match role with
    | .txsend => mask.contains .txn && authorizeVoteTxn authority data sz signType ||
        mask.contains .tlsCv && authorizeTlsCv data sz signType
    | .gossip => mask.contains .ping && authorizePing data sz signType ||
        mask.contains .pong && authorizePong data sz signType ||
        mask.contains .prune && authorizeGossipPrune authority data sz signType ||
        mask.contains .gossip && authorizeGossip authority data sz signType
    | .repair => mask.contains .pong && authorizePong data sz signType ||
        mask.contains .repair && authorizeRepair authority data sz signType
    | .leader => mask = [.shred]
    | .bundle => mask = [.bundle]
    | .event => mask = [.event]
    | .bundleCrank => mask = [.txn] && authorizeBundleCrankTxn authority data sz signType
    | .rserve => mask.contains .ping && authorizePing data sz signType
    | .bam => mask = [.bamAuth]
    | .unsupported => false

end Firebam.Keyguard
