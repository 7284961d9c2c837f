import Firebam.Keyguard.Roles

/-! No fake signing: what is signed raw is no message of a transaction, with two exceptions. -/
namespace Firebam.Keyguard
open Lib Firebam.Txn

variable {data : Mem} {sz last h k : Nat} {sigs : List Signature} {t : Parsed} {authority : Authority} {role : Role}

abbrev Signature := Vector UInt8 64

def signatures (sigs : List Signature) : List UInt8 := cu16Enc sigs.length ++ sigs.flatMap Vector.toList

def SignedAs (data : Mem) (sz : Nat) (sigs : List Signature) (txn : Mem) (t : Parsed) : Prop :=
  txn = .behind (signatures sigs) data ∧ parse txn ((signatures sigs).length + sz) = some t ∨
  txn = data.followed sz (sigs.flatMap Vector.toList) ∧ parse txn (sz + 64 * sigs.length) = some t ∧
    t.transactionVersion = .v1 ∧ t.signatureCnt = sigs.length

def TowerSync (authority : Authority) (txn : Mem) (t : Parsed) : Prop :=
  txn.memeq t.acctAddrOff authority.identityPubkey.toList = true ∧
  ∃ instr, t.instr = [instr] ∧ txn.memeq (t.acctAddrOff + 32 * instr.programId) voteProgramId = true ∧
    0 < instr.dataSz ∧ txn.byte instr.dataOff = 14

lemma length_signatures : 64 * sigs.length ≤ (signatures sigs).length ∧
    (sigs.length < 128 → (signatures sigs).length = 1 + 64 * sigs.length) := by
  have all : (sigs.flatMap Vector.toList).length = 64 * sigs.length := by
    induction sigs with
    | nil => rfl
    | cons sig sigs ih =>
      rw [List.flatMap_cons, List.length_append, ih, Vector.length_toList, List.length_cons]
      omega
  rw [signatures, List.length_append, all]
  refine ⟨Nat.le_add_left _ _, ?_⟩
  intro hf
  rw [cu16Enc, if_pos (by omega)]
  rfl

lemma first_signatures (hf : sigs.length < 128) : (Mem.behind (signatures sigs) data).byte 0 = sigs.length := by
  have eq : signatures sigs = (sigs.length % 128).toUInt8 :: sigs.flatMap Vector.toList := by
    rw [signatures, cu16Enc, if_pos (by omega)]
    rfl
  rw [eq, Mem.byte, Mem.behind, if_pos (by simp), List.getD_cons_zero]
  simp only [UInt8.toNat_ofNat']
  omega

structure Message (data : Mem) (sz : Nat) (sigs : List Signature) (t : Parsed) (last h k : Nat) : Prop where
  spec : LegacyOk (.behind (signatures sigs) data) ((signatures sigs).length + sz) ((signatures sigs).length + sz) t last h k
  off : t.messageOff = (signatures sigs).length
  cnt : t.signatureCnt = sigs.length

lemma message_of_parse (hd : parse (.behind (signatures sigs) data) ((signatures sigs).length + sz) = some t) :
    ∃ last h k, Message data sz sigs t last h k := by
  obtain ⟨hl, hh⟩ := @length_signatures sigs
  have ho : mtu = 4096 := rfl
  have hm : mtuV0 = 1232 := rfl
  have he : sigs.length < 128 := by
    rcases parse_ok hd with ⟨-, ht, -⟩ | ⟨-, ht, -⟩ <;> omega
  have hf : (Mem.behind (signatures sigs) data).byte 0 = sigs.length := first_signatures he
  rcases parse_ok hd with ⟨hi, -, -⟩ | ⟨-, -, last, h, k, hs⟩
  · omega
  · have hc : t.signatureCnt = sigs.length := hs.head.cnt.trans hf
    refine ⟨last, h, k, hs, ?_, hc⟩
    rw [hs.head.message, hc, hh he]

lemma Message.start (hc : Message data sz sigs t last h k) :
    (data.byte 0 = 128 ∨ 1 ≤ data.byte 0 ∧ data.byte 0 ≤ 12 ∧ data.byte 3 ≠ 0) ∧ 64 ≤ sz := by
  have hh := hc.spec.head
  have hz := Mem.byte_behind (signatures sigs) data 0
  have ht := Mem.byte_behind (signatures sigs) data 3
  have hy := hh.inside
  have hd := hh.off
  have hx := hh.next
  have hb := hh.blockhash
  have hp := hh.positive
  have hm : t.signatureCnt ≤ 12 := hh.most
  have he := hh.enough
  rw [← hc.off] at hy hz ht
  rw [Nat.add_zero] at hz
  refine ⟨?_, ?_⟩
  · rcases hh.version with ⟨-, hf, -⟩ | ⟨-, hf, hl⟩
    · exact .inl (hz.symm.trans hf)
    · refine .inr ⟨by omega, by omega, ?_⟩
      intro hn
      have hs : (Mem.behind (signatures sigs) data).byte (h + 2) = 0 := by
        rw [hl, Nat.add_assoc, ht, hn]
      have ho : k = 1 := by
        rw [← hh.compact]
        exact cu16_small (by rw [Mem.byte_shift, Nat.add_zero, hs]; decide)
      have ha : t.acctAddrCnt = 0 := by
        rw [hh.accts, ho]
        exact hs
      omega
  · rcases hh.version with ⟨-, -, hl⟩ | ⟨-, -, hl⟩ <;> omega

structure VoteBytes (authority : Authority) (data : Mem) (sz n : Nat) : Prop where
  signers : n = 1 ∨ n = 2
  first : data.byte 0 = n
  long : 4 + (3 + n) * 32 + 8 < sz
  accts : data.byte 3 = 2 + n
  payer : data.memeq 4 authority.identityPubkey.toList = true
  instrs : data.byte (4 + (3 + n) * 32) = 1
  program : data.byte (4 + (3 + n) * 32 + 1) = 1 + n
  programId : data.memeq (4 + 32 * (1 + n)) voteProgramId = true
  instrAccts : data.byte (4 + (3 + n) * 32 + 2) = 2
  kind : data.byte (4 + (3 + n) * 32 + 5 + cu16DecSz (data.shift (4 + (3 + n) * 32 + 5)) 3) = 14

lemma vote_bytes (hf : authorizeVoteTxn authority data sz .ed25519 = true) : ∃ n, VoteBytes authority data sz n := by
  simp only [authorizeVoteTxn, Bool.and_eq_true, Bool.or_eq_true, decide_eq_true_iff] at hf
  obtain ⟨⟨⟨⟨⟨⟨⟨⟨⟨⟨⟨⟨⟨⟨⟨⟨-, -⟩, hs⟩, he⟩, ht⟩, -⟩, -⟩, -⟩, hc⟩, ha⟩, -⟩, hn⟩, hm⟩,
    hr⟩, -⟩, hi⟩, hk⟩ := hf
  have hp : 4 + (2 + data.byte 0 + 1) * 32 = 4 + (3 + data.byte 0) * 32 := by omega
  rw [hp] at hn hm hr hi hk
  have ho : data.byte (4 + (3 + data.byte 0) * 32 + 1) = 1 + data.byte 0 := by omega
  rw [ho, Nat.mul_comm] at hr
  exact ⟨_, hs, rfl, by omega, hc, ha, hn, ho, hr, hi, hk⟩

lemma tower_sync {n : Nat} (hn : Message data sz sigs t last h k) (hj : VoteBytes authority data sz n) :
    TowerSync authority (.behind (signatures sigs) data) t := by
  have hc := hn.spec
  have hk := hc.head
  have hs := hj.signers
  have few : data.byte 3 < 128 := by
    rw [hj.accts]
    omega
  -- everything stands in the message where it does in the payload
  have hb : ∀ i, (Mem.behind (signatures sigs) data).byte (t.messageOff + i) = data.byte i := by
    intro i
    rw [hn.off]
    exact Mem.byte_behind _ _ i
  have hh : ∀ i, (Mem.behind (signatures sigs) data).shift (t.messageOff + i) = data.shift i := by
    intro i
    rw [hn.off]
    exact Mem.shift_behind _ _ i
  have hm : ∀ i l, (Mem.behind (signatures sigs) data).memeq (t.messageOff + i) l = data.memeq i l := by
    intro i l
    rw [hn.off]
    exact Mem.memeq_behind _ _ i l
  have hv : t.transactionVersion = .legacy ∧ h = t.messageOff + 1 := by
    rcases hk.version with ⟨-, first, -⟩ | ⟨hl, -, hp⟩
    · have hz : data.byte 0 = 128 := (hb 0).symm.trans first
      rw [hj.first] at hz
      omega
    · exact ⟨hl, hp⟩
  obtain ⟨hl, rfl⟩ := hv
  have one : k = 1 := by
    rw [← hk.compact, Nat.add_assoc, hh]
    exact cu16_small few
  have ha : t.acctAddrCnt = 2 + n := by
    rw [hk.accts, one, Nat.add_assoc, hh]
    exact hj.accts
  have hu : t.acctAddrOff = t.messageOff + 4 := by
    rw [hk.off, one]
  have hp : last = t.messageOff + (4 + (3 + n) * 32) := by
    rw [hk.next, hk.blockhash, hu, ha]
    omega
  obtain ⟨cnt, first, next, seen, hrd, hi, hx⟩ := hc.body
  have ht := hx hl
  rw [← hn.off] at ht
  rw [hp] at hrd
  obtain ⟨hq, hf, -⟩ := readCompactU16_small (by rw [hb, hj.instrs]; decide) hrd
  rw [hb, hj.instrs] at hq
  subst hq
  obtain ⟨⟨instr, seen', next'⟩, hpd, hi⟩ := Option.bind_eq_some_iff.mp hi
  have hpa := Option.some.inj hi
  rw [Prod.mk.injEq, Prod.mk.injEq] at hpa
  obtain ⟨hli, -, rfl⟩ := hpa
  have ok := (parseInstr_ok hpd).1
  have hr : instr.programId = 1 + n := by
    rw [ok.program, hf, Nat.add_assoc, hb]
    exact hj.program
  have he := ok.accts
  rw [hf, Nat.add_assoc, Nat.add_assoc] at he
  obtain ⟨hac, haf, -⟩ := readCompactU16_small (by rw [hb, hj.instrAccts]; decide) he
  rw [hb, hj.instrAccts] at hac
  have hy := ok.data
  have hd : instr.acctOff + instr.acctCnt = t.messageOff + (4 + (3 + n) * 32 + 5) := by omega
  rw [hd] at hy
  obtain ⟨size, ho, -, hda, -, -⟩ := readCompactU16_ok hy
  rw [hh] at ho
  have hw : size ≤ 3 := ho ▸ cu16DecSz_le _ 3
  have hg := hj.long
  have next := ok.next
  refine ⟨?_, instr, hli.symm, ?_, by omega, ?_⟩
  · rw [hu, hm]
    exact hj.payer
  · rw [hu, hr, Nat.add_assoc, hm]
    exact hj.programId
  · rw [hda, Nat.add_assoc, hb, ← ho]
    exact hj.kind

section
variable (hc : Accepted authority data sz .ed25519 role)
include hc

lemma front_role (hd : parse (.behind (signatures sigs) data) ((signatures sigs).length + sz) = some t) :
    role = .bundleCrank ∨ role = .txsend ∧ TowerSync authority (.behind (signatures sigs) data) t := by
  obtain ⟨last, h, k, hm⟩ := message_of_parse hd
  obtain ⟨hs, hl⟩ := hm.start
  have hk : ∀ n ∈ repairKinds, 8 ≤ n ∧ n ≤ 14 := by decide
  cases hc with
  | vote _ _ _ hf =>
    obtain ⟨n, vote⟩ := vote_bytes hf
    exact .inr ⟨rfl, tower_sync hm vote⟩
  | tls hi => omega
  | ping hi => omega
  | prune hi => omega
  | value hi _ _ ho => omega
  | request hi _ _ ho =>
    have hn := hk _ hi
    omega
  | shred he => omega
  | event hi => omega
  | crank => exact .inl rfl
  | bam hi => omega

lemma behind_role (hd : parse (data.followed sz (sigs.flatMap Vector.toList)) (sz + 64 * sigs.length) = some t)
    (hv : t.transactionVersion = .v1) (hn : t.signatureCnt = sigs.length) : False := by
  have hk : ∀ n ∈ repairKinds, 8 ≤ n ∧ n ≤ 14 := by decide
  rcases parse_ok hd with ⟨hh, -, hs⟩ | ⟨-, -, last, h, k, hs⟩
  · have hm := hs.message
    have ht := hs.signatures
    have ha := hs.version
    have hf : (data.followed sz (sigs.flatMap Vector.toList)).byte 0 = data.byte 0 := by
      rw [Mem.byte, Mem.followed, if_pos (by omega)]
      rfl
    rw [hf] at hh ha
    cases hc with
    | vote hf => omega
    | tls hf => omega
    | ping hf => omega
    | prune hf => omega
    | value hf => omega
    | request hf =>
      have hi := hk _ hf
      omega
    | shred he => omega
    | event hf => omega
    | crank hf => omega
    | bam hf => omega
  · rcases hs.head.version with ⟨ne, -⟩ | ⟨ne, -⟩ <;> rw [hv] at ne <;> cases ne

end

/-- A payload that is accepted with the raw sign type and is the message of a transaction was
asked for by the bundle crank, or by the vote sender, and then it is a tower sync of the
identity. -/
theorem no_fake_signing (authority : Authority) (role : Role) (data : Mem) (sz : Nat)
    (accepted : payloadAuthorize authority data sz .ed25519 role = true) (sigs : List Signature) (txn : Mem) (t : Parsed)
    (signed : SignedAs data sz sigs txn t) : role = .bundleCrank ∨ role = .txsend ∧ TowerSync authority txn t := by
  have accepted := payloadAuthorize_accepted accepted
  rcases signed with ⟨rfl, done⟩ | ⟨rfl, done, version, cnt⟩
  · exact front_role accepted done
  · exact (behind_role accepted done version cnt).elim

def voteMessage : List UInt8 :=
  [1, 0, 1, 3] ++ someKey.toList ++ List.replicate 32 7 ++ voteProgramId ++ List.replicate 32 9 ++
    [1, 2, 2, 1, 0, 3, 14, 0, 0]

def someSignature : Signature := Vector.replicate 64 5

theorem vote_signed : ∃ t, payloadAuthorize someAuthority (.ofList voteMessage) 141 .ed25519 .txsend = true ∧
    parse (.behind (signatures [someSignature]) (.ofList voteMessage)) 206 = some t ∧
    TowerSync someAuthority (.behind (signatures [someSignature]) (.ofList voteMessage)) t := by
  have accepted : payloadAuthorize someAuthority (.ofList voteMessage) 141 .ed25519 .txsend = true := by
    decide +kernel
  have some_ : (parse (.behind (signatures [someSignature]) (.ofList voteMessage)) 206).isSome = true := by
    decide +kernel
  obtain ⟨t, parsed⟩ := Option.isSome_iff_exists.mp some_
  rcases no_fake_signing someAuthority .txsend (.ofList voteMessage) 141 accepted [someSignature] _ t
    (.inl ⟨rfl, parsed⟩) with crank | ⟨-, sync⟩
  · cases crank
  · exact ⟨t, accepted, parsed, sync⟩

end Firebam.Keyguard
