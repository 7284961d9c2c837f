import Firebam.Keyguard.Basic

/-! Role separation: an accepted payload shows which role may ask for it. -/
namespace Firebam.Keyguard
open Lib List

variable {authority : Authority} {data : Mem} {sz off : Nat} {signType : SignType} {kind : Payload} {role a b : Role}
  {key : Pubkey}

inductive Accepted (authority : Authority) (data : Mem) (sz : Nat) : SignType → Role → Prop
  | vote (first : data.byte 0 = 1 ∨ data.byte 0 = 2) (third : data.byte 2 = 1) (long : 140 < sz)
      (fits : authorizeVoteTxn authority data sz .ed25519 = true) (accts : data.byte 3 ≤ 4) :
      Accepted authority data sz .ed25519 .txsend
  | tls (first : data.byte 0 = 32) (size : sz = 130) : Accepted authority data sz .ed25519 .txsend
  | ping (first : data.byte 0 = 83) (size : sz = 32) (fits : matchesPing data sz .ed25519 = true) (role : Role)
      (asks : role = .gossip ∨ role = .rserve) : Accepted authority data sz .ed25519 role
  | pong (fits : matchesPong data sz .sha256Ed25519 = true) (role : Role)
      (asks : role = .gossip ∨ role = .repair) : Accepted authority data sz .sha256Ed25519 role
  | prune (first : data.byte 0 = 18) (third : data.byte 2 = 0) (long : 106 ≤ sz) :
      Accepted authority data sz .ed25519 .gossip
  | value (first : data.byte 0 = 1 ∨ data.byte 0 = 9 ∨ data.byte 0 = 11) (second : data.byte 1 = 0)
      (third : data.byte 2 = 0) (fourth : data.byte 3 = 0) (long : 36 ≤ sz)
      (origin : data.byte 0 = 9 → data.memeq 6 authority.identityPubkey.toList = true) :
      Accepted authority data sz .ed25519 .gossip
  | request (first : data.byte 0 ∈ repairKinds) (second : data.byte 1 = 0) (third : data.byte 2 = 0)
      (fourth : data.byte 3 = 0) (long : 80 ≤ sz) (sender : data.memeq 4 authority.identityPubkey.toList = true) :
      Accepted authority data sz .ed25519 .repair
  | shred (size : sz = 32) (other : data.memeq 0 pingPong = false) : Accepted authority data sz .ed25519 .leader
  | bundle : Accepted authority data sz .pubkeyConcatEd25519 .bundle
  | event (first : data.byte 0 = 32) (size : sz = 317) : Accepted authority data sz .ed25519 .event
  | crank (first : data.byte 0 = 1) (third : data.byte 2 = 3 ∨ data.byte 2 = 5) (long : 140 < sz) :
      Accepted authority data sz .ed25519 .bundleCrank
  | bam (first : data.byte 0 = 88) (size : sz ≠ 32) (long : 24 < sz) (short : sz ≤ 152) :
      Accepted authority data sz .ed25519 .bam

lemma first_byte {bytes : List UInt8} {b : UInt8} (eq : data.memeq off (b :: bytes) = true) :
    data.byte off = b.toNat := by
  have hh := Mem.memeq_getElem eq 0 (Nat.zero_lt_succ _)
  exact congrArg UInt8.toNat hh

lemma mem_match : kind ∈ payloadMatch data sz signType → kind.fits data sz signType = true :=
  fun hm => (mem_filter.mp hm).2

lemma not_mem_match (hn : kind ∉ payloadMatch data sz signType) : kind.fits data sz signType = false := by
  cases hf : kind.fits data sz signType with
  | false => rfl
  | true =>
    refine absurd (mem_filter.mpr ⟨?_, hf⟩) hn
    cases kind <;> decide

lemma load_bytes {k n : Nat} (eq : data.load 0 (k + 4) = n) (hs : n < 256) :
    data.byte 0 = n ∧ data.byte 1 = 0 ∧ data.byte 2 = 0 ∧ data.byte 3 = 0 := by
  obtain ⟨hi, hr⟩ := Mem.load_small eq hs
  obtain ⟨he, hr⟩ := Mem.load_small hr (by decide)
  obtain ⟨ht, hr⟩ := Mem.load_small hr (by decide)
  obtain ⟨hf, -⟩ := Mem.load_small hr (by decide)
  exact ⟨hi, he, ht, hf⟩

lemma vote_accepted (hf : authorizeVoteTxn authority data sz signType = true) :
    Accepted authority data sz signType .txsend := by
  have hs := hf
  simp only [authorizeVoteTxn, Bool.and_eq_true, Bool.or_eq_true, decide_eq_true_iff] at hs
  obtain ⟨⟨⟨⟨⟨⟨⟨⟨⟨⟨⟨⟨⟨⟨⟨⟨rfl, -⟩, hi⟩, ho⟩, hw⟩, -⟩, ht⟩, -⟩, ha⟩, -⟩, -⟩, -⟩, -⟩, -⟩, -⟩, -⟩, -⟩ := hs
  exact .vote hi ht (by omega) hf (by omega)

lemma tls_accepted (hf : authorizeTlsCv data sz signType = true) : Accepted authority data sz signType .txsend := by
  simp only [authorizeTlsCv, Bool.and_eq_true, decide_eq_true_iff] at hf
  obtain ⟨⟨rfl, hi⟩, hs⟩ := hf
  exact .tls (first_byte (b := 0x20) hs) hi

lemma ping_accepted (ha : role = .gossip ∨ role = .rserve)
    (hf : authorizePing data sz signType = true) : Accepted authority data sz signType role := by
  have hs := hf
  simp only [authorizePing, Bool.and_eq_true, decide_eq_true_iff] at hs
  obtain ⟨⟨rfl, hi⟩, ht⟩ := hs
  exact .ping (first_byte (b := 0x53) ht) hi hf role ha

lemma pong_accepted (ha : role = .gossip ∨ role = .repair)
    (hf : authorizePong data sz signType = true) : Accepted authority data sz signType role := by
  have hs := hf
  simp only [authorizePong, Bool.and_eq_true, decide_eq_true_iff] at hs
  obtain ⟨⟨rfl, -⟩, -⟩ := hs
  exact .pong hf role ha

lemma prune_accepted (hl : matchesPruneData data sz signType = true)
    (hf : authorizeGossipPrune authority data sz signType = true) : Accepted authority data sz signType .gossip := by
  simp only [matchesPruneData, Bool.and_eq_true, decide_eq_true_iff] at hl
  obtain ⟨⟨⟨⟨⟨rfl, hl⟩, hs⟩, -⟩, -⟩, -⟩ := hl
  obtain ⟨hi, -, ht, -⟩ := load_bytes (k := 4) hs (by decide)
  exact .prune hi ht hl

lemma originOff_some (hf : originOff authority data sz = some off) :
    data.load 0 4 = 1 ∨ data.load 0 4 = 11 ∨ data.load 0 4 = 9 ∧ off = 2 := by
  unfold originOff at hf
  dsimp only at hf
  split at hf
  · rename_i ht
    exact .inl ht
  · split at hf
    · rename_i ht
      exact .inr (.inl ht)
    · split at hf
      · rename_i ht
        split at hf
        · exact .inr (.inr ⟨ht, (Option.some.inj hf).symm⟩)
        · cases hf
      · cases hf

lemma value_accepted (hi : authorizeGossip authority data sz signType = true) :
    Accepted authority data sz signType .gossip := by
  simp only [authorizeGossip, Bool.and_eq_true, decide_eq_true_iff] at hi
  obtain ⟨⟨⟨rfl, hl⟩, -⟩, ho⟩ := hi
  cases hf : originOff authority data sz with
  | none =>
    rw [hf] at ho
    cases ho
  | some off =>
    rw [hf] at ho
    simp only [Bool.and_eq_true] at ho
    have hs : data.load 0 4 < 256 := by
      rcases originOff_some hf with ha | ha | ⟨ha, -⟩ <;> omega
    obtain ⟨hr, he, ht, hh⟩ := load_bytes (k := 0) (n := data.load 0 4) rfl hs
    refine .value ?_ he ht hh hl ?_
    · rcases originOff_some hf with ha | ha | ⟨ha, -⟩ <;> omega
    · intro hn
      rcases originOff_some hf with ha | ha | ⟨-, rfl⟩
      · omega
      · omega
      · exact ho.2

lemma request_accepted (hk : matchesRepair data sz signType = true)
    (hf : authorizeRepair authority data sz signType = true) : Accepted authority data sz signType .repair := by
  simp only [matchesRepair, Bool.and_eq_true, decide_eq_true_iff, contains_iff_mem] at hk
  simp only [authorizeRepair, Bool.and_eq_true, decide_eq_true_iff] at hf
  obtain ⟨⟨rfl, -⟩, hk⟩ := hk
  obtain ⟨⟨⟨⟨-, hl⟩, -⟩, hh⟩, he⟩ := hf
  obtain ⟨hi, hs, ht, ho⟩ := load_bytes (k := 0) (n := data.load 0 4) rfl (show data.load 0 4 < 256 by omega)
  exact .request (hi ▸ hk) hs ht ho hl he

lemma crank_accepted (hi : authorizeBundleCrankTxn authority data sz signType = true) :
    Accepted authority data sz signType .bundleCrank := by
  simp only [authorizeBundleCrankTxn, Bool.and_eq_true, decide_eq_true_iff] at hi
  obtain ⟨⟨⟨rfl, ha⟩, -⟩, -⟩ := hi
  have ho : ∀ {vals mask : List UInt8} {crankSz : Nat}, matchesMask data mask vals crankSz = true → 67 < crankSz →
      mask.getD 65 0 ≠ 0 → mask.getD 67 0 ≠ 0 → data 0 = vals.getD 65 0 ∧ data 2 = vals.getD 67 0 := by
    intro vals mask crankSz all hw hl hh
    simp only [matchesMask, all_eq_true, mem_range, Bool.or_eq_true, beq_iff_eq] at all
    exact ⟨(all 0 (by omega)).resolve_left hl, (all 2 (by omega)).resolve_left hh⟩
  split at ha
  · rename_i hs
    have he := ho ha (by decide) (by decide) (by decide)
    have hf : data.byte 0 = 1 := congrArg UInt8.toNat he.1
    have ht : data.byte 2 = 3 := congrArg UInt8.toNat he.2
    exact .crank hf (.inl ht) (by rw [hs]; decide)
  · simp only [Bool.and_eq_true, decide_eq_true_iff] at ha
    obtain ⟨⟨hs, ha⟩, -⟩ := ha
    have he := ho ha (by decide) (by decide) (by decide)
    have hf : data.byte 0 = 1 := congrArg UInt8.toNat he.1
    have ht : data.byte 2 = 5 := congrArg UInt8.toNat he.2
    exact .crank hf (.inr ht) (by rw [hs]; decide)

lemma payloadAuthorize_accepted (ok : payloadAuthorize authority data sz signType role = true) :
    Accepted authority data sz signType role := by
  have hp := (Bool.and_eq_true _ _ ▸ ok).2
  cases role with
  | txsend =>
    simp only [Bool.or_eq_true, Bool.and_eq_true] at hp
    rcases hp with ⟨-, hb⟩ | ⟨-, hc⟩
    · exact vote_accepted hb
    · exact tls_accepted hc
  | gossip =>
    simp only [Bool.or_eq_true, Bool.and_eq_true, contains_iff_mem] at hp
    rcases hp with ((⟨-, hg⟩ | ⟨-, ho⟩) | ⟨hk, he⟩) | ⟨-, hv⟩
    · exact ping_accepted (.inl rfl) hg
    · exact pong_accepted (.inl rfl) ho
    · exact prune_accepted (mem_match hk) he
    · exact value_accepted hv
  | leader =>
    have hm := of_decide_eq_true hp
    have hs := mem_match (hm ▸ mem_singleton_self Payload.shred)
    simp only [Payload.fits, matchesShred, Bool.and_eq_true, decide_eq_true_iff] at hs
    obtain ⟨rfl, hi⟩ := hs
    have ne : Payload.fits data sz .ed25519 .ping = false := not_mem_match (by rw [hm]; decide)
    refine .shred hi ?_
    simpa [Payload.fits, matchesPing, hi] using ne
  | repair =>
    simp only [Bool.or_eq_true, Bool.and_eq_true, contains_iff_mem] at hp
    rcases hp with ⟨-, ho⟩ | ⟨hk, hr⟩
    · exact pong_accepted (.inr rfl) ho
    · exact request_accepted (mem_match hk) hr
  | bundle =>
    have bundle := mem_match (of_decide_eq_true hp ▸ mem_singleton_self Payload.bundle)
    simp only [Payload.fits, matchesBundle, Bool.and_eq_true, decide_eq_true_iff] at bundle
    obtain ⟨rfl, -⟩ := bundle
    exact .bundle
  | event =>
    have event := mem_match (of_decide_eq_true hp ▸ mem_singleton_self Payload.event)
    simp only [Payload.fits, matchesEvent, Bool.and_eq_true, decide_eq_true_iff] at event
    obtain ⟨⟨hi, rfl⟩, ht⟩ := event
    exact .event (first_byte (b := 0x20) ht) hi
  | bundleCrank =>
    simp only [Bool.and_eq_true] at hp
    exact crank_accepted hp.2
  | rserve =>
    simp only [Bool.and_eq_true] at hp
    exact ping_accepted (.inr rfl) hp.2
  | bam =>
    have hm := of_decide_eq_true hp
    have ha := mem_match (hm ▸ mem_singleton_self Payload.bamAuth)
    simp only [Payload.fits, matchesBamAuth, Bool.and_eq_true, decide_eq_true_iff] at ha
    obtain ⟨⟨⟨rfl, hl⟩, hh⟩, ht⟩ := ha
    have ne : Payload.fits data sz .ed25519 .shred = false := not_mem_match (by rw [hm]; decide)
    refine .bam (first_byte (b := 0x58) ht) ?_ hl hh
    simpa [Payload.fits, matchesShred] using ne
  | unsupported => cases hp

/-- The roles that may ask for a payload that looks like this one. -/
def owners (data : Mem) (sz : Nat) : SignType → List Role
  | .sha256Ed25519 => [.gossip, .repair]
  | .pubkeyConcatEd25519 => [.bundle]
  | .unsupported => []
  | .ed25519 =>
    if sz = 32 then if data.memeq 0 pingPong = true then [.gossip, .rserve] else [.leader]
    else if data.byte 0 = 32 then if sz = 130 then [.txsend] else [.event]
    else if data.byte 0 = 18 then [.gossip]
    else if data.byte 0 = 88 then [.bam]
    else if data.byte 2 = 1 then [.txsend]
    else if data.byte 2 ≠ 0 then [.bundleCrank]
    else if data.byte 0 = 9 then [.gossip, .repair]
    else if data.byte 0 = 1 ∨ data.byte 0 = 11 then [.gossip]
    else [.repair]

lemma matchesPing_iff : matchesPing data sz .ed25519 = true ↔ sz = 32 ∧ data.memeq 0 pingPong = true := by
  simp [matchesPing]

lemma accepted_owner (hc : Accepted authority data sz signType role) : role ∈ owners data sz signType := by
  have hk : ∀ n ∈ repairKinds, 8 ≤ n ∧ n ≤ 14 ∧ n ≠ 11 := by decide
  cases hc with
  | vote hi ht hl =>
    rw [owners, if_neg (by omega), if_neg (by omega), if_neg (by omega), if_neg (by omega), if_pos ht]
    exact mem_singleton_self _
  | tls hi hs =>
    rw [owners, if_neg (by omega), if_pos hi, if_pos hs]
    exact mem_singleton_self _
  | ping hi hs hf _ ha =>
    rw [owners, if_pos hs, if_pos (matchesPing_iff.mp hf).2]
    rcases ha with rfl | rfl <;> decide
  | pong _ _ ha => exact mem_cons.mpr (ha.imp_right fun eq => mem_singleton.mpr eq)
  | prune hi _ hl =>
    rw [owners, if_neg (by omega), if_neg (by omega), if_pos hi]
    exact mem_singleton_self _
  | value hi he ht ho hl =>
    rw [owners, if_neg (by omega), if_neg (by omega), if_neg (by omega), if_neg (by omega), if_neg (by omega),
      if_neg (by omega)]
    split
    · decide
    · rw [if_pos (by omega)]
      decide
  | request hi he ht ho hl =>
    have hd := hk _ hi
    rw [owners, if_neg (by omega), if_neg (by omega), if_neg (by omega), if_neg (by omega), if_neg (by omega),
      if_neg (by omega)]
    split
    · decide
    · rw [if_neg (by omega)]
      decide
  | shred hs ne =>
    rw [owners, if_pos hs, ne]
    decide
  | bundle => exact mem_singleton_self _
  | event hi hs =>
    rw [owners, if_neg (by omega), if_pos hi, if_neg (by omega)]
    decide
  | crank hi ht hl =>
    rw [owners, if_neg (by omega), if_neg (by omega), if_neg (by omega), if_neg (by omega), if_neg (by omega),
      if_pos (by omega)]
    decide
  | bam hi hs =>
    rw [owners, if_neg hs, if_neg (by omega), if_neg (by omega), if_pos hi]
    decide

/-- Some byte of the key differs from the one two places behind it. -/
def Aperiodic (key : Pubkey) : Prop := ∃ i : Fin 30, key.toList.getD i 0 ≠ key.toList.getD (i + 2) 0

instance (key : Pubkey) : Decidable (Aperiodic key) :=
  inferInstanceAs (Decidable (∃ i : Fin 30, key.toList.getD i 0 ≠ key.toList.getD (i + 2) 0))

lemma memeq_getD (eq : data.memeq off key.toList = true) {i : Nat} (hm : i < 32) :
    key.toList.getD i 0 = data (off + i) := by
  have hw : i < key.toList.length := by
    rw [Vector.length_toList]
    exact hm
  rw [Mem.memeq_getElem eq i hw, getD_eq_getElem?_getD, getElem?_eq_getElem hw]
  rfl

lemma apart (ha : Aperiodic key) (hl : data.memeq 4 key.toList = true)
    (hh : data.memeq 6 key.toList = true) : False := by
  obtain ⟨i, hd⟩ := ha
  have hb := i.isLt
  refine hd ?_
  rw [memeq_getD hh (by omega : i.val < 32), memeq_getD hl (by omega : i.val + 2 < 32)]
  congr 1
  omega

lemma value_or_request (ha : Aperiodic authority.identityPubkey) (ht : data.byte 0 = 9)
    (hg : Accepted authority data sz .ed25519 .gossip) (hr : Accepted authority data sz .ed25519 .repair) :
    False := by
  have hs : data.memeq 4 authority.identityPubkey.toList = true := by
    cases hr with
    | ping hf => omega
    | request _ _ _ _ _ hs => exact hs
  cases hg with
  | ping hf => omega
  | prune hf => omega
  | value _ _ _ _ _ ho => exact apart ha hs (ho ht)

/-- A ping of the gossip or the repair server tile, or a pong of the gossip or the repair tile. -/
def Shared (data : Mem) (sz : Nat) (signType : SignType) (a b : Role) : Prop :=
  matchesPing data sz signType = true ∧ (a = .gossip ∧ b = .rserve ∨ a = .rserve ∧ b = .gossip) ∨
  matchesPong data sz signType = true ∧ (a = .gossip ∧ b = .repair ∨ a = .repair ∧ b = .gossip)

lemma two_of_pair {x y : Role} (hf : a ∈ [x, y]) (hs : b ∈ [x, y]) (hd : a ≠ b) : a = x ∧ b = y ∨ a = y ∧ b = x := by
  simp only [mem_cons, not_mem_nil, or_false] at hf hs
  rcases hf with rfl | rfl <;> rcases hs with rfl | rfl
  · exact absurd rfl hd
  · exact .inl ⟨rfl, rfl⟩
  · exact .inr ⟨rfl, rfl⟩
  · exact absurd rfl hd

lemma accepted_twice (hc : Aperiodic authority.identityPubkey)
    (hi : Accepted authority data sz signType a) (he : Accepted authority data sz signType b) (hd : a ≠ b) :
    Shared data sz signType a b := by
  have ho := accepted_owner hi
  have ht := accepted_owner he
  have ha : ∀ {x : Role}, a ∈ [x] → b ∈ [x] → False := fun l r =>
    hd ((mem_singleton.mp l).trans (mem_singleton.mp r).symm)
  cases signType with
  | sha256Ed25519 =>
    refine .inr ⟨?_, two_of_pair ho ht hd⟩
    cases hi with
    | pong hf => exact hf
  | pubkeyConcatEd25519 => exact (ha ho ht).elim
  | unsupported => cases ho
  | ed25519 =>
    rw [owners] at ho ht
    split at ho
    · rename_i hs
      rw [if_pos hs] at ht
      split at ho
      · rename_i hp
        rw [if_pos hp] at ht
        exact .inl ⟨matchesPing_iff.mpr ⟨hs, hp⟩, two_of_pair ho ht hd⟩
      · rename_i hh
        rw [if_neg hh] at ht
        exact (ha ho ht).elim
    · rename_i hs
      rw [if_neg hs] at ht
      -- below, each test decides the only owner, but for a tag that two kinds share
      split_ifs at ho ht with _ _ _ _ _ _ tag
      all_goals try exact (ha ho ht).elim
      rcases two_of_pair ho ht hd with ⟨rfl, rfl⟩ | ⟨rfl, rfl⟩
      · exact (value_or_request hc tag hi he).elim
      · exact (value_or_request hc tag he hi).elim

/-- No payload is accepted for two roles, except that pings are shared by the gossip tile and the
repair server, and pongs by the gossip and the repair tile. -/
theorem role_separation (authority : Authority) (aperiodic : Aperiodic authority.identityPubkey) (data : Mem) (sz : Nat)
    (signType : SignType) :
    (∀ a b, payloadAuthorize authority data sz signType a = true →
      payloadAuthorize authority data sz signType b = true → a ≠ b → Shared data sz signType a b) ∧
    (∀ role, payloadAuthorize authority data sz signType .leader = true →
      payloadAuthorize authority data sz signType role = true → role = .leader) ∧
    ¬(authorizeGossip authority data sz signType = true ∧ matchesRepair data sz signType = true ∧
      authorizeRepair authority data sz signType = true) := by
  refine ⟨?_, ?_, ?_⟩
  · intro a b first second differ
    exact accepted_twice aperiodic (payloadAuthorize_accepted first) (payloadAuthorize_accepted second) differ
  · intro role leader other
    by_contra differ
    rcases accepted_twice aperiodic (payloadAuthorize_accepted leader) (payloadAuthorize_accepted other) (Ne.symm differ)
      with ⟨-, ⟨no, -⟩ | ⟨no, -⟩⟩ | ⟨-, ⟨no, -⟩ | ⟨no, -⟩⟩ <;> cases no
  · rintro ⟨gossip, kind, repair⟩
    have shared := accepted_twice aperiodic (value_accepted gossip) (request_accepted kind repair) (by decide)
    have raw : signType = .ed25519 := by
      simp only [matchesRepair, Bool.and_eq_true, decide_eq_true_iff] at kind
      exact kind.1.1
    subst raw
    rcases shared with ⟨-, ⟨-, no⟩ | ⟨no, -⟩⟩ | ⟨no, -⟩ <;> cases no

def someKey : Pubkey := Vector.ofFn fun i => if i.val = 0 then 1 else 0

def someAuthority : Authority := ⟨someKey, someKey, someKey⟩

theorem ping_is_shared :
    payloadAuthorize someAuthority (.ofList pingPong) 32 .ed25519 .gossip = true ∧
    payloadAuthorize someAuthority (.ofList pingPong) 32 .ed25519 .rserve = true ∧
    Shared (.ofList pingPong) 32 .ed25519 .gossip .rserve := by
  have gossip : payloadAuthorize someAuthority (.ofList pingPong) 32 .ed25519 .gossip = true := by decide +kernel
  have rserve : payloadAuthorize someAuthority (.ofList pingPong) 32 .ed25519 .rserve = true := by decide +kernel
  exact ⟨gossip, rserve, (role_separation someAuthority (by decide +kernel) _ _ _).1 _ _ gossip rserve (by decide)⟩

end Firebam.Keyguard
