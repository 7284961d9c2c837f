import Firebam.Keyguard.Roles

/-! The kinds of payloads that match one request. -/
namespace Firebam.Keyguard
open Lib List Firebam.Txn

variable {data : Mem} {sz : Nat} {signType : SignType} {kind : Payload}

def Together (a b : Payload) : Bool :=
  a = b || [(.gossip, .repair), (.repair, .gossip), (.shred, .ping), (.ping, .shred)].contains (a, b)

/-- The label of the marketplace with eight bytes behind it. -/
def RootSized (data : Mem) (sz : Nat) : Prop := sz = bamAuthLabel.length + 8 ∧ data.memeq 0 bamAuthLabel = true

instance (data : Mem) (sz : Nat) : Decidable (RootSized data sz) := inferInstanceAs (Decidable (_ ∧ _))

def candidates (data : Mem) (sz : Nat) : List Payload :=
  if sz = 32 then [.shred, .ping]
  else if data.byte 0 = 32 then if sz = 317 then [.event] else [.tlsCv]
  else if data.byte 0 = 88 then [.bamAuth]
  else if 128 ≤ data.byte 0 ∨ data.byte 3 ≠ 0 then [.txn]
  else if data.byte 0 = 18 then [.prune]
  else [.gossip, .repair]

lemma legacy_counts {sigCnt cursor : Nat} (hf : matchesLegacy data sz sigCnt cursor = true) :
    sigCnt ≤ 18 ∧ data.byte (cursor + 2) ≠ 0 := by
  simp only [matchesLegacy, Bool.and_eq_true, decide_eq_true_iff] at hf
  obtain ⟨⟨⟨⟨hs, he⟩, -⟩, -⟩, hc⟩ := hf
  have he : sigCnt * 64 ≤ 1163 := he
  refine ⟨by omega, fun hz => ?_⟩
  -- an address count of zero covers no signature
  have hl : (data.shift (cursor + 2)).byte 0 = 0 := hz
  rw [cu16DecSz, if_pos ⟨by decide, by omega⟩, cu16DecFixed, if_pos rfl, hl] at hc
  omega

lemma txn_seen (hf : matchesTxnMsg data sz signType = true) :
    69 ≤ sz ∧ (128 ≤ data.byte 0 ∨ data.byte 0 ≤ 18 ∧ data.byte 3 ≠ 0) := by
  simp only [matchesTxnMsg, Bool.and_eq_true, decide_eq_true_iff] at hf
  obtain ⟨⟨-, ho⟩, hl⟩ := hf
  refine ⟨ho, ?_⟩
  by_cases hv : 128 ≤ data.byte 0
  · exact .inl hv
  · rw [if_neg hv] at hl
    exact .inr (legacy_counts hl)

lemma fits_candidates (hp : ¬RootSized data sz) (hi : kind.fits data sz .ed25519 = true) :
    kind ∈ candidates data sz := by
  cases kind with
  | txn =>
    obtain ⟨hl, hf⟩ := txn_seen hi
    rw [candidates, if_neg (by omega), if_neg (by omega), if_neg (by omega), if_pos (by omega)]
    exact mem_singleton_self _
  | gossip =>
    simp only [Payload.fits, matchesGossip, Bool.and_eq_true, decide_eq_true_iff] at hi
    have hs : data.load 0 4 < 14 := hi.2
    obtain ⟨hf, -, -, ho⟩ := load_bytes (k := 0) (n := data.load 0 4) rfl (by omega)
    rw [candidates, if_neg (by omega), if_neg (by omega), if_neg (by omega), if_neg (by omega), if_neg (by omega)]
    decide
  | repair =>
    simp only [Payload.fits, matchesRepair, Bool.and_eq_true, decide_eq_true_iff, contains_iff_mem] at hi
    have hs : ∀ n ∈ repairKinds, n ≤ 14 := by decide
    have hs := hs _ hi.2
    obtain ⟨hf, -, -, ho⟩ := load_bytes (k := 0) (n := data.load 0 4) rfl (by omega)
    rw [candidates, if_neg (by omega), if_neg (by omega), if_neg (by omega), if_neg (by omega), if_neg (by omega)]
    decide
  | prune =>
    simp only [Payload.fits, matchesPruneData, Bool.and_eq_true, decide_eq_true_iff] at hi
    obtain ⟨⟨⟨⟨⟨-, hl⟩, ha⟩, -⟩, -⟩, -⟩ := hi
    obtain ⟨hf, -, -, ho⟩ := load_bytes (k := 4) ha (by decide)
    rw [candidates, if_neg (by omega), if_neg (by omega), if_neg (by omega), if_neg (by omega), if_pos hf]
    exact mem_singleton_self _
  | shred =>
    simp only [Payload.fits, matchesShred, Bool.and_eq_true, decide_eq_true_iff] at hi
    rw [candidates, if_pos hi.2]
    decide
  | ping =>
    rw [candidates, if_pos (matchesPing_iff.mp hi).1]
    decide
  | tlsCv =>
    simp only [Payload.fits, matchesTlsCv, Bool.and_eq_true, Bool.or_eq_true, decide_eq_true_iff] at hi
    obtain ⟨⟨-, he⟩, ht⟩ := hi
    have hf : data.byte 0 = 32 := ht.elim (first_byte (b := 0x20)) (first_byte (b := 0x20))
    rw [candidates, if_neg (by omega), if_pos hf, if_neg (by omega)]
    exact mem_singleton_self _
  | event =>
    simp only [Payload.fits, matchesEvent, Bool.and_eq_true, decide_eq_true_iff] at hi
    obtain ⟨⟨he, -⟩, ht⟩ := hi
    have he : sz = 317 := he
    have hf : data.byte 0 = 32 := first_byte (b := 0x20) ht
    rw [candidates, if_neg (by omega), if_pos hf, if_pos he]
    exact mem_singleton_self _
  | bamAuth =>
    simp only [Payload.fits, matchesBamAuth, Bool.and_eq_true, decide_eq_true_iff] at hi
    have hf : data.byte 0 = 88 := first_byte (b := 0x58) hi.2
    have he : sz ≠ 32 := fun he => hp ⟨he, hi.2⟩
    rw [candidates, if_neg he, if_neg (by omega), if_pos hf]
    exact mem_singleton_self _
  | pong => cases hi
  | bundle => cases hi

lemma candidates_together : ∀ a ∈ candidates data sz, ∀ b ∈ candidates data sz, Together a b = true := by
  unfold candidates
  split_ifs <;> decide

lemma other_sign_type (ho : signType ≠ .ed25519) (hf : kind.fits data sz signType = true) :
    kind = .pong ∧ signType = .sha256Ed25519 ∨ kind = .bundle ∧ signType = .pubkeyConcatEd25519 := by
  cases kind
  case pong =>
    simp only [Payload.fits, matchesPong, Bool.and_eq_true, decide_eq_true_iff] at hf
    exact .inl ⟨rfl, hf.1.1⟩
  case bundle =>
    simp only [Payload.fits, matchesBundle, Bool.and_eq_true, decide_eq_true_iff] at hf
    exact .inr ⟨rfl, hf.1⟩
  all_goals
    simp [Payload.fits, matchesTxnMsg, matchesGossip, matchesPruneData, matchesShred, matchesTlsCv, matchesRepair,
      matchesPing, matchesEvent, matchesBamAuth, ho] at hf

lemma match_together (hp : ¬(signType = .ed25519 ∧ RootSized data sz)) :
    ∀ a ∈ payloadMatch data sz signType, ∀ b ∈ payloadMatch data sz signType, Together a b = true := by
  intro a hf b hs
  by_cases hr : signType = .ed25519
  · subst hr
    have hp : ¬RootSized data sz := fun hi => hp ⟨rfl, hi⟩
    exact candidates_together a (fits_candidates hp (mem_match hf)) b (fits_candidates hp (mem_match hs))
  · rcases other_sign_type hr (mem_match hf) with ⟨rfl, rfl⟩ | ⟨rfl, rfl⟩ <;>
      rcases other_sign_type hr (mem_match hs) with ⟨rfl, eq⟩ | ⟨rfl, eq⟩
    · rfl
    · cases eq
    · cases eq
    · rfl

lemma challenge_match (hn : ¬RootSized data sz) (hf : Payload.fits data sz .ed25519 .bamAuth = true) :
    payloadMatch data sz .ed25519 = [.bamAuth] := by
  have ho : ∀ kind ∈ [.txn, .gossip, .repair, .prune, .shred, .tlsCv, .ping, .pong, .bundle, .event, .bamAuth],
      Payload.fits data sz .ed25519 kind = decide (kind = .bamAuth) := by
    intro kind _
    by_cases ha : kind = .bamAuth
    · subst ha
      exact hf
    · rw [decide_eq_false ha, Bool.eq_false_iff]
      intro hl
      have hp := candidates_together _ (fits_candidates hn hl) _ (fits_candidates hn hf)
      cases kind <;> first | exact ha rfl | cases hp
  rw [payloadMatch, filter_congr ho]
  decide

lemma root_sized_ambiguous (hr : RootSized data sz) :
    .shred ∈ payloadMatch data sz .ed25519 ∧ .bamAuth ∈ payloadMatch data sz .ed25519 := by
  obtain ⟨rfl, label⟩ := hr
  have hb : matchesBamAuth data (bamAuthLabel.length + 8) .ed25519 = true := by
    rw [matchesBamAuth, label]
    decide
  exact ⟨mem_filter.mpr ⟨by decide, rfl⟩, mem_filter.mpr ⟨by decide, hb⟩⟩

/-- A request matches one kind or one of the two known pairs, and a challenge of at most 128 bytes
matches its own kind alone and is accepted for the marketplace, exactly if the request is not
the label of the marketplace with a challenge of eight bytes. -/
theorem payloads_unambiguous (data : Mem) (sz : Nat) (signType : SignType) :
    ((∀ a ∈ payloadMatch data sz signType, ∀ b ∈ payloadMatch data sz signType, Together a b = true) ∧
      (data.memeq 0 bamAuthLabel = true → bamAuthLabel.length < sz →
        sz ≤ bamAuthLabel.length + bamMaxAuthChallengeSz → signType = .ed25519 →
        payloadMatch data sz signType = [.bamAuth] ∧
        ∀ authority, payloadAuthorize authority data sz signType .bam = true)) ↔
    ¬(signType = .ed25519 ∧ RootSized data sz) := by
  constructor
  · rintro ⟨together, -⟩ ⟨rfl, size⟩
    obtain ⟨shred, auth⟩ := root_sized_ambiguous size
    exact absurd (together _ shred _ auth) (by decide)
  intro plain
  refine ⟨match_together plain, ?_⟩
  rintro label long short rfl
  have fits : matchesBamAuth data sz .ed25519 = true := by
    simp only [matchesBamAuth, Bool.and_eq_true, decide_eq_true_iff]
    exact ⟨⟨⟨trivial, long⟩, short⟩, label⟩
  have mask := challenge_match (fun size => plain ⟨rfl, size⟩) fits
  refine ⟨mask, fun authority => ?_⟩
  have room : sz ≤ signReqMtu := Nat.le_trans short (by decide)
  simp only [payloadAuthorize, mask, Bool.and_eq_true, decide_eq_true_iff]
  exact ⟨room, trivial⟩

/- The label with one byte behind it. -/
theorem short_challenge_alone :
    payloadMatch (.ofList bamAuthLabel) 25 .ed25519 = [.bamAuth] ∧
    payloadAuthorize someAuthority (.ofList bamAuthLabel) 25 .ed25519 .bam = true := by
  have plain : ¬(SignType.ed25519 = .ed25519 ∧ RootSized (.ofList bamAuthLabel) 25) := by decide
  obtain ⟨mask, accepts⟩ := ((payloads_unambiguous _ _ _).mpr plain).2 (by decide +kernel) (by decide) (by decide) rfl
  exact ⟨mask, accepts _⟩

/- With eight bytes behind the label the request also matches as a shred, and is refused. -/
theorem eight_byte_challenge :
    payloadMatch (.ofList bamAuthLabel) 32 .ed25519 = [.shred, .bamAuth] ∧ Together .shred .bamAuth = false ∧
    payloadAuthorize someAuthority (.ofList bamAuthLabel) 32 .ed25519 .bam = false := by
  decide +kernel

end Firebam.Keyguard
