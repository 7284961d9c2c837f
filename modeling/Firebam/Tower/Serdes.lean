import Mathlib

/-! The wire format of a compact tower sync (fd_tower_serdes.c). -/
namespace Firebam.TowerSync

abbrev Hash := Vector UInt8 32

open List

variable {n v bit dst w : Nat} {buf rest : List UInt8}

def voteMax : Nat := 31

structure Lockout where
  offset : Nat
  confirmationCount : Nat
  deriving DecidableEq

structure Serde where
  root : Nat
  lockouts : List Lockout
  hash : Hash
  timestamp : Option Nat
  blockId : Hash
  deriving DecidableEq

def load : List UInt8 → Nat
  | [] => 0
  | b :: bs => b.toNat + 256 * load bs

def store : Nat → Nat → List UInt8
  | 0, _ => []
  | n + 1, v => v.toUInt8 :: store n (v / 256)

def deUint (n : Nat) (buf : List UInt8) : Option (Nat × List UInt8) :=
  if buf.length < n then none else some (load (buf.take n), buf.drop n)

def deHash (buf : List UInt8) : Option (Hash × List UInt8) :=
  if size : (buf.take 32).length = 32 then some (⟨⟨buf.take 32⟩, size⟩, buf.drop 32) else none

def deShortU16 : List UInt8 → Option (Nat × List UInt8)
  | [] => none
  | s0 :: rest =>
    if s0.toNat < 128 then some (s0.toNat, rest)
    else match rest with
      | [] => none
      | s1 :: rest =>
        if s1.toNat < 128 then
          if s1.toNat = 0 then none else some (s0.toNat % 128 + s1.toNat * 128, rest)
        else match rest with
          | [] => none
          | s2 :: rest =>
            if 128 ≤ s2.toNat then none
            else if s2.toNat = 0 then none
            else
              let val := s0.toNat % 128 + s1.toNat % 128 * 128 + s2.toNat * 16384
              if 65535 < val then none else some (val, rest)

def deVarIntLoop : Nat → Nat → List UInt8 → Option (Nat × List UInt8)
  | _, _, [] => none
  | bit, dst, byte :: buf =>
    if bit < 64 then
      let dst := dst ||| (byte.toNat % 128) <<< bit % 2 ^ 64
      if byte.toNat < 128 then
        if dst >>> bit ≠ byte.toNat then none
        else if byte.toNat = 0 ∧ (bit ≠ 0 ∨ dst ≠ 0) then none
        else some (dst, buf)
      else deVarIntLoop (bit + 7) dst buf
    else none

def deVarInt : List UInt8 → Option (Nat × List UInt8) := deVarIntLoop 0 0

def serShortU16 (val : Nat) : List UInt8 :=
  if val < 128 then [val.toUInt8]
  else if val < 16384 then [(val % 128 + 128).toUInt8, (val / 128).toUInt8]
  else [(val % 128 + 128).toUInt8, (val / 128 % 128 + 128).toUInt8, (val / 16384).toUInt8]

def serVarInt (val : Nat) : List UInt8 :=
  if val < 128 then [val.toUInt8] else (val % 128 + 128).toUInt8 :: serVarInt (val / 128)

def deLockouts : Nat → List UInt8 → Option (List Lockout × List UInt8)
  | 0, buf => some ([], buf)
  | n + 1, buf => do
    let (offset, buf) ← deVarInt buf
    let (conf, buf) ← deUint 1 buf
    let (lockouts, buf) ← deLockouts n buf
    return (⟨offset, conf⟩ :: lockouts, buf)

def deTimestamp (buf : List UInt8) : Option (Option Nat × List UInt8) := do
  let (option, buf) ← deUint 1 buf
  if option = 1 then
    let (timestamp, buf) ← deUint 8 buf
    return (some timestamp, buf)
  else if option = 0 then return (none, buf)
  else none

def de (buf : List UInt8) : Option (Serde × List UInt8) := do
  let (root, buf) ← deUint 8 buf
  let (cnt, buf) ← deShortU16 buf
  if voteMax < cnt then none
  else
    let (lockouts, buf) ← deLockouts cnt buf
    let (hash, buf) ← deHash buf
    let (timestamp, buf) ← deTimestamp buf
    let (blockId, buf) ← deHash buf
    return (⟨root, lockouts, hash, timestamp, blockId⟩, buf)

def Lockout.bytes (x : Lockout) : List UInt8 := serVarInt x.offset ++ store 1 x.confirmationCount

def timestampBytes : Option Nat → List UInt8
  | none => [0]
  | some timestamp => 1 :: store 8 timestamp

def Serde.bytes (x : Serde) : List UInt8 :=
  store 8 x.root ++ serShortU16 x.lockouts.length ++ x.lockouts.flatMap Lockout.bytes ++ x.hash.toList ++
    timestampBytes x.timestamp ++ x.blockId.toList

/-- fd_compact_tower_sync_ser. The fields of a fixed size are checked against the end of the buffer, and
the last one of them ends highest; the count and the offsets are written unchecked. -/
def ser (x : Serde) (bufMax : Nat) : Option (List UInt8) :=
  if voteMax < x.lockouts.length then none
  else if bufMax < x.bytes.length then none
  else some x.bytes

def Lockout.Fits (x : Lockout) : Prop := x.offset < 2 ^ 64 ∧ x.confirmationCount < 256

structure Serde.Fits (x : Serde) : Prop where
  root : x.root < 2 ^ 64
  lockouts : ∀ l ∈ x.lockouts, l.Fits
  timestamp : ∀ t ∈ x.timestamp, t < 2 ^ 64

lemma toNat_toUInt8 (hs : n < 256) : n.toUInt8.toNat = n := by
  simp [Nat.mod_eq_of_lt hs]

lemma eq_toUInt8 {b : UInt8} (eq : n = b.toNat) : n.toUInt8 = b := by
  subst eq
  exact UInt8.ofNat_toNat

lemma store_length (n v : Nat) : (store n v).length = n := by
  induction n generalizing v with
  | zero => rfl
  | succ n ih => exact congrArg (· + 1) (ih _)

lemma load_store (hs : v < 256 ^ n) : load (store n v) = v := by
  induction n generalizing v with
  | zero => exact (Nat.lt_one_iff.mp hs).symm
  | succ n ih =>
    rw [Nat.pow_succ] at hs
    have hl : v.toUInt8.toNat = v % 256 := by simp
    rw [store, load, hl, ih (Nat.div_lt_of_lt_mul (by omega))]
    omega

lemma store_load (l : List UInt8) : load l < 256 ^ l.length ∧ store l.length (load l) = l := by
  induction l with
  | nil => exact ⟨Nat.one_pos, rfl⟩
  | cons b bs ih =>
    have hs := b.toNat_lt
    refine ⟨?_, ?_⟩
    · rw [load, length_cons, Nat.pow_succ]
      omega
    · rw [load, length_cons, store]
      have hl : (b.toNat + 256 * load bs).toUInt8 = b := by
        apply UInt8.toNat.inj
        simp
      have hh : (b.toNat + 256 * load bs) / 256 = load bs := by omega
      rw [hl, hh, ih.2]

lemma deUint_iff : deUint n buf = some (v, rest) ↔ v < 256 ^ n ∧ buf = store n v ++ rest := by
  unfold deUint
  constructor
  · intro h
    split at h
    · cases h
    · rename_i ho
      cases h
      have hl : (buf.take n).length = n := by simp; omega
      have ha := store_load (buf.take n)
      rw [hl] at ha
      exact ⟨ha.1, by rw [ha.2, take_append_drop]⟩
  · rintro ⟨hs, rfl⟩
    have hl := store_length n v
    rw [if_neg (by simp [hl]), take_left' hl, drop_left' hl, load_store hs]

lemma deHash_iff {hash : Hash} : deHash buf = some (hash, rest) ↔ buf = hash.toList ++ rest := by
  unfold deHash
  constructor
  · intro h
    split at h
    · cases h
      exact (take_append_drop 32 buf).symm
    · cases h
  · rintro rfl
    have hl : hash.toList.length = 32 := by simp
    simp only [take_left' hl, drop_left' hl, hl, dite_true]
    rfl

lemma deShortU16_iff : deShortU16 buf = some (v, rest) ↔ v < 65536 ∧ buf = serShortU16 v ++ rest := by
  constructor
  · intro h
    unfold deShortU16 at h
    unfold serShortU16
    split at h
    · cases h
    rename_i s0 tail
    have small0 := s0.toNat_lt
    split at h
    · cases h
      rw [if_pos (by omega), eq_toUInt8 rfl]
      exact ⟨by omega, rfl⟩
    split at h
    · cases h
    rename_i s1 tail
    split at h
    · split at h
      · cases h
      cases h
      rw [if_neg (by omega), if_pos (by omega), eq_toUInt8 (b := s0) (by omega), eq_toUInt8 (b := s1) (by omega)]
      exact ⟨by omega, rfl⟩
    split at h
    · cases h
    rename_i s2 tail
    have small1 := s1.toNat_lt
    dsimp only at h
    split_ifs at h
    cases h
    rw [if_neg (by omega), if_neg (by omega), eq_toUInt8 (b := s0) (by omega), eq_toUInt8 (b := s1) (by omega),
      eq_toUInt8 (b := s2) (by omega)]
    exact ⟨by omega, rfl⟩
  · rintro ⟨hs, rfl⟩
    unfold serShortU16
    split_ifs with one two
    · simp only [cons_append, nil_append, deShortU16, toNat_toUInt8 (show v < 256 by omega), if_pos one]
    · simp only [cons_append, nil_append, deShortU16, toNat_toUInt8 (show v % 128 + 128 < 256 by omega),
        toNat_toUInt8 (show v / 128 < 256 by omega)]
      rw [if_neg (by omega), if_pos (by omega), if_neg (by omega)]
      exact congrArg (fun v => some (v, rest)) (by omega)
    · simp only [cons_append, nil_append, deShortU16, toNat_toUInt8 (show v % 128 + 128 < 256 by omega),
        toNat_toUInt8 (show v / 128 % 128 + 128 < 256 by omega), toNat_toUInt8 (show v / 16384 < 256 by omega)]
      rw [if_neg (by omega), if_neg (by omega), if_neg (by omega), if_neg (by omega), if_neg (by omega)]
      exact congrArg (fun v => some (v, rest)) (by omega)

lemma or_shift (hl : dst < 2 ^ bit) (hr : bit < 64) (x : Nat) :
    ∃ y, dst ||| x <<< bit % 2 ^ 64 = dst + y * 2 ^ bit ∧ (dst + y * 2 ^ bit) >>> bit = y ∧
      dst + y * 2 ^ bit < 2 ^ 64 ∧ (x * 2 ^ bit < 2 ^ 64 → y = x) := by
  have hw : 2 ^ 64 = 2 ^ (64 - bit) * 2 ^ bit := by
    rw [← Nat.pow_add, Nat.sub_add_cancel (le_of_lt hr)]
  have hf : x % 2 ^ (64 - bit) < 2 ^ (64 - bit) := Nat.mod_lt _ (Nat.two_pow_pos _)
  refine ⟨x % 2 ^ (64 - bit), ?_, ?_, ?_, fun hs => ?_⟩
  · rw [Nat.shiftLeft_eq, hw, Nat.mul_mod_mul_right, ← Nat.shiftLeft_eq, Nat.or_comm,
      ← Nat.shiftLeft_add_eq_or_of_lt hl, add_comm]
  · rw [Nat.shiftRight_eq_div_pow, Nat.add_mul_div_right _ _ (Nat.two_pow_pos _), Nat.div_eq_of_lt hl, zero_add]
  · rw [hw]
    have := Nat.mul_le_mul_right (2 ^ bit) (Nat.succ_le_of_lt hf)
    rw [Nat.succ_mul] at this
    omega
  · rw [hw] at hs
    exact Nat.mod_eq_of_lt (Nat.lt_of_mul_lt_mul_right hs)

lemma next_low {x : Nat} (hl : dst < 2 ^ bit) (hs : x < 128) : dst + x * 2 ^ bit < 2 ^ (bit + 7) := by
  have := Nat.mul_le_mul_right (2 ^ bit) (Nat.succ_le_of_lt hs)
  rw [Nat.succ_mul] at this
  rw [Nat.pow_add]
  omega

lemma deVarIntLoop_sound (hd : dst < 2 ^ bit) (h : deVarIntLoop bit dst buf = some (v, rest)) :
    ∃ w, v = dst + w * 2 ^ bit ∧ v < 2 ^ 64 ∧ (bit ≠ 0 → w ≠ 0) ∧ buf = serVarInt w ++ rest := by
  induction buf generalizing bit dst with
  | nil => cases h
  | cons byte buf ih =>
    have hs := byte.toNat_lt
    rw [deVarIntLoop] at h
    split at h
    · rename_i hr
      obtain ⟨y, eq, ht, hb, he⟩ := or_shift hd hr (byte.toNat % 128)
      simp only [eq, ht] at h
      split at h
      · rename_i hg
        split_ifs at h with ha zero
        cases h
        have ha := not_not.mp ha
        subst ha
        refine ⟨_, rfl, hb, fun hl ho => zero ⟨ho, .inl hl⟩, ?_⟩
        rw [serVarInt, if_pos hg, eq_toUInt8 rfl]
        rfl
      · rename_i hm
        have hn : bit + 7 < 64 := by
          by_contra hf
          cases buf <;> simp [deVarIntLoop, hf] at h
        have hi : 2 ^ (bit + 7) < 2 ^ 64 := Nat.pow_lt_pow_right (by decide) hn
        have hc := next_low hd (Nat.mod_lt byte.toNat (by decide : 0 < 128))
        have eq := he (by omega)
        subst eq
        obtain ⟨w, hv, hu, hp, rfl⟩ := ih hc h
        have hp := hp (by omega)
        refine ⟨byte.toNat % 128 + w * 128, ?_, hu, by omega, ?_⟩
        · rw [hv, Nat.pow_add, add_mul]
          ring
        · have hh : (byte.toNat % 128 + w * 128) / 128 = w := by omega
          have hw : serVarInt (byte.toNat % 128 + w * 128) = byte :: serVarInt w := by
            rw [serVarInt, if_neg (by omega), hh, eq_toUInt8 (b := byte) (by omega)]
          rw [hw, cons_append]
    · cases h

lemma deVarIntLoop_complete (hc : dst < 2 ^ bit) (hf : dst + w * 2 ^ bit < 2 ^ 64) (hp : bit ≠ 0 → w ≠ 0) :
    deVarIntLoop bit dst (serVarInt w ++ rest) = some (dst + w * 2 ^ bit, rest) := by
  induction w using Nat.strongRecOn generalizing bit dst with
  | ind w ih =>
    have hr : bit < 64 := by
      by_contra hi
      have := Nat.pow_le_pow_right (by decide : 0 < 2) (Nat.le_of_not_lt hi)
      have := Nat.le_mul_of_pos_left (2 ^ bit) (Nat.pos_of_ne_zero (hp (by omega)))
      omega
    rw [serVarInt]
    split
    · rename_i ha
      obtain ⟨y, eq, hh, -, he⟩ := or_shift hc hr w
      have hq := he (by omega)
      subst hq
      have hb := toNat_toUInt8 (show y < 256 by omega)
      simp only [cons_append, nil_append, deVarIntLoop, hb, Nat.mod_eq_of_lt ha, eq, hh, if_pos hr, if_pos ha]
      rw [if_neg (not_not.mpr rfl), if_neg]
      rintro ⟨rfl, ho⟩
      have hz : bit = 0 := by
        by_contra hl
        exact hp hl rfl
      subst hz
      omega
    · rename_i hm
      have hd : (w % 128 + 128) % 128 = w % 128 := by omega
      have le := Nat.mul_le_mul_right (2 ^ bit) (Nat.mod_le w 128)
      obtain ⟨y, eq, -, -, he⟩ := or_shift hc hr (w % 128)
      have hq := he (by omega)
      have hs := Nat.mod_lt w (by decide : 0 < 128)
      have hw : dst + w % 128 * 2 ^ bit + w / 128 * 2 ^ (bit + 7) = dst + w * 2 ^ bit := by
        rw [Nat.pow_add, Nat.add_assoc]
        nth_rewrite 3 [← Nat.mod_add_div w 128]
        ring
      have hb := toNat_toUInt8 (show w % 128 + 128 < 256 by omega)
      simp only [cons_append, deVarIntLoop, hb, hd, eq, hq, if_pos hr]
      rw [if_neg (by omega), ih (w / 128) (by omega) (next_low hc hs) (by omega) (fun _ => by omega), hw]

lemma deVarInt_iff : deVarInt buf = some (v, rest) ↔ v < 2 ^ 64 ∧ buf = serVarInt v ++ rest := by
  constructor
  · intro h
    obtain ⟨w, rfl, hs, -, eq⟩ := deVarIntLoop_sound (by decide) h
    rw [Nat.pow_zero, mul_one, zero_add] at hs ⊢
    exact ⟨hs, eq⟩
  · rintro ⟨hs, rfl⟩
    have h : deVarIntLoop 0 0 (serVarInt v ++ rest) = some (0 + v * 2 ^ 0, rest) :=
      deVarIntLoop_complete (by decide) (by omega) (absurd rfl)
    rwa [Nat.pow_zero, mul_one, zero_add] at h

lemma deLockouts_iff {ls : List Lockout} : deLockouts n buf = some (ls, rest) ↔
    ls.length = n ∧ (∀ x ∈ ls, x.Fits) ∧ buf = ls.flatMap Lockout.bytes ++ rest := by
  induction n generalizing buf ls rest with
  | zero =>
    rw [deLockouts, length_eq_zero_iff]
    constructor
    · intro h
      cases h
      exact ⟨rfl, nofun, rfl⟩
    · rintro ⟨rfl, -, rfl⟩
      rfl
  | succ n ih =>
    simp only [deLockouts, Option.bind_eq_bind, Option.bind_eq_some_iff, Prod.exists, deVarInt_iff, deUint_iff, ih]
    constructor
    · rintro ⟨offset, _, ⟨hs, rfl⟩, conf, _, ⟨he, rfl⟩, ls, _, ⟨hl, all, rfl⟩, h⟩
      cases h
      refine ⟨congrArg (· + 1) hl, forall_mem_cons.mpr ⟨⟨hs, he⟩, all⟩, ?_⟩
      simp only [flatMap_cons, Lockout.bytes, append_assoc]
    · rintro ⟨hl, all, rfl⟩
      cases ls with
      | nil => cases hl
      | cons x ls =>
        obtain ⟨hf, all⟩ := forall_mem_cons.mp all
        refine ⟨_, _, ⟨hf.1, ?_⟩, _, _, ⟨hf.2, rfl⟩, ls, _, ⟨Nat.succ.inj hl, all, rfl⟩, rfl⟩
        simp only [flatMap_cons, Lockout.bytes, append_assoc]

lemma deTimestamp_iff {t : Option Nat} : deTimestamp buf = some (t, rest) ↔
    (∀ x ∈ t, x < 2 ^ 64) ∧ buf = timestampBytes t ++ rest := by
  simp only [deTimestamp, Option.bind_eq_bind, Option.bind_eq_some_iff, Prod.exists, deUint_iff]
  constructor
  · rintro ⟨option, _, ⟨-, rfl⟩, h⟩
    split_ifs at h with one zero
    · subst one
      simp only [Option.bind_eq_some_iff, Prod.exists, deUint_iff] at h
      obtain ⟨timestamp, _, ⟨hs, rfl⟩, h⟩ := h
      cases h
      exact ⟨fun x hm => Option.mem_some.mp hm ▸ hs, rfl⟩
    · subst zero
      cases h
      exact ⟨nofun, rfl⟩
  · rintro ⟨hs, rfl⟩
    cases t with
    | none => exact ⟨0, rest, ⟨by decide, rfl⟩, rfl⟩
    | some x =>
      refine ⟨1, store 8 x ++ rest, ⟨by decide, rfl⟩, ?_⟩
      simp only [if_true, Option.bind_eq_some_iff, Prod.exists, deUint_iff]
      exact ⟨x, rest, ⟨hs x rfl, rfl⟩, rfl⟩

lemma de_iff {x : Serde} : de buf = some (x, rest) ↔
    x.Fits ∧ x.lockouts.length ≤ voteMax ∧ buf = x.bytes ++ rest := by
  simp only [de, Option.bind_eq_bind, Option.bind_eq_some_iff, Prod.exists, deUint_iff, deShortU16_iff]
  constructor
  · rintro ⟨root, _, ⟨hs, rfl⟩, cnt, _, ⟨-, rfl⟩, hd⟩
    split at hd
    · cases hd
    · rename_i he
      simp only [Option.bind_eq_some_iff, Prod.exists, deLockouts_iff, deHash_iff, deTimestamp_iff] at hd
      obtain ⟨ls, _, ⟨rfl, all, rfl⟩, hash, _, rfl, t, _, ⟨ht, rfl⟩, id, _, rfl, hd⟩ := hd
      cases hd
      exact ⟨⟨hs, all, ht⟩, Nat.le_of_not_lt he, by simp only [Serde.bytes, append_assoc]⟩
  · rintro ⟨hf, he, rfl⟩
    have hc : x.lockouts.length < 65536 := lt_of_le_of_lt he (by decide)
    refine ⟨x.root, _, ⟨hf.root, by simp only [Serde.bytes, append_assoc]; rfl⟩, _, _, ⟨hc, rfl⟩, ?_⟩
    rw [if_neg (Nat.not_lt.mpr he)]
    simp only [Option.bind_eq_some_iff, Prod.exists, deLockouts_iff, deHash_iff, deTimestamp_iff]
    exact ⟨_, _, ⟨rfl, hf.lockouts, rfl⟩, _, _, rfl, _, _, ⟨hf.timestamp, rfl⟩, _, _, rfl, rfl⟩

lemma ser_iff {x : Serde} {bufMax : Nat} {out : List UInt8} :
    ser x bufMax = some out ↔ x.lockouts.length ≤ voteMax ∧ x.bytes.length ≤ bufMax ∧ x.bytes = out := by
  unfold ser
  split_ifs with many full
  · simp; omega
  · simp; omega
  · exact ⟨fun eq => ⟨Nat.le_of_not_lt many, Nat.le_of_not_lt full, Option.some.inj eq⟩, fun h => congrArg some h.2.2⟩

/-- The encoding is canonical: what is written is read back, to its last byte, and what is read is
written again as it was. -/
theorem canonical (x : Serde) (buf rest : List UInt8) :
    (x.Fits → x.lockouts.length ≤ voteMax → ∃ out, (∀ bufMax ≥ out.length, ser x bufMax = some out) ∧
      de (out ++ rest) = some (x, rest)) ∧
    (de buf = some (x, rest) → ∃ out, buf = out ++ rest ∧ ∀ bufMax ≥ out.length, ser x bufMax = some out) := by
  refine ⟨fun hf few => ⟨x.bytes, fun bufMax hr => ser_iff.mpr ⟨few, hr, rfl⟩, de_iff.mpr ⟨hf, few, rfl⟩⟩, ?_⟩
  intro h
  obtain ⟨-, few, eq⟩ := de_iff.mp h
  exact ⟨x.bytes, eq, fun bufMax hr => ser_iff.mpr ⟨few, hr, rfl⟩⟩

def twoVotes : Serde := ⟨5, [⟨300, 31⟩, ⟨1, 1⟩], .replicate 32 7, some 1700000000, .replicate 32 9⟩

theorem two_votes_canonical : ∃ out, (∀ bufMax ≥ out.length, ser twoVotes bufMax = some out) ∧
    de (out ++ [8]) = some (twoVotes, [8]) ∧
    ∃ again, out ++ [8] = again ++ [8] ∧ ∀ bufMax ≥ again.length, ser twoVotes bufMax = some again := by
  obtain ⟨out, written, read⟩ := (canonical twoVotes [] [8]).1
    ⟨by decide, by simp [twoVotes, Lockout.Fits], by simp [twoVotes]⟩ (by decide)
  exact ⟨out, written, read, (canonical twoVotes _ [8]).2 read⟩

/-- The offsets are never added to the root, so that a slot can be beyond the last one. -/
theorem offset_wraps : let far : Serde := ⟨5, [⟨2 ^ 64 - 1, 1⟩], .replicate 32 0, none, .replicate 32 0⟩
    de (store 8 5 ++ 1 :: replicate 9 255 ++ 1 :: 1 :: replicate 65 0) = some (far, []) ∧
    2 ^ 64 ≤ far.root + (far.lockouts.map Lockout.offset).sum := by
  decide +kernel

end Firebam.TowerSync
