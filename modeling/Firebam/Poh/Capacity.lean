import Firebam.Poh.Advance

/-! The hash capacity of a leader slot: PoH always keeps room for the microblocks pack may
still send, and so never leaves the slot before pack is done with it. -/
namespace Firebam.Poh
open Lib

variable {p : Machine} {packed : Bool} {R h : Nat}

section
variable (T : Nat)

/-- Hashes that remaining microblocks need when every tick span of T hashes ends in a tick. -/
def reserve (remaining : Nat) : Nat := remaining + (remaining + T - 2) / (T - 1)

lemma reserve_mono {S : Nat} (le : R ≤ S) : reserve T R ≤ reserve T S := by
  unfold reserve
  have := Nat.div_le_div_right (c := T - 1) (show R + T - 2 ≤ S + T - 2 by omega)
  omega

lemma reserve_pos (hp : 0 < R) : 0 < reserve T R :=
  Nat.add_pos_left hp _

lemma reserve_pred (R : Nat) (hp : 0 < R) : reserve T (R - 1) + 1 ≤ reserve T R := by
  unfold reserve
  have := Nat.div_le_div_right (c := T - 1) (show R - 1 + T - 2 ≤ R + T - 2 by omega)
  omega

lemma reserve_boundary (N h R : Nat) (hi : 1 < T) (hp : 0 < R)
    (hr : h + reserve T R ≤ N * T) (ho : (h + 1) % T = T - 1) : h + 2 + reserve T (R - 1) ≤ N * T := by
  obtain ⟨t, rfl⟩ : ∃ t, T = t + 1 := ⟨T - 1, by omega⟩
  have ht : 0 < t := by omega
  -- Write the microblocks left after this one as whole spans and a rest.
  obtain ⟨a, c, hc, hR⟩ : ∃ a c, c < t ∧ R = a * t + c + 1 :=
    ⟨(R - 1) / t, (R - 1) % t, Nat.mod_lt _ ht, by
      have := Nat.div_add_mod' (R - 1) t
      omega⟩
  have hq : h + 2 = ((h + 1) / (t + 1) + 1) * (t + 1) := by
    have := Nat.div_add_mod' (h + 1) (t + 1)
    rw [ho] at this
    rw [Nat.add_mul]
    omega
  have hb : (R + (t + 1) - 2) / (t + 1 - 1) = a + 1 := by
    rw [Nat.add_sub_cancel, hR, show a * t + c + 1 + (t + 1) - 2 = c + (a + 1) * t by
      rw [Nat.add_mul]; omega, Nat.add_mul_div_right _ _ ht, Nat.div_eq_of_lt hc, Nat.zero_add]
  unfold reserve at hr ⊢
  rw [hb] at hr
  by_cases he : c = 0
  · have ha : (R - 1 + (t + 1) - 2) / (t + 1 - 1) = a := by
      rw [Nat.add_sub_cancel, hR, show a * t + c + 1 - 1 + (t + 1) - 2 = (t - 1) + a * t by omega,
        Nat.add_mul_div_right _ _ ht, Nat.div_eq_of_lt (by omega), Nat.zero_add]
    rw [ha]
    omega
  · have ha : (R - 1 + (t + 1) - 2) / (t + 1 - 1) = a + 1 := by
      rw [Nat.add_sub_cancel, hR, show a * t + c + 1 - 1 + (t + 1) - 2 = (c - 1) + (a + 1) * t by
        rw [Nat.add_mul]; omega, Nat.add_mul_div_right _ _ ht, Nat.div_eq_of_lt (by omega),
        Nat.zero_add]
    rw [ha]
    -- The rest is positive, so the bound is not met with equality: a whole span is free.
    have hs : ((h + 1) / (t + 1) + 1 + a) * (t + 1) < N * (t + 1) := by
      rw [Nat.add_mul, ← hq, Nat.mul_add, Nat.mul_one]
      omega
    have hw : ((h + 1) / (t + 1) + 1 + a + 1) * (t + 1) ≤ N * (t + 1) :=
      Nat.mul_le_mul_right _ (Nat.lt_of_mul_lt_mul_right hs)
    rw [Nat.add_mul, Nat.add_mul, ← hq, Nat.mul_add, Nat.mul_one] at hw
    omega

def leastHashcnt (h : Nat) : Nat := if h % T = T - 1 then h + 1 else h

lemma leastHashcnt_ge (h : Nat) : h ≤ leastHashcnt T h := by
  unfold leastHashcnt
  split <;> omega

end

lemma leastHashcnt_away {T : Nat} (ha : h % T ≠ T - 1) : leastHashcnt T h = h := if_neg ha

lemma clamp_spec (T h m r clock : Nat) (ht : 1 < T) (he : m = leastHashcnt T h) (le : m ≤ r) (target : Nat)
    (hc : target = min (max (min clock r) m) (T * (1 + h / T))) :
    (if target % T = T - 1 then target - 1 else target) % T ≠ T - 1 ∧
    m ≤ (if target % T = T - 1 then target - 1 else target) ∧
    (if target % T = T - 1 then target - 1 else target) ≤ r ∧
    (if target % T = T - 1 then target - 1 else target) ≤ T * (1 + h / T) := by
  have next : h + 1 ≤ T * (1 + h / T) := by
    have := Nat.div_add_mod h T
    have := Nat.mod_lt h (show 0 < T by omega)
    rw [Nat.mul_add]
    omega
  have hl : m ≤ target := by
    rw [hc]
    unfold leastHashcnt at he
    split at he <;> omega
  have hu : target ≤ r := by omega
  have hi : target ≤ T * (1 + h / T) := by omega
  have ho : m % T ≠ T - 1 := by
    rw [he, leastHashcnt]
    split_ifs with hb
    · rw [Nat.add_mod, hb, Nat.mod_eq_of_lt ht, Nat.sub_add_cancel (by omega),
        Nat.mod_self]
      omega
    · assumption
  split
  · rename_i hb
    have hs : m < target := by
      rcases Nat.lt_or_eq_of_le hl with lt | eq
      · exact lt
      · exact absurd (eq ▸ hb) ho
    have hm : (target - 1) % T = T - 2 := by
      have := Nat.div_add_mod target T
      rw [hb] at this
      have split : target - 1 = (T - 2) + T * (target / T) := by omega
      rw [split, Nat.add_mul_mod_self_left, Nat.mod_eq_of_lt (by omega)]
    exact ⟨by omega, by omega, by omega, by omega⟩
  · rename_i ha
    exact ⟨ha, hl, hu, hi⟩

/-- What holds of PoH in a leader slot, before and after pack said it is done. -/
structure Capacity (p : Machine) (packed : Bool) : Prop where
  leading : p.state = .leader
  here : p.slot = p.nextLeaderSlot
  ticks : 1 < p.hashcntPerTick
  someTicks : 0 < p.ticksPerSlot
  slotSize : p.hashcntPerSlot = p.ticksPerSlot * p.hashcntPerTick
  fits : p.hashcntPerSlot < wordSize
  maxFits : p.maxMicroblocksPerSlot < wordSize
  openSlot : packed = false → p.microblocksLowerBound < p.maxMicroblocksPerSlot
  closedSlot : packed = true → p.microblocksLowerBound = p.maxMicroblocksPerSlot
  room : leastHashcnt p.hashcntPerTick p.hashcnt +
    reserve p.hashcntPerTick (p.maxMicroblocksPerSlot - p.microblocksLowerBound) ≤ p.hashcntPerSlot
  sinceReset : p.resetSlot ≤ p.lastSlot
  skipping : p.lastSlot < p.slot → p.hashcnt = 0 ∧ p.hashcntPerTick ∣ p.lastHashcnt ∧
    p.lastHashcnt < p.hashcntPerSlot
  behind : p.lastSlot ≤ p.slot
  caughtUp : p.lastSlot = p.slot → p.lastHashcnt ≤ p.hashcnt

namespace Capacity

variable (c : Capacity p packed)
include c

lemma lowerBound_le : p.microblocksLowerBound ≤ p.maxMicroblocksPerSlot := by
  cases packed with
  | false => exact Nat.le_of_lt (c.openSlot rfl)
  | true => exact Nat.le_of_eq (c.closedSlot rfl)

lemma lastOfTick : wsub p.hashcntPerTick 1 = p.hashcntPerTick - 1 := by
  have hb := c.fits
  rw [c.slotSize] at hb
  exact wsub_of_le (Nat.le_of_lt c.ticks)
    (Nat.lt_of_le_of_lt (Nat.le_mul_of_pos_left _ c.someTicks) hb)

lemma remaining_eq : maxRemainingMicroblocks p = p.maxMicroblocksPerSlot - p.microblocksLowerBound := by
  rw [maxRemainingMicroblocks, if_pos c.leading, wsub_of_le c.lowerBound_le c.maxFits]

lemma restricted_eq : restrictedHashcnt p = p.hashcntPerSlot -
    reserve p.hashcntPerTick (p.maxMicroblocksPerSlot - p.microblocksLowerBound) := by
  have hr := c.room
  have ht := c.ticks
  unfold restrictedHashcnt
  rw [c.remaining_eq]
  simp only [if_pos c.leading, if_neg (show p.hashcntPerTick ≠ 1 by omega)]
  exact if_pos (by unfold reserve at hr; omega)

lemma minHashcnt_eq : minHashcnt p = leastHashcnt p.hashcntPerTick p.hashcnt := by
  have ht := c.ticks
  unfold minHashcnt leastHashcnt
  rw [c.lastOfTick]
  simp only [show p.hashcntPerTick ≠ 1 by omega, ne_eq, not_false_eq_true, true_and]

lemma min_le_restricted : minHashcnt p ≤ restrictedHashcnt p := by
  rw [c.restricted_eq, c.minHashcnt_eq]
  have := c.room
  omega

lemma target_spec (clock : Nat) :
    targetHashcnt p clock % p.hashcntPerTick ≠ p.hashcntPerTick - 1 ∧
    minHashcnt p ≤ targetHashcnt p clock ∧ targetHashcnt p clock ≤ restrictedHashcnt p ∧
    targetHashcnt p clock ≤ p.hashcntPerTick * (1 + p.hashcnt / p.hashcntPerTick) := by
  have ht := c.ticks
  have hc := clamp_spec p.hashcntPerTick p.hashcnt (minHashcnt p) (restrictedHashcnt p)
    (clockTarget p clock) c.ticks c.minHashcnt_eq c.min_le_restricted (clampedHashcnt p clock) rfl
  have hs : clampedHashcnt p clock < wordSize := by
    have := c.min_le_restricted
    have := c.restricted_eq
    have := c.fits
    unfold clampedHashcnt
    omega
  unfold targetHashcnt
  rw [c.lastOfTick]
  simp only [show p.hashcntPerTick ≠ 1 by omega, ne_eq, not_false_eq_true, true_and]
  split
  · rename_i hb
    have hp : 1 ≤ clampedHashcnt p clock := by
      rcases Nat.eq_zero_or_pos (clampedHashcnt p clock) with hz | ho
      · rw [hz, Nat.zero_mod] at hb
        omega
      · exact ho
    rw [wsub_of_le hp hs]
    rwa [if_pos hb] at hc
  · rename_i ha
    rwa [if_neg ha] at hc

lemma mustTick_away (ha : p.hashcnt % p.hashcntPerTick ≠ p.hashcntPerTick - 1) : mustTick p = false := by
  rw [mustTick, c.lastOfTick, decide_eq_false_iff_not]
  exact fun h => ha h.2

lemma mustTick_start (hz : p.hashcnt = 0) : mustTick p = false := by
  have ht := c.ticks
  exact c.mustTick_away (by rw [hz, Nat.zero_mod]; omega)

end Capacity

lemma lastHashcnt_lt_nextTick (p : Machine) (ht : 0 < p.hashcntPerTick) : p.lastHashcnt < nextTick p := by
  have := Nat.div_add_mod p.lastHashcnt p.hashcntPerTick
  have := Nat.mod_lt p.lastHashcnt ht
  unfold nextTick
  rw [Nat.mul_add]
  omega

lemma nextTick_le_of_lt (p : Machine) (ht : p.hashcntPerTick ∣ h) (hl : p.lastHashcnt < h) : nextTick p ≤ h := by
  obtain ⟨k, rfl⟩ := ht
  have hb : p.lastHashcnt / p.hashcntPerTick < k := Nat.div_lt_of_lt_mul hl
  exact Nat.mul_le_mul_left _ (by omega)

lemma publishTick_ok (p : Machine) (hash : Hash) (isSkipped : Bool)
    (ht : 0 < p.hashcntPerTick) (hs : p.resetSlot ≤ p.lastSlot) :
    ∃ out, publishTick p hash isSkipped = .ok
      (if nextTick p = p.hashcntPerSlot then
        { p with shredOut := out, lastSlot := p.lastSlot + 1, lastHashcnt := 0 }
      else { p with shredOut := out, lastHashcnt := nextTick p }) := by
  refine ⟨p.shredOut ++ [tickEntry p hash isSkipped], ?_⟩
  unfold publishTick
  rw [check_of _ hs, check_of _ (lastHashcnt_lt_nextTick p ht)]
  rfl

lemma publishSkippedTick_ok (c : Capacity p packed) (hg : p.lastSlot < p.slot) :
    ∃ q, publishSkippedTick p = .ok q ∧ Capacity q packed ∧ q.hashcnt = 0 := by
  obtain ⟨ha, hd, hi⟩ := c.skipping hg
  have ht : 0 < p.hashcntPerTick := Nat.lt_trans Nat.one_pos c.ticks
  obtain ⟨out, hp⟩ := publishTick_ok p
    (p.skippedTickHashes (tickIdx p p.lastSlot (p.lastHashcnt + p.hashcntPerTick))) true ht
    c.sinceReset
  have hk : p.hashcntPerTick ∣ p.hashcntPerSlot := c.slotSize ▸ Nat.dvd_mul_left _ _
  have hb : nextTick p ≤ p.hashcntPerSlot := nextTick_le_of_lt p hk hi
  have he : publishSkippedTick p = publishTick p
      (p.skippedTickHashes (tickIdx p p.lastSlot (p.lastHashcnt + p.hashcntPerTick))) true := by
    unfold publishSkippedTick
    rw [check_of _ ha, check_of _ (Nat.mod_eq_zero_of_dvd hd)]
  refine ⟨_, he.trans hp, ?_, by split_ifs <;> exact ha⟩
  split_ifs with hm
  · exact
      { c with
        sinceReset := Nat.le_succ_of_le c.sinceReset
        skipping := fun _ => ⟨ha, Nat.dvd_zero _, Nat.zero_lt_of_lt hi⟩
        behind := hg
        caughtUp := fun _ => Nat.zero_le _ }
  · exact
      { c with
        skipping := fun _ => ⟨ha, Nat.dvd_mul_right _ _, Nat.lt_of_le_of_ne hb hm⟩
        caughtUp := fun hs => absurd hs (Nat.ne_of_lt hg) }

lemma hashTo_inside (sha : Sha256) (p : Machine) (target : Nat) (hm : target ≠ p.hashcntPerSlot) : hashTo sha p target =
      { p with hash := sha.next^[target - p.hashcnt] p.hash, hashcnt := target } := by
  unfold hashTo
  exact if_neg hm

lemma hashTo_end (sha : Sha256) (p : Machine) (target : Nat) (he : target = p.hashcntPerSlot) : hashTo sha p target =
      { p with hash := sha.next^[target - p.hashcnt] p.hash, slot := p.slot + 1, hashcnt := 0 } := by
  unfold hashTo
  exact if_pos he

lemma hashTo_state (sha : Sha256) (p : Machine) (target : Nat) : (hashTo sha p target).state = p.state := by
  unfold hashTo
  dsimp only
  split <;> rfl

lemma leaderTicked_inside (remaining : Nat) (c : Capacity p packed) (hc : p.lastSlot = p.slot)
    (hm : p.lastHashcnt < p.hashcnt) (hi : p.hashcnt < p.hashcntPerSlot) :
    ∃ q, leaderTicked p remaining = .ok q ∧ Capacity q packed ∧ mustTick q = mustTick p := by
  have hs : ¬ p.nextLeaderSlot < p.slot := by rw [c.here]; exact Nat.lt_irrefl _
  unfold leaderTicked publishReachedTick tickOutOfLeader
  by_cases ht : p.hashcnt % p.hashcntPerTick = 0
  · obtain ⟨out, hp⟩ := publishTick_ok p p.hash false (Nat.lt_trans Nat.one_pos c.ticks)
      c.sinceReset
    have hr : nextTick p ≤ p.hashcnt := nextTick_le_of_lt p (Nat.dvd_of_mod_eq_zero ht) hm
    rw [if_pos ht, hp, if_neg (by omega)]
    refine ⟨_, if_neg hs, ?_, rfl⟩
    exact
      { c with
        skipping := fun he => absurd hc (Nat.ne_of_lt he)
        caughtUp := fun _ => hr }
  · rw [if_neg ht]
    exact ⟨p, if_neg hs, c, rfl⟩

lemma transitionToFollower_leader (p : Machine) (completed : Bool) (hl : p.state = .leader) :
    ∃ out, transitionToFollower p completed =
      .ok { p with state := .follower, replayOut := out } := by
  unfold transitionToFollower
  rw [check_of _ (.inl hl), check_of _ (fun _ => hl)]
  exact ⟨_, rfl⟩

lemma leaderTicked_end (hl : p.state = .leader) (ht : 0 < p.hashcntPerTick)
    (hi : p.resetSlot ≤ p.lastSlot) (ha : p.hashcnt = 0) (hb : p.nextLeaderSlot < p.slot) :
    ∃ q, leaderTicked p 0 = .ok q ∧ q.state = .waitingForReset ∧
      q.maxMicroblocksPerSlot = p.maxMicroblocksPerSlot ∧
      q.microblocksLowerBound = p.microblocksLowerBound := by
  obtain ⟨out, hp⟩ := publishTick_ok p p.hash false ht hi
  obtain ⟨lastSlot, lastHashcnt, hs⟩ : ∃ lastSlot lastHashcnt,
      publishTick p p.hash false = .ok { p with shredOut := out, lastSlot, lastHashcnt } := by
    rw [hp]
    split
    · exact ⟨_, _, rfl⟩
    · exact ⟨_, _, rfl⟩
  obtain ⟨replayOut, he⟩ := transitionToFollower_leader
    { p with shredOut := out, lastSlot, lastHashcnt } true hl
  refine ⟨{ p with
    shredOut := out, lastSlot, lastHashcnt, replayOut, state := .waitingForReset }, ?_, rfl, rfl, rfl⟩
  unfold leaderTicked publishReachedTick tickOutOfLeader
  rw [if_pos (by rw [ha, Nat.zero_mod]), hs]
  refine (if_pos hb).trans ?_
  rw [check_of _ rfl, he]
  rfl

def Leading (p : Machine) (packed : Bool) : Prop :=
  Capacity p packed ∨ packed = true ∧ p.state ≠ .leader ∧
    p.microblocksLowerBound ≤ p.maxMicroblocksPerSlot

lemma advanceHashes_ok (sha : Sha256) (c : Capacity p packed) (hc : p.lastSlot = p.slot) (clock : Nat) :
    ∃ a, advanceHashes sha p clock = .ok a ∧ Leading a.poh packed ∧ mustTick a.poh = false := by
  obtain ⟨hy, ha, hb, _⟩ := c.target_spec clock
  have up : p.hashcnt ≤ targetHashcnt p clock :=
    Nat.le_trans (leastHashcnt_ge _ _) (c.minHashcnt_eq ▸ ha)
  have hr := c.restricted_eq
  unfold advanceHashes
  simp only [check_of _ up, check_of _ ha, check_of _ hb]
  by_cases hl : p.hashcnt = targetHashcnt p clock
  · rw [if_pos hl]
    exact ⟨_, rfl, .inl c, c.mustTick_away (hl ▸ hy)⟩
  · rw [if_neg hl]
    by_cases hd : targetHashcnt p clock = p.hashcntPerSlot
    · -- The whole slot may be hashed only when nothing is reserved any more.
      have hn : p.maxMicroblocksPerSlot - p.microblocksLowerBound = 0 := by
        rcases Nat.eq_zero_or_pos (p.maxMicroblocksPerSlot - p.microblocksLowerBound) with z | hj
        · exact z
        · have := reserve_pos p.hashcntPerTick hj
          have := c.someTicks
          have := c.ticks
          have := Nat.mul_pos c.someTicks (Nat.lt_trans Nat.one_pos c.ticks)
          have := c.slotSize
          omega
      have hw : packed = true := by
        cases packed with
        | true => rfl
        | false =>
          have := c.openSlot rfl
          omega
      obtain ⟨q, hf, hh, hm, ho⟩ := leaderTicked_end
        (p := { p with hash := sha.next^[targetHashcnt p clock - p.hashcnt] p.hash,
                       slot := p.slot + 1, hashcnt := 0 })
        c.leading (Nat.lt_trans Nat.one_pos c.ticks) c.sinceReset rfl
        (by show p.nextLeaderSlot < p.slot + 1; rw [c.here]; exact Nat.lt_succ_self _)
      refine ⟨⟨q, true, true⟩, ?_, .inr ⟨hw, by rw [hh]; decide, ?_⟩, ?_⟩
      · rw [ticked_leader _ ((hashTo_state sha p _).trans c.leading), hashTo_end sha p _ hd,
          c.remaining_eq, hn, hf]
        rfl
      · show q.microblocksLowerBound ≤ q.maxMicroblocksPerSlot
        rw [hm, ho]
        exact c.lowerBound_le
      · exact decide_eq_false fun due => State.noConfusion (hh.symm.trans due.1)
    · have hi : targetHashcnt p clock < p.hashcntPerSlot := by omega
      have ht : Capacity
          { p with hash := sha.next^[targetHashcnt p clock - p.hashcnt] p.hash,
                   hashcnt := targetHashcnt p clock } packed :=
        { c with
          room := by
            have room := c.room
            show leastHashcnt p.hashcntPerTick (targetHashcnt p clock) + reserve p.hashcntPerTick
              (p.maxMicroblocksPerSlot - p.microblocksLowerBound) ≤ p.hashcntPerSlot
            rw [leastHashcnt_away hy]
            omega
          skipping := fun he => absurd hc (Nat.ne_of_lt he)
          caughtUp := fun hs => Nat.le_trans (c.caughtUp hs) up }
      obtain ⟨q, hp, hg, he⟩ := leaderTicked_inside (maxRemainingMicroblocks p) ht hc
        (Nat.lt_of_le_of_lt (c.caughtUp hc) (Nat.lt_of_le_of_ne up hl)) hi
      refine ⟨⟨q, true, true⟩, ?_, .inl hg, he.trans (ht.mustTick_away hy)⟩
      rw [ticked_leader _ ((hashTo_state sha p _).trans c.leading), hashTo_inside sha p _ hd,
        hp]
      rfl

lemma advance_ok (sha : Sha256) (c : Capacity p packed) (clock : Nat) :
    ∃ a, advance sha p clock = .ok a ∧ Leading a.poh packed ∧
      (p.wfsPaused = false ∨ mustTick p = false → mustTick a.poh = false) := by
  unfold advance
  split
  · rename_i stopped
    refine ⟨_, rfl, .inl c, fun due => due.resolve_left fun on => ?_⟩
    rw [c.leading, on] at stopped
    revert stopped
    decide
  rw [if_neg (by rw [c.leading]; rintro ⟨⟨⟩, _⟩)]
  split
  · rename_i he
    simp only [mustPublishSkippedTick, decide_eq_true_eq] at he
    obtain ⟨q, hp, ha, hz⟩ := publishSkippedTick_ok c he.2
    exact ⟨⟨q, false, true⟩, by rw [hp]; rfl, .inl ha, fun _ => ha.mustTick_start hz⟩
  · rename_i hn
    simp only [mustPublishSkippedTick, decide_eq_true_eq, not_and] at hn
    have hc : p.lastSlot = p.slot :=
      Nat.le_antisymm c.behind (Nat.le_of_not_gt (hn c.leading))
    obtain ⟨a, ha, hl, ht⟩ := advanceHashes_ok sha c hc clock
    exact ⟨a, ha, hl, fun _ => ht⟩

lemma room_mixin (c : Capacity p false) (ha : p.hashcnt % p.hashcntPerTick ≠ p.hashcntPerTick - 1) (h : Nat)
    (hm : h = p.hashcnt ∨ h = p.hashcnt + 1) :
    leastHashcnt p.hashcntPerTick h +
      reserve p.hashcntPerTick (p.maxMicroblocksPerSlot - (p.microblocksLowerBound + 1)) ≤
      p.hashcntPerSlot := by
  have hp : 0 < p.maxMicroblocksPerSlot - p.microblocksLowerBound :=
    Nat.sub_pos_of_lt (c.openSlot rfl)
  have hr := c.room
  rw [leastHashcnt_away ha] at hr
  have hf := reserve_pred p.hashcntPerTick _ hp
  rw [← Nat.sub_sub]
  rcases hm with rfl | rfl
  · rw [leastHashcnt_away ha]
    omega
  · unfold leastHashcnt
    split_ifs with hb
    · rw [c.slotSize] at hr ⊢
      exact reserve_boundary _ _ _ _ c.ticks hp hr hb
    · omega

lemma mixin_ok (sha : Sha256) (c : Capacity p false) (hash : Hash) (txns : List TxnP) (hd : mustTick p = false)
    (hs : mustPublishSkippedTick p = false) (hu : p.microblocksLowerBound + 1 < p.maxMicroblocksPerSlot) :
    ∃ q, mixin sha p p.nextLeaderSlot hash txns = .ok q ∧ Capacity q false := by
  have ha : p.hashcnt % p.hashcntPerTick ≠ p.hashcntPerTick - 1 := by
    simp only [mustTick, decide_eq_false_iff_not, not_and, c.lastOfTick] at hd
    exact hd c.leading
  have hc : p.lastSlot = p.slot := by
    simp only [mustPublishSkippedTick, decide_eq_false_iff_not, not_and] at hs
    exact Nat.le_antisymm c.behind (Nat.le_of_not_gt (hs c.leading))
  have hh := c.caughtUp hc
  unfold mixin
  rw [check_of _ ⟨rfl, c.here.symm⟩, check_of _ (c.lastOfTick ▸ ha),
    check_of _ c.leading, check_of _ (c.openSlot rfl)]
  split
  · -- The hash after the mixin is neither a tick nor the end of the slot.
    have hn : (p.hashcnt + 1) % p.hashcntPerTick ≠ 0 := by
      have ht := c.ticks
      have := Nat.mod_lt p.hashcnt (Nat.lt_trans Nat.one_pos c.ticks)
      rw [Nat.add_mod, Nat.mod_eq_of_lt c.ticks, Nat.mod_eq_of_lt (by omega)]
      omega
    have ho : (p.hashcnt + 1) % p.hashcntPerSlot ≠ 0 := by
      intro he
      have hl := Nat.dvd_of_mod_eq_zero he
      rw [c.slotSize] at hl
      exact hn (Nat.mod_eq_zero_of_dvd (Nat.dvd_trans (Nat.dvd_mul_left _ _) hl))
    unfold mixinExecuted mixinOutOfLeader recordMixin
    rw [check_of _ (Nat.lt_succ_of_le hh)]
    simp only [if_neg ho]
    rw [if_neg (fun hb => hn hb.1)]
    unfold publishMicroblock
    refine ⟨_, check_of _ (c.here ▸ hc ▸ c.sinceReset) _, ?_⟩
    exact
      { c with
        openSlot := fun _ => hu
        closedSlot := by rintro ⟨⟩
        room := room_mixin c ha _ (.inr rfl)
        sinceReset := hc ▸ c.sinceReset
        skipping := fun hp => absurd hp (Nat.lt_irrefl _)
        behind := Nat.le_refl _
        caughtUp := fun _ => Nat.le_refl _ }
  · exact ⟨_, rfl,
      { c with
        openSlot := fun _ => hu
        closedSlot := by rintro ⟨⟩
        room := room_mixin c ha _ (.inl rfl) }⟩

lemma updateMaxMicroblocks_ok (c : Capacity p false) (newMax : Nat)
    (hl : newMax + 1 ≤ p.maxMicroblocksPerSlot) (hs : p.microblocksLowerBound ≤ newMax) :
    ∃ q, updateMaxMicroblocks p newMax = .ok q ∧ Capacity q false ∧ mustTick q = mustTick p := by
  have ht : newMax + 1 < wordSize := Nat.lt_of_le_of_lt hl c.maxFits
  have hi : (newMax + 1) % wordSize = newMax + 1 := Nat.mod_eq_of_lt ht
  have hf := reserve_mono p.hashcntPerTick
    (show newMax + 1 - p.microblocksLowerBound ≤
      p.maxMicroblocksPerSlot - p.microblocksLowerBound by omega)
  unfold updateMaxMicroblocks
  simp only [hi]
  rw [check_of _ hl, check_of _ (Nat.le_succ_of_le hs)]
  refine ⟨_, rfl, ?_, rfl⟩
  exact
    { c with
      maxFits := ht
      openSlot := fun _ => Nat.lt_succ_of_le hs
      closedSlot := by rintro ⟨⟩
      room := Nat.le_trans (Nat.add_le_add_left hf _) c.room }

lemma donePacking_ok (c : Capacity p false) (d : DonePacking)
    (hc : d.microblocksInSlot = p.microblocksLowerBound) : ∃ q, donePacking p d = .ok q ∧ Leading q true := by
  have hb := c.openSlot rfl
  have hm := c.maxFits
  unfold donePacking
  rw [check_of _ c.leading, check_of _ hc.symm,
    check_of _ (Nat.le_of_lt hb)]
  by_cases ha : d.endSlotReason = .abandoned
  · rw [if_pos ha]
    obtain ⟨out, hl⟩ := transitionToFollower_leader { p with pack := d } false c.leading
    exact ⟨_, hl, .inr ⟨rfl, State.noConfusion, c.lowerBound_le⟩⟩
  · rw [if_neg ha]
    have hf : wsub ((p.microblocksLowerBound + 1 + wsub p.maxMicroblocksPerSlot 1) % wordSize)
        d.microblocksInSlot = p.maxMicroblocksPerSlot := by
      rw [wsub_of_le (by omega) hm, hc,
        show p.microblocksLowerBound + 1 + (p.maxMicroblocksPerSlot - 1) =
          p.microblocksLowerBound + p.maxMicroblocksPerSlot by omega]
      exact wsub_add_mod (by omega) hm
    simp only [hf]
    rw [check_of _ trivial]
    refine ⟨_, rfl, .inl ?_⟩
    exact
      { c with
        openSlot := by rintro ⟨⟩
        closedSlot := fun _ => rfl
        room := Nat.le_trans (Nat.add_le_add_left (reserve_mono _ (by
          show p.maxMicroblocksPerSlot - p.maxMicroblocksPerSlot ≤ _
          omega)) _) c.room }

end Firebam.Poh
