import Firebam.Poh.Operations

/-! How a leader slot is entered: from the reset that precedes it, over the wait for the bank
and for the slot, to the first hash of the slot. -/
namespace Firebam.Poh
open Lib

variable {b : BecameLeader} {clock : Nat} {p q : Machine} {sha : Sha256} {r : Reset} {a : Advanced}

structure Waiting (p : Machine) : Prop where
  lastSlot : p.lastSlot = p.resetSlot
  lastHashcnt : p.lastHashcnt = 0
  sinceReset : p.resetSlot ≤ p.slot
  waiting : p.state = .follower ∧ p.slot ≠ p.nextLeaderSlot ∨
    p.state = .waitingForBank ∧ p.slot = p.nextLeaderSlot ∧ p.hashcnt = 0 ∨
    p.state = .waitingForSlot ∧ p.slot < p.nextLeaderSlot ∨
    p.state = .leader ∧ p.slot = p.nextLeaderSlot ∧ p.hashcnt = 0

lemma reset_waiting (h : reset p r = .ok q) : Waiting q := by
  have hp := reset_spec h
  have hs := hp.state
  refine ⟨?_, hp.lastHashcnt, ?_, ?_⟩
  · rw [hp.lastSlot, hp.resetSlot]
  · exact Nat.le_of_eq (hp.resetSlot.trans hp.slot.symm)
  · split at hs
    · rename_i ho
      exact .inr (.inl ⟨hs, ho, hp.hashcnt⟩)
    · rename_i hb
      exact .inl ⟨hs, hb⟩

lemma hashTo_slot (sha : Sha256) (p : Machine) (target : Nat) :
    (hashTo sha p target).lastSlot = p.lastSlot ∧
    (hashTo sha p target).lastHashcnt = p.lastHashcnt ∧
    ((hashTo sha p target).slot = p.slot ∨
      (hashTo sha p target).slot = p.slot + 1 ∧ (hashTo sha p target).hashcnt = 0) := by
  unfold hashTo
  dsimp only
  split
  · exact ⟨rfl, rfl, .inr ⟨rfl, rfl⟩⟩
  · exact ⟨rfl, rfl, .inl rfl⟩

lemma followerTicked_waiting {target : Nat} (w : Waiting p) (hi : p.state = .follower ∨ p.state = .waitingForSlot)
    (hd : followerTicked (hashTo sha p target) = .ok q) : Waiting q := by
  obtain ⟨hm, ho, hh, hq, hv, hp, hn⟩ := followerTicked_spec hd
  obtain ⟨_, _, _, hu, _, _, hj⟩ := ((hashTo_hashed sha p target).trans hm).fields
  obtain ⟨_, _, _, hf, _, _, _⟩ := (hashTo_hashed sha p target).fields
  obtain ⟨hg, hc, ha⟩ := hashTo_slot sha p target
  rw [hashTo_state] at hn
  have ht := w.sinceReset
  refine ⟨?_, ?_, ?_, ?_⟩
  · rw [hq, hg, hj]
    exact w.lastSlot
  · rw [hv, hc]
    exact w.lastHashcnt
  · rw [hj, ho]
    rcases ha with hs | ⟨hl, _⟩ <;> omega
  · -- The slot only moves by one, so it is reached exactly when it is rolled over to.
    rw [hf] at hn hp
    rw [hu, ho, hh]
    have hb : p.slot ≠ p.nextLeaderSlot := by
      rcases w.waiting with ⟨_, ne⟩ | ⟨hk, _⟩ | ⟨_, lt⟩ | ⟨he, _⟩
      · exact ne
      · rcases hi with h | h <;> rw [h] at hk <;> cases hk
      · exact Nat.ne_of_lt lt
      · rcases hi with h | h <;> rw [h] at he <;> cases he
    by_cases hr : (hashTo sha p target).slot = p.nextLeaderSlot
    · rw [if_pos hr] at hn
      have hz : (hashTo sha p target).hashcnt = 0 := by
        rcases ha with hs | ⟨_, hz⟩
        · exact absurd (hs.symm.trans hr) hb
        · exact hz
      rcases hi with h | h
      · rw [h, if_pos rfl] at hn
        exact .inr (.inl ⟨hn, hr, hz⟩)
      · rw [h, if_neg (by decide)] at hn
        exact .inr (.inr (.inr ⟨hn, hr, hz⟩))
    · rw [if_neg hr] at hn
      rcases hi with h | h
      · exact .inl ⟨hn.trans h, hr⟩
      · exact .inr (.inr (.inl ⟨hn.trans h, by omega⟩))

lemma advance_waiting (w : Waiting p) (ho : p.state ≠ .leader) (hd : advance sha p clock = .ok a) : Waiting a.poh := by
  obtain hs | ⟨hp, _⟩ | ⟨_, _, hn, _, hm⟩ := advance_cases hd
  · exact hs ▸ w
  · simp only [mustPublishSkippedTick, decide_eq_true_eq] at hp
    exact absurd hp.1 ho
  · rcases w.waiting with ⟨h, _⟩ | ⟨h, _⟩ | ⟨h, _⟩ | ⟨h, _⟩
    · unfold ticked at hm
      rw [hashTo_state, h] at hm
      exact followerTicked_waiting w (.inl h) hm
    · exact absurd h hn
    · unfold ticked at hm
      rw [hashTo_state, h] at hm
      exact followerTicked_waiting w (.inr h) hm
    · exact absurd h ho

structure Announced (b : BecameLeader) (p : Machine) : Prop where
  slot : p.nextLeaderSlot = b.slot
  hashcntPerTick : p.hashcntPerTick = b.hashcntPerTick
  ticksPerSlot : p.ticksPerSlot = b.ticksPerSlot
  hashcntPerSlot : p.hashcntPerSlot = b.ticksPerSlot * b.hashcntPerTick
  maxMicroblocks : p.maxMicroblocksPerSlot = b.maxMicroblocksInSlot + 1
  lowerBound : p.microblocksLowerBound = 0

structure Room (b : BecameLeader) : Prop where
  ticks : 1 < b.hashcntPerTick
  fits : b.ticksPerSlot * b.hashcntPerTick < ulongMax
  room : b.maxMicroblocksInSlot + 1 ≤ b.ticksPerSlot * (b.hashcntPerTick - 1)

lemma Room.someTicks (r : Room b) : 0 < b.ticksPerSlot := by
  have hr := r.room
  rcases Nat.eq_zero_or_pos b.ticksPerSlot with hz | hp
  · rw [hz, Nat.zero_mul] at hr
    omega
  · exact hp

lemma Room.perTick_lt (r : Room b) : b.hashcntPerTick < ulongMax :=
  Nat.lt_of_le_of_lt (Nat.le_mul_of_pos_left _ r.someTicks) r.fits

lemma Room.slot_lt (r : Room b) : b.ticksPerSlot * b.hashcntPerTick < wordSize :=
  Nat.lt_of_lt_of_le r.fits (Nat.sub_le _ _)

lemma Room.max_lt (r : Room b) : b.maxMicroblocksInSlot + 1 < wordSize :=
  Nat.lt_of_le_of_lt (Nat.le_trans r.room (Nat.mul_le_mul_left _ (Nat.sub_le _ _))) r.slot_lt

lemma reserve_le_slot (T N M : Nat) (ht : 1 < T) (hr : M ≤ N * (T - 1)) : reserve T M ≤ N * T := by
  have hs : (M + T - 2) / (T - 1) ≤ N := by
    have hb : M + T - 2 < (N + 1) * (T - 1) := by
      rw [Nat.add_mul]
      omega
    exact Nat.le_of_lt_succ (Nat.div_lt_of_lt_mul (by rwa [Nat.mul_comm]))
  have hi : N * T = N * (T - 1) + N := by
    rw [← Nat.mul_succ, Nat.succ_eq_add_one, Nat.sub_add_cancel (Nat.le_of_lt ht)]
  unfold reserve
  omega

lemma capacity_of_entry (w : Waiting p) (a : Announced b p)
    (r : Room b) (leading : p.state = .leader) : Capacity p false ∧ mustTick p = false := by
  have he : p.slot = p.nextLeaderSlot ∧ p.hashcnt = 0 := by
    rcases w.waiting with ⟨h, _⟩ | ⟨h, _⟩ | ⟨h, _⟩ | ⟨_, he⟩
    · rw [leading] at h
      cases h
    · rw [leading] at h
      cases h
    · rw [leading] at h
      cases h
    · exact he
  have ticks := r.ticks
  suffices c : Capacity p false from ⟨c, c.mustTick_start he.2⟩
  exact
    { leading
      here := he.1
      ticks := by rw [a.hashcntPerTick]; exact ticks
      someTicks := by rw [a.ticksPerSlot]; exact r.someTicks
      slotSize := by rw [a.hashcntPerSlot, a.ticksPerSlot, a.hashcntPerTick]
      fits := by rw [a.hashcntPerSlot]; exact r.slot_lt
      maxFits := by rw [a.maxMicroblocks]; exact r.max_lt
      openSlot := fun _ => by rw [a.lowerBound, a.maxMicroblocks]; exact Nat.succ_pos _
      closedSlot := by rintro ⟨⟩
      room := by
        rw [he.2, leastHashcnt_away (by rw [a.hashcntPerTick, Nat.zero_mod]; omega),
          a.lowerBound, a.maxMicroblocks, a.hashcntPerTick, a.hashcntPerSlot, Nat.zero_add]
        exact reserve_le_slot _ _ _ ticks r.room
      sinceReset := Nat.le_of_eq w.lastSlot.symm
      skipping := fun _ => by
        rw [w.lastHashcnt, a.hashcntPerSlot]
        exact ⟨he.2, Nat.dvd_zero _, Nat.mul_pos r.someTicks (by omega)⟩
      behind := by rw [w.lastSlot]; exact w.sinceReset
      caughtUp := fun _ => by rw [w.lastHashcnt]; exact Nat.zero_le _ }

lemma beginLeader_waiting (c : Configured p) (w : Waiting p)
    (r : Room b) (h : beginLeader p b = .ok q) : Waiting q ∧ Announced b q := by
  obtain ⟨hd, hs, ht, ha, m, hc, rfl⟩ := beginLeader_spec h
  have hm : (b.maxMicroblocksInSlot + 1) % wordSize = b.maxMicroblocksInSlot + 1 :=
    Nat.mod_eq_of_lt r.max_lt
  obtain ⟨rfl, hp⟩ | ⟨_, _, rfl⟩ := updateHashesPerTick_spec hc
  · have hi : p.hashcntPerSlot = b.ticksPerSlot * b.hashcntPerTick := by
      have hk : p.hashcntPerTick ≠ ulongMax := by
        have := r.perTick_lt
        dsimp only at hp
        omega
      rw [c.1 hk, show p.hashcntPerTick = b.hashcntPerTick from hp, ← ht,
        Nat.mod_eq_of_lt r.slot_lt]
    refine ⟨⟨w.lastSlot, w.lastHashcnt, w.sinceReset, ?_⟩,
      ⟨hs.symm, hp, ht.symm, hi, hm, rfl⟩⟩
    by_cases hb : p.slot < p.nextLeaderSlot
    · exact .inr (.inr (.inl ⟨if_pos hb, hb⟩))
    · have hr : p.slot = p.nextLeaderSlot := Nat.le_antisymm ha (Nat.le_of_not_gt hb)
      rcases w.waiting with ⟨_, ne⟩ | ⟨_, _, hz⟩ | ⟨_, lt⟩ | ⟨_, _, hz⟩
      · exact absurd hr ne
      · exact .inr (.inr (.inr ⟨if_neg hb, hr, hz⟩))
      · exact absurd lt hb
      · exact .inr (.inr (.inr ⟨if_neg hb, hr, hz⟩))
  · refine ⟨⟨w.lastSlot, w.lastHashcnt, Nat.le_refl _, ?_⟩,
      ⟨hs.symm, rfl, ht.symm, ?_, hm, rfl⟩⟩
    · by_cases hb : p.resetSlot < p.nextLeaderSlot
      · exact .inr (.inr (.inl ⟨if_pos hb, hb⟩))
      · exact .inr (.inr (.inr
          ⟨if_neg hb, Nat.le_antisymm ha (Nat.le_of_not_gt hb), rfl⟩))
    · show (p.ticksPerSlot * b.hashcntPerTick) % wordSize = _
      rw [← ht, Nat.mod_eq_of_lt r.slot_lt]

def Idle (p : Machine) : Prop := p.state = .follower ∨ p.state = .waitingForBank

lemma Idle.not_leader (hi : Idle p) : p.state ≠ .leader := by
  rcases hi with h | h <;> rw [h] <;> decide

lemma advance_idle (hi : Idle p) (hd : advance sha p clock = .ok a) : Idle a.poh := by
  obtain hs | ⟨hp, _⟩ | ⟨_, _, hn, _, hm⟩ := advance_cases hd
  · exact hs ▸ hi
  · simp only [mustPublishSkippedTick, decide_eq_true_eq] at hp
    exact absurd hp.1 hi.not_leader
  · rcases hi with h | h
    · unfold ticked at hm
      rw [hashTo_state, h] at hm
      have ht := (followerTicked_spec hm).2.2.2.2.2.2
      rw [hashTo_state, h, if_pos rfl] at ht
      split at ht
      · exact .inr ht
      · exact .inl ht
    · exact absurd h hn

lemma advance_following (c : Configured p)
    (w : Waiting p) (hi : Idle p) (h : step sha p (.advance clock) = .ok q) : Configured q ∧ Waiting q ∧ Idle q := by
  have hc := step_configured c h
  obtain ⟨a, ha, ho⟩ := bind_ok.mp h
  cases ho
  exact ⟨hc, advance_waiting w hi.not_leader ha, advance_idle hi ha⟩

def Entering (b : BecameLeader) (p : Machine) : Prop :=
  Waiting p ∧ Announced b p ∧ p.state ≠ .leader ∨ Capacity p false ∧ mustTick p = false

lemma advance_entering (r : Room b) (e : Entering b p) (h : step sha p (.advance clock) = .ok q) : Entering b q := by
  obtain ⟨a, hd, hu⟩ := bind_ok.mp h
  cases hu
  rcases e with ⟨w, ha, hn⟩ | ⟨c, due⟩
  · have hw := advance_waiting w hn hd
    obtain ⟨hk, ht, hp, he, hm, ho, _⟩ := (advance_hashed hd).fields
    have hs : Announced b a.poh :=
      ⟨he.trans ha.slot, hk.trans ha.hashcntPerTick,
        ht.trans ha.ticksPerSlot, hp.trans ha.hashcntPerSlot,
        hm.trans ha.maxMicroblocks, ho.trans ha.lowerBound⟩
    by_cases hl : a.poh.state = .leader
    · exact .inr (capacity_of_entry hw hs r hl)
    · exact .inl ⟨hw, hs, hl⟩
  · obtain ⟨a', hv, hl, taken⟩ := advance_ok sha c clock
    rw [hd] at hv
    cases hv
    rcases hl with hc | ⟨hi, _⟩
    · exact .inr ⟨hc, taken (.inr due)⟩
    · cases hi

lemma run_advances_preserves (Inv : Machine → Prop)
    (hk : ∀ p clock q, Inv p → step sha p (.advance clock) = .ok q → Inv q) {clocks : List Nat} (hs : Inv p)
    (h : run (step sha) p (clocks.map Op.advance) = .ok q) : Inv q := by
  induction clocks generalizing p with
  | nil => cases h; exact hs
  | cons clock clocks ih =>
    obtain ⟨m, hm, hr⟩ := (run_cons_ok (step sha)).mp h
    exact ih (hk p clock m hs hm) hr

def upToLeader (history : List Op) (r : Reset) (early : List Nat) (b : BecameLeader)
    (late : List Nat) : List Op :=
  history ++ (Op.reset r :: (early.map Op.advance ++ (Op.beginLeader b :: late.map Op.advance)))

lemma leader_entered {history : List Op} {early late : List Nat} (hr : Room b)
    (hd : run (step sha) Machine.new (upToLeader history r early b late) = .ok p)
    (hl : p.state = .leader) : Capacity p false ∧ mustTick p = false := by
  obtain ⟨p0, hp, hd⟩ := (run_append_ok (step sha)).mp hd
  obtain ⟨p1, hj, hd⟩ := (run_cons_ok (step sha)).mp hd
  obtain ⟨p2, hh, hd⟩ := (run_append_ok (step sha)).mp hd
  obtain ⟨p3, hb, hd⟩ := (run_cons_ok (step sha)).mp hd
  have hc : Configured p1 := step_configured (history_configured hp) hj
  have hw : Waiting p1 := by
    obtain ⟨m, hg, ho⟩ := bind_ok.mp hj
    cases ho
    obtain ⟨hm, ht, hi, hw⟩ := reset_waiting hg
    exact ⟨hm, ht, hi, hw⟩
  have hk : Idle p1 := by
    obtain ⟨m, hg, ho⟩ := bind_ok.mp hj
    cases ho
    have hs := (reset_spec hg).state
    split at hs
    · exact .inr hs
    · exact .inl hs
  have hf : Configured p2 ∧ Waiting p2 ∧ Idle p2 :=
    run_advances_preserves (fun p => Configured p ∧ Waiting p ∧ Idle p)
      (fun _ _ _ hv h => advance_following hv.1 hv.2.1 hv.2.2 h) ⟨hc, hw, hk⟩ hh
  obtain ⟨waiting3, ha⟩ := beginLeader_waiting hf.1 hf.2.1 hr hb
  have he : Entering b p3 := by
    by_cases leading3 : p3.state = .leader
    · exact .inr (capacity_of_entry waiting3 ha hr leading3)
    · exact .inl ⟨waiting3, ha, leading3⟩
  rcases run_advances_preserves (Entering b) (fun _ _ _ e h => advance_entering hr e h)
    he hd with ⟨_, _, hn⟩ | hy
  · exact absurd hl hn
  · exact hy

end Firebam.Poh
