import Firebam.Poh.Tile

/-! Who holds the leader bank: how each operation of the machine gains, keeps or ends it. -/
namespace Firebam.Poh
open Lib

variable {hash : Hash} {p q : Machine} {sha : Sha256} {completed : Bool} {perTick slot : Nat} {r : Reset}
  {b : BecameLeader} {txns : List TxnP}

lemma haveLeaderBank_iff (p : Machine) : haveLeaderBank p = true ↔ p.state = .waitingForSlot ∨ p.state = .leader := by
  simp [haveLeaderBank]

lemma haveLeaderBank_false (p : Machine) :
    haveLeaderBank p = false ↔ p.state ≠ .waitingForSlot ∧ p.state ≠ .leader := by
  simp [haveLeaderBank]

lemma transitionToFollower_noBank (hn : haveLeaderBank p = false) (h : transitionToFollower p completed = .ok q) :
    q = { p with state := .follower } := by
  obtain ⟨hs, hl⟩ := (haveLeaderBank_false p).mp hn
  unfold transitionToFollower at h
  rw [check_ok, check_ok] at h
  obtain ⟨_, _, ho⟩ := h
  cases ho
  simp [hs, hl]

lemma transitionToFollower_bank (hl : p.state = .leader) (h : transitionToFollower p completed = .ok q) :
    q.state = .follower ∧ q.replayOut.length = p.replayOut.length + 1 := by
  unfold transitionToFollower at h
  rw [check_ok, check_ok] at h
  obtain ⟨_, _, ho⟩ := h
  cases ho
  simp [hl]

lemma updateHashesPerTick_keeps (h : updateHashesPerTick p perTick = .ok q) :
    q.state = p.state ∧ q.replayOut = p.replayOut ∧ q.hashcntPerTick = perTick ∧
      q.nextLeaderSlot = p.nextLeaderSlot ∧ q.maxMicroblocksPerSlot = p.maxMicroblocksPerSlot := by
  obtain ⟨rfl, hs⟩ | ⟨_, _, rfl⟩ := updateHashesPerTick_spec h
  · exact ⟨rfl, rfl, hs, rfl, rfl⟩
  · exact ⟨rfl, rfl, rfl, rfl, rfl⟩

lemma reset_noBank (hn : haveLeaderBank p = false)
    (h : reset p r = .ok q) : haveLeaderBank q = false ∧ q.replayOut = p.replayOut ∧
      q.hashcntPerTick = r.hashcntPerTick := by
  have hp := reset_spec h
  have hs := hp.state
  refine ⟨?_, ?_, hp.hashcntPerTick⟩
  · rw [haveLeaderBank_false, hs]
    split <;> decide
  · obtain ⟨ho, he⟩ := (haveLeaderBank_false p).mp hn
    obtain ⟨_, h⟩ := check_ok.mp h
    obtain ⟨_, h⟩ := check_ok.mp h
    obtain ⟨m, hc, h⟩ := bind_ok.mp h
    obtain ⟨f, hl, h⟩ := bind_ok.mp h
    obtain ⟨hm, ht, _⟩ := updateHashesPerTick_keeps hc
    have hk : f.replayOut = p.replayOut := by
      have hf : (firstReset (resetFields p r) r).replayOut = p.replayOut := by
        unfold firstReset
        split <;> rfl
      have hi : haveLeaderBank { m with microblocksLowerBound := m.maxMicroblocksPerSlot }
          = false := by
        rw [haveLeaderBank_false, show ({ m with microblocksLowerBound :=
          m.maxMicroblocksPerSlot } : Machine).state = _ from hm]
        unfold firstReset
        split
        · exact ⟨State.noConfusion, State.noConfusion⟩
        · exact ⟨ho, he⟩
      unfold leaveForReset at hl
      split at hl
      · rw [transitionToFollower_noBank hi hl]
        exact ht.trans hf
      · cases hl
        exact ht.trans hf
    have hr := (Except.ok.inj h).symm
    rw [hr]
    split
    · exact hk
    · exact hk

lemma beginLeader_bank (h : beginLeader p b = .ok q) :
    haveLeaderBank q = true ∧ q.replayOut = p.replayOut ∧
      q.hashcntPerTick = b.hashcntPerTick ∧ q.microblocksLowerBound = 0 ∧
      q.maxMicroblocksPerSlot = (b.maxMicroblocksInSlot + 1) % wordSize := by
  obtain ⟨_, _, _, _, m, hc, rfl⟩ := beginLeader_spec h
  obtain ⟨_, ho, hp, _, hm⟩ := updateHashesPerTick_keeps hc
  refine ⟨?_, ho, hp, rfl, hm⟩
  rw [haveLeaderBank_iff]
  split
  · exact .inl rfl
  · exact .inr rfl

lemma publishTick_keeps {isSkipped : Bool} (h : publishTick p hash isSkipped = .ok q) :
    q.state = p.state ∧ q.replayOut = p.replayOut ∧ q.slot = p.slot := by
  unfold publishTick at h
  rw [check_ok, check_ok] at h
  obtain ⟨_, _, hp⟩ := h
  cases hp
  split <;> exact ⟨rfl, rfl, rfl⟩

lemma leaderTicked_bank {remaining : Nat} (hl : p.state = .leader) (h : leaderTicked p remaining = .ok q) :
    q.state = .leader ∧ q.replayOut = p.replayOut ∨
    remaining = 0 ∧ haveLeaderBank q = false ∧ q.replayOut.length = p.replayOut.length + 1 := by
  obtain ⟨m, hp, hr⟩ := bind_ok.mp h
  have hf : m.state = p.state ∧ m.replayOut = p.replayOut := by
    unfold publishReachedTick at hp
    split at hp
    · obtain ⟨hs, ho, _⟩ := publishTick_keeps hp
      exact ⟨hs, ho⟩
    · cases hp
      exact ⟨rfl, rfl⟩
  unfold tickOutOfLeader at hr
  split at hr
  · obtain ⟨hn, hr⟩ := check_ok.mp hr
    obtain ⟨f, ht, ho⟩ := bind_ok.mp hr
    obtain ⟨_, he⟩ := transitionToFollower_bank (hf.1.trans hl) ht
    cases ho
    refine .inr ⟨hn, rfl, ?_⟩
    rw [← hf.2]
    exact he
  · cases hr
    exact .inl ⟨hf.1.trans hl, hf.2⟩

lemma followerTicked_bank (h : followerTicked p = .ok q) : q.replayOut = p.replayOut := by
  obtain ⟨m, hs, hr⟩ := bind_ok.mp h
  obtain ⟨_, ho⟩ := check_ok.mp hr
  have hf : m.replayOut = p.replayOut := by
    unfold saveSkippedTick at hs
    split at hs
    · obtain ⟨_, ht⟩ := check_ok.mp hs
      cases ht
      rfl
    · cases hs
      rfl
  cases ho
  split
  · exact hf
  · exact hf

lemma hashTo_keeps (sha : Sha256) (p : Machine) (target : Nat) : (hashTo sha p target).replayOut = p.replayOut := by
  unfold hashTo
  dsimp only
  split <;> rfl

lemma advance_bank {clock : Nat} {a : Advanced} (h : advance sha p clock = .ok a) :
    haveLeaderBank a.poh = haveLeaderBank p ∧ a.poh.replayOut = p.replayOut ∨
    p.state = .leader ∧ maxRemainingMicroblocks p = 0 ∧ haveLeaderBank a.poh = false ∧
      a.poh.replayOut.length = p.replayOut.length + 1 := by
  obtain hs | ⟨_, hd⟩ | ⟨hn, ho, hh, _, hm⟩ := advance_cases h
  · rw [hs]
    exact .inl ⟨rfl, rfl⟩
  · unfold publishSkippedTick at hd
    rw [check_ok, check_ok] at hd
    obtain ⟨ht, hu, _⟩ := publishTick_keeps hd.2.2
    exact .inl ⟨by rw [haveLeaderBank, haveLeaderBank, ht], hu⟩
  · have ht := hashTo_state sha p (targetHashcnt p clock)
    have hu := hashTo_keeps sha p (targetHashcnt p clock)
    cases hb : p.state with
    | uninit => exact absurd hb hn
    | waitingForReset => exact absurd hb ho
    | waitingForBank => exact absurd hb hh
    | leader =>
      rw [ticked_leader _ (ht.trans hb)] at hm
      obtain ⟨hl, hk⟩ | ⟨ha, hg, he⟩ :=
        leaderTicked_bank (ht.trans hb) hm
      · exact .inl ⟨by rw [haveLeaderBank, haveLeaderBank, hl, hb], hk.trans hu⟩
      · exact .inr ⟨rfl, ha, hg, by rw [he, hu]⟩
    | follower | waitingForSlot =>
      unfold ticked at hm
      rw [ht, hb] at hm
      have hx := (followerTicked_spec hm).2.2.2.2.2.2
      rw [ht, hb] at hx
      refine .inl ⟨?_, (followerTicked_bank hm).trans hu⟩
      rw [haveLeaderBank, haveLeaderBank, hx, hb]
      split <;> rfl

lemma updateMaxMicroblocks_bank {newMax : Nat} (h : updateMaxMicroblocks p newMax = .ok q) :
    q = { p with maxMicroblocksPerSlot := (newMax + 1) % wordSize } := by
  unfold updateMaxMicroblocks at h
  rw [check_ok, check_ok] at h
  exact (Except.ok.inj h.2.2).symm

lemma donePacking_bank {d : DonePacking} (h : donePacking p d = .ok q) :
    p.state = .leader ∧ SameClock p q ∧
    (q.state = .leader ∧ q.replayOut = p.replayOut ∨
      haveLeaderBank q = false ∧ q.replayOut.length = p.replayOut.length + 1) := by
  have hc := donePacking_sameClock h
  unfold donePacking at h
  rw [check_ok, check_ok, check_ok] at h
  obtain ⟨hl, _, _, h⟩ := h
  refine ⟨hl, hc, ?_⟩
  split at h
  · obtain ⟨hs, he⟩ := transitionToFollower_bank
      (show ({ p with pack := d } : Machine).state = .leader from hl) h
    exact .inr ⟨by rw [haveLeaderBank, hs]; rfl, he⟩
  · obtain ⟨_, h⟩ := check_ok.mp h
    cases h
    exact .inl ⟨hl, rfl⟩

def WholeTicks (p : Machine) : Prop :=
  p.hashcntPerTick < wordSize ∧ p.hashcntPerTick ∣ p.hashcntPerSlot

section
variable (w : WholeTicks p)
include w

lemma WholeTicks.of_same
    (hp : q.hashcntPerTick = p.hashcntPerTick) (he : q.hashcntPerSlot = p.hashcntPerSlot) : WholeTicks q := by
  unfold WholeTicks
  rw [hp, he]
  exact w

lemma updateHashesPerTick_wholeTicks (hf : p.ticksPerSlot * perTick < wordSize) (hs : perTick < wordSize)
    (h : updateHashesPerTick p perTick = .ok q) : WholeTicks q := by
  obtain ⟨rfl, _⟩ | ⟨_, _, rfl⟩ := updateHashesPerTick_spec h
  · exact w
  · refine ⟨hs, ?_⟩
    show perTick ∣ (p.ticksPerSlot * perTick) % wordSize
    rw [Nat.mod_eq_of_lt hf]
    exact Nat.dvd_mul_left _ _

lemma reset_wholeTicks (hf : r.ticksPerSlot * r.hashcntPerTick < wordSize) (hm : r.hashcntPerTick < wordSize)
    (h : reset p r = .ok q) : WholeTicks q := by
  have hp := reset_spec h
  unfold WholeTicks
  rw [hp.hashcntPerTick]
  refine ⟨hm, ?_⟩
  obtain ⟨hs, size⟩ | size := hp.hashcntPerSlot
  · rw [size, ← hs]
    exact w.2
  · rw [size, Nat.mod_eq_of_lt hf]
    exact Nat.dvd_mul_left _ _

lemma beginLeader_wholeTicks (hf : b.ticksPerSlot * b.hashcntPerTick < wordSize)
    (hs : b.hashcntPerTick < wordSize) (h : beginLeader p b = .ok q) : WholeTicks q := by
  obtain ⟨_, _, ht, _, m, hc, rfl⟩ := beginLeader_spec h
  have hw : WholeTicks m := updateHashesPerTick_wholeTicks
    (p := { p with maxMicroblocksPerSlot := (b.maxMicroblocksInSlot + 1) % wordSize }) w
    (ht ▸ hf) hs hc
  exact hw

lemma mixin_off_boundary (ha : p.hashcnt % p.hashcntPerTick ≠ wsub p.hashcntPerTick 1) :
    (p.hashcnt + 1) % p.hashcntPerTick ≠ 0 ∧ (p.hashcnt + 1) % p.hashcntPerSlot ≠ 0 := by
  have hn : (p.hashcnt + 1) % p.hashcntPerTick ≠ 0 := by
    rcases Nat.eq_zero_or_pos p.hashcntPerTick with hz | hp
    · rw [hz, Nat.mod_zero]
      exact Nat.succ_ne_zero _
    · rw [wsub_of_le hp w.1] at ha
      have := Nat.mod_lt p.hashcnt hp
      have hs : p.hashcnt % p.hashcntPerTick + 1 < p.hashcntPerTick := by omega
      rw [← Nat.mod_add_mod, Nat.mod_eq_of_lt hs]
      exact Nat.succ_ne_zero _
  refine ⟨hn, fun he => hn ?_⟩
  exact Nat.mod_eq_zero_of_dvd (Nat.dvd_trans w.2 (Nat.dvd_of_mod_eq_zero he))

end

lemma mixinExecuted_bank (hn : (p.hashcnt + 1) % p.hashcntPerTick ≠ 0)
    (ho : (p.hashcnt + 1) % p.hashcntPerSlot ≠ 0) (h : mixinExecuted sha p slot hash txns = .ok q) :
    q.state = p.state ∧ q.replayOut = p.replayOut := by
  obtain ⟨_, h⟩ := check_ok.mp h
  obtain ⟨m, hl, h⟩ := bind_ok.mp h
  obtain ⟨_, h⟩ := check_ok.mp h
  cases h
  unfold recordMixin mixinOutOfLeader at hl
  rw [if_neg ho] at hl
  rw [if_neg (fun hb => hn hb.1)] at hl
  cases hl
  exact ⟨rfl, rfl⟩

lemma mixin_bank (w : WholeTicks p) (h : mixin sha p slot hash txns = .ok q) :
    p.state = .leader ∧ q.state = .leader ∧ q.replayOut = p.replayOut ∧ WholeTicks q ∧
      q.maxMicroblocksPerSlot = p.maxMicroblocksPerSlot ∧
      q.microblocksLowerBound = p.microblocksLowerBound + 1 := by
  obtain ⟨he, _, hp, _⟩ := mixin_sameClock h
  have hw := w.of_same he hp
  unfold mixin at h
  rw [check_ok, check_ok, check_ok, check_ok] at h
  obtain ⟨_, ha, hl, _, h⟩ := h
  obtain ⟨hn, hd⟩ := mixin_off_boundary w ha
  split at h
  · obtain ⟨_, _, _, _, hm, ho, _⟩ := (mixinExecuted_hashed h).1.fields
    obtain ⟨hs, hu⟩ := mixinExecuted_bank
      (p := { p with microblocksLowerBound := p.microblocksLowerBound + 1 }) hn hd h
    exact ⟨hl, hs.trans hl, hu, hw, hm, ho⟩
  · cases h
    exact ⟨hl, hl, rfl, hw, rfl, rfl⟩

end Firebam.Poh
