import Firebam.Poh.Capacity

/-! The public operations as one step function, and what each of them can change. -/
namespace Firebam.Poh
open Lib Except

variable {p q : Machine} {sha : Sha256} {hash : Hash} {remaining clock slot : Nat} {a : Advanced} {txns : List TxnP}

inductive Op where
  | reset (r : Reset)
  | beginLeader (b : BecameLeader)
  | advance (clock : Nat)
  | mixin (slot : Nat) (hash : Hash) (txns : List TxnP)
  | updateMaxMicroblocks (newMax : Nat)
  | donePacking (d : DonePacking)
  | wfsDone

def step (sha : Sha256) (p : Machine) : Op → Except Fault Machine
  | .reset r => do
    let p ← reset p r
    return { p with wfsPaused := r.wfsPaused }
  | .beginLeader b => beginLeader p b
  | .advance clock => do
    let a ← advance sha p clock
    return a.poh
  | .mixin slot hash txns => mixin sha p slot hash txns
  | .updateMaxMicroblocks newMax => updateMaxMicroblocks p newMax
  | .donePacking d => donePacking p d
  | .wfsDone => .ok (wfsDone p)

def Hashed (p q : Machine) : Prop :=
  q = { p with
    state := q.state, slot := q.slot, hashcnt := q.hashcnt, hash := q.hash
    lastSlot := q.lastSlot, lastHashcnt := q.lastHashcnt
    skippedTickHashes := q.skippedTickHashes, shredOut := q.shredOut, replayOut := q.replayOut }

lemma Hashed.refl (p : Machine) : Hashed p p := rfl

lemma Hashed.trans {r : Machine} (pq : Hashed p q) (qr : Hashed q r) : Hashed p r := by
  unfold Hashed at *
  rw [qr, pq]

lemma publishTick_hashed {isSkipped : Bool}
    (h : publishTick p hash isSkipped = .ok q) : Hashed p q ∧ q.state = p.state ∧
      q.slot = p.slot ∧ q.hashcnt = p.hashcnt := by
  unfold publishTick at h
  rw [check_ok, check_ok] at h
  obtain ⟨_, _, hp⟩ := h
  cases hp
  split <;> exact ⟨rfl, rfl, rfl, rfl⟩

lemma hashTo_hashed (sha : Sha256) (p : Machine) (target : Nat) : Hashed p (hashTo sha p target) := by
  unfold hashTo
  dsimp only
  split <;> rfl

lemma transitionToFollower_hashed {completed : Bool}
    (h : transitionToFollower p completed = .ok q) : Hashed p q ∧ q.state = .follower ∧
      q.slot = p.slot := by
  unfold transitionToFollower at h
  rw [check_ok, check_ok] at h
  obtain ⟨_, _, hl⟩ := h
  cases hl
  exact ⟨rfl, rfl, rfl⟩

lemma leaderTicked_hashed (h : leaderTicked p remaining = .ok q) : Hashed p q := by
  obtain ⟨m, hp, hr⟩ := bind_ok.mp h
  have hf : Hashed p m := by
    unfold publishReachedTick at hp
    split at hp
    · exact (publishTick_hashed hp).1
    · cases hp
      exact Hashed.refl _
  unfold tickOutOfLeader at hr
  split at hr
  · obtain ⟨_, hr⟩ := check_ok.mp hr
    obtain ⟨f, hl, ho⟩ := bind_ok.mp hr
    cases ho
    exact hf.trans ((transitionToFollower_hashed hl).1.trans rfl)
  · cases hr
    exact hf

lemma followerTicked_spec (h : followerTicked p = .ok q) :
    Hashed p q ∧ q.slot = p.slot ∧ q.hashcnt = p.hashcnt ∧ q.lastSlot = p.lastSlot ∧
      q.lastHashcnt = p.lastHashcnt ∧ p.slot ≤ p.nextLeaderSlot ∧
      q.state = if p.slot = p.nextLeaderSlot then
        (if p.state = .follower then .waitingForBank else .leader) else p.state := by
  obtain ⟨m, hs, hh⟩ := bind_ok.mp h
  obtain ⟨hp, ho⟩ := check_ok.mp hh
  have hf : ∃ ticks, m = { p with skippedTickHashes := ticks } := by
    unfold saveSkippedTick at hs
    split at hs
    · obtain ⟨_, ht⟩ := check_ok.mp hs
      exact ⟨_, (ok.inj ht).symm⟩
    · exact ⟨_, (ok.inj hs).symm⟩
  obtain ⟨ticks, rfl⟩ := hf
  have he := (ok.inj ho).symm
  by_cases hr : p.slot = p.nextLeaderSlot
  · rw [if_pos hr] at he ⊢
    subst q
    exact ⟨rfl, rfl, rfl, rfl, rfl, hp, rfl⟩
  · rw [if_neg hr] at he ⊢
    subst q
    exact ⟨rfl, rfl, rfl, rfl, rfl, hp, rfl⟩

lemma ticked_hashed (h : ticked p remaining = .ok q) : Hashed p q := by
  unfold ticked at h
  split at h
  · exact leaderTicked_hashed h
  · exact (followerTicked_spec h).1
  · exact (followerTicked_spec h).1
  all_goals
    cases h
    exact Hashed.refl _

lemma advance_cases (h : advance sha p clock = .ok a) :
    a.poh = p ∨
    (mustPublishSkippedTick p = true ∧ publishSkippedTick p = .ok a.poh) ∨
    (p.state ≠ .uninit ∧ p.state ≠ .waitingForReset ∧ p.state ≠ .waitingForBank ∧
      mustPublishSkippedTick p = false ∧
      ticked (hashTo sha p (targetHashcnt p clock)) (maxRemainingMicroblocks p) = .ok a.poh) := by
  unfold advance at h
  split at h
  · exact .inl (by cases h; rfl)
  rename_i ha
  split at h
  · exact .inl (by cases h; rfl)
  split at h
  · rename_i he
    obtain ⟨q, hp, ho⟩ := bind_ok.mp h
    cases ho
    exact .inr (.inl ⟨he, hp⟩)
  · rename_i hn
    unfold advanceHashes at h
    rw [check_ok, check_ok, check_ok] at h
    obtain ⟨_, _, _, h⟩ := h
    split at h
    · exact .inl (by cases h; rfl)
    · obtain ⟨q, hm, ho⟩ := bind_ok.mp h
      cases ho
      simp only [not_or] at ha
      exact .inr (.inr ⟨ha.1, ha.2.1, ha.2.2.2,
        Bool.eq_false_iff.mpr hn, hm⟩)

lemma publishSkippedTick_hashed (h : publishSkippedTick p = .ok q) : Hashed p q := by
  unfold publishSkippedTick at h
  rw [check_ok, check_ok] at h
  exact (publishTick_hashed h.2.2).1

lemma advance_hashed (h : advance sha p clock = .ok a) : Hashed p a.poh := by
  obtain hs | ⟨_, hk⟩ | ⟨_, _, _, _, hm⟩ := advance_cases h
  · rw [hs]
    exact Hashed.refl _
  · exact publishSkippedTick_hashed hk
  · exact (hashTo_hashed sha p _).trans (ticked_hashed hm)

def Configured (p : Machine) : Prop :=
  (p.hashcntPerTick ≠ ulongMax →
    p.hashcntPerSlot = (p.ticksPerSlot * p.hashcntPerTick) % wordSize) ∧
  (p.state = .uninit → p.hashcntPerTick = ulongMax)

lemma configured_new : Configured Machine.new := ⟨fun hk => absurd rfl hk, fun _ => rfl⟩

def SameClock (p q : Machine) : Prop :=
  q.hashcntPerTick = p.hashcntPerTick ∧ q.ticksPerSlot = p.ticksPerSlot ∧
    q.hashcntPerSlot = p.hashcntPerSlot ∧ (q.state = .uninit → p.state = .uninit)

lemma Configured.of_same (c : Configured p) (hs : SameClock p q) : Configured q := by
  obtain ⟨hp, ht, he, ha⟩ := hs
  exact ⟨by rw [hp, ht, he]; exact c.1, fun u => hp.trans (c.2 (ha u))⟩

lemma Hashed.fields (h : Hashed p q) :
    q.hashcntPerTick = p.hashcntPerTick ∧ q.ticksPerSlot = p.ticksPerSlot ∧
    q.hashcntPerSlot = p.hashcntPerSlot ∧ q.nextLeaderSlot = p.nextLeaderSlot ∧
    q.maxMicroblocksPerSlot = p.maxMicroblocksPerSlot ∧
    q.microblocksLowerBound = p.microblocksLowerBound ∧ q.resetSlot = p.resetSlot := by
  rw [h]
  exact ⟨rfl, rfl, rfl, rfl, rfl, rfl, rfl⟩

lemma followerTicked_uninit (h : followerTicked p = .ok q) (hu : q.state = .uninit) : p.state = .uninit := by
  have hs := (followerTicked_spec h).2.2.2.2.2.2
  rw [hu] at hs
  by_cases hr : p.slot = p.nextLeaderSlot
  · rw [if_pos hr] at hs
    split at hs <;> cases hs
  · rw [if_neg hr] at hs
    exact hs.symm

lemma ticked_uninit (h : ticked p remaining = .ok q) (hu : q.state = .uninit) : p.state = .uninit := by
  unfold ticked at h
  split at h
  · rename_i hl
    obtain ⟨m, hp, hr⟩ := bind_ok.mp h
    have hf : m.state = p.state := by
      unfold publishReachedTick at hp
      split at hp
      · exact (publishTick_hashed hp).2.1
      · cases hp
        rfl
    unfold tickOutOfLeader at hr
    split at hr
    · obtain ⟨_, hr⟩ := check_ok.mp hr
      obtain ⟨f, _, ho⟩ := bind_ok.mp hr
      cases ho
      cases hu
    · cases hr
      exact hf.symm.trans hu
  · exact followerTicked_uninit h hu
  · exact followerTicked_uninit h hu
  all_goals
    cases h
    exact hu

lemma advance_sameClock (h : advance sha p clock = .ok a) : SameClock p a.poh := by
  obtain ⟨he, ht, hp, _⟩ := (advance_hashed h).fields
  refine ⟨he, ht, hp, fun hu => ?_⟩
  obtain hs | ⟨_, hk⟩ | ⟨_, _, _, _, hm⟩ := advance_cases h
  · exact hs ▸ hu
  · unfold publishSkippedTick at hk
    rw [check_ok, check_ok] at hk
    exact (publishTick_hashed hk.2.2).2.1.symm.trans hu
  · exact (hashTo_state sha p _).symm.trans (ticked_uninit hm hu)

lemma updateHashesPerTick_spec {perTick : Nat} (h : updateHashesPerTick p perTick = .ok q) :
    q = p ∧ p.hashcntPerTick = perTick ∨
    p.lastSlot = p.resetSlot ∧ p.lastHashcnt = 0 ∧
      q = { p with
        hashcntPerSlot := (p.ticksPerSlot * perTick) % wordSize
        hashcntPerTick := perTick
        slot := p.resetSlot
        hashcnt := 0
        hash := p.resetHash } := by
  unfold updateHashesPerTick at h
  split_ifs at h with hs
  · rw [check_ok, check_ok] at h
    obtain ⟨slot, hashcnt, ho⟩ := h
    exact .inr ⟨slot, hashcnt, (ok.inj ho).symm⟩
  · exact .inl ⟨(ok.inj h).symm, not_not.mp hs⟩

structure AfterReset (p : Machine) (r : Reset) (q : Machine) : Prop where
  slot : q.slot = r.completedSlot + 1
  hashcnt : q.hashcnt = 0
  lastSlot : q.lastSlot = r.completedSlot + 1
  lastHashcnt : q.lastHashcnt = 0
  resetSlot : q.resetSlot = r.completedSlot + 1
  nextLeaderSlot : q.nextLeaderSlot = r.nextLeaderSlot
  ticksPerSlot : q.ticksPerSlot = r.ticksPerSlot
  hashcntPerTick : q.hashcntPerTick = r.hashcntPerTick
  hashcntPerSlot : p.hashcntPerTick = r.hashcntPerTick ∧ q.hashcntPerSlot = p.hashcntPerSlot ∨
    q.hashcntPerSlot = (r.ticksPerSlot * r.hashcntPerTick) % wordSize
  sameTicks : p.state ≠ .uninit → p.ticksPerSlot = r.ticksPerSlot
  state : q.state = if q.slot = q.nextLeaderSlot then .waitingForBank else .follower

lemma leaveForReset_hashed (h : leaveForReset p = .ok q) :
    ∃ out, q = { p with state := .follower, replayOut := out } := by
  unfold leaveForReset at h
  split_ifs at h with hf
  · unfold transitionToFollower at h
    rw [check_ok, check_ok] at h
    exact ⟨_, (ok.inj h.2.2).symm⟩
  · cases h
    refine ⟨p.replayOut, ?_⟩
    rw [← not_not.mp hf]

lemma firstReset_fields (p : Machine) (r : Reset) :
    ∃ state, (p.state ≠ .uninit → (firstReset p r).ticksPerSlot = p.ticksPerSlot) ∧
      firstReset p r = { p with ticksPerSlot := (firstReset p r).ticksPerSlot, state } := by
  unfold firstReset
  split_ifs with hu
  · exact ⟨_, fun hi => absurd hu hi, rfl⟩
  · exact ⟨_, fun _ => rfl, rfl⟩

lemma reset_spec {r : Reset} (h : reset p r = .ok q) : AfterReset p r q := by
  obtain ⟨_, h⟩ := check_ok.mp h
  obtain ⟨hm, h⟩ := check_ok.mp h
  obtain ⟨m, hl, h⟩ := bind_ok.mp h
  obtain ⟨f, ht, h⟩ := bind_ok.mp h
  obtain ⟨out, rfl⟩ := leaveForReset_hashed ht
  have result := (ok.inj h).symm
  obtain ⟨state, hk, hb⟩ := firstReset_fields (resetFields p r) r
  rw [hb, ← hm] at hl
  rw [← hm] at hk
  -- Whether or not the slot size changed, the machine now stands at the start of the slot.
  have ha : ∃ perSlot hash,
      (p.hashcntPerTick = r.hashcntPerTick ∧ perSlot = p.hashcntPerSlot ∨
        perSlot = (r.ticksPerSlot * r.hashcntPerTick) % wordSize) ∧
      m = { resetFields p r with
        ticksPerSlot := r.ticksPerSlot, state, hash
        hashcntPerTick := r.hashcntPerTick, hashcntPerSlot := perSlot } := by
    obtain ⟨hs, hp⟩ | ⟨_, _, hc⟩ := updateHashesPerTick_spec hl
    · refine ⟨p.hashcntPerSlot, r.completedBlockhash, .inl ⟨hp, rfl⟩, ?_⟩
      rw [hs, ← hp]
      rfl
    · exact ⟨_, _, .inr rfl, hc⟩
  obtain ⟨perSlot, hash, hi, rfl⟩ := ha
  have he : p.state ≠ .uninit → p.ticksPerSlot = r.ticksPerSlot :=
    fun hn => (hk hn).symm
  by_cases ho : r.completedSlot + 1 = r.nextLeaderSlot
  · replace result := result.trans (if_pos ho)
    subst q
    exact ⟨rfl, rfl, rfl, rfl, rfl, rfl, rfl, rfl, hi, he, (if_pos ho).symm⟩
  · replace result := result.trans (if_neg ho)
    subst q
    exact ⟨rfl, rfl, rfl, rfl, rfl, rfl, rfl, rfl, hi, he, (if_neg ho).symm⟩

lemma beginLeader_spec {b : BecameLeader} (h : beginLeader p b = .ok q) :
    (p.state = .follower ∨ p.state = .waitingForBank) ∧ b.slot = p.nextLeaderSlot ∧
    b.ticksPerSlot = p.ticksPerSlot ∧ q.slot ≤ q.nextLeaderSlot ∧
    ∃ m, updateHashesPerTick
        { p with maxMicroblocksPerSlot := (b.maxMicroblocksInSlot + 1) % wordSize }
        b.hashcntPerTick = .ok m ∧
      q = { m with
        state := if m.slot < m.nextLeaderSlot then .waitingForSlot else .leader
        microblocksLowerBound := 0 } := by
  obtain ⟨hi, h⟩ := check_ok.mp h
  obtain ⟨hs, h⟩ := check_ok.mp h
  obtain ⟨ht, h⟩ := check_ok.mp h
  obtain ⟨m, hc, h⟩ := bind_ok.mp h
  obtain ⟨hp, h⟩ := check_ok.mp h
  have hr := (ok.inj h).symm
  subst q
  exact ⟨hi, hs, ht, hp, m, hc, rfl⟩

lemma mixinOutOfLeader_hashed (h : mixinOutOfLeader p = .ok q) :
    Hashed p q ∧ (q.state = .uninit → p.state = .uninit) := by
  unfold mixinOutOfLeader at h
  split at h
  · obtain ⟨f, hl, ho⟩ := bind_ok.mp h
    cases ho
    exact ⟨(transitionToFollower_hashed hl).1.trans rfl, by rintro ⟨⟩⟩
  · cases h
    exact ⟨Hashed.refl _, id⟩

lemma recordMixin_hashed (p : Machine) : Hashed p (recordMixin p) ∧ (recordMixin p).state = p.state := by
  unfold recordMixin
  split <;> exact ⟨rfl, rfl⟩

lemma mixinExecuted_hashed (h : mixinExecuted sha p slot hash txns = .ok q) :
    Hashed p q ∧ (q.state = .uninit → p.state = .uninit) := by
  obtain ⟨_, h⟩ := check_ok.mp h
  obtain ⟨m, hl, h⟩ := bind_ok.mp h
  obtain ⟨_, h⟩ := check_ok.mp h
  cases h
  obtain ⟨hm, ht⟩ := mixinOutOfLeader_hashed hl
  obtain ⟨hr, hs⟩ := recordMixin_hashed
    { p with hash := sha.mix p.hash hash, hashcnt := p.hashcnt + 1 }
  refine ⟨Hashed.trans (hr.trans hm) rfl, fun hu => ?_⟩
  exact hs.symm.trans (ht hu)

lemma mixin_sameClock (h : mixin sha p slot hash txns = .ok q) : SameClock p q := by
  unfold mixin at h
  rw [check_ok, check_ok, check_ok, check_ok] at h
  obtain ⟨_, _, _, _, h⟩ := h
  split at h
  · obtain ⟨hm, hs⟩ := mixinExecuted_hashed h
    obtain ⟨he, ht, hp, _⟩ := hm.fields
    exact ⟨he, ht, hp, hs⟩
  · cases h
    exact ⟨rfl, rfl, rfl, id⟩

lemma donePacking_sameClock {d : DonePacking} (h : donePacking p d = .ok q) : SameClock p q := by
  unfold donePacking at h
  rw [check_ok, check_ok, check_ok] at h
  obtain ⟨_, _, _, h⟩ := h
  split at h
  · obtain ⟨hm, hs, _⟩ := transitionToFollower_hashed h
    obtain ⟨he, ht, hp, _⟩ := hm.fields
    exact ⟨he, ht, hp, fun hu => by rw [hs] at hu; cases hu⟩
  · obtain ⟨_, h⟩ := check_ok.mp h
    cases h
    exact ⟨rfl, rfl, rfl, id⟩

lemma step_configured {op : Op} (c : Configured p) (h : step sha p op = .ok q) : Configured q := by
  cases op with
  | reset r =>
    obtain ⟨m, reset, ho⟩ := bind_ok.mp h
    cases ho
    have hp := reset_spec reset
    refine ⟨fun hk => ?_, fun hu => ?_⟩
    · show m.hashcntPerSlot = (m.ticksPerSlot * m.hashcntPerTick) % wordSize
      rw [hp.ticksPerSlot, hp.hashcntPerTick]
      obtain ⟨hs, size⟩ | size := hp.hashcntPerSlot
      · have hn : p.hashcntPerTick ≠ ulongMax := by
          rw [hs, ← hp.hashcntPerTick]
          exact hk
        have hi : p.state ≠ .uninit := fun hu => hn (c.2 hu)
        rw [size, ← hp.sameTicks hi, ← hs]
        exact c.1 hn
      · exact size
    · have ht := hp.state
      rw [show m.state = State.uninit from hu] at ht
      split at ht <;> cases ht
  | beginLeader b =>
    obtain ⟨hd, _, hc, _, m, clock, rfl⟩ := beginLeader_spec h
    refine ⟨fun hk => ?_, fun hu => ?_⟩
    · obtain ⟨rfl, he⟩ | ⟨_, _, rfl⟩ := updateHashesPerTick_spec clock
      · exact c.1 hk
      · rfl
    · dsimp only at hu
      split at hu <;> cases hu
  | advance clock =>
    obtain ⟨a, ha, ho⟩ := bind_ok.mp h
    cases ho
    exact c.of_same (advance_sameClock ha)
  | mixin slot hash txns => exact c.of_same (mixin_sameClock h)
  | updateMaxMicroblocks newMax =>
    unfold step updateMaxMicroblocks at h
    rw [check_ok, check_ok] at h
    cases h.2.2
    exact c
  | donePacking d => exact c.of_same (donePacking_sameClock h)
  | wfsDone =>
    cases h
    exact c

lemma history_configured {ops : List Op} (hd : run (step sha) Machine.new ops = .ok p) : Configured p :=
  run_preserves (step sha) Configured (fun _ _ _ c h => step_configured c h) configured_new hd

end Firebam.Poh
