import Firebam.Poh.Entering
import Firebam.Poh.Tile

/-! The leader slot as pack sees it: microblocks, a lowered limit, and one done_packing. -/
namespace Firebam.Poh
open Lib

/-- What the tile does with PoH in the leader state. With `idle` after_credit advances PoH in any
case, without it only if a tick is due. -/
inductive LeaderOp where
  | afterCredit (idle : Bool) (clock : Nat)
  | mixin (hash : Hash) (txns : List TxnP)
  | updateMaxMicroblocks (newMax : Nat)
  | donePacking (d : DonePacking)
  | wfsDone

/-- The machine in its leader slot, whether pack said it is done with the slot, and whether
after_credit came since the last mixin, with PoH not paused. -/
structure LeaderRun where
  poh : Machine
  packed : Bool
  advanced : Bool

def leaderStep (sha : Sha256) (s : LeaderRun) : LeaderOp → Except Fault LeaderRun
  | .afterCredit idle clock =>
    let advanced := s.advanced || !s.poh.wfsPaused
    if idle ∨ mustTick s.poh ∨ mustPublishSkippedTick s.poh then do
      let a ← advance sha s.poh clock
      return ⟨a.poh, s.packed, advanced⟩
    else .ok ⟨s.poh, s.packed, advanced⟩
  | .mixin hash txns =>
    -- The tile keeps the frag while skipped ticks are to be published.
    if mustPublishSkippedTick s.poh then .ok s
    else do
      let p ← mixin sha s.poh s.poh.nextLeaderSlot hash txns
      return ⟨p, s.packed, false⟩
  | .updateMaxMicroblocks newMax => do
    let p ← updateMaxMicroblocks s.poh newMax
    return ⟨p, s.packed, s.advanced⟩
  | .donePacking d => do
    let p ← donePacking s.poh d
    return ⟨p, true, s.advanced⟩
  | .wfsDone => .ok ⟨wfsDone s.poh, s.packed, s.advanced⟩

/-- What pack promises about the slot: no microblock beyond the current limit, limits that only
fall and never below what was seen, and one done_packing with the true count, at the end. -/
def Promised (s : LeaderRun) (op : LeaderOp) : Prop :=
  s.poh.state = .leader ∧
  match op with
  | .afterCredit _ _ | .wfsDone => True
  | .mixin _ _ => s.packed = false ∧ s.poh.microblocksLowerBound + 1 < s.poh.maxMicroblocksPerSlot
  | .updateMaxMicroblocks newMax => s.packed = false ∧
    newMax + 1 ≤ s.poh.maxMicroblocksPerSlot ∧ s.poh.microblocksLowerBound ≤ newMax
  | .donePacking d => s.packed = false ∧ d.microblocksInSlot = s.poh.microblocksLowerBound

/-- The order of the tile's loop: an after_credit between two mixins. -/
def CreditFirst (s : LeaderRun) : LeaderOp → Prop
  | .mixin _ _ => s.advanced = true
  | .afterCredit _ _ | .updateMaxMicroblocks _ | .donePacking _ | .wfsDone => True

instance decidablePromised (s : LeaderRun) (op : LeaderOp) : Decidable (Promised s op) := by
  cases op <;> unfold Promised <;> infer_instance

instance decidableCreditFirst (s : LeaderRun) (op : LeaderOp) : Decidable (CreditFirst s op) := by
  cases op <;> unfold CreditFirst <;> infer_instance

/-- An open slot has room, and no tick is due once after_credit has come. -/
def InSlot (s : LeaderRun) : Prop :=
  Leading s.poh s.packed ∧ (s.packed = false → s.advanced = true → mustTick s.poh = false)

lemma afterCredit_ok (sha : Sha256) {s : LeaderRun} (c : Capacity s.poh s.packed)
    (due : s.packed = false → s.advanced = true → mustTick s.poh = false) (idle : Bool) (clock : Nat) :
    ∃ t, leaderStep sha s (.afterCredit idle clock) = .ok t ∧ InSlot t := by
  unfold leaderStep
  dsimp only
  split
  · obtain ⟨a, ha, hl, ht⟩ := advance_ok sha c clock
    refine ⟨_, bind_ok.mpr ⟨a, ha, rfl⟩, hl, fun isOpen came => ht ?_⟩
    rcases Bool.or_eq_true_iff.mp came with before | running
    · exact .inr (due isOpen before)
    · exact .inl (Bool.not_eq_true' _ ▸ running)
  · rename_i quiet
    exact ⟨_, rfl, .inl c, fun _ _ => Bool.eq_false_iff.mpr fun tick => quiet (.inr (.inl tick))⟩

lemma leaderStep_ok (sha : Sha256) (s : LeaderRun) (op : LeaderOp)
    (inv : InSlot s) (hp : Promised s op) (ht : CreditFirst s op) : ∃ t, leaderStep sha s op = .ok t ∧ InSlot t := by
  obtain ⟨hn, due⟩ := inv
  obtain ⟨p, packed, advanced⟩ := s
  have c : Capacity p packed := by
    rcases hn with c | ⟨_, he, _⟩
    · exact c
    · exact absurd hp.1 he
  cases op with
  | afterCredit idle clock => exact afterCredit_ok sha c due idle clock
  | mixin hash txns =>
    obtain ⟨_, hi, hc⟩ := hp
    subst hi
    unfold leaderStep
    dsimp only
    split
    · exact ⟨_, rfl, hn, due⟩
    · rename_i published
      obtain ⟨q, hm, hb⟩ := mixin_ok sha c hash txns (due rfl ht) (Bool.eq_false_iff.mpr published) hc
      exact ⟨⟨q, false, false⟩, bind_ok.mpr ⟨q, hm, rfl⟩, .inl hb, fun _ came => absurd came Bool.false_ne_true⟩
  | updateMaxMicroblocks newMax =>
    obtain ⟨_, hi, ho, hs⟩ := hp
    subst hi
    obtain ⟨q, hu, hb, same⟩ := updateMaxMicroblocks_ok c newMax ho hs
    exact ⟨⟨q, false, advanced⟩, bind_ok.mpr ⟨q, hu, rfl⟩, .inl hb, fun isOpen came => same.trans (due isOpen came)⟩
  | donePacking d =>
    obtain ⟨_, hi, hc⟩ := hp
    subst hi
    obtain ⟨q, packed, hl⟩ := donePacking_ok c d hc
    exact ⟨⟨q, true, advanced⟩, bind_ok.mpr ⟨q, packed, rfl⟩, hl, fun isOpen => absurd isOpen.symm Bool.false_ne_true⟩
  | wfsDone => exact ⟨_, rfl, .inl { c with }, due⟩

def Verdict.tile (t : Tile) : Verdict → Tile
  | .held => t
  | .dropped t | .processed t => t

section
variable (sha : Sha256) (t : Tile) (packed advanced : Bool)

theorem afterCredit_leaderStep {replayStatus : Bool} (clock : Nat) (started : startupGateIdle t.started replayStatus = true) :
    (afterCredit sha t replayStatus clock).map (·.poh) =
      (leaderStep sha ⟨t.poh, packed, advanced⟩ (.afterCredit (2 * t.inCnt ≤ t.idleCnt + 1) clock)).map (·.poh) := by
  unfold afterCredit leaderStep
  simp only [started, if_true, ge_iff_le, decide_eq_true_eq]
  split
  · cases advance sha t.poh clock <;> rfl
  · rfl

theorem returnableExecle_leaderStep {f : ExecleFrag} (ready : mustWait t.poh = false)
    (here : f.sig.slot = t.poh.nextLeaderSlot) (next : f.sig.packIdx = t.expectPackIdx) :
    (returnableExecle sha t f).map (fun v => (v.tile t).poh) =
      (leaderStep sha ⟨t.poh, packed, advanced⟩ (.mixin f.hash f.txns)).map (·.poh) := by
  have zero : serialDiff t.expectPackIdx t.expectPackIdx = 0 := by simp [serialDiff]
  unfold returnableExecle leaderStep
  simp only [here, next, ready, zero, lt_irrefl, if_false, Bool.false_or, ne_eq, not_true_eq_false]
  split
  · rfl
  · cases mixin sha t.poh t.poh.nextLeaderSlot f.hash f.txns <;> rfl

end

/-- In a leader slot with room for its microblocks, no check of PoH ever fails, the microblocks
seen stay within the limit, the slot is not left before pack is done with it, and no tick is due
when a mixin may come. -/
theorem leader_slot_capacity (sha : Sha256) (history : List Op) (r : Reset) (early late : List Nat) (b : BecameLeader)
    (p : Machine) (ops : List LeaderOp) (room : Room b)
    (entered : run (step sha) Machine.new (upToLeader history r early b late) = .ok p) (leading : p.state = .leader)
    (allowed : Allowed (leaderStep sha) (fun s op => Promised s op ∧ CreditFirst s op) ⟨p, false, true⟩ ops) :
    ∃ s, run (leaderStep sha) ⟨p, false, true⟩ ops = .ok s ∧
      s.poh.microblocksLowerBound ≤ s.poh.maxMicroblocksPerSlot ∧
      (s.packed = false → s.poh.state = .leader ∧ s.poh.slot = s.poh.nextLeaderSlot ∧
        (s.advanced = true → mustTick s.poh = false)) := by
  obtain ⟨capacity, due⟩ := leader_entered room entered leading
  obtain ⟨s, done, inv, taken⟩ := run_allowed (leaderStep sha) _ InSlot
    (fun s op inv may => leaderStep_ok sha s op inv may.1 may.2) ⟨.inl capacity, fun _ _ => due⟩ allowed
  refine ⟨s, done, ?_, ?_⟩
  · rcases inv with c | ⟨_, _, bound⟩
    · exact c.lowerBound_le
    · exact bound
  · intro isOpen
    rcases inv with c | ⟨packed, _, _⟩
    · exact ⟨c.leading, c.here, taken isOpen⟩
    · rw [isOpen] at packed
      cases packed

def tightReset : Reset where
  hashcntPerTick := 2
  ticksPerSlot := 3
  completedSlot := 6
  completedBlockhash := 0
  nextLeaderSlot := 7
  maxMicroblocksInSlot := 2
  completedBlockId := 1
  wfsPaused := false

def tightLeader : BecameLeader where
  slot := 7
  hashcntPerTick := 2
  ticksPerSlot := 3
  maxMicroblocksInSlot := 2

def identitySha : Sha256 := ⟨id, fun h _ => h⟩

def landed : List TxnP := [⟨true, []⟩]

/-- Two mixins in a row: the second one finds PoH one hash before a tick. An advance of a paused PoH does
not help, and a mixin before the last skipped tick is out comes too early as well. -/
theorem two_mixins_skip_a_tick : Room tightLeader ∧
    (∃ p, run (step identitySha) Machine.new (upToLeader [] tightReset [] tightLeader []) = .ok p ∧
      p.state = .leader ∧
      Allowed (leaderStep identitySha) Promised ⟨p, false, true⟩ [.mixin 5 landed, .mixin 6 landed] ∧
      run (leaderStep identitySha) ⟨p, false, true⟩ [.mixin 5 landed, .mixin 6 landed] =
        .error .mixinTickSkipped) ∧
    run (step identitySha) Machine.new (upToLeader [] { tightReset with wfsPaused := true } [] tightLeader [] ++
      [.mixin 7 5 landed, .advance 9, .mixin 7 6 landed]) = .error .mixinTickSkipped ∧
    run (step identitySha) Machine.new (upToLeader [] { tightReset with completedSlot := 5 } [9, 9, 9] tightLeader [] ++
      [.advance 9, .mixin 7 5 landed]) = .error .mixinHashcnt := by
  refine ⟨⟨by decide, by decide, by decide⟩, ⟨_, rfl, rfl, ?_, rfl⟩, rfl, rfl⟩
  decide

def tightPacked : DonePacking := ⟨2, 0, 0, 0, 0, .microblock, 0, 0⟩

theorem tight_slot_completes :
    ∃ p s, run (step identitySha) Machine.new (upToLeader [] tightReset [] tightLeader []) = .ok p ∧
      run (leaderStep identitySha) ⟨p, false, true⟩ [.mixin 5 landed, .afterCredit false 0, .mixin 6 landed,
        .donePacking tightPacked, .afterCredit true 9] = .ok s ∧
      s.poh.microblocksLowerBound ≤ s.poh.maxMicroblocksPerSlot ∧
      (s.packed = false → s.poh.state = .leader ∧ s.poh.slot = s.poh.nextLeaderSlot ∧
        (s.advanced = true → mustTick s.poh = false)) := by
  obtain ⟨s, done, bound, stays⟩ := leader_slot_capacity identitySha [] tightReset [] []
    tightLeader _ [.mixin 5 landed, .afterCredit false 0, .mixin 6 landed, .donePacking tightPacked,
      .afterCredit true 9]
    ⟨by decide, by decide, by decide⟩ rfl rfl (by decide)
  exact ⟨_, s, rfl, done, bound, stays⟩

end Firebam.Poh
