import Firebam.Votor.Frames
import Firebam.Votor.Room

namespace Firebam.Votor
open Lib List Outcome Pool

variable {bound slot slotMax : Nat} {links : List (BlockId × BlockId)} {p p' : Pool} {state state' : SlotState}
  {block parent : BlockId} {cert : Cert} {α : Type} {vote : Vote}

def PoolFault.PoolEmpty : PoolFault → Prop
  | .tracker fault => fault.PoolEmpty
  | .ready fault => fault.PoolEmpty
  | .slotStatePoolEmpty | .waitingPoolEmpty => True
  | .slot _ | .noEpochInfo => False

def SlotState.Hears (s : SlotState) (hash : BlockHash) : Prop :=
  s.certs.notar.map Prod.fst = some hash ∨ hash ∈ s.certs.notarFallback.map Prod.fst

instance (s : SlotState) (hash : BlockHash) : Decidable (s.Hears hash) := inferInstanceAs (Decidable (_ ∨ _))

def Cert.certified : Cert → Option BlockId
  | .notar slot hash _ | .notarFallback slot hash _ => some ⟨slot, hash⟩
  | .skip _ _ | .fastFinal _ _ _ | .final _ _ => none

lemma SlotState.addCert_hears {hash : BlockHash} (h : state.addCert cert = .ok state') (hh : state'.Hears hash) :
    state.Hears hash ∨ cert.certified = some ⟨cert.slot, hash⟩ := by
  cases cert with
  | notar slot other stake =>
    cases h
    rcases hh with eq | old
    · exact .inr (congrArg (fun hash => some (BlockId.mk slot hash)) (Option.some.inj eq))
    · exact .inl (.inr old)
  | notarFallback slot other stake =>
    simp only [addCert] at h
    split at h
    · cases h
      exact .inl hh
    · obtain ⟨_, h⟩ := check_ok.mp h
      cases h
      simp only [Hears, map_append, map_cons, map_nil, mem_append, mem_singleton, ← or_assoc] at hh
      exact hh.imp_right fun eq => congrArg (fun hash => some (BlockId.mk slot hash)) eq.symm
  | skip | fastFinal | final =>
    cases h
    exact .inl hh

namespace Pool

/-- A notar or notar-fallback certificate of the block is held. -/
def Heard (p : Pool) (block : BlockId) : Prop := ∃ s ∈ p.slotStates, s.slot = block.slot ∧ s.Hears block.hash

instance (p : Pool) (block : BlockId) : Decidable (p.Heard block) :=
  inferInstanceAs (Decidable (∃ s ∈ p.slotStates, s.slot = block.slot ∧ s.Hears block.hash))

def Closing (p : Pool) (slot : Nat) : Prop :=
  p.finalityTracker.Undecided (slot + 1) ∧ ∀ x ∈ p.waiting, slot ≤ x.1.slot

/-- What an operation is about while it runs: the slot whose certificates are handled and whether one
of them may finalize it, the block that is certified but not yet told to the one that waits for it,
and the parent of a new block. -/
structure Scene where
  slot : Option Nat := none
  finalizes : Prop := False
  woken : BlockId → Prop := fun _ => False
  fresh : Option BlockId := none

def Knows (p : Pool) (links : List (BlockId × BlockId)) : Prop :=
  ∀ x ∈ links, ∃ s ∈ p.slotStates, s.slot = x.1.slot ∧ x.1.hash ∈ s.parents.map Prod.fst

/-- All that is held is for slots between the first unpruned one and the bound. -/
structure Tidy (bound : Nat) (links : List (BlockId × BlockId)) (c : Scene) (p : Pool) : Prop where
  tracker : p.finalityTracker.Within bound
  ready : p.readyTracker.Within bound
  root : p.readyTracker.root = p.finalityTracker.firstUnprunedSlot
  states : ∀ s ∈ p.slotStates, p.finalityTracker.firstUnprunedSlot ≤ s.slot ∧ s.slot < bound ∧
    s.parents.length ≤ eqvocBlockHashMax
  distinct : (p.slotStates.map SlotState.slot).Nodup
  known : p.Knows links
  waiting : ∀ x ∈ p.waiting, p.finalityTracker.firstUnprunedSlot ≤ x.1.slot ∧ (x.2, x.1) ∈ p.finalityTracker.parents
  parents : (p.waiting.map Prod.fst).Nodup
  half : bound ≤ p.finalityTracker.firstUnprunedSlot + p.slotMax / 2
  sizes : p.slotMax ≤ p.finalityTracker.slotMax ∧ p.slotMax / 2 + 2 ≤ p.readyTracker.slotMax
  asleep : ∀ x ∈ p.waiting, p.Heard x.1 → c.woken x.1
  unpruned : ∀ slot ∈ c.slot, p.finalityTracker.firstUnprunedSlot ≤ slot
  closing : ∀ slot ∈ c.slot, c.finalizes → p.Closing slot
  unheard : ∀ parent ∈ c.fresh, ¬p.Heard parent

abbrev KeptIn (c : Scene) (bound : Nat) (p : Pool) : Prop := p.Tidy bound p.finalityTracker.parents c

abbrev Kept (bound : Nat) (p : Pool) : Prop := p.KeptIn {} bound

abbrev Keeps {α : Type} (good : α → Prop) (x : Except PoolFault α) : Prop := Outcome good (fun e => ¬ e.PoolEmpty) x

/-- The slot may be finalized: the one above it is not decided, and every block below it that is the
parent of a known one and not pruned has its certificate. -/
def Clear (p : Pool) (slot : Nat) : Prop :=
  p.finalityTracker.Undecided (slot + 1) ∧ ∀ x ∈ p.finalityTracker.parents,
    p.finalityTracker.firstUnprunedSlot ≤ x.2.slot → x.2.slot < slot → p.Heard x.2

instance (p : Pool) (slot : Nat) : Decidable (p.Clear slot) := inferInstanceAs (Decidable (_ ∧ ∀ x ∈ _, _))

def stateFor (p : Pool) (slot : Nat) : SlotState :=
  (p.querySlot slot).getD { slot, epochInfo := (p.selectInfo slot).getD .curr, ownRank := p.selectRank slot }

def Reaches (p : Pool) (vote : Vote) : Prop := ∃ info ∈ p.selectInfo vote.slot,
  (p.stateFor vote.slot).Reaches (p.infoOf (p.stateFor vote.slot)) ((p.buffer info).stakeOf vote.rank) vote

instance (p : Pool) : DecidablePred p.Reaches := fun vote =>
  inferInstanceAs (Decidable (∃ info ∈ p.selectInfo vote.slot, _))

lemma liftReady_keeps {good : α → Prop} {x : Except ReadyFault α}
    (hk : Outcome good (fun e => ¬ e.PoolEmpty) x) : Keeps good (liftReady x) := by
  cases x with
  | ok a => exact hk
  | error e => exact hk

lemma liftSlot_keeps {good : α → Prop} {x : Except SlotFault α} (hk : ∀ a, x = .ok a → good a) :
    Keeps good (liftSlot x) := by
  cases x with
  | ok a => exact hk a rfl
  | error e => exact not_false

namespace Tidy

variable {c : Scene}

section
variable (hy : p.Tidy bound links c)
include hy

lemma congr (ht : p'.finalityTracker = p.finalityTracker)
    (hr : p'.readyTracker = p.readyTracker) (hs : p'.slotStates = p.slotStates)
    (hw : p'.waiting = p.waiting) (hl : p'.slotMax = p.slotMax) : p'.Tidy bound links c := by
  obtain ⟨⟩ := p
  obtain ⟨⟩ := p'
  dsimp only at ht hr hs hw hl
  subst ht hr hs hw hl
  exact { hy with }

lemma setSlot (woken : BlockId → Prop) (hh : state ∈ p.slotStates) (hs : state.Same { state' with certs := state.certs })
    (hw : ∀ b, c.woken b → woken b)
    (hc : ∀ hash, state'.Hears hash → state.Hears hash ∨ woken ⟨state.slot, hash⟩ ∧ c.fresh = none) :
    (p.setSlot state').Tidy bound links { c with woken } := by
  have same : state'.slot = state.slot := hs.slot
  have heard (b : BlockId) : (p.setSlot state').Heard b → p.Heard b ∨ woken b ∧ c.fresh = none := by
    rintro ⟨s, hm, hn, hears⟩
    obtain ⟨old, hl, rfl⟩ := mem_map.mp hm
    by_cases hr : old.slot = state'.slot
    · rw [if_pos hr] at hn hears
      refine (hc _ hears).imp (fun h => ⟨state, hh, same ▸ hn, h⟩) fun h => ?_
      rwa [← same, hn] at h
    · rw [if_neg hr] at hn hears
      exact .inl ⟨old, hl, hn, hears⟩
  refine { hy with states := ?_, distinct := ?_, known := ?_, asleep := ?_, unheard := ?_ }
  · intro s hm
    obtain ⟨old, hl, rfl⟩ := mem_map.mp hm
    split
    · have := hy.states state hh
      exact ⟨same ▸ this.1, same ▸ this.2.1, hs.few this.2.2⟩
    · exact hy.states old hl
  · rw [Pool.setSlot, keys_replace state'.slot state' rfl]
    exact hy.distinct
  · intro x hm
    obtain ⟨s, hi, hn, ha⟩ := hy.known x hm
    by_cases hr : s.slot = state'.slot
    · refine ⟨state', mem_map.mpr ⟨s, hi, if_pos hr⟩, hr ▸ hn, hs.parents ?_⟩
      -- slots are distinct, so this is the state that was written
      have : s = state := inj_on_of_nodup_map hy.distinct hi hh (hr.trans same)
      exact this ▸ ha
    · exact ⟨s, mem_map.mpr ⟨s, hi, if_neg hr⟩, hn, ha⟩
  · intro x hm h
    rcases heard x.1 h with old | new
    · exact hw _ (hy.asleep x hm old)
    · exact new.1
  · intro parent hf h
    rcases heard parent h with old | ⟨-, none⟩
    · exact hy.unheard parent hf old
    · rw [none] at hf
      cases hf

lemma setSame (hh : state ∈ p.slotStates) (hs : state.Same state') : (p.setSlot state').Tidy bound links c :=
  hy.setSlot c.woken hh hs.uncertified (fun _ => id) fun hash h => .inl (by rwa [SlotState.Hears, hs.certs] at h)

lemma slots_range : ∀ k ∈ p.slotStates.map SlotState.slot, p.finalityTracker.firstUnprunedSlot ≤ k ∧ k < bound := by
  intro k hm
  obtain ⟨s, hh, rfl⟩ := mem_map.mp hm
  exact ⟨(hy.states s hh).1, (hy.states s hh).2.1⟩

lemma slotState (hl : p.finalityTracker.firstUnprunedSlot ≤ slot) (hi : slot < bound) :
    Keeps (fun r => r.2.Tidy bound links c ∧ r.1 ∈ r.2.slotStates ∧ r.1.slot = slot ∧ r.1 = p.stateFor slot ∧
      ∃ states, r.2 = { p with slotStates := states }) (p.slotState slot) := by
  unfold Pool.slotState stateFor
  split
  · rename_i state hf
    exact ⟨hy, mem_of_find?_eq_some hf, by simpa using find?_some hf, by rw [hf]; rfl, p.slotStates, rfl⟩
  · rename_i hn
    have hr : slot ∉ p.slotStates.map SlotState.slot := find_none_fresh hn
    have he := length_lt_range hy.distinct hy.slots_range hr hl hi
    rw [length_map] at he
    have ha := hy.half
    refine check (fun hu => absurd (by omega) hu) fun _ => ?_
    split
    · exact not_false
    · rename_i info hc
      have heard (b : BlockId) : Heard { p with slotStates := p.slotStates ++
          [{ slot := slot, epochInfo := info, ownRank := p.selectRank slot }] } b → p.Heard b := by
        rintro ⟨s, hm, hs, h⟩
        rcases mem_concat.mp hm with old | rfl
        · exact ⟨s, old, hs, h⟩
        · rcases h with h | h <;> cases h
      refine ⟨{ hy with states := ?_, distinct := keys_concat hy.distinct hr, known := ?_
                        asleep := fun x m h => hy.asleep x m (heard _ h), unheard := fun x m h => hy.unheard x m (heard _ h) },
        by simp, rfl, by rw [hn, hc]; rfl, _, rfl⟩
      · exact forall_mem_concat.mpr ⟨hy.states, ⟨hl, hi, Nat.zero_le _⟩⟩
      · intro x mem
        obtain ⟨s, hh, ht⟩ := hy.known x mem
        exact ⟨s, mem_append_left _ hh, ht⟩

end

section
variable (hy : p.KeptIn c bound)
include hy

lemma notifyCertified (hl : p.finalityTracker.firstUnprunedSlot ≤ block.slot)
    (hi : block.slot < bound) : Keeps (fun r => r.2.KeptIn c bound) (p.notifyCertified block) := by
  refine (hy.slotState hl hi).bind fun r hk => ?_
  obtain ⟨state, mid⟩ := r
  obtain ⟨ht, hh, _, _, states, rfl⟩ := hk
  refine bind (P := fun r : SafeToNotar × SlotState => state.Same r.2) ?_ ?_
  · exact liftSlot_keeps fun r h => SlotState.notifyParentCertified_same h
  rintro ⟨status, state'⟩ hs
  have hw := ht.setSame hh hs
  cases status with
  | missingBlock | awaitingVotes | safeToNotar => exact hw.congr rfl rfl rfl rfl rfl

lemma unwait (keep : BlockId × BlockId → Bool) (hk : ∀ x, keep x = true → ¬c.woken x.1) :
    KeptIn { c with woken := fun _ => False } bound { p with waiting := p.waiting.filter keep } :=
  { hy with
    waiting := fun x m => hy.waiting x (mem_filter.mp m).1
    parents := keys_filter hy.parents
    asleep := fun x m h => hk x (mem_filter.mp m).2 (hy.asleep x (mem_filter.mp m).1 h)
    closing := fun slot eq hf => ⟨(hy.closing slot eq hf).1, fun x m => (hy.closing slot eq hf).2 x (mem_filter.mp m).1⟩ }

lemma waiting_inside {x : BlockId × BlockId} (hw : x ∈ p.waiting) :
    p.finalityTracker.firstUnprunedSlot ≤ x.2.slot ∧ x.2.slot < bound := by
  obtain ⟨ha, hl⟩ := hy.waiting x hw
  obtain ⟨ho, hh, _⟩ := hy.tracker.links (x.2, x.1) hl
  exact ⟨ho, hh⟩

lemma wakeChild (hw : ∀ b, c.woken b → b = block) :
    Keeps (KeptIn { c with woken := fun _ => False } bound) (p.wakeChild block) := by
  unfold Pool.wakeChild
  split
  · rename_i hn
    refine { hy with asleep := fun x m h => ?_ }
    exact find?_eq_none.mp hn x m (decide_eq_true (hw _ (hy.asleep x m h)))
  · rename_i parent child hf
    obtain ⟨hl, hh⟩ := hy.waiting_inside (mem_of_find?_eq_some hf)
    have ht := (hy.unwait (fun x => decide (x.1 ≠ block)) fun x ne h => of_decide_eq_true ne (hw _ h)).notifyCertified hl hh
    cases h : Pool.notifyCertified { p with waiting := p.waiting.filter fun x => decide (x.1 ≠ block) } child with
    | ok r =>
      rw [h] at ht
      exact ht
    | error e =>
      rw [h] at ht
      exact ht

lemma setReady {ready : ReadyTracker} (hw : ready.Within bound)
    (hf : p.readyTracker.Framed ready) : KeptIn c bound { p with readyTracker := ready } :=
  { hy with
    ready := hw
    root := hf.root.trans hy.root
    sizes := ⟨hy.sizes.1, hf.slotMax ▸ hy.sizes.2⟩ }

lemma certifyBlock (hh : block.slot < bound) (hw : ∀ b, c.woken b → b = block) :
    Keeps (KeptIn { c with woken := fun _ => False } bound) (p.certifyBlock block) := by
  refine (hy.wakeChild hw).bind fun mid ht => ?_
  refine (liftReady_keeps (ReadyTracker.markNotarFallback_keeps ht.ready hh)).bind fun r hk => ?_
  obtain ⟨ready, newly⟩ := r
  have he := ht.setReady hk.1 hk.2.1
  show KeptIn _ bound ((pushReady _ newly).repair block)
  rw [pushReady_eq]
  exact he.congr rfl rfl rfl rfl rfl

lemma announce {tracker : FinalityTracker} {event : FinalizationEvent} (hb : event.Below bound) :
    Keeps (fun q => ∃ ready : ReadyTracker, ready.Within bound ∧ p.readyTracker.Framed ready ∧
      ∃ events, q = { p with finalityTracker := tracker, readyTracker := ready, poolEvents := events })
      (announce { p with finalityTracker := tracker } event) := by
  refine (liftReady_keeps (ReadyTracker.handleFinalization_keeps hy.ready hb)).bind fun r hk => ?_
  refine ⟨r.1, hk.1, hk.2.1, ?_⟩
  rw [pushReady_eq]
  exact ⟨_, rfl⟩

lemma mark {marked : Except TrackerFault (FinalityTracker × FinalizationEvent)} (hs : c.slot = some slot) (hf : c.finalizes)
    (hm : FinalityTracker.Keeps bound Prod.fst (fun r => p.finalityTracker.Advanced (slot + 1) r.1 ∧ r.2.Below bound) marked) :
    Keeps (KeptIn c bound) (p.mark marked) := by
  have ht : Keeps (fun r => r.1.Within bound ∧ p.finalityTracker.Advanced (slot + 1) r.1 ∧ r.2.Below bound)
      (liftTracker marked) := by
    cases marked with
    | ok r => exact hm
    | error e => exact hm
  refine ht.bind fun r hk => ?_
  obtain ⟨tracker, event⟩ := r
  obtain ⟨hw, hd, hb⟩ := hk
  dsimp only at hw hd hb
  obtain ⟨undecided, above⟩ := hy.closing slot hs hf
  obtain ⟨low, still⟩ := hd.below undecided (Nat.lt_succ_of_le (hy.unpruned slot hs))
  refine (hy.announce hb).bind fun q hk => ?_
  obtain ⟨ready, he, hf, events, rfl⟩ := hk
  have ho : ready.root ≤ tracker.firstUnprunedSlot := by
    rw [hf.root, hy.root]
    exact hd.first
  -- what stays are the states that were not below the new first slot
  have hs : ∀ s, s ∈ (p.slotStates.filter fun s => !decide (ready.root ≤ s.slot ∧ s.slot < tracker.firstUnprunedSlot)) ↔
      s ∈ p.slotStates ∧ tracker.firstUnprunedSlot ≤ s.slot := by
    intro s
    simp only [mem_filter, Bool.not_eq_true', decide_eq_false_iff_not, not_and, not_lt]
    constructor
    · rintro ⟨hh, hk⟩
      refine ⟨hh, hk ?_⟩
      rw [hf.root, hy.root]
      exact (hy.states s hh).1
    · rintro ⟨hh, ha⟩
      exact ⟨hh, fun _ => ha⟩
  have only {n : Nat} (hn : n ∈ c.slot) : n = slot := by simp_all
  refine ⟨hw, he.prune ho hw.first, rfl, ?_, keys_filter hy.distinct, ?_, ?_, hy.parents, ?_, ?_, ?_, ?_, ?_, ?_⟩
  · intro s hx
    obtain ⟨hh, ha⟩ := (hs s).mp hx
    exact ⟨ha, (hy.states s hh).2⟩
  · intro x hx
    obtain ⟨hl, ha⟩ := (hd.parents x).mp hx
    obtain ⟨s, hh, hn, hi⟩ := hy.known x hl
    exact ⟨s, (hs s).mpr ⟨hh, hn ▸ ha⟩, hn, hi⟩
  · intro x hx
    have hl := (hy.waiting x hx).2
    have hg := (hy.tracker.links (x.2, x.1) hl).2.2
    have ha : tracker.firstUnprunedSlot ≤ x.1.slot := (Nat.le_of_lt_succ low).trans (above x hx)
    exact ⟨ha, (hd.parents _).mpr ⟨hl, by dsimp only at hg ⊢; omega⟩⟩
  · exact le_trans hy.half (Nat.add_le_add_right hd.first _)
  · refine ⟨?_, ?_⟩
    · exact hd.slotMax.symm ▸ hy.sizes.1
    · exact (show (ready.prune tracker.firstUnprunedSlot).slotMax = p.readyTracker.slotMax from hf.slotMax) ▸ hy.sizes.2
  · rintro x m ⟨s, hh, h⟩
    exact hy.asleep x m ⟨s, ((hs s).mp hh).1, h⟩
  · intro n hn
    rw [only hn]
    exact Nat.le_of_lt_succ low
  · intro n hn _
    rw [only hn]
    exact ⟨still, above⟩
  · rintro parent m ⟨s, hh, h⟩
    exact hy.unheard parent m ⟨s, ((hs s).mp hh).1, h⟩

end

lemma addValidCert {reached : Prop} (hy : p.KeptIn { slot := some cert.slot, finalizes := reached } bound)
    (hc : cert.Finalizes → reached) (hi : cert.slot < bound) :
    Keeps (KeptIn { slot := some cert.slot, finalizes := reached } bound) (p.addValidCert cert) := by
  refine (hy.slotState (hy.unpruned _ rfl) hi).bind fun r hk => ?_
  obtain ⟨state, mid⟩ := r
  obtain ⟨hd, hh, hn, _, states, rfl⟩ := hk
  refine bind (P := fun state' : SlotState => state.Same { state' with certs := state.certs } ∧
    ∀ hash, state'.Hears hash → state.Hears hash ∨ cert.certified = some ⟨cert.slot, hash⟩) ?_ ?_
  · exact liftSlot_keeps fun r h => ⟨SlotState.addCert_same h, fun hash => SlotState.addCert_hears h⟩
  rintro state' ⟨hs, hears⟩
  have hw : KeptIn ⟨some cert.slot, reached, fun b => cert.certified = some b, none⟩ bound
      (Pool.setSlot { p with slotStates := states } state') :=
    hd.setSlot (fun b => cert.certified = some b) hh hs (fun _ => False.elim) fun hash h =>
      (hears hash h).imp_right fun eq => ⟨hn.symm ▸ eq, rfl⟩
  have quiet {q : Pool} (other : cert.certified = none)
      (hq : KeptIn ⟨some cert.slot, reached, fun b => cert.certified = some b, none⟩ bound q) :
      KeptIn { slot := some cert.slot, finalizes := reached } bound q :=
    { hq with asleep := fun x m h => Option.some_ne_none _ ((hq.asleep x m h).symm.trans other) }
  cases cert with
  | notar slot hash stake =>
    refine (hw.mark rfl (hc trivial) (FinalityTracker.markNotarized_keeps hy.tracker hi (Nat.lt_succ_self slot))).bind
      fun q ha => ?_
    refine (ha.certifyBlock hi fun b eq => (Option.some.inj eq).symm).bind fun last ht => ?_
    exact ht.congr rfl rfl rfl rfl rfl
  | notarFallback slot hash stake =>
    refine (hw.certifyBlock hi fun b eq => (Option.some.inj eq).symm).bind fun last ht => ?_
    exact ht.congr rfl rfl rfl rfl rfl
  | skip slot stake =>
    have hw := quiet rfl hw
    refine (liftReady_keeps (ReadyTracker.markSkipped_keeps hw.ready hi)).bind fun r hk => ?_
    obtain ⟨ready, newly⟩ := r
    have he := hw.setReady hk.1 hk.2.1
    show KeptIn _ bound ((pushReady _ newly).push _)
    rw [pushReady_eq]
    exact he.congr rfl rfl rfl rfl rfl
  | fastFinal slot hash stake =>
    refine ((quiet rfl hw).mark rfl (hc trivial) (FinalityTracker.markFastFinalized_keeps hy.tracker hi
      (Nat.lt_succ_self slot))).bind fun last ht => ?_
    exact ht.congr rfl rfl rfl rfl rfl
  | final slot stake =>
    refine ((quiet rfl hw).mark rfl (hc trivial) (FinalityTracker.markFinalized_keeps hy.tracker hi
      (Nat.lt_succ_self slot))).bind fun last ht => ?_
    exact ht.congr rfl rfl rfl rfl rfl

lemma forget {d : Scene} (hy : p.KeptIn c bound) (hw : ∀ b, c.woken b → d.woken b) (hs : d.slot = none)
    (hf : d.fresh = none) : p.KeptIn d bound :=
  { hy with
    asleep := fun x m h => hw _ (hy.asleep x m h)
    unpruned := by simp [hs]
    closing := by simp [hs]
    unheard := by simp [hf] }

section
variable (hy : p.Kept bound)
include hy

lemma handling {reached : Prop} (low : p.finalityTracker.firstUnprunedSlot ≤ slot) (clear : reached → p.Clear slot) :
    p.KeptIn { slot := some slot, finalizes := reached } bound :=
  { hy with
    unpruned := fun _ eq => Option.some.inj eq ▸ low
    closing := fun _ eq hr => Option.some.inj eq ▸ by
      refine ⟨(clear hr).1, fun x m => Nat.le_of_not_gt fun lt => ?_⟩
      obtain ⟨first, link⟩ := hy.waiting x m
      exact hy.asleep x m ((clear hr).2 _ link first lt) }

lemma addCert (hc : p.inBounds cert.slot = true → cert.Finalizes → p.Clear cert.slot) (hh : cert.slot < bound) :
    Keeps (fun r => r.2.Kept bound) (p.addCert cert) := by
  unfold Pool.addCert
  split
  · exact hy
  rename_i hb
  have hb : p.inBounds cert.slot = true := by simpa using hb
  have hl : p.finalityTracker.firstUnprunedSlot ≤ cert.slot := of_decide_eq_true (Bool.and_eq_true_iff.mp hb).1
  refine ((hy.handling hl (hc hb)).slotState hl hh).bind fun r hk => ?_
  obtain ⟨state, mid⟩ := r
  obtain ⟨ht, _, _, _, states, rfl⟩ := hk
  have kept {q : Pool} (hq : q.KeptIn { slot := some cert.slot, finalizes := cert.Finalizes } bound) : q.Kept bound :=
    hq.forget (fun _ => id) rfl rfl
  dsimp only
  split
  · exact kept ht
  · exact (Tidy.addValidCert ht id hh).bind fun last hi => kept hi

lemma recordVote (hb : p.inBounds vote.slot = true) (hi : vote.slot < bound) (clear : p.Reaches vote → p.Clear vote.slot) :
    Keeps (fun r => r.2.2.KeptIn { slot := some vote.slot, finalizes := p.Reaches vote } bound ∧
      ∀ cert ∈ r.2.1.certs, cert.slot = vote.slot ∧ (cert.Finalizes → p.Reaches vote)) (p.recordVote vote) := by
  have hl : p.finalityTracker.firstUnprunedSlot ≤ vote.slot := of_decide_eq_true (Bool.and_eq_true_iff.mp hb).1
  have hv := hy.handling hl clear
  unfold Pool.recordVote
  rw [if_neg (by simp [hb])]
  split
  · exact not_false
  rename_i info ho
  have hj : KeptIn { slot := some vote.slot, finalizes := p.Reaches vote } bound (p.judge vote.slot (p.buffer info)) :=
    hv.congr rfl rfl rfl rfl rfl
  refine (hj.slotState hl hi).bind fun r hk => ?_
  obtain ⟨state, mid⟩ := r
  obtain ⟨ht, hh, hn, held, states, rfl⟩ := hk
  dsimp only at hn held ⊢
  split
  · exact ⟨ht, forall_mem_nil _⟩
  refine bind (P := fun r : SlotState × Outputs => state.Same r.1 ∧
    ∀ cert ∈ r.2.certs, cert.slot = vote.slot ∧ (cert.Finalizes → p.Reaches vote)) ?_ ?_
  · refine liftSlot_keeps fun r h => ⟨SlotState.addVote_same h, fun cert hm => ?_⟩
    obtain ⟨hs, hr⟩ := SlotState.addVote_certs h cert hm
    exact ⟨hs.trans hn, fun fin => ⟨info, ho, held ▸ hr fin⟩⟩
  rintro ⟨state', out⟩ ⟨hs, hc⟩
  have ha := ht.setSame hh hs
  exact ⟨ha.congr rfl rfl rfl rfl rfl, hc⟩

lemma pushes (events : List PoolEvent) : Kept bound (events.foldl push p) := by
  induction events generalizing p with
  | nil => exact hy
  | cons event rest ih => exact ih (hy.congr rfl rfl rfl rfl rfl)

lemma repairs (hashes : List BlockHash) : Kept bound (hashes.foldl (fun p hash => p.repair ⟨slot, hash⟩) p) := by
  induction hashes generalizing p with
  | nil => exact hy
  | cons hash rest ih => exact ih (hy.congr rfl rfl rfl rfl rfl)

lemma addVote (hh : vote.slot < bound) (clear : p.Reaches vote → p.Clear vote.slot) :
    Keeps (fun r => r.2.Kept bound) (p.addVote vote) := by
  by_cases hb : p.inBounds vote.slot = true
  swap
  · rw [Pool.addVote, Pool.recordVote, if_pos (by simpa using hb)]
    exact hy
  refine (hy.recordVote hb hh clear).bind fun r hr => ?_
  obtain ⟨result, out, mid⟩ := r
  obtain ⟨hi, hc⟩ := hr
  refine bind (P := KeptIn { slot := some vote.slot, finalizes := p.Reaches vote } bound) ?_
    fun last ht => (Tidy.pushes (ht.forget (fun _ => id) rfl rfl) _).repairs _
  rw [foldlM_eq_run]
  refine run_allowed_outcome Pool.addValidCert _ (KeptIn { slot := some vote.slot, finalizes := p.Reaches vote } bound) _ ?_ hi
    (allowed_of_forall hc mid)
  rintro q cert hd ⟨hs, fin⟩
  rw [← hs] at hd ⊢
  exact hd.addValidCert fin (hs ▸ hh)

lemma links_length : p.finalityTracker.parents.length ≤ p.slotStates.length * eqvocBlockHashMax := by
  have hc : p.finalityTracker.parents.map Prod.fst ⊆
      p.slotStates.flatMap fun s => s.parents.map fun x => ⟨s.slot, x.1⟩ := by
    intro b hm
    obtain ⟨x, hl, rfl⟩ := mem_map.mp hm
    obtain ⟨s, hh, hn, ha⟩ := hy.known x hl
    obtain ⟨y, hi, hs⟩ := mem_map.mp ha
    refine mem_flatMap.mpr ⟨s, hh, mem_map.mpr ⟨y, hi, ?_⟩⟩
    rw [hn, hs]
  have hf := (subperm_of_subset hy.tracker.linked hc).length_le
  rw [length_map, length_flatMap] at hf
  have he : ∀ n ∈ p.slotStates.map (fun s => (s.parents.map fun x => (⟨s.slot, x.1⟩ : BlockId)).length),
      n ≤ eqvocBlockHashMax := by
    intro n hm
    obtain ⟨s, hh, rfl⟩ := mem_map.mp hm
    rw [length_map]
    exact (hy.states s hh).2.2
  have ht := sum_le_card_nsmul _ _ he
  rw [length_map, nsmul_eq_mul, Nat.cast_id] at ht
  exact le_trans hf ht

lemma states_length : p.slotStates.length ≤ p.slotMax / 2 := by
  have hf := length_le_range hy.distinct hy.slots_range
  rw [length_map] at hf
  have := hy.half
  omega

end

lemma waiting_length (ht : p.Tidy bound links c) : p.waiting.length ≤ p.finalityTracker.parents.length := by
  have hc : p.waiting.map Prod.swap ⊆ p.finalityTracker.parents := by
    intro y hm
    obtain ⟨x, hw, rfl⟩ := mem_map.mp hm
    exact (ht.waiting x hw).2
  have hd : (p.waiting.map Prod.swap).Nodup :=
    (List.Nodup.of_map Prod.fst ht.parents).map Prod.swap_injective
  have := (subperm_of_subset hd hc).length_le
  rwa [length_map] at this

lemma awaitParent (ht : p.KeptIn { fresh := some parent } bound) (ho : p.finalityTracker.firstUnprunedSlot ≤ parent.slot)
    (hl : (block, parent) ∈ p.finalityTracker.parents) (hr : 0 < p.slotMax) :
    Keeps (Kept bound) (p.awaitParent block parent) := by
  have kept : p.Kept bound := ht.forget (fun _ => id) rfl rfl
  have unheard : ¬p.Heard parent := ht.unheard parent rfl
  unfold Pool.awaitParent
  split_ifs with hn
  · refine { kept with waiting := ?_, parents := ?_, asleep := ?_, closing := fun _ _ h => False.elim h }
    · intro x hm
      obtain ⟨old, hw, rfl⟩ := mem_map.mp hm
      split
      · exact ⟨ho, hl⟩
      · exact ht.waiting old hw
    · rw [keys_replace parent (parent, block) rfl]
      exact ht.parents
    · intro x hm
      obtain ⟨old, hw, rfl⟩ := mem_map.mp hm
      split
      · exact unheard
      · exact ht.asleep old hw
  · have hf : parent ∉ p.waiting.map Prod.fst := find_none_fresh (Option.not_isSome_iff_eq_none.mp hn)
    have he : p.waiting.length < p.slotMax * eqvocBlockHashMax := by
      have h₁ := ht.waiting_length
      have h₂ := kept.links_length
      have h₃ := kept.states_length
      simp only [eqvocBlockHashMax] at h₂ ⊢
      omega
    refine check (fun hu => absurd he hu) fun _ => ?_
    refine { kept with waiting := ?_, parents := keys_concat ht.parents hf, asleep := ?_, closing := fun _ _ h => False.elim h }
    · exact forall_mem_concat.mpr ⟨ht.waiting, ⟨ho, hl⟩⟩
    · exact forall_mem_concat.mpr ⟨ht.asleep, unheard⟩

end Tidy

structure SameBooks (p p' : Pool) : Prop where
  tracker : p'.finalityTracker = p.finalityTracker
  slotMax : p'.slotMax = p.slotMax

lemma notifyCertified_books {status : SafeToNotar} (h : p.notifyCertified block = .ok (status, p')) :
    p.SameBooks p' := by
  obtain ⟨⟨state, mid⟩, hf, h⟩ := bind_ok.mp h
  obtain ⟨⟨status, state'⟩, _, h⟩ := bind_ok.mp h
  have hb : p.SameBooks mid := by
    obtain ⟨_, _, rfl | ⟨_, _, _, rfl⟩⟩ := slotState_cases hf <;> exact ⟨rfl, rfl⟩
  cases status with
  | missingBlock | awaitingVotes | safeToNotar =>
    cases h
    exact ⟨hb.tracker, hb.slotMax⟩

section
variable (low : p.finalityTracker.firstUnprunedSlot ≤ parent.slot)
include low

lemma Tidy.placeBlock (hy : p.KeptIn { fresh := some parent } bound) (hl : (block, parent) ∈ p.finalityTracker.parents)
    (hr : 0 < p.slotMax) : Keeps (Kept bound) (p.placeBlock block parent) := by
  obtain ⟨ha, hh, _⟩ := hy.tracker.links _ hl
  unfold Pool.placeBlock
  split
  · have ho := hy.notifyCertified ha hh
    cases h : p.notifyCertified block with
    | error e =>
      rw [h] at ho
      exact ho
    | ok r =>
      obtain ⟨status, q⟩ := r
      rw [h] at ho
      have ho : q.KeptIn { fresh := some parent } bound := ho
      obtain ⟨ht, hs⟩ := notifyCertified_books h
      cases status with
      | missingBlock | safeToNotar => exact Tidy.forget ho (fun _ => id) rfl rfl
      | awaitingVotes =>
        exact ho.awaitParent (by rw [ht]; exact low) (by rw [ht]; exact hl) (by rw [hs]; exact hr)
  · exact hy.awaitParent low hl hr

lemma Tidy.addBlock (hy : p.Kept bound) (hi : block.slot < bound) (unheard : ¬p.Heard parent)
    (hg : Outcome (fun r => r.1.firstUnprunedSlot = p.finalityTracker.firstUnprunedSlot) (fun _ => True)
      (p.finalityTracker.addParent block parent)) : Keeps (Kept bound) (p.addBlock block parent) := by
  by_cases hp : parent.slot < block.slot
  swap
  · have he : p.finalityTracker.addParent block parent = .error .parentNotBelow := by
      unfold FinalityTracker.addParent require
      rw [if_neg hp]
      rfl
    rw [Pool.addBlock, he]
    exact not_false
  have ho : 0 < p.slotMax := by
    have := hy.half
    omega
  have hx : p.finalityTracker.parents.length < p.finalityTracker.slotMax * eqvocBlockHashMax := by
    have h₂ := hy.links_length
    have h₃ := hy.states_length
    have h₄ := hy.sizes.1
    simp only [eqvocBlockHashMax] at h₂ ⊢
    omega
  have hd := FinalityTracker.addParent_keeps parent hy.tracker (by omega) hi hx
  cases h : p.finalityTracker.addParent block parent with
  | error e =>
    rw [h] at hd
    rw [Pool.addBlock, h]
    exact hd
  | ok r =>
    obtain ⟨tracker, event⟩ := r
    rw [h] at hd hg
    obtain ⟨hq, hc, hb⟩ := hd
    have hs : tracker.firstUnprunedSlot = p.finalityTracker.firstUnprunedSlot := hg
    have ha : tracker.firstUnprunedSlot ≤ block.slot := by omega
    rw [Pool.addBlock, h]
    refine bind (P := fun r => r = (tracker, event)) rfl ?_
    rintro _ rfl
    refine (hy.announce hb).bind fun q hk => ?_
    obtain ⟨ready, hj, hf, events, rfl⟩ := hk
    -- the new link is not known to its slot state yet
    have ht : Tidy bound p.finalityTracker.parents { fresh := some parent }
        { p with finalityTracker := tracker, readyTracker := ready, poolEvents := events } := by
      refine ⟨hq, hj, (hf.root.trans hy.root).trans hs.symm, ?_, hy.distinct, hy.known, ?_,
        hy.parents, ?_, ?_, hy.asleep, nofun, nofun, fun _ eq => Option.some.inj eq ▸ unheard⟩
      · exact fun s hh => hs ▸ hy.states s hh
      · intro x hw
        obtain ⟨ha, hl⟩ := hy.waiting x hw
        have hk := hy.tracker.links _ hl
        exact ⟨hs ▸ ha, (hc.parents _).mpr ⟨.inl hl, hs ▸ hk.1⟩⟩
      · exact hs ▸ hy.half
      · exact ⟨hc.slotMax ▸ hy.sizes.1, hf.slotMax ▸ hy.sizes.2⟩
    refine (ht.slotState ha hi).bind fun r hk => ?_
    obtain ⟨state, mid⟩ := r
    obtain ⟨hz, hh, hn, _, states, rfl⟩ := hk
    refine bind (P := fun state' : SlotState => state.Same state' ∧ block.hash ∈ state'.parents.map Prod.fst) ?_ ?_
    · exact liftSlot_keeps fun r h => SlotState.notifyParentKnown_same h
    rintro state' ⟨hm, hv⟩
    have hr := hz.setSame hh hm
    have hu : state' ∈ (Pool.setSlot { p with
        finalityTracker := tracker, readyTracker := ready, poolEvents := events, slotStates := states } state').slotStates :=
      mem_map.mpr ⟨state, hh, if_pos hm.slot.symm⟩
    have hl : (block, parent) ∈ tracker.parents := (hc.parents _).mpr ⟨.inr rfl, ha⟩
    refine Tidy.placeBlock (by rw [← hs] at low; exact low) { hr with known := ?_ } hl ho
    intro x mem
    rcases ((hc.parents x).mp mem).1 with old | rfl
    · exact hr.known x old
    · exact ⟨state', hu, hm.slot.trans hn, hv⟩

end

lemma addParent_first {t : FinalityTracker} (hf : t.statusOf block.slot ≠ some (.finalized block.hash))
    (hi : t.statusOf block.slot ≠ some (.implicitlyFinalized block.hash)) :
    Outcome (fun r => r.1.firstUnprunedSlot = t.firstUnprunedSlot) (fun _ => True) (t.addParent block parent) := by
  have other {hash : BlockHash} {x : Except TrackerFault (FinalityTracker × FinalizationEvent)} (ne : block.hash ≠ hash)
      (links : List (BlockId × BlockId)) : Outcome (fun r => r.1.firstUnprunedSlot = t.firstUnprunedSlot) (fun _ => True)
      (if block.hash = hash then x else .ok ({ t with parents := links }, {})) := by
    rw [if_neg ne]
    rfl
  refine check (fun _ => trivial) fun _ => ?_
  split
  · rfl
  split
  · exact check (fun _ => trivial) fun _ => rfl
  refine check (fun _ => trivial) fun _ => ?_
  dsimp only
  split
  · rename_i hash eq
    exact other (fun same => hf (same ▸ eq)) _
  · rename_i hash eq
    exact other (fun same => hi (same ▸ eq)) _
  all_goals rfl

section
variable (hy : p.Kept bound)
include hy

lemma Tidy.widen {wider : Nat} (le : bound ≤ wider)
    (half : wider ≤ p.finalityTracker.firstUnprunedSlot + p.slotMax / 2) : p.Kept wider where
  tracker :=
    { statuses := fun x m => ⟨(hy.tracker.statuses x m).1, lt_of_lt_of_le (hy.tracker.statuses x m).2 le⟩
      distinct := hy.tracker.distinct
      links := fun x m => by
        obtain ⟨ho, hh, hl⟩ := hy.tracker.links x m
        exact ⟨ho, lt_of_lt_of_le hh le, hl⟩
      linked := hy.tracker.linked
      first := le_trans hy.tracker.first le
      room := by
        have := hy.sizes.1
        omega }
  ready :=
    { states := fun s m => by
        obtain ⟨ho, hh⟩ := hy.ready.states s m
        exact ⟨ho, hh.imp_left fun h => le_trans h le⟩
      distinct := hy.ready.distinct
      skipped := fun s m hs => lt_of_lt_of_le (hy.ready.skipped s m hs) le
      root := le_trans hy.ready.root le
      room := by
        have := hy.sizes.2
        rw [hy.root]
        omega }
  root := hy.root
  states s m := by
    obtain ⟨ho, hh, hf⟩ := hy.states s m
    exact ⟨ho, lt_of_lt_of_le hh le, hf⟩
  distinct := hy.distinct
  known := hy.known
  waiting := hy.waiting
  parents := hy.parents
  half := half
  sizes := hy.sizes
  asleep := hy.asleep
  unpruned := hy.unpruned
  closing := hy.closing
  unheard := hy.unheard

inductive Op where
  | advanceEpoch (info : Buffer) (rank : Option Nat) (slot : Nat)
  | addVote (vote : Vote)
  | addCert (cert : Cert)
  | addBlock (block parent : BlockId)

def step (p : Pool) : Op → Except PoolFault Pool
  | .advanceEpoch info rank slot => .ok (p.advanceEpoch info rank slot)
  | .addVote vote => do
    let (_, p) ← p.addVote vote
    .ok p
  | .addCert cert => do
    let (_, p) ← p.addCert cert
    .ok p
  | .addBlock block parent => p.addBlock block parent

def horizon (p : Pool) : Nat := p.finalityTracker.firstUnprunedSlot + p.slotMax / 2

/-- The condition, on the operation and the state it finds. Slots are named below the bound. What may
finalize a slot, a certificate or the vote that completes one, finds it clear. A block comes while its
parent is not pruned, before the certificate of its parent and before it is itself finalized. -/
def Orderly (p : Pool) : Op → Prop
  | .advanceEpoch _ _ _ => True
  | .addVote vote => vote.slot < p.horizon ∧ (p.Reaches vote → p.Clear vote.slot)
  | .addCert cert => cert.slot < p.horizon ∧ (p.inBounds cert.slot = true → cert.Finalizes → p.Clear cert.slot)
  | .addBlock block parent => block.slot < p.horizon ∧ p.finalityTracker.firstUnprunedSlot ≤ parent.slot ∧
      ¬p.Heard parent ∧ p.finalityTracker.statusOf block.slot ≠ some (.finalized block.hash) ∧
      p.finalityTracker.statusOf block.slot ≠ some (.implicitlyFinalized block.hash)

instance (p : Pool) : DecidablePred p.Orderly := fun op => by
  cases op <;> unfold Orderly <;> infer_instance

structure Reclaimed (p : Pool) : Prop where
  slotStates : ∀ s ∈ p.slotStates, p.finalityTracker.firstUnprunedSlot ≤ s.slot
  readyStates : ∀ s ∈ p.readyTracker.states, p.finalityTracker.firstUnprunedSlot ≤ s.slot
  statuses : ∀ x ∈ p.finalityTracker.status, p.finalityTracker.firstUnprunedSlot ≤ x.1
  links : ∀ x ∈ p.finalityTracker.parents, p.finalityTracker.firstUnprunedSlot ≤ x.1.slot
  waiting : ∀ x ∈ p.waiting, p.finalityTracker.firstUnprunedSlot ≤ x.1.slot ∧
    p.finalityTracker.firstUnprunedSlot ≤ x.2.slot

lemma Tidy.reclaimed : p.Reclaimed where
  slotStates s m := (hy.states s m).1
  readyStates s m := hy.root ▸ (hy.ready.states s m).1
  statuses x m := (hy.tracker.statuses x m).1
  links x m := (hy.tracker.links x m).1
  waiting x m := ⟨(hy.waiting x m).1, (hy.waiting_inside m).1⟩

lemma Tidy.settle : p.Kept p.horizon := hy.widen hy.half le_rfl

end

lemma step_keeps {op : Op} (ht : p.Kept p.horizon) (ho : p.Orderly op) :
    Keeps (fun q => q.Kept q.horizon) (p.step op) := by
  cases op with
  | advanceEpoch info rank slot =>
    have hk : (p.advanceEpoch info rank slot).Kept p.horizon := by
      unfold advanceEpoch
      split
      · exact ht.congr rfl rfl rfl rfl rfl
      · split <;> exact ht.congr rfl rfl rfl rfl rfl
    exact hk.settle
  | addVote vote =>
    exact (ht.addVote ho.1 ho.2).bind fun r hk => Tidy.settle hk
  | addCert cert =>
    exact (ht.addCert ho.2 ho.1).bind fun r hk => Tidy.settle hk
  | addBlock block parent =>
    obtain ⟨hl, low, unheard, hf, hi⟩ := ho
    exact (ht.addBlock low hl unheard (addParent_first hf hi)).mono fun q hk => hk.settle

lemma init_kept (hw : slotsPerWindow ≤ slotMax) (slot : Nat) (buffer : Buffer → EpochInfo) :
    (init slotMax slot buffer).Kept (init slotMax slot buffer).horizon := by
  have hl := le_pow2Up slotMax
  simp only [slotsPerWindow] at hw
  refine ⟨⟨by simp [init, FinalityTracker.init], by simp [init, FinalityTracker.init], by simp [init, FinalityTracker.init],
    by simp [init, FinalityTracker.init], ?_, ?_⟩, ⟨by simp [init], by simp [init], by simp [init], ?_, ?_⟩, rfl,
    by simp [init], by simp [init], fun x m => by simp [init, FinalityTracker.init] at m, by simp [init], by simp [init],
    le_rfl, ⟨hl, ?_⟩, by simp [init], nofun, nofun, nofun⟩
  all_goals simp only [horizon, init, FinalityTracker.init]; omega

end Pool

/-- Runs of the pool that are orderly leave nothing behind: after every operation nothing is held
for a slot below the first unpruned one, and no acquire finds its pool empty. -/
theorem pool_reclaimed {slotMax : Nat} (window : slotsPerWindow ≤ slotMax) (slot : Nat) (buffer : Buffer → EpochInfo)
    (ops : List Op) (orderly : Allowed step Orderly (.init slotMax slot buffer) ops) :
    Outcome Reclaimed (fun e => ¬ e.PoolEmpty) (run step (.init slotMax slot buffer) ops) := by
  have kept := run_allowed_outcome step Orderly (fun p => p.Kept p.horizon) (fun e => ¬ e.PoolEmpty)
    (fun p op tidy orderly => step_keeps tidy orderly) (init_kept window slot buffer) orderly
  exact kept.mono fun p tidy => tidy.reclaimed

def certifiedParents : List Op :=
  [.advanceEpoch .curr none 0, .addBlock ⟨1, 1⟩ ⟨0, 0⟩, .addCert (.notar 0 0 1), .addCert (.fastFinal 1 1 1),
    .addBlock ⟨2, 2⟩ ⟨1, 1⟩, .addCert (.notar 1 1 1), .addVote (.notar 2 2 0)]

theorem certified_parent_reclaimed :
    ∃ p, run step (.init 8 0 fun _ => ⟨[1]⟩) certifiedParents = .ok p ∧ p.Reclaimed := by
  have reclaimed := @pool_reclaimed 8 (by decide) 0 (fun _ => ⟨[1]⟩) certifiedParents (by decide +kernel)
  have ok : faultOf (run step (.init 8 0 fun _ => ⟨[1]⟩) certifiedParents) = none := by decide +kernel
  generalize run step (.init 8 0 fun _ => ⟨[1]⟩) certifiedParents = x at reclaimed ok
  cases x with
  | error e => cases ok
  | ok p => exact ⟨p, rfl, reclaimed⟩

/-- A block waits for its parent and is finalized, and with it its parent: the entry stays. A chain
of blocks that are finalized one after the other leaves one entry each, until there are no more. -/
theorem waiting_entries_left :
    (∃ p, run step (.init 8 0 fun _ => ⟨[1]⟩)
        [.advanceEpoch .curr none 0, .addBlock ⟨1, 1⟩ ⟨0, 0⟩, .addCert (.fastFinal 1 1 1)] = .ok p ∧
      p.finalityTracker.firstUnprunedSlot = 1 ∧ ¬ p.Reclaimed) ∧
    faultOf (run step (.init 4 0 fun _ => ⟨[1]⟩) (.advanceEpoch .curr none 0 :: (List.range 29).flatMap fun i =>
      [.addBlock ⟨i + 1, 0⟩ ⟨i, 0⟩, .addCert (.fastFinal (i + 1) 0 1)])) = some .waitingPoolEmpty := by
  refine ⟨⟨_, rfl, rfl, fun reclaimed => ?_⟩, by decide +kernel⟩
  exact absurd (reclaimed.waiting (⟨0, 0⟩, ⟨1, 1⟩) (by decide)).1 (by decide)

end Firebam.Votor
