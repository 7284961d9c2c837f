import Firebam.Lib.Keyed
import Firebam.Votor.ParentReady

/-! The room in the pools of the two trackers. -/
namespace Firebam.Votor
open Lib List Outcome Option

variable {t'' : FinalityTracker} {bound slot n marked : Nat} {status : Status} {event : FinalizationEvent}
  {block parent id : BlockId} {state : ReadyState} {slots : List Nat} {parents : List BlockId}

def TrackerFault.PoolEmpty : TrackerFault → Prop
  | .statusPoolEmpty | .parentPoolEmpty => True
  | .consensusSafetyViolation | .parentNotBelow | .otherParent => False

def ReadyFault.PoolEmpty : ReadyFault → Prop
  | .statePoolExhausted => True
  | .notarFallbacksOverflow | .readyIdsOverflow | .potentialParentsFull | .newlyCertifiedFull => False

structure FinalizationEvent.Below (bound : Nat) (event : FinalizationEvent) : Prop where
  finalized : ∀ block ∈ event.finalized, block.slot < bound
  implicitlyFinalized : ∀ block ∈ event.implicitlyFinalized, block.slot < bound
  implicitlySkipped : ∀ slot ∈ event.implicitlySkipped, slot < bound

lemma FinalizationEvent.Below.empty (bound : Nat) : FinalizationEvent.Below bound {} :=
  ⟨by simp, by simp, by simp⟩

namespace FinalityTracker

/-- Statuses and links are for slots between the first unpruned one and the bound. -/
structure Within (bound : Nat) (t : FinalityTracker) : Prop where
  statuses : ∀ x ∈ t.status, t.firstUnprunedSlot ≤ x.1 ∧ x.1 < bound
  distinct : (t.status.map Prod.fst).Nodup
  links : ∀ x ∈ t.parents, t.firstUnprunedSlot ≤ x.1.slot ∧ x.1.slot < bound ∧ x.2.slot < x.1.slot
  linked : (t.parents.map Prod.fst).Nodup
  first : t.firstUnprunedSlot ≤ bound
  room : bound ≤ t.firstUnprunedSlot + t.slotMax

structure FramedBelow (top : Nat) (t t' : FinalityTracker) : Prop where
  slotMax : t'.slotMax = t.slotMax
  parents : t'.parents = t.parents
  first : t'.firstUnprunedSlot = t.firstUnprunedSlot
  above : ∀ k, top ≤ k → t'.statusOf k = t.statusOf k

/-- The slot is not decided, so nothing from it on is pruned. -/
def Undecided (t : FinalityTracker) (slot : Nat) : Prop := ∀ status ∈ t.statusOf slot, ¬status.Decided

instance (t : FinalityTracker) (slot : Nat) : Decidable (t.Undecided slot) :=
  inferInstanceAs (Decidable (∀ status ∈ t.statusOf slot, _))

structure Advanced (top : Nat) (t t' : FinalityTracker) : Prop where
  slotMax : t'.slotMax = t.slotMax
  first : t.firstUnprunedSlot ≤ t'.firstUnprunedSlot
  parents : ∀ x, x ∈ t'.parents ↔ x ∈ t.parents ∧ t'.firstUnprunedSlot ≤ x.1.slot
  below : t.Undecided top → t.firstUnprunedSlot < top → t'.firstUnprunedSlot < top ∧ t'.Undecided top

variable {t t' : FinalityTracker} {top : Nat}

lemma FramedBelow.refl (t : FinalityTracker) : t.FramedBelow top t := ⟨rfl, rfl, rfl, fun _ _ => rfl⟩

lemma FramedBelow.trans (hf : t.FramedBelow top t') (hs : t'.FramedBelow top t'') : t.FramedBelow top t'' :=
  ⟨hs.slotMax.trans hf.slotMax, hs.parents.trans hf.parents, hs.first.trans hf.first,
    fun k le => (hs.above k le).trans (hf.above k le)⟩

lemma Within.advanced_refl (hw : t.Within bound) : t.Advanced top t :=
  ⟨rfl, le_rfl, fun x => ⟨fun hh => ⟨hh, (hw.links x hh).1⟩, And.left⟩, fun hu lt => ⟨lt, hu⟩⟩

lemma FramedBelow.advanced (hf : t.FramedBelow top t') (hs : t'.Advanced top t'') : t.Advanced top t'' := by
  refine ⟨hs.slotMax.trans hf.slotMax, hf.first ▸ hs.first, fun x => hf.parents ▸ hs.parents x, fun hu lt => ?_⟩
  exact hs.below (fun status eq => hu status (hf.above top le_rfl ▸ eq)) (hf.first ▸ lt)

abbrev Keeps {α : Type} (bound : Nat) (tracker : α → FinalityTracker) (more : α → Prop) (x : Except TrackerFault α) : Prop :=
  Outcome (fun r => (tracker r).Within bound ∧ more r) (fun e => ¬ e.PoolEmpty) x

section
variable (hw : t.Within bound) (ht : top ≤ bound)
include hw ht

lemma statusInsert_keeps (hl : t.firstUnprunedSlot ≤ slot) (hp : slot < top) :
    Keeps bound Prod.snd (fun r => t.FramedBelow top r.2) (t.statusInsert slot status) := by
  have hi : slot < bound := hp.trans_le ht
  unfold statusInsert
  split
  · rename_i old there
    refine ⟨{ hw with statuses := ?_, distinct := ?_ }, rfl, rfl, rfl, fun k le => ?_⟩
    · intro x hm
      obtain ⟨old, hh, rfl⟩ := mem_map.mp hm
      split
      · exact ⟨hl, hi⟩
      · exact hw.statuses old hh
    · rw [keys_replace slot (slot, status) rfl]
      exact hw.distinct
    · have some := Option.isSome_iff_exists.mpr ⟨old, there⟩
      rw [statusOf, Option.isSome_map] at some
      have other := find_replace (show (slot, status).1 = slot from rfl) some k
      rw [if_neg (by omega)] at other
      exact congrArg (Option.map Prod.snd) other
  · rename_i hn
    have hf : slot ∉ t.status.map Prod.fst := find_none_fresh (map_eq_none_iff.mp hn)
    have m : ∀ k ∈ t.status.map Prod.fst, t.firstUnprunedSlot ≤ k ∧ k < bound := by
      intro k hm
      obtain ⟨x, hh, rfl⟩ := mem_map.mp hm
      exact hw.statuses x hh
    have he := length_lt_range hw.distinct m hf hl hi
    rw [length_map] at he
    have hr := hw.room
    refine check (fun hu => absurd (by omega) hu) fun _ => ?_
    refine ⟨{ hw with statuses := ?_, distinct := keys_concat hw.distinct hf }, rfl, rfl, rfl, fun k le => ?_⟩
    · exact forall_mem_concat.mpr ⟨hw.statuses, ⟨hl, hi⟩⟩
    · have other := find_concat (show (t.status.find? fun x => decide (x.1 = (slot, status).1)) = none from
        map_eq_none_iff.mp hn) k
      rw [if_neg (by dsimp only; omega)] at other
      exact congrArg (Option.map Prod.snd) other

variable (hb : event.Below bound)
include hb

lemma skipGap_keeps (m : ∀ slot ∈ slots, t.firstUnprunedSlot ≤ slot ∧ slot < top) :
    Keeps bound (fun r => r.2.1) (fun r => t.FramedBelow top r.2.1 ∧ r.2.2.Below bound) (skipGap slots t event) := by
  induction slots generalizing t event with
  | nil => exact ⟨hw, .refl t, hb⟩
  | cons slot rest ih =>
    have hh := m slot (.head _)
    refine (statusInsert_keeps hw ht hh.1 hh.2).bind fun r hk => ?_
    obtain ⟨old, t'⟩ := r
    obtain ⟨hi, hf⟩ := hk
    have hm : event.Below bound →
        FinalizationEvent.Below bound { event with implicitlySkipped := event.implicitlySkipped ++ [slot] } := by
      refine fun hb => { hb with implicitlySkipped := fun s hx => ?_ }
      rcases mem_concat.mp hx with old | hn
      · exact hb.implicitlySkipped s old
      · exact hn ▸ hh.2.trans_le ht
    have hg := ih hi (hm hb) fun s hx => hf.first ▸ m s (.tail _ hx)
    match old with
    | some .implicitlySkipped => exact ⟨hi, hf, hb⟩
    | some .finalPendingNotar | some (.finalized _) | some (.implicitlyFinalized _) => exact not_false
    | none | some (.notarized _) => exact hg.mono fun r hk => ⟨hk.1, hf.trans hk.2.1, hk.2.2⟩

lemma finalizeImplicitly_keeps (hl : t.firstUnprunedSlot ≤ block.slot) (hh : block.slot < top) :
    Keeps bound (fun r => r.2.1) (fun r => t.FramedBelow top r.2.1 ∧ r.2.2.Below bound) (t.finalizeImplicitly block event) := by
  refine (statusInsert_keeps hw ht hl hh).bind fun r hk => ?_
  obtain ⟨old, t'⟩ := r
  obtain ⟨hi, hf⟩ := hk
  have hr : FinalizationEvent.Below bound { event with implicitlyFinalized := event.implicitlyFinalized ++ [block] } := by
    refine { hb with implicitlyFinalized := fun b hm => ?_ }
    rcases mem_concat.mp hm with old | hn
    · exact hb.implicitlyFinalized b old
    · exact hn ▸ hh.trans_le ht
  -- the old status is put back
  have he : ∀ status, Keeps bound (fun r : Bool × FinalityTracker × FinalizationEvent => r.2.1)
      (fun r => t.FramedBelow top r.2.1 ∧ r.2.2.Below bound)
      (t'.statusInsert block.slot status >>= fun r => Except.ok (false, r.2, event)) := by
    intro status
    refine (statusInsert_keeps hi ht (hf.first ▸ hl) hh).bind fun r hk => ?_
    exact ⟨hk.1, hf.trans hk.2, hb⟩
  match old with
  | some (.finalized hash) => exact check (fun _ => not_false) fun _ => he _
  | some (.implicitlyFinalized hash) => exact check (fun _ => not_false) fun _ => he _
  | some (.notarized hash) => exact check (fun _ => not_false) fun _ => ⟨hi, hf, hr⟩
  | some .implicitlySkipped => exact not_false
  | some .finalPendingNotar | none => exact ⟨hi, hf, hr⟩

lemma handleImplicitlyFinalized_keeps {source : Nat} (m : source ≤ top) :
    Keeps bound Prod.fst (fun r => t.FramedBelow top r.1 ∧ r.2.Below bound)
      (handleImplicitlyFinalized n source block t event) := by
  induction n generalizing source block t event with
  | zero => exact not_false
  | succ n ih =>
    refine check (fun _ => not_false) fun hl => ?_
    split_ifs with hu
    · exact ⟨hw, .refl t, hb⟩
    · have hg : ∀ slot ∈ between block.slot source, t.firstUnprunedSlot ≤ slot ∧ slot < top := by
        intro slot hm
        obtain ⟨i, hi, rfl⟩ := mem_map.mp hm
        have := mem_range.mp hi
        omega
      refine (skipGap_keeps hw ht hb hg).bind fun r hk => ?_
      obtain ⟨more, t₁, event₁⟩ := r
      obtain ⟨hc, hr, ho⟩ := hk
      dsimp only at hc hr ho ⊢
      split
      · exact ⟨hc, hr, ho⟩
      refine (finalizeImplicitly_keeps hc ht ho (hr.first ▸ not_lt.mp hu) (by omega)).bind
        fun r hk => ?_
      obtain ⟨more, t₂, event₂⟩ := r
      obtain ⟨hh, ha, he⟩ := hk
      have hf := hr.trans ha
      split
      · exact ⟨hh, hf, he⟩
      split
      · exact ⟨hh, hf, he⟩
      · exact (ih hh he (by omega)).mono fun r hk => ⟨hk.1, hf.trans hk.2.1, hk.2.2⟩

end

lemma le_advance (t : FinalityTracker) (n first : Nat) : first ≤ t.advance n first := by
  induction n generalizing first with
  | zero => exact le_rfl
  | succ n ih =>
    unfold advance
    split
    · split
      · exact le_trans (Nat.le_succ first) (ih (first + 1))
      · exact le_rfl
    · exact le_rfl

lemma advance_le (hb : ∀ x ∈ t.status, x.1 < bound) (n first : Nat) (hs : first ≤ bound) :
    t.advance n first ≤ bound := by
  induction n generalizing first with
  | zero => exact hs
  | succ n ih =>
    unfold advance
    split
    · rename_i status hf
      obtain ⟨x, hh, _⟩ := map_eq_some_iff.mp hf
      have hn : x.1 = first + 1 := by simpa using find?_some hh
      have := hb x (mem_of_find?_eq_some hh)
      split
      · exact ih (first + 1) (by omega)
      · exact hs
    · exact hs

lemma advance_lt (hu : t.Undecided top) (n first : Nat) (lt : first < top) : t.advance n first < top := by
  induction n generalizing first with
  | zero => exact lt
  | succ n ih =>
    unfold advance
    split
    · rename_i status hf
      split
      · rename_i hd
        have ne : first + 1 ≠ top := fun eq => hu status (eq ▸ hf) hd
        exact ih (first + 1) (by omega)
      · exact lt
    · exact lt

lemma prune_keeps (top : Nat) (hw : t.Within bound) : t.prune.Within bound ∧ t.Advanced top t.prune := by
  have ho := le_advance t t.status.length t.firstUnprunedSlot
  have hl : ∀ x, x ∈ t.prune.parents ↔ x ∈ t.parents ∧ t.prune.firstUnprunedSlot ≤ x.1.slot := by
    intro x
    simp [prune]
  have m := advance_le (fun x hh => (hw.statuses x hh).2) t.status.length t.firstUnprunedSlot hw.first
  refine ⟨⟨?_, keys_filter hw.distinct, ?_, keys_filter hw.linked, m, ?_⟩, rfl, ho, hl, fun hu lt => ?_⟩
  · intro x hm
    obtain ⟨hh, hk⟩ := mem_filter.mp hm
    have := hw.statuses x hh
    simp only [Bool.not_eq_true', decide_eq_false_iff_not, not_and, not_lt] at hk
    exact ⟨hk this.1, this.2⟩
  · intro x hm
    obtain ⟨hh, hk⟩ := (hl x).mp hm
    exact ⟨hk, (hw.links x hh).2⟩
  · exact le_trans hw.room (Nat.add_le_add_right ho _)
  · refine ⟨advance_lt hu _ _ lt, fun status eq => ?_⟩
    obtain ⟨x, hx, rfl⟩ := map_eq_some_iff.mp eq
    have hm := (mem_filter.mp (mem_of_find?_eq_some hx)).1
    have hk : x.1 = top := by simpa using find?_some hx
    refine hu _ (map_eq_some_iff.mpr ⟨x, ?_, rfl⟩)
    have := find_eq_of_mem hw.distinct hm
    rwa [hk] at this

lemma handleFinalizedBlock_keeps (hw : t.Within bound) (ht : top ≤ bound) (hh : block.slot < top) :
    Keeps bound Prod.fst (fun r => t.Advanced top r.1 ∧ r.2.Below bound) (t.handleFinalizedBlock block {}) := by
  have hr : Within bound { t with highestFinalizedSlot := max block.slot t.highestFinalizedSlot } := ⟨hw.statuses,
    hw.distinct, hw.links, hw.linked, hw.first, hw.room⟩
  have hf : t.FramedBelow top { t with highestFinalizedSlot := max block.slot t.highestFinalizedSlot } :=
    ⟨rfl, rfl, rfl, fun _ _ => rfl⟩
  have hb : FinalizationEvent.Below bound { finalized := some block } :=
    ⟨fun b hn => some.inj hn ▸ hh.trans_le ht, by simp, by simp⟩
  unfold handleFinalizedBlock
  dsimp only
  split
  · have hp := prune_keeps top hr
    exact ⟨hp.1, hf.advanced hp.2, hb⟩
  · refine (handleImplicitlyFinalized_keeps hr ht hb (le_of_lt hh)).bind fun r hk => ?_
    have hp := prune_keeps top hk.1
    exact ⟨hp.1, hf.advanced (hk.2.1.advanced hp.2), hk.2.2⟩

section

variable (hw : t.Within bound) (ht : top ≤ bound)
include hw ht

lemma markFastFinalized_keeps (hh : block.slot < top) :
    Keeps bound Prod.fst (fun r => t.Advanced top r.1 ∧ r.2.Below bound) (t.markFastFinalized block) := by
  unfold markFastFinalized
  split
  · exact ⟨hw, hw.advanced_refl, .empty bound⟩
  rename_i hu
  refine (statusInsert_keeps hw ht (not_lt.mp hu) hh).bind fun r hk => ?_
  obtain ⟨old, t'⟩ := r
  obtain ⟨hi, hf⟩ := hk
  have hq := hf.advanced hi.advanced_refl
  have hd := (handleFinalizedBlock_keeps hi ht hh).mono fun r hk =>
    And.intro hk.1 (And.intro (hf.advanced hk.2.1) hk.2.2)
  match old with
  | some (.finalized hash) | some (.implicitlyFinalized hash) =>
    exact check (fun _ => not_false) fun _ => ⟨hi, hq, .empty bound⟩
  | some (.notarized hash) => exact check (fun _ => not_false) fun _ => hd
  | some .implicitlySkipped => exact not_false
  | some .finalPendingNotar | none => exact hd

lemma markNotarized_keeps (hh : block.slot < top) :
    Keeps bound Prod.fst (fun r => t.Advanced top r.1 ∧ r.2.Below bound) (t.markNotarized block) := by
  unfold markNotarized
  split
  · exact ⟨hw, hw.advanced_refl, .empty bound⟩
  rename_i hu
  refine (statusInsert_keeps hw ht (not_lt.mp hu) hh).bind fun r hk => ?_
  obtain ⟨old, t'⟩ := r
  obtain ⟨hi, hf⟩ := hk
  have hq := hf.advanced hi.advanced_refl
  match old with
  | none | some .implicitlySkipped => exact ⟨hi, hq, .empty bound⟩
  | some (.notarized hash) | some (.finalized hash) | some (.implicitlyFinalized hash) =>
    exact check (fun _ => not_false) fun _ => ⟨hi, hq, .empty bound⟩
  | some .finalPendingNotar =>
    refine (statusInsert_keeps hi ht (hf.first ▸ not_lt.mp hu) hh).bind fun r hk => ?_
    exact (handleFinalizedBlock_keeps hk.1 ht hh).mono fun s hl =>
      ⟨hl.1, (hf.trans hk.2).advanced hl.2.1, hl.2.2⟩

lemma markFinalized_keeps (hh : slot < top) :
    Keeps bound Prod.fst (fun r => t.Advanced top r.1 ∧ r.2.Below bound) (t.markFinalized slot) := by
  unfold markFinalized
  split
  · exact ⟨hw, hw.advanced_refl, .empty bound⟩
  rename_i hu
  refine (statusInsert_keeps hw ht (not_lt.mp hu) hh).bind fun r hk => ?_
  obtain ⟨old, t'⟩ := r
  obtain ⟨hi, hf⟩ := hk
  have hq := hf.advanced hi.advanced_refl
  match old with
  | none | some .finalPendingNotar | some (.finalized _) | some (.implicitlyFinalized _) =>
    exact ⟨hi, hq, .empty bound⟩
  | some (.notarized hash) =>
    refine (statusInsert_keeps hi ht (hf.first ▸ not_lt.mp hu) hh).bind fun r hk => ?_
    refine (handleFinalizedBlock_keeps hk.1 ht (show (⟨slot, hash⟩ : BlockId).slot < top from hh)).mono fun s hl => ?_
    exact ⟨hl.1, (hf.trans hk.2).advanced hl.2.1, hl.2.2⟩
  | some .implicitlySkipped => exact not_false

end

structure LinkAdded (block parent : BlockId) (t t' : FinalityTracker) : Prop where
  slotMax : t'.slotMax = t.slotMax
  parents : ∀ x, x ∈ t'.parents ↔ (x ∈ t.parents ∨ x = (block, parent)) ∧ t'.firstUnprunedSlot ≤ x.1.slot

lemma Advanced.linkAdded (hl : t'.Advanced top t'') (ha : t'.parents = t.parents ++ [(block, parent)])
    (hs : t'.slotMax = t.slotMax) : LinkAdded block parent t t'' := by
  refine ⟨hl.slotMax.trans hs, fun x => ?_⟩
  rw [hl.parents, ha, mem_append, mem_singleton]

lemma addParent_keeps (parent : BlockId) (hb : t.Within bound) (hg : t.firstUnprunedSlot ≤ block.slot) (hi : block.slot < bound)
    (ho : t.parents.length < t.slotMax * eqvocBlockHashMax) :
    Keeps bound Prod.fst (fun r => LinkAdded block parent t r.1 ∧ r.2.Below bound) (t.addParent block parent) := by
  refine check (fun _ => not_false) fun hl => ?_
  rw [if_neg (not_lt.mpr hg)]
  split
  · rename_i known hf
    refine check (fun _ => not_false) fun hs => ?_
    subst hs
    have hh : (block, known) ∈ t.parents := by
      obtain ⟨x, ht, rfl⟩ := map_eq_some_iff.mp hf
      have ha : x.1 = block := by simpa using find?_some ht
      exact ha ▸ mem_of_find?_eq_some ht
    refine ⟨hb, ⟨rfl, fun x => ⟨fun m => ⟨.inl m, (hb.links x m).1⟩, ?_⟩⟩, .empty bound⟩
    rintro ⟨hc | rfl, _⟩
    · exact hc
    · exact hh
  · rename_i hn
    refine check (fun hu => absurd ho hu) fun _ => ?_
    have hr : block ∉ t.parents.map Prod.fst := find_none_fresh (map_eq_none_iff.mp hn)
    have hd : Within bound { t with parents := t.parents ++ [(block, parent)] } := by
      refine ⟨hb.statuses, hb.distinct, fun x hm => ?_, keys_concat hb.linked hr, hb.first,
        hb.room⟩
      rcases mem_concat.mp hm with hc | hj
      · exact hb.links x hc
      · rw [hj]
        exact ⟨hg, hi, hl⟩
    have hq : LinkAdded block parent t { t with parents := t.parents ++ [(block, parent)] } :=
      (hd.advanced_refl : Advanced bound _ _).linkAdded rfl rfl
    have hw : Keeps bound Prod.fst (fun r => LinkAdded block parent t r.1 ∧ r.2.Below bound)
        (handleImplicitlyFinalized block.slot block.slot parent
          { t with parents := t.parents ++ [(block, parent)] } {} >>= fun r => .ok (r.1.prune, r.2)) := by
      refine (handleImplicitlyFinalized_keeps hd le_rfl (.empty bound) (le_of_lt hi)).bind fun r he => ?_
      have hp := prune_keeps bound he.1
      exact ⟨hp.1, (he.2.1.advanced hp.2).linkAdded rfl rfl, he.2.2⟩
    dsimp only
    split
    · split
      · exact hw
      · exact ⟨hd, hq, .empty bound⟩
    · split
      · exact hw
      · exact ⟨hd, hq, .empty bound⟩
    all_goals exact ⟨hd, hq, .empty bound⟩

end FinalityTracker

namespace ReadyTracker

/-- The states are for slots from the root to the bound, which is one above the last slot that may
be skipped, and perhaps for the slot that the loop of mark_skipped reaches when its counter wraps. -/
structure Within (bound : Nat) (t : ReadyTracker) : Prop where
  states : ∀ s ∈ t.states, t.root ≤ s.slot ∧ (s.slot ≤ bound ∨ s.slot = wordSize - 1)
  distinct : (t.states.map ReadyState.slot).Nodup
  skipped : ∀ s ∈ t.states, s.skip = true → s.slot < bound
  root : t.root ≤ bound
  room : bound + 2 ≤ t.root + t.slotMax

structure Framed (t t' : ReadyTracker) : Prop where
  slotMax : t'.slotMax = t.slotMax
  root : t'.root = t.root

variable {t t' : ReadyTracker}

lemma Framed.refl (t : ReadyTracker) : t.Framed t := ⟨rfl, rfl⟩

lemma Framed.trans {t'' : ReadyTracker} (hf : t.Framed t') (hs : t'.Framed t'') : t.Framed t'' :=
  ⟨hs.slotMax.trans hf.slotMax, hs.root.trans hf.root⟩

abbrev Keeps {α : Type} (bound : Nat) (t : ReadyTracker) (tracker : α → ReadyTracker) (more : α → Prop)
    (x : Except ReadyFault α) : Prop :=
  Outcome (fun r => (tracker r).Within bound ∧ t.Framed (tracker r) ∧ more r) (fun e => ¬ e.PoolEmpty) x

section
variable (hw : t.Within bound)
include hw

lemma Within.length_lt (hl : t.root ≤ slot) (hi : slot ≤ bound ∨ slot = wordSize - 1)
    (hf : slot ∉ t.states.map ReadyState.slot) : t.states.length < t.slotMax := by
  have hc : slot :: t.states.map ReadyState.slot ⊆ (wordSize - 1) :: List.range' t.root (bound + 1 - t.root) := by
    intro k hm
    have m : t.root ≤ k ∧ (k ≤ bound ∨ k = wordSize - 1) := by
      rcases mem_cons.mp hm with rfl | ho
      · exact ⟨hl, hi⟩
      · obtain ⟨s, hh, rfl⟩ := mem_map.mp ho
        exact hw.states s hh
    rcases m.2 with hu | hr
    · exact .tail _ (List.mem_range'_1.mpr (by omega))
    · exact hr ▸ .head _
  have := (subperm_of_subset (nodup_cons.mpr ⟨hf, hw.distinct⟩) hc).length_le
  rw [length_cons, length_cons, length_range', length_map] at this
  have := hw.room
  have := hw.root
  omega

lemma slotState_keeps (hl : t.root ≤ slot) (hh : slot ≤ bound ∨ slot = wordSize - 1) :
    Keeps bound t Prod.snd (fun r => r.1 ∈ r.2.states ∧ r.1.slot = slot) (t.slotState slot) := by
  unfold slotState
  split
  · rename_i state hf
    exact ⟨hw, .refl t, mem_of_find?_eq_some hf, by simpa using find?_some hf⟩
  · rename_i hn
    have hr : slot ∉ t.states.map ReadyState.slot := find_none_fresh hn
    refine check (fun hu => absurd (hw.length_lt hl hh hr) hu) fun _ => ?_
    refine ⟨⟨?_, keys_concat hw.distinct hr, ?_, hw.root, hw.room⟩, ⟨rfl, rfl⟩, by simp, rfl⟩
    · exact forall_mem_concat.mpr ⟨hw.states, ⟨hl, hh⟩⟩
    · intro s hm hs
      rcases mem_concat.mp hm with ho | he
      · exact hw.skipped s ho hs
      · rw [he] at hs
        cases hs

lemma Within.set (hh : state ∈ t.states) {state' : ReadyState}
    (hl : state'.slot = state.slot) (hs : state'.skip = true → state'.slot < bound) : (t.set state').Within bound := by
  refine { hw with states := ?_, distinct := ?_, skipped := ?_ }
  · intro s hm
    obtain ⟨old, hi, rfl⟩ := mem_map.mp hm
    split
    · exact hl ▸ hw.states state hh
    · exact hw.states old hi
  · rw [ReadyTracker.set, keys_replace state'.slot state' rfl]
    exact hw.distinct
  · intro s hm
    obtain ⟨old, hi, rfl⟩ := mem_map.mp hm
    split
    · exact hs
    · exact hw.skipped old hi

end

lemma addToReady_same (state : ReadyState) (id : BlockId) :
    Outcome (fun state' => state'.slot = state.slot ∧ state'.skip = state.skip) (fun e => ¬ e.PoolEmpty)
      (addToReady state id) := by
  unfold addToReady
  split
  · exact ⟨rfl, rfl⟩
  · exact check (fun _ => not_false) fun _ => ⟨rfl, rfl⟩

section
variable (hwi : t.Within bound)
include hwi

lemma passOn_keeps {room : Nat} {certified : List ParentReady} (hl : t.root ≤ slot) (hi : slot ≤ bound) :
    Keeps bound t Prod.fst (fun _ => True) (passOn parents room n slot t certified) := by
  induction n generalizing slot t certified with
  | zero => exact ⟨hwi, .refl t, trivial⟩
  | succ n ih =>
    refine (slotState_keeps hwi hl (.inl hi)).bind fun r hk => ?_
    obtain ⟨state, t₁⟩ := r
    obtain ⟨hb, hf, hh, hn⟩ := hk
    have he : Outcome (fun r : ReadyState × List ParentReady => r.1.slot = state.slot ∧ r.1.skip = state.skip)
        (fun e : ReadyFault => ¬ e.PoolEmpty) (parents.foldlM (fun (acc : ReadyState × List ParentReady) id => do
          let state ← addToReady acc.1 id
          require .newlyCertifiedFull (acc.2.length < room)
          .ok (state, acc.2 ++ [⟨slot, id⟩])) (state, certified)) := by
      refine foldlM ⟨rfl, rfl⟩ fun acc id _ hs => ?_
      refine (addToReady_same acc.1 id).bind fun state' hk => ?_
      exact check (fun _ => not_false) fun _ => ⟨hk.1.trans hs.1, hk.2.trans hs.2⟩
    -- the state with its new parents is written back, and the walk goes on past a skipped slot
    have hr : ∀ r : ReadyState × List ParentReady, r.1.slot = state.slot ∧ r.1.skip = state.skip →
        Keeps bound t Prod.fst (fun _ => True) (if !r.1.skip then Except.ok (t₁.set r.1, r.2)
          else passOn parents room n (slot + 1) (t₁.set r.1) r.2) := by
      rintro ⟨state', certified'⟩ ⟨ht, ha⟩
      have hw : (t₁.set state').Within bound :=
        hb.set hh ht fun hd => ht ▸ hb.skipped state hh (ha ▸ hd)
      have hm : t.Framed (t₁.set state') := hf.trans ⟨rfl, rfl⟩
      split_ifs with hc
      · exact ⟨hw, hm, trivial⟩
      · have hd : state.skip = true := by rw [← ha]; simpa using hc
        have hx : slot < bound := hn ▸ hb.skipped state hh hd
        have ho : (t₁.set state').root ≤ slot + 1 := by rw [hm.root]; omega
        refine (ih hw ho (by omega)).mono fun r hk => ?_
        exact ⟨hk.1, hm.trans hk.2.1, trivial⟩
    dsimp only
    split
    · exact he.bind hr
    · exact hr _ ⟨rfl, rfl⟩

lemma markNotarFallback_keeps (hi : id.slot < bound) :
    Keeps bound t Prod.fst (fun _ => True) (t.markNotarFallback id) := by
  unfold markNotarFallback
  split
  · exact ⟨hwi, .refl t, trivial⟩
  rename_i hu
  have hl := not_lt.mp hu
  refine (slotState_keeps hwi hl (.inl (le_of_lt hi))).bind fun r hk => ?_
  obtain ⟨state, t₁⟩ := r
  obtain ⟨ht, hf, hh, hn⟩ := hk
  dsimp only
  split
  · exact ⟨ht, hf, trivial⟩
  refine check (fun _ => not_false) fun _ => ?_
  have hw : (t₁.set { state with notarFallbacks := state.notarFallbacks ++ [id.hash] }).Within bound :=
    ht.set hh rfl (ht.skipped state hh)
  have hr : t.Framed (t₁.set { state with notarFallbacks := state.notarFallbacks ++ [id.hash] }) :=
    hf.trans ⟨rfl, rfl⟩
  refine (passOn_keeps hw (by rw [hr.root]; omega) hi).mono fun r hk => ?_
  exact ⟨hk.1, hr.trans hk.2.1, trivial⟩

lemma potentialParents_keeps (m : ∀ slot ∈ slots, t.root ≤ slot ∧ (slot ≤ bound ∨ slot = wordSize - 1)) :
    Keeps bound t Prod.fst (fun _ => True) (potentialParents marked slots t parents) := by
  induction slots generalizing t parents with
  | nil => exact ⟨hwi, .refl t, trivial⟩
  | cons slot rest ih =>
    have hh := m slot (.head _)
    refine (slotState_keeps hwi hh.1 hh.2).bind fun r hk => ?_
    obtain ⟨state, t₁⟩ := r
    obtain ⟨hw, hf, _, _⟩ := hk
    refine check (fun _ => not_false) fun _ => ?_
    split
    · exact ⟨hw, hf, trivial⟩
    refine check (fun _ => not_false) fun _ => ?_
    have hl : ∀ s ∈ rest, t₁.root ≤ s ∧ (s ≤ bound ∨ s = wordSize - 1) :=
      fun s hm => hf.root ▸ m s (.tail _ hm)
    exact (ih hw hl).mono fun r hk => ⟨hk.1, hf.trans hk.2.1, trivial⟩

end

lemma mem_downTo {low : Nat} (hm : slot ∈ downTo marked low) : low ≤ slot ∧ (slot ≤ marked ∨ slot = wordSize - 1) := by
  rcases mem_append.mp hm with hu | hw
  · obtain ⟨i, hi, rfl⟩ := mem_map.mp hu
    have := mem_range.mp hi
    omega
  · split at hw
    · exact ⟨by omega, .inr (mem_singleton.mp hw)⟩
    · cases hw

variable (hwi : t.Within bound)
include hwi

lemma markSkipped_keeps (hi : slot < bound) : Keeps bound t Prod.fst (fun _ => True) (t.markSkipped slot) := by
  unfold markSkipped
  split
  · exact ⟨hwi, .refl t, trivial⟩
  rename_i hu
  have hl := not_lt.mp hu
  refine (slotState_keeps hwi hl (.inl (le_of_lt hi))).bind fun r hk => ?_
  obtain ⟨state, t₁⟩ := r
  obtain ⟨ht, hf, hh, hn⟩ := hk
  dsimp only at hn ⊢
  split
  · exact ⟨ht, hf, trivial⟩
  have hw : (t₁.set { state with skip := true }).Within bound := ht.set hh rfl fun _ => hn ▸ hi
  have hr : t.Framed (t₁.set { state with skip := true }) := hf.trans ⟨rfl, rfl⟩
  have hd : ∀ s ∈ downTo slot (max (firstSlotInWindow slot) (t₁.set { state with skip := true }).root),
      (t₁.set { state with skip := true }).root ≤ s ∧ (s ≤ bound ∨ s = wordSize - 1) := by
    intro s hx
    obtain ⟨ha, hb⟩ := mem_downTo hx
    refine ⟨le_trans (le_max_right _ _) ha, hb.imp_left fun le => ?_⟩
    omega
  refine (potentialParents_keeps hw hd).bind fun r hk => ?_
  obtain ⟨t₂, parents⟩ := r
  obtain ⟨hc, he, _⟩ := hk
  have hm := hr.trans he
  refine (passOn_keeps hc (by rw [hm.root]; omega) hi).mono fun r hk => ?_
  exact ⟨hk.1, hm.trans hk.2.1, trivial⟩

lemma handleFinalization_keeps (hb : event.Below bound) :
    Keeps bound t Prod.fst (fun _ => True) (t.handleFinalization event) := by
  have ha : ∀ blocks : List BlockId, (∀ id ∈ blocks, id.slot < bound) → ∀ acc : ReadyTracker × Option ParentReady,
      acc.1.Within bound ∧ t.Framed acc.1 ∧ True →
      Keeps bound t Prod.fst (fun _ => True) (blocks.foldlM
        (fun (acc : ReadyTracker × Option ParentReady) (id : BlockId) =>
          acc.1.markNotarFallback id >>= fun r => .ok (r.1, keepHighest acc.2 r.2)) acc) := by
    intro blocks m acc ht
    refine foldlM ht fun acc id hx hk => ?_
    refine (markNotarFallback_keeps hk.1 (m id hx)).bind fun r hm => ?_
    exact ⟨hm.1, hk.2.1.trans hm.2.1, trivial⟩
  refine (ha _ ?_ (t, none) ⟨hwi, .refl t, trivial⟩).bind fun acc hf => ?_
  · exact fun id hx => hb.finalized id (mem_toList.mp hx)
  refine (ha _ hb.implicitlyFinalized acc hf).bind fun acc hs => ?_
  refine foldlM hs fun acc slot hx hk => ?_
  refine (markSkipped_keeps hk.1 (hb.implicitlySkipped slot hx)).bind fun r hm => ?_
  exact ⟨hm.1, hk.2.1.trans hm.2.1, trivial⟩

lemma Within.prune {newRoot : Nat} (ho : t.root ≤ newRoot) (hi : newRoot ≤ bound) : (t.prune newRoot).Within bound := by
  have hh : ∀ s ∈ (t.prune newRoot).states, s ∈ t.states ∧ newRoot ≤ s.slot := by
    intro s hm
    obtain ⟨hh, hk⟩ := mem_filter.mp hm
    simp only [Bool.not_eq_true', decide_eq_false_iff_not, not_and, not_lt] at hk
    exact ⟨hh, hk (hwi.states s hh).1⟩
  have hr := hwi.room
  refine ⟨fun s m => ⟨(hh s m).2, (hwi.states s (hh s m).1).2⟩, keys_filter hwi.distinct,
    fun s m => hwi.skipped s (hh s m).1, hi, ?_⟩
  show bound + 2 ≤ newRoot + t.slotMax
  omega

end ReadyTracker

end Firebam.Votor
