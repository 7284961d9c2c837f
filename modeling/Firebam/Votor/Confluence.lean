import Firebam.Votor.Books

namespace Firebam.Votor
open Lib List Option Outcome FinalityTracker World FinalizationEvent

namespace FinalityTracker

variable {seen ops : List Mark} {slot : Nat} {c : BlockId}

variable {t : FinalityTracker} {w : World} {D : Nat → Prop}

def Tracked (t : FinalityTracker) (slot : Nat) : Prop := ∃ status, t.statusOf slot = some status ∧ status.Decided

lemma Books.tracked_iff (hb : t.Books w seen D) (ha : t.firstUnprunedSlot ≤ slot) : t.Tracked slot ↔ D slot := by
  have hs := hb.shows slot ha
  unfold Tracked
  cases hh : t.statusOf slot with
  | none =>
    rw [hh] at hs
    simpa using hs.1
  | some status =>
    rw [hh] at hs
    cases status with
    | notarized hash => simpa [Status.Decided] using hs.1
    | finalPendingNotar => simpa [Status.Decided] using hs.1
    | finalized hash => simpa [Status.Decided] using hs.2.1
    | implicitlyFinalized hash => simpa [Status.Decided] using hs.2.1
    | implicitlySkipped => simpa [Status.Decided] using hs.2

lemma advance_spec (t : FinalityTracker) (n first : Nat) :
    (∀ s, first < s → s ≤ t.advance n first → t.Tracked s) ∧ t.advance n first ≤ first + n ∧
      (t.advance n first < first + n → ¬ t.Tracked (t.advance n first + 1)) := by
  induction n generalizing first with
  | zero => exact ⟨fun s ho hi => absurd ho (by simp only [advance] at hi; omega), le_rfl, fun hl => absurd hl (lt_irrefl _)⟩
  | succ n ih =>
    unfold advance
    split
    · rename_i status he
      split
      · rename_i hd
        obtain ⟨all, hm, ht⟩ := ih (first + 1)
        refine ⟨fun s ho hi => ?_, by omega, fun hl => ht (by omega)⟩
        by_cases hh : s = first + 1
        · exact hh ▸ ⟨status, he, hd⟩
        · exact all s (by omega) hi
      · rename_i hu
        refine ⟨fun s ho hi => absurd ho (by omega), by omega, fun _ => ?_⟩
        rintro ⟨ne, hs, hd⟩
        rw [he] at hs
        exact hu (some.inj hs ▸ hd)
    · rename_i hn
      refine ⟨fun s ho hi => absurd ho (by omega), by omega, fun _ => ?_⟩
      rintro ⟨ne, hs, _⟩
      rw [hn] at hs
      cases hs

lemma mem_keys_of_statusOf {status : Status} (hh : t.statusOf slot = some status) : slot ∈ t.status.map Prod.fst := by
  obtain ⟨x, hf, _⟩ := map_eq_some_iff.mp hh
  have hn : x.1 = slot := by simpa using find?_some hf
  exact hn ▸ mem_map_of_mem (mem_of_find?_eq_some hf)

lemma advance_stops (t : FinalityTracker) (first : Nat) : ¬ t.Tracked (t.advance t.status.length first + 1) := by
  obtain ⟨all, hm, hs⟩ := advance_spec t t.status.length first
  by_cases he : t.advance t.status.length first < first + t.status.length
  · exact hs he
  · intro ho
    have hc : List.range' (first + 1) (t.status.length + 1) ⊆ t.status.map Prod.fst := by
      intro s hx
      have hi := List.mem_range'_1.mp hx
      have ht : t.Tracked s := by
        by_cases hl : s = t.advance t.status.length first + 1
        · exact hl ▸ ho
        · exact all s (by omega) (by omega)
      obtain ⟨status, hh, _⟩ := ht
      exact mem_keys_of_statusOf hh
    have := (subperm_of_subset nodup_range' hc).length_le
    rw [length_range', length_map] at this
    omega

lemma prune_statusOf {s : Nat} (ha : t.prune.firstUnprunedSlot ≤ s) : t.prune.statusOf s = t.statusOf s := by
  have hs := find_filter Prod.fst t.status
    (fun s => !decide (t.firstUnprunedSlot ≤ s ∧ s < t.prune.firstUnprunedSlot)) s
  rw [if_pos (by simp; omega)] at hs
  exact congrArg (Option.map Prod.snd) hs

lemma prune_parentOf {b : BlockId} (ha : t.prune.firstUnprunedSlot ≤ b.slot) : t.prune.parentOf b = t.parentOf b := by
  have hs := find_filter Prod.fst t.parents (fun b => !decide (b.slot < t.prune.firstUnprunedSlot)) b
  rw [if_pos (by simpa using ha)] at hs
  exact congrArg (Option.map Prod.snd) hs

lemma Walking.prune (hw : t.Walking w seen none D) :
    t.prune.Walking w seen none D ∧ ¬ D (t.prune.firstUnprunedSlot + 1) := by
  have ho : t.firstUnprunedSlot ≤ t.prune.firstUnprunedSlot := le_advance t t.status.length t.firstUnprunedSlot
  obtain ⟨all, _, _⟩ := advance_spec t t.status.length t.firstUnprunedSlot
  have hs := advance_stops t t.firstUnprunedSlot
  refine ⟨{ hw with books := ⟨keys_filter hw.books.distinct, ?_, ?_, ?_⟩, root := ?_, pruned := ?_ }, ?_⟩
  · intro x hm
    obtain ⟨hh, hk⟩ := mem_filter.mp hm
    simp only [Bool.not_eq_true', decide_eq_false_iff_not, not_and, not_lt] at hk
    exact hk (hw.books.low x hh)
  · intro s ha
    rw [prune_statusOf ha]
    exact hw.books.shows s (le_trans ho ha)
  · intro b p ha
    rw [prune_parentOf ha]
    exact hw.books.links b p (le_trans ho ha)
  · exact le_trans hw.root ho
  · intro s hl hi
    by_cases hd : s ≤ t.firstUnprunedSlot
    · exact hw.pruned s hl hd
    · exact (hw.books.tracked_iff (by omega)).mp (all s (by omega) hi)
  · rw [← hw.books.tracked_iff (by omega)]
    exact hs

lemma Walking.complete (hw : t.Walking w seen none D) (hd : w.Decided seen slot) : D slot := by
  induction hd with
  | direct ha hm => exact hw.direct _ ha hm
  | implied _ ho hl ha hb hh ih =>
    exact hw.closed _ _ _ (by simp) ih ho hl ha hb hh

lemma Walking.raise {x : Option Nat} (hw : t.Walking w seen x D) (n : Nat) :
    Walking w seen x D { t with highestFinalizedSlot := n } :=
  { hw with books := ⟨hw.books.distinct, hw.books.low, hw.books.shows, hw.books.links⟩ }

lemma handleFinalizedBlock_settles (fits : ∀ m ∈ seen, w.Fits m) {base : Nat → Prop}
    (hw : t.Walking w seen (some c.slot) fun s => base s ∨ s = c.slot) (hf : ¬ base c.slot)
    (hp : ∀ s, w.root < s → s ≤ t.firstUnprunedSlot → base s) (ho : w.OnChain c) (ha : t.firstUnprunedSlot ≤ c.slot) :
    Safe (fun r => r.1.Walking w seen none (fun s => base s ∨ s ∈ r.2.slots) ∧
      ¬ (base (r.1.firstUnprunedSlot + 1) ∨ r.1.firstUnprunedSlot + 1 ∈ r.2.slots) ∧
      r.1.highestFinalizedSlot = max c.slot t.highestFinalizedSlot) (t.handleFinalizedBlock c {}) := by
  have slots : ∀ s, (base s ∨ s = c.slot) ↔ base s ∨ s ∈ slots { finalized := some c } := by
    intro s
    simp [slots]
  have raised := (hw.raise (max c.slot t.highestFinalizedSlot)).of_iff slots
  unfold handleFinalizedBlock
  dsimp only
  split
  · rename_i unlinked
    -- no link of the block is known, so there is nothing to visit
    have hs : Walking w seen none (fun s => base s ∨ s ∈ FinalizationEvent.slots { finalized := some c })
        { t with highestFinalizedSlot := max c.slot t.highestFinalizedSlot } := by
      refine { raised with closed := ?_, support := ?_ }
      · intro c' p s _ hd hn hl
        by_cases hh : c'.slot = c.slot
        · obtain rfl := hn.unique ho hh
          have he := (raised.books.links c' p ha).mpr hl
          rw [unlinked] at he
          cases he
        · exact raised.closed c' p s (by simpa using hh) hd hn hl
      · intro s hd hk
        obtain ⟨c', p', _, rest⟩ := raised.support s hd hk
        exact ⟨c', p', by simp, rest⟩
    have h := hs.prune
    exact ⟨h.1, h.2, rfl⟩
  · rename_i p he
    have hl := (raised.books.links c p ha).mp he
    have hr := raised.rooted fits (fun s hc hi hh => hf (hh ▸ hp s hc hi)) ho hl
    have walk := handleImplicitlyFinalized_walks fits raised ((slots c.slot).mp (.inr rfl)) ho hl le_rfl hr
    refine walk.bind fun r hb => ?_
    have h := hb.settled.prune
    exact ⟨h.1, h.2, hb.highest⟩

end FinalityTracker

structure FinalityRun where
  tracker : FinalityTracker
  seen : List Mark
  reported : List Nat

namespace FinalityRun

def apply (t : FinalityTracker) : Mark → Except TrackerFault (FinalityTracker × FinalizationEvent)
  | .link block parent => t.addParent block parent
  | .fastFinal block => t.markFastFinalized block
  | .notar block => t.markNotarized block
  | .final slot => t.markFinalized slot

def step (r : FinalityRun) (mark : Mark) : Except TrackerFault FinalityRun := do
  let (tracker, event) ← apply r.tracker mark
  .ok ⟨tracker, r.seen ++ [mark], r.reported ++ event.slots⟩

def start (slotMax slot : Nat) : FinalityRun := ⟨.init slotMax slot, [], []⟩

def RootOpen (w : World) (r : FinalityRun) : Prop :=
  r.tracker.firstUnprunedSlot = w.root ∨ w.root ∈ r.reported

/-- The condition: a mark does not name a tracked slot that is decided, except that a finalized
block may be fast-finalized again, and the initial slot is not named first when it is pruned. -/
def Calm (w : World) (r : FinalityRun) : Mark → Prop
  | .link block parent => w.OnChain block → parent.slot = w.root → r.RootOpen w
  | .fastFinal block => (block.slot = w.root → r.RootOpen w) ∧
      ∀ hash, r.tracker.statusOf block.slot ≠ some (.implicitlyFinalized hash)
  | .notar block => (block.slot = w.root → r.RootOpen w) ∧ ¬ r.tracker.Tracked block.slot
  | .final slot => (slot = w.root → r.RootOpen w) ∧ ¬ r.tracker.Tracked slot

structure Agrees (w : World) (r : FinalityRun) : Prop where
  walking : r.tracker.Walking w r.seen none (· ∈ r.reported)
  next : r.tracker.firstUnprunedSlot + 1 ∉ r.reported
  highest : ∀ s, w.root ≤ s → Direct r.seen s → s ≤ r.tracker.highestFinalizedSlot
  attained : r.tracker.highestFinalizedSlot = w.root ∨
    w.root ≤ r.tracker.highestFinalizedSlot ∧ Direct r.seen r.tracker.highestFinalizedSlot

end FinalityRun

def Mark.Names : Mark → Nat → Prop
  | .link _ _, _ => False
  | .fastFinal block, slot => block.slot = slot
  | .notar block, slot => block.slot = slot
  | .final marked, slot => marked = slot

namespace World

variable {w : World} {mark : Mark} {D D' : Nat → Prop} {status : Option Status}

lemma mem_unnamed (hu : ¬ mark.Names slot) {ne : Mark} (hn : ne.Names slot) : ne ∈ seen ↔ ne ∈ seen ++ [mark] := by
  refine (mem_concat_of_ne ?_).symm
  rintro rfl
  exact hu hn

lemma direct_unnamed (hu : ¬ mark.Names slot) : Direct seen slot ↔ Direct (seen ++ [mark]) slot := by
  unfold Direct
  refine or_congr (exists_congr fun hash => ?_) (and_congr (exists_congr fun hash => ?_) ?_)
  · exact mem_unnamed hu rfl
  · exact mem_unnamed hu rfl
  · exact mem_unnamed hu rfl

lemma Shows.unnamed (hh : w.Shows seen D slot status) (unnamed : ¬ mark.Names slot) (hs : D slot ↔ D' slot) :
    w.Shows (seen ++ [mark]) D' slot status :=
  hh.congr hs (direct_unnamed unnamed) (mem_unnamed unnamed rfl) fun _ => mem_unnamed unnamed rfl

end World

lemma FinalityTracker.Put.trans {t t' t'' : FinalityTracker} {old new : Status} (hf : t.Put slot old t')
    (hs : t'.Put slot new t'') : t.Put slot new t'' := by
  refine ⟨hf.framed.trans hs.framed, hs.highest.trans hf.highest, fun s => ?_,
    fun hd => hs.distinct (hf.distinct hd), fun hm hl => ?_⟩
  · rw [hs.statusOf, hf.statusOf]
    split <;> rfl
  · have ho := hf.low hm hl
    rw [← hf.framed.first] at hm ho ⊢
    exact hs.low hm ho

namespace FinalityRun.Agrees

variable {w : World} {r : FinalityRun} {mark : Mark} {t : FinalityTracker}

section
variable (hag : r.Agrees w)
include hag

lemma reported_iff (slot : Nat) : slot ∈ r.reported ↔ w.Decided r.seen slot :=
  ⟨hag.walking.sound slot, hag.walking.complete⟩

lemma le_highest (hd : slot ∈ r.reported) : slot ≤ r.tracker.highestFinalizedSlot := by
  obtain ⟨top, le, ha, hm⟩ := ((hag.reported_iff slot).mp hd).exists_direct
  exact le_trans le (hag.highest top ha hm)

section
variable (hpl : ∀ b p, mark ≠ .link b p)
include hpl

lemma quiet (hf : r.tracker.Framed t) (hh : t.highestFinalizedSlot = r.tracker.highestFinalizedSlot)
    (hb : t.Books w (r.seen ++ [mark]) (· ∈ r.reported))
    (hn : ∀ s, w.root ≤ s → mark.Names s → Direct (r.seen ++ [mark]) s → s ∈ r.reported) :
    Agrees w ⟨t, r.seen ++ [mark], r.reported ++ slots {}⟩ := by
  have hc : ∀ {m}, m ∈ r.seen → m ∈ r.seen ++ [mark] := mem_append_left _
  have hk : ∀ {b p}, .link b p ∈ r.seen ++ [mark] → .link b p ∈ r.seen := by
    exact fun {b p} => (mem_concat_of_ne (hpl b p).symm).mp
  have hi : ∀ s, w.root ≤ s → Direct (r.seen ++ [mark]) s → s ∈ r.reported := by
    intro s ha hm
    by_cases hg : mark.Names s
    · exact hn s ha hg hm
    · exact hag.walking.direct s ha ((direct_unnamed hg).mpr hm)
  rw [show slots {} = [] from rfl, append_nil]
  refine ⟨⟨hb, ?_, hi, ?_, ?_, ?_, ?_⟩, ?_, ?_, ?_⟩
  · exact hf.first.symm ▸ hag.walking.root
  · exact fun s hd => (hag.walking.sound s hd).mono fun _ => hc
  · exact fun c p s hw hd ho hl => hag.walking.closed c p s hw hd ho (hk hl)
  · intro s hd hs
    obtain ⟨c, p, hw, he, ho, hl, hr⟩ := hag.walking.support s hd hs
    exact ⟨c, p, hw, he, ho, hc hl, hr⟩
  · exact hf.first.symm ▸ hag.walking.pruned
  · exact hf.first.symm ▸ hag.next
  · intro s ha hm
    exact hh.symm ▸ hag.le_highest (hi s ha hm)
  · show t.highestFinalizedSlot = w.root ∨ w.root ≤ t.highestFinalizedSlot ∧ Direct _ t.highestFinalizedSlot
    rw [hh]
    exact hag.attained.imp_right fun h => ⟨h.1, h.2.mono fun _ => hc⟩

lemma ignored (hg : ∀ s, mark.Names s → s < r.tracker.firstUnprunedSlot) (hr : mark.Names w.root → r.RootOpen w) :
    Agrees w ⟨r.tracker, r.seen ++ [mark], r.reported ++ slots {}⟩ := by
  refine hag.quiet hpl (.refl _) rfl ⟨hag.walking.books.distinct, hag.walking.books.low, ?_, ?_⟩ ?_
  · intro s ha
    refine (hag.walking.books.shows s ha).unnamed (fun hn => ?_) .rfl
    exact absurd (hg s hn) (not_lt.mpr ha)
  · intro b p ha
    exact (hag.walking.books.links b p ha).trans (mem_concat_of_ne (hpl b p).symm).symm
  · intro s ha hn _
    have hp := hg s hn
    by_cases ht : s = w.root
    · subst ht
      rcases hr hn with hs | he
      · rw [hs] at hp
        exact absurd hp (lt_irrefl _)
      · exact he
    · exact hag.walking.pruned s (by omega) (by omega)

lemma written {status : Status} (ho : ∀ s, mark.Names s → s = slot) (hp : r.tracker.Put slot status t)
    (ha : r.tracker.firstUnprunedSlot ≤ slot) (hs : w.Shows (r.seen ++ [mark]) (· ∈ r.reported) slot (some status))
    (hn : Direct (r.seen ++ [mark]) slot → slot ∈ r.reported) :
    Agrees w ⟨t, r.seen ++ [mark], r.reported ++ slots {}⟩ := by
  refine hag.quiet hpl hp.framed hp.highest ?_ fun s _ hh hm => ?_
  · refine hag.walking.books.put hp ha hs (fun s he st hl => ?_) fun b p => ?_
    · exact hl.unnamed (fun hh => he (ho s hh)) .rfl
    · exact (mem_concat_of_ne (hpl b p).symm).symm
  · obtain rfl := ho s hh
    exact hn hm

end

lemma decides (hv : ∀ m ∈ r.seen ++ [mark], w.Fits m) (hq : ∀ b p, mark ≠ .link b p)
    (ho : ∀ s, mark.Names s → s = c.slot) (hp : r.tracker.Put c.slot (.finalized c.hash) t)
    (ha : r.tracker.firstUnprunedSlot ≤ c.slot) (hf : c.slot ∉ r.reported) (hz : w.OnChain c)
    (hm : Direct (r.seen ++ [mark]) c.slot) :
    Safe (fun x => Agrees w ⟨x.1, r.seen ++ [mark], r.reported ++ x.2.slots⟩) (t.handleFinalizedBlock c {}) := by
  have old : ∀ {m}, m ∈ r.seen → m ∈ r.seen ++ [mark] := mem_append_left _
  have hl : ∀ b p, .link b p ∈ r.seen ↔ .link b p ∈ r.seen ++ [mark] :=
    fun b p => (mem_concat_of_ne (hq b p).symm).symm
  have hi : ∀ s, Direct (r.seen ++ [mark]) s → Direct r.seen s ∨ s = c.slot := by
    intro s hg
    by_cases hu : mark.Names s
    · exact .inr (ho s hu)
    · exact .inl ((direct_unnamed hu).mpr hg)
  have hro := le_trans hag.walking.root ha
  have hw : t.Walking w (r.seen ++ [mark]) (some c.slot) fun s => s ∈ r.reported ∨ s = c.slot := by
    refine ⟨?_, hp.framed.first.symm ▸ hag.walking.root, ?_, ?_, ?_, ?_, ?_⟩
    · refine hag.walking.books.put hp ha ⟨hz, .inr rfl, hm⟩ (fun s hel st hn => ?_) hl
      exact hn.unnamed (fun hu => hel (ho s hu)) ⟨.inl, fun h => h.resolve_right hel⟩
    · exact fun s hj hg => (hi s hg).imp_left (hag.walking.direct s hj)
    · rintro s (hb | rfl)
      · exact (hag.walking.sound s hb).mono fun _ => old
      · exact .direct hro hm
    · rintro c' p s hy (hb | hh) hc hli
      · exact fun hj hr hhi => .inl
          (hag.walking.closed c' p s (by simp) hb hc ((hl c' p).mpr hli) hj hr hhi)
      · exact absurd (congrArg some hh) hy
    · rintro s (hb | rfl) hsk
      · obtain ⟨c', p, _, hd, hc, hli, hre⟩ := hag.walking.support s hb hsk
        refine ⟨c', p, fun hs => ?_, .inl hd, hc, old hli, hre⟩
        exact hf (some.inj hs ▸ hd)
      · rw [hz] at hsk
        cases hsk
    · exact fun s hj hhi => .inl (hag.walking.pruned s hj (hp.framed.first ▸ hhi))
  have he := handleFinalizedBlock_settles hv hw hf
    (hp.framed.first.symm ▸ hag.walking.pruned) hz (hp.framed.first.symm ▸ ha)
  refine he.mono fun x hk => ?_
  obtain ⟨hse, hx, ht⟩ := hk
  rw [hp.highest] at ht
  refine ⟨hse.of_iff fun s => (mem_append).symm, fun mem => hx (mem_append.mp mem), ?_, ?_⟩
  · intro s hj hg
    rw [ht]
    rcases hi s hg with hb | rfl
    · exact le_trans (hag.highest s hj hb) (le_max_right _ _)
    · exact le_max_left _ _
  · show x.1.highestFinalizedSlot = w.root ∨ w.root ≤ x.1.highestFinalizedSlot ∧ Direct _ x.1.highestFinalizedSlot
    rw [ht]
    rcases le_total c.slot r.tracker.highestFinalizedSlot with hle | hmo
    · rw [max_eq_right hle]
      exact hag.attained.imp_right fun h => ⟨h.1, h.2.mono fun _ => old⟩
    · rw [max_eq_left hmo]
      exact .inr ⟨hro, hm⟩

end

section

variable (hag : r.Agrees w)
include hag

lemma fastFinal {block : BlockId} (hi : ∀ m ∈ r.seen ++ [.fastFinal block], w.Fits m)
    (hc : r.Calm w (.fastFinal block)) :
    Safe (fun x => Agrees w ⟨x.1, r.seen ++ [.fastFinal block], r.reported ++ x.2.slots⟩)
      (r.tracker.markFastFinalized block) := by
  obtain ⟨hr, ht⟩ := hc
  have ho : w.OnChain block := hi _ (mem_concat_self)
  have hp : ∀ b p, Mark.fastFinal block ≠ .link b p := fun _ _ => by simp
  have hm : Direct (r.seen ++ [.fastFinal block]) block.slot :=
    .inl ⟨block.hash, mem_concat_self⟩
  unfold markFastFinalized
  split
  · rename_i hg
    exact hag.ignored hp (fun s hn => hn ▸ hg) fun hn => hr hn
  rename_i hb
  have ha := not_lt.mp hb
  refine statusInsert_put.bind fun x hk => ?_
  obtain ⟨old, t⟩ := x
  obtain ⟨hw, hu⟩ := hk
  have hh := hag.walking.books.shows block.slot ha
  rw [← hw] at hh
  have hd := fun hf => hag.decides hi hp (fun s hn => hn.symm) hu ha hf ho hm
  cases old with
  | none => exact hd hh.1
  | some status =>
    cases status with
    | finalized hash =>
      have hs : hash = block.hash := some.inj (hh.1.symm.trans ho)
      refine check (fun ne => absurd hs ne) fun _ => ?_
      exact hag.written hp (fun s hn => hn.symm) hu ha ⟨ho, hh.2.1, hm⟩ fun _ => hh.2.1
    | implicitlyFinalized hash => exact absurd hw.symm (ht hash)
    | notarized hash =>
      have hs : block.hash = hash := (hi _ (mem_append_left _ hh.2.1)).2 _ ho
      exact check (fun ne => absurd hs.symm ne) fun _ => hd hh.1
    | implicitlySkipped =>
      rw [OnChain, hh.1] at ho
      cases ho
    | finalPendingNotar => exact hd hh.1

lemma notar {block : BlockId} (hq : ∀ m ∈ r.seen ++ [.notar block], w.Fits m) (hl : r.Calm w (.notar block)) :
    Safe (fun x => Agrees w ⟨x.1, r.seen ++ [.notar block], r.reported ++ x.2.slots⟩)
      (r.tracker.markNotarized block) := by
  obtain ⟨hr, hu⟩ := hl
  obtain ⟨hha, hz⟩ := hq _ (mem_concat_self)
  have hp : ∀ b p, Mark.notar block ≠ .link b p := fun _ _ => by simp
  have hg : Mark.notar block ∈ r.seen ++ [.notar block] := mem_concat_self
  unfold markNotarized
  split
  · rename_i he
    exact hag.ignored hp (fun s hj => hj ▸ he) fun hj => hr hj
  rename_i ht
  have ha := not_lt.mp ht
  have hf : block.slot ∉ r.reported := fun hd => hu ((hag.walking.books.tracked_iff ha).mpr hd)
  refine statusInsert_put.bind fun x hk => ?_
  obtain ⟨old, t⟩ := x
  obtain ⟨hy, hx⟩ := hk
  have hh := hag.walking.books.shows block.slot ha
  rw [← hy] at hh
  have ho : .final block.slot ∉ r.seen → .final block.slot ∉ r.seen ++ [.notar block] := by
    exact fun hn mem => hn ((mem_concat_of_ne (by simp)).mp mem)
  have hw : .final block.slot ∉ r.seen → Agrees w ⟨t, r.seen ++ [.notar block], r.reported ++ slots {}⟩ := by
    intro hn
    refine hag.written hp (fun s hj => hj.symm) hx ha ⟨hf, hg, ho hn⟩ fun hm => ?_
    rcases hm with ⟨hash, hfa⟩ | ⟨_, hi⟩
    · have hb : .fastFinal ⟨block.slot, hash⟩ ∈ r.seen := by
        rcases mem_concat.mp hfa with hb | new
        · exact hb
        · cases new
      exact hag.walking.direct _ (le_trans hag.walking.root ha) (.inl ⟨hash, hb⟩)
    · exact absurd hi (ho hn)
  cases old with
  | none => exact hw hh.2.1
  | some status =>
    cases status with
    | implicitlySkipped => exact absurd hh.2 hf
    | notarized hash =>
      have hs : hash = block.hash := (hq _ (mem_append_left _ hh.2.1)).1.trans hha.symm
      exact check (fun ne => absurd hs ne) fun _ => hw hh.2.2
    | finalized hash => exact absurd hh.2.1 hf
    | implicitlyFinalized hash => exact absurd hh.2.1 hf
    | finalPendingNotar =>
      obtain ⟨hash, hv⟩ := hq _ (mem_append_left _ hh.2.1)
      have hc : w.OnChain block := by
        rw [OnChain, ← hz hash hv]
        exact hv
      refine statusInsert_put.bind fun x hk => ?_
      have hm : Direct (r.seen ++ [.notar block]) block.slot :=
        .inr ⟨⟨block.hash, hg⟩, mem_append_left _ hh.2.1⟩
      exact hag.decides hq hp (fun s hj => hj.symm) (hx.trans hk.2) ha hf hc hm

lemma final (hi : ∀ m ∈ r.seen ++ [.final slot], w.Fits m) (hl : r.Calm w (.final slot)) :
    Safe (fun x => Agrees w ⟨x.1, r.seen ++ [.final slot], r.reported ++ x.2.slots⟩)
      (r.tracker.markFinalized slot) := by
  obtain ⟨hr, hu⟩ := hl
  have hg : Mark.final slot ∈ r.seen ++ [.final slot] := mem_concat_self
  obtain ⟨hash, hj⟩ := hi _ hg
  have hp : ∀ b p, Mark.final slot ≠ .link b p := fun _ _ => by simp
  unfold markFinalized
  split
  · rename_i ho
    exact hag.ignored hp (fun s he => he ▸ ho) fun he => hr he
  rename_i ht
  have ha := not_lt.mp ht
  have hf : slot ∉ r.reported := fun hd => hu ((hag.walking.books.tracked_iff ha).mpr hd)
  refine statusInsert_put.bind fun x hk => ?_
  obtain ⟨old, t⟩ := x
  obtain ⟨hv, hq⟩ := hk
  have hh := hag.walking.books.shows slot ha
  rw [← hv] at hh
  have hb : ∀ {m : Mark}, m ≠ .final slot → m ∈ r.seen ++ [.final slot] → m ∈ r.seen := fun other =>
    (mem_concat_of_ne other).mp
  have hw : (∀ hash, .notar ⟨slot, hash⟩ ∉ r.seen) →
      Agrees w ⟨t, r.seen ++ [.final slot], r.reported ++ slots {}⟩ := by
    intro hn
    have none : ∀ hash, .notar ⟨slot, hash⟩ ∉ r.seen ++ [.final slot] := fun hash hz => hn hash (hb (by simp) hz)
    refine hag.written hp (fun s he => he.symm) hq ha ⟨hf, hg, none⟩ fun hm => ?_
    rcases hm with ⟨hash, hy⟩ | ⟨⟨hash, hx⟩, _⟩
    · exact hag.walking.direct _ (le_trans hag.walking.root ha) (.inl ⟨hash, hb (by simp) hy⟩)
    · exact absurd hx (none hash)
  match old with
  | none => exact hw hh.2.2
  | some .finalPendingNotar => exact hw hh.2.2
  | some (.finalized _) | some (.implicitlyFinalized _) => exact absurd hh.2.1 hf
  | some .implicitlySkipped => exact absurd hh.2 hf
  | some (.notarized other) =>
    have hs : hash = other := (hi _ (mem_append_left _ hh.2.1)).2 hash hj
    refine statusInsert_put.bind fun x hk => ?_
    have hm : Direct (r.seen ++ [.final slot]) slot :=
      .inr ⟨⟨other, mem_append_left _ hh.2.1⟩, hg⟩
    have hc : w.OnChain ⟨slot, other⟩ := hs ▸ hj
    exact hag.decides hi hp (fun s he => he.symm) (hq.trans hk.2) ha hf hc hm

end

section

variable {block parent : BlockId} (hag : r.Agrees w) (hfi : ∀ m ∈ r.seen ++ [.link block parent], w.Fits m)
include hag hfi

lemma linkAdded {x : Option Nat} (hq : t.Books w (r.seen ++ [.link block parent]) (· ∈ r.reported))
    (hr : t.firstUnprunedSlot = r.tracker.firstUnprunedSlot)
    (hi : x = none ∨ x = some block.slot ∧ w.OnChain block ∧ .link block parent ∉ r.seen)
    (hp : x = none → block.slot ∈ r.reported → w.OnChain block → w.root ≤ parent.slot →
      ∀ s, parent.slot ≤ s → s < block.slot → s ∈ r.reported) :
    t.Walking w (r.seen ++ [.link block parent]) x (· ∈ r.reported) := by
  have hj : ∀ {m}, m ∈ r.seen → m ∈ r.seen ++ [.link block parent] := mem_append_left _
  refine ⟨hq, hr.symm ▸ hag.walking.root, ?_, ?_, ?_, ?_, hr.symm ▸ hag.walking.pruned⟩
  · intro s ha hm
    have hu : ¬ (Mark.link block parent).Names s := id
    exact hag.walking.direct s ha ((direct_unnamed hu).mpr hm)
  · exact fun s hd => (hag.walking.sound s hd).mono fun _ => hj
  · intro c p s hw hd ho hl ha hn hh
    rcases mem_concat.mp hl with hb | hv
    · exact hag.walking.closed c p s (by simp) hd ho hb ha hn hh
    · cases hv
      rcases hi with rfl | ⟨rfl, _⟩
      · exact hp rfl hd ho ha s hn hh
      · exact absurd rfl hw
  · intro s hd hk
    obtain ⟨c, p, _, he, ho, hl, ht⟩ := hag.walking.support s hd hk
    refine ⟨c, p, fun hs => ?_, he, ho, hj hl, ht⟩
    rcases hi with rfl | ⟨rfl, hc, hf⟩
    · cases hs
    · obtain rfl := ho.unique hc (some.inj hs)
      have hg := (hfi _ (mem_concat_self)).1
      obtain rfl : p = parent := ((hfi _ (hj hl)).1).trans hg.symm
      exact hf hl

omit hfi in
lemma ofWalking {event : FinalizationEvent}
    (hw : t.Walking w (r.seen ++ [.link block parent]) none fun s => s ∈ r.reported ∨ s ∈ event.slots)
    (next : ¬ (t.firstUnprunedSlot + 1 ∈ r.reported ∨ t.firstUnprunedSlot + 1 ∈ event.slots))
    (hh : t.highestFinalizedSlot = r.tracker.highestFinalizedSlot) :
    Agrees w ⟨t, r.seen ++ [.link block parent], r.reported ++ event.slots⟩ := by
  have hd : ∀ s, Direct r.seen s ↔ Direct (r.seen ++ [.link block parent]) s := by
    intro s
    have hu : ¬ (Mark.link block parent).Names s := id
    exact direct_unnamed hu
  refine ⟨hw.of_iff fun s => mem_append.symm, fun hx => next (mem_append.mp hx), ?_, ?_⟩
  · intro s ha hm
    exact hh.symm ▸ hag.highest s ha ((hd s).mpr hm)
  · show t.highestFinalizedSlot = w.root ∨ w.root ≤ t.highestFinalizedSlot ∧ Direct _ t.highestFinalizedSlot
    rw [hh, ← hd]
    exact hag.attained

omit hfi in
lemma ofQuietLink (hw : t.Walking w (r.seen ++ [.link block parent]) none (· ∈ r.reported))
    (hf : t.firstUnprunedSlot = r.tracker.firstUnprunedSlot)
    (hh : t.highestFinalizedSlot = r.tracker.highestFinalizedSlot) :
    Agrees w ⟨t, r.seen ++ [.link block parent], r.reported ++ slots {}⟩ := by
  refine hag.ofWalking (hw.of_iff fun s => ?_) ?_ hh
  · simp [slots]
  · rw [hf]
    simpa [slots] using hag.next

omit hfi in
lemma shows_link {s : Nat} (ha : r.tracker.firstUnprunedSlot ≤ s) :
    w.Shows (r.seen ++ [.link block parent]) (· ∈ r.reported) s (r.tracker.statusOf s) := by
  have hu : ¬ (Mark.link block parent).Names s := id
  exact (hag.walking.books.shows s ha).unnamed hu .rfl

omit hfi in
lemma books_link (hk : r.tracker.firstUnprunedSlot ≤ block.slot → .link block parent ∈ r.seen) :
    Books w (r.seen ++ [.link block parent]) (· ∈ r.reported) r.tracker := by
  refine ⟨hag.walking.books.distinct, hag.walking.books.low, fun s ha => hag.shows_link ha,
    fun b p ha => ?_⟩
  rw [hag.walking.books.links b p ha]
  refine ⟨mem_append_left _, fun hm => ?_⟩
  rcases mem_concat.mp hm with hb | hn
  · exact hb
  · cases hn
    exact hk ha

omit hag hfi in
lemma rootOpen_reported (ho : r.RootOpen w) (hm : w.root < r.tracker.firstUnprunedSlot) : w.root ∈ r.reported :=
  ho.resolve_left (by omega)

lemma link (hc : r.Calm w (.link block parent)) :
    Safe (fun x => Agrees w ⟨x.1, r.seen ++ [.link block parent], r.reported ++ x.2.slots⟩)
      (r.tracker.addParent block parent) := by
  obtain ⟨ht, hz, _⟩ := hfi _ (mem_concat_self)
  refine check (fun ne => absurd hz ne) fun _ => ?_
  split
  · rename_i gone
    -- the block is pruned: all slots below it are decided
    have known : r.tracker.firstUnprunedSlot ≤ block.slot → .link block parent ∈ r.seen := fun ha =>
      absurd gone (not_lt.mpr ha)
    refine hag.ofQuietLink (hag.linkAdded hfi (hag.books_link known) rfl (.inl rfl) ?_) rfl rfl
    intro _ _ hj ha s low hi
    by_cases hk : s = w.root
    · rw [hk]
      exact rootOpen_reported (hc hj (by omega)) (by omega)
    · exact hag.walking.pruned s (by omega) (by omega)
  rename_i hy
  have ha := not_lt.mp hy
  split
  · rename_i known hf
    have hl := (hag.walking.books.links block known ha).mp hf
    have hs : known = parent := (hfi _ (mem_append_left _ hl)).1.trans ht.symm
    subst hs
    refine check (fun ne => absurd rfl ne) fun _ => ?_
    refine hag.ofQuietLink (hag.linkAdded hfi (hag.books_link fun _ => hl) rfl (.inl rfl) ?_) rfl rfl
    intro _ hd hj ha s low hi
    exact hag.walking.closed block known s (by simp) hd hj hl ha low hi
  rename_i hn
  refine check (fun _ => trivial) fun _ => ?_
  have hr : .link block parent ∉ r.seen := by
    intro mem
    have hv := (hag.walking.books.links block parent ha).mpr mem
    rw [hn] at hv
    cases hv
  have ho : Books w (r.seen ++ [.link block parent]) (· ∈ r.reported)
      { r.tracker with parents := r.tracker.parents ++ [(block, parent)] } := by
    refine ⟨hag.walking.books.distinct, hag.walking.books.low, fun s ha => hag.shows_link ha, fun b p low => ?_⟩
    have hf := find_concat (a := (block, parent)) (map_eq_none_iff.mp hn) b
    rw [parentOf, hf]
    by_cases hh : b = block
    · subst hh
      rw [if_pos rfl]
      constructor
      · intro hs
        cases hs
        exact mem_concat_self
      · intro mem
        have : p = parent := (hfi _ mem).1.trans ht.symm
        rw [this]
        rfl
    · rw [if_neg hh]
      refine (hag.walking.books.links b p low).trans ⟨mem_append_left _, fun mem => ?_⟩
      rcases mem_concat.mp mem with hb | new
      · exact hb
      · cases new
        exact absurd rfl hh
  have hq : ¬ (block.slot ∈ r.reported ∧ w.OnChain block) → Agrees w
      ⟨{ r.tracker with parents := r.tracker.parents ++ [(block, parent)] }, r.seen ++ [.link block parent],
        r.reported ++ slots {}⟩ := by
    intro hu
    refine hag.ofQuietLink (hag.linkAdded hfi ho rfl (.inl rfl) fun _ hd hj => ?_) rfl rfl
    exact absurd ⟨hd, hj⟩ hu
  have hx := hag.walking.books.shows block.slot ha
  -- the block is decided: the walk starts from it
  have hw : block.slot ∈ r.reported → w.OnChain block → Safe
      (fun x => Agrees w ⟨x.1, r.seen ++ [.link block parent], r.reported ++ x.2.slots⟩) (do
        let (t', event) ← handleImplicitlyFinalized block.slot block.slot parent
          { r.tracker with parents := r.tracker.parents ++ [(block, parent)] } {}
        .ok (t'.prune, event)) := by
    intro hd hj
    have hg := hag.linkAdded hfi ho rfl (.inr ⟨rfl, hj, hr⟩) (by simp)
    have he : ∀ s, s ∈ r.reported ↔ s ∈ r.reported ∨ s ∈ slots {} := by
      intro s
      simp [slots]
    refine (handleImplicitlyFinalized_walks hfi (hg.of_iff he) (.inl hd) hj
      (mem_concat_self) le_rfl fun hm hk => ?_).bind fun x hp => ?_
    · exact .inl (rootOpen_reported (hc hj hk) hm)
    · have done := hp.settled.prune
      exact hag.ofWalking done.1 done.2 hp.highest
  have hsa : statusOf { r.tracker with parents := r.tracker.parents ++ [(block, parent)] } block.slot =
      r.tracker.statusOf block.slot := rfl
  dsimp only
  rw [hsa]
  cases hv : r.tracker.statusOf block.slot with
  | none =>
    rw [hv] at hx
    exact hq fun h => hx.1 h.1
  | some status =>
    rw [hv] at hx
    cases status with
    | notarized hash => exact hq fun h => hx.1 h.1
    | finalPendingNotar => exact hq fun h => hx.1 h.1
    | implicitlySkipped => exact hq fun h => by cases hx.1.symm.trans h.2
    | finalized hash | implicitlyFinalized hash =>
      dsimp only
      split
      · rename_i hs
        exact hw hx.2.1 (by rw [OnChain, hs]; exact hx.1)
      · rename_i ne
        exact hq fun h => ne (some.inj (h.2.symm.trans hx.1))

end

lemma step (ha : r.Agrees w) (hf : ∀ m ∈ r.seen ++ [mark], w.Fits m) (hc : r.Calm w mark) :
    Safe (fun r' => r'.Agrees w ∧ r'.seen = r.seen ++ [mark]) (r.step mark) := by
  cases mark with
  | link block parent => exact (ha.link hf hc).bind fun x hk => ⟨hk, rfl⟩
  | fastFinal block => exact (ha.fastFinal hf hc).bind fun x hk => ⟨hk, rfl⟩
  | notar block => exact (ha.notar hf hc).bind fun x hk => ⟨hk, rfl⟩
  | final slot => exact (ha.final hf hc).bind fun x hk => ⟨hk, rfl⟩

lemma start (w : World) (slotMax : Nat) : (FinalityRun.start slotMax w.root).Agrees w := by
  have hn : ∀ s, ¬ Direct [] s := by
    intro s hm
    rcases hm with ⟨_, hx⟩ | ⟨_, hx⟩ <;> cases hx
  refine ⟨⟨⟨nodup_nil, forall_mem_nil _, ?_, ?_⟩, le_rfl, fun s _ hm => absurd hm (hn s), ?_, ?_, ?_,
    fun s hl hi => absurd hl (not_lt.mpr hi)⟩, by simp [FinalityRun.start], fun s _ hm => absurd hm (hn s),
    .inl rfl⟩
  · intro s _
    exact ⟨not_mem_nil, not_mem_nil, fun _ => not_mem_nil⟩
  · intro b p _
    constructor
    · intro hh
      cases hh
    · intro hx
      cases hx
  · exact nofun
  · exact nofun
  · exact nofun

lemma steady {r' : FinalityRun} (hb : r.Agrees w) (hf : r'.Agrees w) (hg : r'.seen = r.seen ++ [mark])
    (hi : ∀ m ∈ r'.seen, w.Fits m) (hc : r.Calm w mark) (hl : r.tracker.firstUnprunedSlot ≤ slot)
    (ha : r'.tracker.firstUnprunedSlot ≤ slot) {status : Status} (hh : r.tracker.statusOf slot = some status)
    (hd : status.Decided) : r'.tracker.statusOf slot = some status := by
  have hs := hb.walking.books.shows slot hl
  have hw := hf.walking.books.shows slot ha
  rw [hh] at hs
  have ho : r.seen ⊆ r'.seen := by
    rw [hg]
    exact fun _ => mem_append_left _
  have ht : slot ∈ r.reported → slot ∈ r'.reported := by
    intro hm
    exact (hf.reported_iff slot).mpr (((hb.reported_iff slot).mp hm).mono ho)
  refine Shows.unique hi hw ?_
  cases status with
  | notarized hash => exact absurd hd not_false
  | finalPendingNotar => exact absurd hd not_false
  | finalized hash => exact ⟨hs.1, ht hs.2.1, hs.2.2.mono ho⟩
  | implicitlySkipped => exact ⟨hs.1, ht hs.2⟩
  | implicitlyFinalized hash =>
    refine ⟨hs.1, ht hs.2.1, fun marked => ?_⟩
    -- the new mark would have to name the slot, which the condition excludes
    rw [hg] at marked
    by_cases hn : mark.Names slot
    · have hr : r.tracker.Tracked slot := ⟨_, hh, hd⟩
      cases mark with
      | link block parent => exact hn
      | fastFinal block => exact hc.2 hash (hn ▸ hh)
      | notar block => exact hc.2 (hn ▸ hr)
      | final marked => exact hc.2 (hn ▸ hr)
    · exact hs.2.2 ((direct_unnamed hn).mpr marked)

end FinalityRun.Agrees

namespace FinalityRun

variable {w : World} {slotMax : Nat}

lemma run_seen {r r' : FinalityRun} (h : run step r ops = .ok r') : r'.seen = r.seen ++ ops := by
  induction ops generalizing r with
  | nil =>
    cases h
    exact (append_nil _).symm
  | cons mark rest ih =>
    obtain ⟨mid, hf, h⟩ := (run_cons_ok step).mp h
    obtain ⟨⟨tracker, event⟩, _, hm⟩ := bind_ok.mp hf
    cases hm
    rw [ih h, append_assoc]
    rfl

lemma run_agrees (hf : ∀ m ∈ ops, w.Fits m) (hc : Allowed step (Calm w) (start slotMax w.root) ops) :
    Safe (fun r => r.Agrees w ∧ ∀ m ∈ r.seen, w.Fits m) (run step (start slotMax w.root) ops) := by
  refine run_allowed_outcome step _ _ TrackerFault.PoolEmpty ?_ ⟨Agrees.start w slotMax, forall_mem_nil _⟩
    (allowed_and hc (allowed_of_forall hf _))
  rintro r mark ⟨ha, hs⟩ ⟨hc, hf⟩
  have all : ∀ m ∈ r.seen ++ [mark], w.Fits m := by
    exact forall_mem_concat.mpr ⟨hs, hf⟩
  refine (ha.step all hc).mono fun r' hk => ⟨hk.1, ?_⟩
  rw [hk.2]
  exact all

structure SameView (r r' : FinalityRun) : Prop where
  first : r.tracker.firstUnprunedSlot = r'.tracker.firstUnprunedSlot
  highest : r.tracker.highestFinalizedSlot = r'.tracker.highestFinalizedSlot
  status : ∀ s, r.tracker.firstUnprunedSlot ≤ s → r.tracker.statusOf s = r'.tracker.statusOf s
  reported : ∀ s, s ∈ r.reported ↔ s ∈ r'.reported

def Steady (r r' : FinalityRun) : Prop :=
  ∀ slot status, r.tracker.statusOf slot = some status → status.Decided → r'.tracker.firstUnprunedSlot ≤ slot →
    r'.tracker.statusOf slot = some status

lemma Agrees.sameView {r r' : FinalityRun} (hg : r.Agrees w) (hb : r'.Agrees w) (hi : ∀ m ∈ r.seen, w.Fits m)
    (hs : ∀ m, m ∈ r.seen ↔ m ∈ r'.seen) : r.SameView r' := by
  have hr : ∀ s, s ∈ r.reported ↔ s ∈ r'.reported := by
    intro s
    rw [hg.reported_iff, hb.reported_iff]
    exact ⟨fun d => d.mono fun m => (hs m).mp, fun d => d.mono fun m => (hs m).mpr⟩
  have hd : ∀ s, Direct r.seen s ↔ Direct r'.seen s :=
    fun s => ⟨fun d => d.mono fun m => (hs m).mp, fun d => d.mono fun m => (hs m).mpr⟩
  -- the first unpruned slot is the last one before a slot that is not decided
  have hf : r.tracker.firstUnprunedSlot = r'.tracker.firstUnprunedSlot := by
    have hj := hg.walking.root
    have hc := hb.walking.root
    rcases lt_trichotomy r.tracker.firstUnprunedSlot r'.tracker.firstUnprunedSlot with hl | hq | he
    · exact absurd ((hr _).mpr (hb.walking.pruned _ (by omega) hl)) hg.next
    · exact hq
    · exact absurd ((hr _).mp (hg.walking.pruned _ (by omega) he)) hb.next
  have ho : ∀ {r : FinalityRun}, r.Agrees w → w.root ≤ r.tracker.highestFinalizedSlot :=
    fun hg => hg.attained.elim (fun h => le_of_eq h.symm) And.left
  have hh : ∀ {r r' : FinalityRun}, r.Agrees w → r'.Agrees w → (∀ s, Direct r.seen s → Direct r'.seen s) →
      r.tracker.highestFinalizedSlot ≤ r'.tracker.highestFinalizedSlot := by
    intro r r' hg hb he
    rcases hg.attained with ht | ⟨ha, hm⟩
    · rw [ht]
      exact ho hb
    · exact hb.highest _ ha (he _ hm)
  refine ⟨hf, ?_, fun s ha => ?_, hr⟩
  · exact le_antisymm (hh hg hb fun s => (hd s).mp) (hh hb hg fun s => (hd s).mpr)
  · have hn := hb.walking.books.shows s (hf ▸ ha)
    refine Shows.unique hi (hg.walking.books.shows s ha) ?_
    exact hn.congr (hr s).symm (hd s).symm (hs _).symm fun _ => (hs _).symm

end FinalityRun

open FinalityRun in
/-- Marks that are consistent with one chain, given in two orders that meet the condition: neither
run reaches a consensus safety violation, both end in the same view, and no step changes the
status of a slot that is decided and still tracked. -/
theorem finality_confluent (w : World) (slotMax : Nat) {ops ops' : List Mark} (fits : ∀ m ∈ ops, w.Fits m)
    (same : ∀ m, m ∈ ops ↔ m ∈ ops') (calm : Allowed step (Calm w) (start slotMax w.root) ops)
    (calm' : Allowed step (Calm w) (start slotMax w.root) ops') :
    Outcome (fun r => Outcome (fun r' => r.SameView r') TrackerFault.PoolEmpty (run step (start slotMax w.root) ops'))
        TrackerFault.PoolEmpty (run step (start slotMax w.root) ops) ∧
      ∀ front mark back, ops = front ++ mark :: back → ∀ r r', run step (start slotMax w.root) front = .ok r →
        step r mark = .ok r' → r.Steady r' := by
  have first := run_agrees fits calm
  have second := run_agrees (fun m mem => fits m ((same m).mpr mem)) calm'
  refine ⟨?_, ?_⟩
  · cases done : run step (start slotMax w.root) ops with
    | error e =>
      rw [done] at first
      exact first
    | ok r =>
      rw [done] at first
      show Outcome _ _ (run step (start slotMax w.root) ops')
      cases done' : run step (start slotMax w.root) ops' with
      | error e =>
        rw [done'] at second
        exact second
      | ok r' =>
        rw [done'] at second
        refine first.1.sameView second.1 first.2 fun m => ?_
        rw [run_seen done, run_seen done']
        exact same m
  · intro front mark back split r r' done stepped slot status held decided above
    subst split
    have fitsFront : ∀ m ∈ front, w.Fits m := fun m mem => fits m (mem_append_left _ mem)
    obtain ⟨agrees, seen⟩ := (run_agrees fitsFront (allowed_front calm)).of_ok done
    have calmNow := allowed_next calm done
    have all : ∀ m ∈ r.seen ++ [mark], w.Fits m := by
      exact forall_mem_concat.mpr ⟨seen, fits mark (mem_append_right _ (.head _))⟩
    obtain ⟨agrees', grown⟩ := (agrees.step all calmNow).of_ok stepped
    have low : r.tracker.firstUnprunedSlot ≤ slot := by
      obtain ⟨x, found, _⟩ := map_eq_some_iff.mp held
      have named : x.1 = slot := by simpa using find?_some found
      exact named ▸ agrees.walking.books.low x (mem_of_find?_eq_some found)
    exact agrees.steady agrees' grown (grown ▸ all) calmNow low above held decided

def skipOne : World where
  root := 0
  chain slot := if slot = 0 then some 0 else if slot = 2 then some 2 else none
  notarized slot := BitVec.ofNat 256 slot
  parent _ := ⟨0, 0⟩

lemma skipOne_link : skipOne.Fits (.link ⟨2, 2⟩ ⟨0, 0⟩) := by
  refine ⟨rfl, by decide, fun _ _ => ⟨rfl, fun s hl hh => ?_⟩⟩
  obtain rfl : s = 1 := by
    dsimp only at hl hh
    omega
  rfl

open FinalityRun in
/-- A block is linked and finalized in either order. -/
theorem skipOne_confluent :
    Outcome (fun r => Outcome (fun r' => r.SameView r') TrackerFault.PoolEmpty
        (run step (start 4 0) [.fastFinal ⟨2, 2⟩, .link ⟨2, 2⟩ ⟨0, 0⟩]))
      TrackerFault.PoolEmpty (run step (start 4 0) [.link ⟨2, 2⟩ ⟨0, 0⟩, .fastFinal ⟨2, 2⟩]) := by
  have fits : ∀ m ∈ [Mark.link ⟨2, 2⟩ ⟨0, 0⟩, .fastFinal ⟨2, 2⟩], skipOne.Fits m :=
    forall_mem_cons.mpr ⟨skipOne_link, forall_mem_singleton.mpr rfl⟩
  refine (finality_confluent skipOne 4 fits ?_ ?_ ?_).1
  · intro m
    simp [or_comm]
  · exact ⟨fun _ _ => .inl rfl, ⟨fun same => absurd same (by decide), nofun⟩, trivial⟩
  · exact ⟨⟨fun same => absurd same (by decide), nofun⟩, fun _ _ => .inl rfl, trivial⟩

open FinalityRun in
/-- A notarization that comes after the fast finalization of the same block takes the finalized
status back. -/
theorem notarized_after_finalized :
    (∀ m ∈ [Mark.notar ⟨2, 2⟩, .fastFinal ⟨2, 2⟩], skipOne.Fits m) ∧
      ((run step (start 4 0) [.notar ⟨2, 2⟩, .fastFinal ⟨2, 2⟩]).map fun r => r.tracker.statusOf 2) = .ok (some (.finalized 2)) ∧
      ((run step (start 4 0) [.fastFinal ⟨2, 2⟩]).map fun r => r.tracker.statusOf 2) = .ok (some (.finalized 2)) ∧
      ((run step (start 4 0) [.fastFinal ⟨2, 2⟩, .notar ⟨2, 2⟩]).map fun r => r.tracker.statusOf 2) =
        .ok (some (.notarized 2)) := by
  refine ⟨forall_mem_cons.mpr ⟨⟨rfl, fun hash onChain => ?_⟩, forall_mem_singleton.mpr rfl⟩, rfl, rfl, rfl⟩
  exact (some.inj onChain).symm

end Firebam.Votor
