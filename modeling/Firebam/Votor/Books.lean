import Firebam.Votor.Chain

/-! The books of the finality tracker: for the slots it tracks, the statuses and links it holds are
those of the marks it was given. -/
namespace Firebam.Votor
open Lib List

variable {t t' : FinalityTracker} {slot s : Nat} {status : Status} {w : World} {seen seen' : List Mark}
  {D D' : Nat → Prop} {block parent c p : BlockId} {x : Option Nat}

def FinalizationEvent.slots (event : FinalizationEvent) : List Nat :=
  (event.finalized.toList ++ event.implicitlyFinalized).map BlockId.slot ++ event.implicitlySkipped

namespace FinalityTracker

abbrev Safe {α : Type} (good : α → Prop) (x : Except TrackerFault α) : Prop := Outcome good TrackerFault.PoolEmpty x

structure Framed (t t' : FinalityTracker) : Prop where
  slotMax : t'.slotMax = t.slotMax
  parents : t'.parents = t.parents
  first : t'.firstUnprunedSlot = t.firstUnprunedSlot

lemma Framed.refl (t : FinalityTracker) : t.Framed t := ⟨rfl, rfl, rfl⟩

lemma Framed.trans {t t' t'' : FinalityTracker} (hf : t.Framed t') (hs : t'.Framed t'') : t.Framed t'' :=
  ⟨hs.slotMax.trans hf.slotMax, hs.parents.trans hf.parents, hs.first.trans hf.first⟩

structure Put (slot : Nat) (status : Status) (t t' : FinalityTracker) : Prop where
  framed : t.Framed t'
  highest : t'.highestFinalizedSlot = t.highestFinalizedSlot
  statusOf : ∀ s, t'.statusOf s = if s = slot then some status else t.statusOf s
  distinct : (t.status.map Prod.fst).Nodup → (t'.status.map Prod.fst).Nodup
  low : t.firstUnprunedSlot ≤ slot → (∀ x ∈ t.status, t.firstUnprunedSlot ≤ x.1) →
    ∀ x ∈ t'.status, t.firstUnprunedSlot ≤ x.1

variable {event : FinalizationEvent}

lemma statusInsert_put : Safe (fun r => r.1 = t.statusOf slot ∧ t.Put slot status r.2) (t.statusInsert slot status) := by
  unfold statusInsert
  split
  · rename_i old hh
    have hp : (t.status.find? fun x => decide (x.1 = slot)).isSome := by
      obtain ⟨x, hf, _⟩ := Option.map_eq_some_iff.mp hh
      exact Option.isSome_iff_exists.mpr ⟨x, hf⟩
    refine ⟨hh.symm, ⟨rfl, rfl, rfl⟩, rfl, fun s => ?_, ?_, ?_⟩
    · rw [statusOf, find_replace (a := (slot, status)) rfl hp]
      split <;> rfl
    · rw [keys_replace slot (slot, status) rfl]
      exact id
    · intro hi all x hm
      obtain ⟨y, hh, rfl⟩ := mem_map.mp hm
      split
      · exact hi
      · exact all y hh
  · rename_i hn
    have hr := Option.map_eq_none_iff.mp hn
    refine Outcome.check (fun _ => trivial) fun _ => ⟨hn.symm, ⟨rfl, rfl, rfl⟩, rfl, fun s => ?_, ?_, ?_⟩
    · rw [statusOf, find_concat (a := (slot, status)) hr]
      split <;> rfl
    · exact fun hd => keys_concat hd (find_none_fresh hr)
    · intro hi all x hm
      rcases mem_concat.mp hm with old | he
      · exact all x old
      · rw [he]
        exact hi

/-- The statuses of tracked slots are those of the decided set, and the links are those given. -/
structure Books (w : World) (seen : List Mark) (D : Nat → Prop) (t : FinalityTracker) : Prop where
  distinct : (t.status.map Prod.fst).Nodup
  low : ∀ x ∈ t.status, t.firstUnprunedSlot ≤ x.1
  shows : ∀ s, t.firstUnprunedSlot ≤ s → w.Shows seen D s (t.statusOf s)
  links : ∀ b p, t.firstUnprunedSlot ≤ b.slot → (t.parentOf b = some p ↔ .link b p ∈ seen)

section
variable (hb : t.Books w seen D)
include hb

lemma Books.put (put : t.Put slot status t') (hl : t.firstUnprunedSlot ≤ slot)
    (hs : w.Shows seen' D' slot (some status)) (ho : ∀ s, s ≠ slot → ∀ st, w.Shows seen D s st → w.Shows seen' D' s st)
    (hk : ∀ b p, .link b p ∈ seen ↔ .link b p ∈ seen') : t'.Books w seen' D' := by
  refine ⟨put.distinct hb.distinct, ?_, ?_, ?_⟩
  · rw [put.framed.first]
    exact put.low hl hb.low
  · intro s ha
    rw [put.framed.first] at ha
    rw [put.statusOf]
    split
    · rename_i hh
      exact hh ▸ hs
    · rename_i he
      exact ho s he _ (hb.shows s ha)
  · intro b p ha
    rw [put.framed.first] at ha
    rw [parentOf, put.framed.parents, ← hk]
    exact hb.links b p ha

lemma Books.decide (hp : t.Put slot status t') (hl : t.firstUnprunedSlot ≤ slot)
    (hs : w.Shows seen (fun s => D s ∨ s = slot) slot (some status)) : t'.Books w seen fun s => D s ∨ s = slot := by
  refine hb.put hp hl hs (fun s he st ho => ?_) fun _ _ => .rfl
  exact ho.congr ⟨.inl, fun h => h.resolve_right he⟩ .rfl .rfl fun _ => .rfl

lemma Books.of_iff (hs : ∀ s, D s ↔ D' s) : t.Books w seen D' :=
  { hb with shows := fun s ha => (hb.shows s ha).congr (hs s) .rfl .rfl fun _ => .rfl }

end

section

variable (fits : ∀ m ∈ seen, w.Fits m)
include fits

lemma skipGap_books {slots : List Nat} (hl : t.Books w seen D) (hd : slots.Nodup)
    (hn : ∀ s ∈ slots, t.firstUnprunedSlot ≤ s ∧ ¬ D s ∧ w.chain s = none) :
    Safe (fun r => r.1 = true ∧ r.2.1.Books w seen (fun s => D s ∨ s ∈ slots) ∧ t.Framed r.2.1 ∧
      r.2.1.highestFinalizedSlot = t.highestFinalizedSlot ∧
      r.2.2 = { event with implicitlySkipped := event.implicitlySkipped ++ slots }) (skipGap slots t event) := by
  induction slots generalizing t D event with
  | nil =>
    refine ⟨rfl, hl.of_iff fun s => ?_, .refl t, rfl, ?_⟩
    · simp
    · simp
  | cons slot rest ih =>
    obtain ⟨ha, hu, hi⟩ := hn slot (.head _)
    obtain ⟨hf, hd⟩ := nodup_cons.mp hd
    refine statusInsert_put.bind fun r hk => ?_
    obtain ⟨old, t'⟩ := r
    obtain ⟨hw, hp⟩ := hk
    have hc := hl.decide hp ha ⟨hi, .inr rfl⟩
    have hj : ∀ s ∈ rest, t'.firstUnprunedSlot ≤ s ∧ ¬ (D s ∨ s = slot) ∧ w.chain s = none := by
      intro s hx
      obtain ⟨ht, hq, none⟩ := hn s (.tail _ hx)
      refine ⟨hp.framed.first ▸ ht, ?_, none⟩
      rintro (he | rfl)
      · exact hq he
      · exact hf hx
    have hg : Safe (fun r => r.1 = true ∧ r.2.1.Books w seen (fun s => D s ∨ s ∈ slot :: rest) ∧ t.Framed r.2.1 ∧
        r.2.1.highestFinalizedSlot = t.highestFinalizedSlot ∧
        r.2.2 = { event with implicitlySkipped := event.implicitlySkipped ++ slot :: rest })
        (skipGap rest t' { event with implicitlySkipped := event.implicitlySkipped ++ [slot] }) := by
      refine (ih hc hd hj).mono fun r hk => ?_
      obtain ⟨hm, hb, hr, hh, hv⟩ := hk
      refine ⟨hm, hb.of_iff fun s => ?_, hp.framed.trans hr, hh.trans hp.highest, ?_⟩
      · rw [mem_cons, or_assoc]
      · rw [hv, append_assoc]
        rfl
    have hs := hl.shows slot ha
    rw [← hw] at hs
    match old with
    | none | some (.notarized _) => exact hg
    | some .implicitlySkipped => exact absurd hs.2 hu
    | some (.finalized _) | some (.implicitlyFinalized _) => exact absurd hs.2.1 hu
    | some .finalPendingNotar =>
      obtain ⟨hash, ho⟩ := fits _ hs.2.1
      rw [hi] at ho
      cases ho

lemma finalizeImplicitly_books (hb : t.Books w seen D) (hg : t.firstUnprunedSlot ≤ block.slot)
    (ho : w.OnChain block) (ht : World.Direct seen block.slot → D block.slot) :
    Safe (fun r => (D block.slot ∧ r.1 = false ∧ r.2.1.Books w seen D ∧ r.2.2 = event ∨
        ¬ D block.slot ∧ r.1 = true ∧ r.2.1.Books w seen (fun s => D s ∨ s = block.slot) ∧
          r.2.2 = { event with implicitlyFinalized := event.implicitlyFinalized ++ [block] }) ∧
      t.Framed r.2.1 ∧ r.2.1.highestFinalizedSlot = t.highestFinalizedSlot) (t.finalizeImplicitly block event) := by
  refine statusInsert_put.bind fun r hk => ?_
  obtain ⟨old, t'⟩ := r
  obtain ⟨hw, hp⟩ := hk
  have hn := hb.shows block.slot hg
  rw [← hw] at hn
  -- a status that decided the slot is put back
  have hr : ∀ status, some status = t.statusOf block.slot → D block.slot → Safe (fun r : Bool × FinalityTracker × FinalizationEvent =>
      (D block.slot ∧ r.1 = false ∧ r.2.1.Books w seen D ∧ r.2.2 = event ∨
        ¬ D block.slot ∧ r.1 = true ∧ r.2.1.Books w seen (fun s => D s ∨ s = block.slot) ∧
          r.2.2 = { event with implicitlyFinalized := event.implicitlyFinalized ++ [block] }) ∧
      t.Framed r.2.1 ∧ r.2.1.highestFinalizedSlot = t.highestFinalizedSlot)
      (t'.statusInsert block.slot status >>= fun r => Except.ok (false, r.2, event)) := by
    intro status he hc
    refine statusInsert_put.bind fun r hk => ?_
    obtain ⟨_, ha⟩ := hk
    have hd := hp.framed.trans ha.framed
    refine ⟨.inl ⟨hc, rfl, ⟨?_, ?_, ?_, ?_⟩, rfl⟩, hd, ha.highest.trans hp.highest⟩
    · exact ha.distinct (hp.distinct hb.distinct)
    · have hf := hp.low hg hb.low
      rw [hd.first]
      rw [← hp.framed.first] at hf hg ⊢
      exact ha.low hg hf
    · intro s hl
      rw [hd.first] at hl
      rw [ha.statusOf, hp.statusOf]
      split_ifs with hh
      · rw [he, hh]
        exact hb.shows block.slot hg
      · exact hb.shows s hl
    · intro b p hl
      rw [hd.first] at hl
      rw [parentOf, hd.parents]
      exact hb.links b p hl
  have hi : ¬ D block.slot → (t'.Books w seen fun s => D s ∨ s = block.slot) := by
    intro hu
    exact hb.decide hp hg ⟨ho, .inr rfl, fun hm => hu (ht hm)⟩
  match old with
  | some (.finalized hash) =>
    have hs : hash = block.hash := Option.some.inj (hn.1.symm.trans ho)
    exact Outcome.check (fun ne => absurd hs ne) fun _ => hr _ hw hn.2.1
  | some (.implicitlyFinalized hash) =>
    have hs : hash = block.hash := Option.some.inj (hn.1.symm.trans ho)
    exact Outcome.check (fun ne => absurd hs ne) fun _ => hr _ hw hn.2.1
  | some (.notarized hash) =>
    have hs : block.hash = hash := (fits _ hn.2.1).2 _ ho
    refine Outcome.check (fun ne => absurd hs.symm ne) fun _ => ?_
    exact ⟨.inr ⟨hn.1, rfl, hi hn.1, rfl⟩, hp.framed, hp.highest⟩
  | some .implicitlySkipped =>
    rw [World.OnChain, hn.1] at ho
    cases ho
  | some .finalPendingNotar | none => exact ⟨.inr ⟨hn.1, rfl, hi hn.1, rfl⟩, hp.framed, hp.highest⟩

end

structure Walking (w : World) (seen : List Mark) (x : Option Nat) (D : Nat → Prop) (t : FinalityTracker) : Prop where
  books : t.Books w seen D
  root : w.root ≤ t.firstUnprunedSlot
  direct : ∀ s, w.root ≤ s → World.Direct seen s → D s
  sound : ∀ s, D s → w.Decided seen s
  closed : ∀ c p s, some c.slot ≠ x → D c.slot → w.OnChain c → .link c p ∈ seen → w.root ≤ p.slot → p.slot ≤ s →
    s < c.slot → D s
  support : ∀ s, D s → w.chain s = none → ∃ c p, some c.slot ≠ x ∧ D c.slot ∧ w.OnChain c ∧ .link c p ∈ seen ∧
    w.root ≤ p.slot ∧ p.slot < s ∧ s < c.slot
  pruned : ∀ s, w.root < s → s ≤ t.firstUnprunedSlot → D s

namespace Walking

variable (hfi : ∀ m ∈ seen, w.Fits m)
include hfi

variable (hwa : t.Walking w seen (some c.slot) D)
include hwa

lemma free (ho : w.OnChain c) (hl : .link c p ∈ seen)
    (ha : w.root ≤ p.slot) (hc : p.slot < s) (hh : s < c.slot) : ¬ D s := by
  intro hd
  have hs := ((hfi _ hl).2.2 ho ha).2 s hc hh
  obtain ⟨c', p', ne, _, hn, hi, hb, hw, hg⟩ := hwa.support s hd hs
  exact ne (congrArg some (World.links_apart hfi hi hl hn ho hb ha hw hg hc hh))

lemma next (hc : D c.slot) (hj : w.OnChain c) (hld : .link c p ∈ seen) (hz : w.root ≤ p.slot)
    (hfr : t.Framed t') (hx : t'.Books w seen fun s => D s ∨ p.slot ≤ s ∧ s < c.slot) (ne : x ≠ some c.slot)
    (todo : ¬ D p.slot → ∀ q, .link p q ∈ seen → x = some p.slot) (hf : x = some p.slot → ¬ D p.slot)
    (ho : ∀ s, x = some s → s = p.slot) : t'.Walking w seen x fun s => D s ∨ p.slot ≤ s ∧ s < c.slot := by
  obtain ⟨hp, hl, ht⟩ := hfi _ hld
  obtain ⟨hon, hsk⟩ := ht hj hz
  -- a block of the chain among the new slots is the parent
  have hi : ∀ b : BlockId, w.OnChain b → p.slot ≤ b.slot → b.slot < c.slot → b.slot = p.slot := by
    intro b hu hq hg
    by_contra hel
    have hd := hsk b.slot (by omega) hg
    rw [hu] at hd
    cases hd
  refine ⟨hx, hfr.first.symm ▸ hwa.root, fun s hq hm => .inl (hwa.direct s hq hm), ?_, ?_, ?_, ?_⟩
  · rintro s (hv | ⟨hq, hg⟩)
    · exact hwa.sound s hv
    · exact .implied (hwa.sound _ hc) hj hld hz hq hg
  · rintro c' p' s hw he hn hy hb hq hg
    by_cases hh : c'.slot = c.slot
    · obtain rfl : c' = c := hn.unique hj hh
      obtain rfl : p' = p := (hfi _ hy).1.trans hp.symm
      exact .inr ⟨hq, hg⟩
    · rcases he with hv | ⟨hlo, hhi⟩
      · exact .inl (hwa.closed c' p' s (by simpa using hh) hv hn hy hb hq hg)
      · have hs := hi c' hn hlo hhi
        by_cases hk : D p.slot
        · exact .inl (hwa.closed c' p' s (by simpa using hh) (hs ▸ hk) hn hy hb hq hg)
        · obtain rfl : c' = p := hn.unique hon hs
          exact absurd (todo hk p' hy).symm hw
  · rintro s (hv | ⟨hq, hg⟩) hd
    · obtain ⟨c', p', hw, he, hr⟩ := hwa.support s hv hd
      refine ⟨c', p', fun hs => ?_, .inl he, hr⟩
      have ha := ho _ hs.symm
      exact hf (ha ▸ hs.symm) (ha ▸ he)
    · refine ⟨c, p, fun hs => ne hs.symm, .inl hc, hj, hld, hz, ?_, hg⟩
      rcases Nat.lt_or_eq_of_le hq with hle | hs
      · exact hle
      · rw [← hs, hon] at hd
        cases hd
  · intro s hq hg
    rw [hfr.first] at hg
    exact .inl (hwa.pruned s hq hg)

lemma finish (hn : w.OnChain c) (hb : .link c p ∈ seen)
    (hg : p.slot < t.firstUnprunedSlot) (hr : w.root < t.firstUnprunedSlot → p.slot = w.root → D w.root) :
    t.Walking w seen none D := by
  refine { hwa with closed := ?_, support := ?_ }
  · intro c' p' s _ hd ho hl ha hw hi
    by_cases hh : c'.slot = c.slot
    · obtain rfl : c' = c := ho.unique hn hh
      obtain rfl : p' = p := (hfi _ hl).1.trans (hfi _ hb).1.symm
      by_cases hc : s = w.root
      · rw [hc]
        exact hr (by omega) (by omega)
      by_cases ht : s ≤ t.firstUnprunedSlot
      · exact hwa.pruned s (by omega) ht
      · have hf := hwa.pruned t.firstUnprunedSlot (by omega) le_rfl
        exact absurd hf (hwa.free hfi hn hb ha hg (by omega))
    · exact hwa.closed c' p' s (by simpa using hh) hd ho hl ha hw hi
  · intro s hd hs
    obtain ⟨c', p', _, he⟩ := hwa.support s hd hs
    exact ⟨c', p', by simp, he⟩

end Walking

structure Walked (w : World) (seen : List Mark) (base : Nat → Prop) (t t' : FinalityTracker)
    (event' : FinalizationEvent) : Prop where
  framed : t.Framed t'
  highest : t'.highestFinalizedSlot = t.highestFinalizedSlot
  settled : t'.Walking w seen none fun s => base s ∨ s ∈ event'.slots

lemma mem_between {low high : Nat} : s ∈ between low high ↔ low < s ∧ s < high := by
  simp only [between, mem_map, mem_range]
  constructor
  · rintro ⟨i, hm, rfl⟩
    omega
  · rintro ⟨ha, hb⟩
    exact ⟨s - (low + 1), by omega, by omega⟩

lemma nodup_between (low high : Nat) : (between low high).Nodup :=
  nodup_range.map fun i j hs => by simpa using hs

lemma mem_slots_skipped {slots : List Nat} :
    s ∈ FinalizationEvent.slots { event with implicitlySkipped := event.implicitlySkipped ++ slots } ↔
      s ∈ event.slots ∨ s ∈ slots := by
  simp only [FinalizationEvent.slots, mem_append, or_assoc]

lemma mem_slots_finalized :
    s ∈ FinalizationEvent.slots { event with implicitlyFinalized := event.implicitlyFinalized ++ [block] } ↔
      s ∈ event.slots ∨ s = block.slot := by
  simp only [FinalizationEvent.slots, map_append, map_cons, map_nil, mem_append, mem_singleton]
  tauto

lemma Walking.of_iff (hw : t.Walking w seen x D) (hs : ∀ s, D s ↔ D' s) : t.Walking w seen x D' := by
  obtain rfl : D = D' := funext fun s => propext (hs s)
  exact hw

section

variable (hf : ∀ m ∈ seen, w.Fits m) (hw : t.Walking w seen (some c.slot) D) (hd : D c.slot)
  (ho : w.OnChain c) (hi : .link c p ∈ seen) (ha : w.root ≤ p.slot) (hr : t.Framed t')
include hf hw hd ho hi ha hr

omit hw hd ho ha hr in
lemma covers (s : Nat) : ((D s ∨ s ∈ between p.slot c.slot) ∨ s = p.slot) ↔ D s ∨ p.slot ≤ s ∧ s < c.slot := by
  have hl := (hf _ hi).2.1
  rw [mem_between, or_assoc]
  refine or_congr_right ⟨?_, ?_⟩
  · rintro (hm | rfl)
    · omega
    · exact ⟨le_rfl, hl⟩
  · rintro ⟨ho, hh⟩
    omega

lemma Walking.known (hb : t'.Books w seen fun s => D s ∨ s ∈ between p.slot c.slot) (known : D p.slot) :
    t'.Walking w seen none fun s => D s ∨ s ∈ between p.slot c.slot := by
  have hs : ∀ s, (D s ∨ s ∈ between p.slot c.slot) ↔ D s ∨ p.slot ≤ s ∧ s < c.slot := by
    intro s
    rw [← covers hf hi]
    exact ⟨.inl, fun h => h.elim id fun hh => .inl (hh ▸ known)⟩
  have he := hw.next hf hd ho hi ha hr (hb.of_iff hs) (x := none) (by simp)
    (fun hu => absurd known hu) (by simp) (by simp)
  exact he.of_iff fun s => (hs s).symm

variable (hb : t'.Books w seen fun s => (D s ∨ s ∈ between p.slot c.slot) ∨ s = p.slot)
include hb

lemma Walking.last
    (hu : ∀ q, .link p q ∉ seen) : t'.Walking w seen none fun s => (D s ∨ s ∈ between p.slot c.slot) ∨ s = p.slot := by
  have hs := hw.next hf hd ho hi ha hr (hb.of_iff (covers hf hi)) (x := none)
    (by simp) (fun _ q hg => absurd hg (hu q)) (by simp) (by simp)
  exact hs.of_iff fun s => (covers hf hi s).symm

lemma Walking.onward (hu : ¬ D p.slot) :
    t'.Walking w seen (some p.slot) fun s => (D s ∨ s ∈ between p.slot c.slot) ∨ s = p.slot := by
  have hl := (hf _ hi).2.1
  have he := hw.next hf hd ho hi ha hr (hb.of_iff (covers hf hi))
    (x := some p.slot) (fun hs => absurd (Option.some.inj hs) (by omega)) (fun _ _ _ => rfl) (fun _ => hu)
    (fun s hs => (Option.some.inj hs).symm)
  exact he.of_iff fun s => (covers hf hi s).symm

end

lemma Walking.rooted (ht : ∀ m ∈ seen, w.Fits m) {q : BlockId} (hw : t.Walking w seen (some p.slot) D)
    (hf : ∀ s, w.root < s → s ≤ t.firstUnprunedSlot → s ≠ p.slot) (ho : w.OnChain p) (hi : .link p q ∈ seen) :
    w.root < t.firstUnprunedSlot → q.slot = w.root → D w.root := by
  intro hm ha
  have hl := (ht _ hi).2.1
  have hr := hw.pruned (w.root + 1) (by omega) hm
  have hn := hf (w.root + 1) (by omega) hm
  exact absurd hr (hw.free ht ho hi (by omega) (by omega) (by omega))

lemma handleImplicitlyFinalized_walks (hq : ∀ m ∈ seen, w.Fits m) {base : Nat → Prop} {n : Nat}
    (hw : t.Walking w seen (some c.slot) fun s => base s ∨ s ∈ event.slots)
    (hc : base c.slot ∨ c.slot ∈ event.slots) (hn : w.OnChain c) (hld : .link c p ∈ seen)
    (fuel : c.slot ≤ n) (rooted : w.root < t.firstUnprunedSlot → p.slot = w.root → base w.root ∨ w.root ∈ event.slots) :
    Safe (fun r => Walked w seen base t r.1 r.2) (handleImplicitlyFinalized n c.slot p t event) := by
  induction n generalizing c p t event with
  | zero =>
    have hl := (hq _ hld).2.1
    omega
  | succ n ih =>
    obtain ⟨_, hl, between⟩ := hq _ hld
    refine Outcome.check (fun ne => absurd hl ne) fun _ => ?_
    split
    · rename_i hg
      exact ⟨.refl t, rfl, hw.finish hq hn hld hg rooted⟩
    rename_i kept
    have ht : t.firstUnprunedSlot ≤ p.slot := not_lt.mp kept
    have hv : w.root ≤ p.slot := le_trans hw.root ht
    obtain ⟨hj, skips⟩ := between hn hv
    refine (skipGap_books hq hw.books (nodup_between p.slot c.slot) ?_).bind fun r gapDone => ?_
    · intro s mem
      obtain ⟨low, high⟩ := mem_between.mp mem
      exact ⟨by omega, hw.free hq hn hld hv low high, skips s low high⟩
    obtain ⟨more, t₁, event₁⟩ := r
    obtain ⟨rfl, books₁, framed₁, highest₁, events₁⟩ := gapDone
    have hsl : ∀ s, s ∈ event₁.slots ↔ s ∈ event.slots ∨ s ∈ FinalityTracker.between p.slot c.slot := by
      intro s
      rw [show event₁ = _ from events₁, mem_slots_skipped]
    clear events₁
    dsimp only
    rw [if_neg (by simp)]
    refine (finalizeImplicitly_books hq books₁ (framed₁.first ▸ ht) hj ?_).bind fun r hz => ?_
    · exact fun hm => .inl (hw.direct p.slot hv hm)
    obtain ⟨more, t₂, event₂⟩ := r
    obtain ⟨outcome, framed₂, highest₂⟩ := hz
    have ha : t.Framed t₂ := framed₁.trans framed₂
    have hhi : t₂.highestFinalizedSlot = t.highestFinalizedSlot := highest₂.trans highest₁
    rcases outcome with ⟨hk, rfl, hb, hs⟩ | ⟨hf, rfl, hb, events₂⟩
    · have hp := hk.resolve_right fun hi => absurd (mem_between.mp hi).1 (lt_irrefl _)
      have he := hw.known hq hc hn hld hv ha hb hp
      rw [if_pos (by simp)]
      refine ⟨ha, hhi, he.of_iff fun s => ?_⟩
      rw [show event₂ = event₁ from hs, hsl, or_assoc]
    · have hu : ¬ (base p.slot ∨ p.slot ∈ event.slots) := fun hk => hf (.inl hk)
      have hx : ∀ s, (((base s ∨ s ∈ event.slots) ∨ s ∈ FinalityTracker.between p.slot c.slot) ∨ s = p.slot) ↔
          base s ∨ s ∈ event₂.slots := by
        intro s
        rw [show event₂ = _ from events₂, mem_slots_finalized, hsl, or_assoc, or_assoc]
        simp only [or_assoc]
      clear events₂
      rw [if_neg (by simp)]
      split
      · rename_i unlinked
        have he := hw.last hq hc hn hld hv ha hb fun q given => by
          have := (hb.links p q (ha.first ▸ ht)).mpr given
          rw [unlinked] at this
          cases this
        exact ⟨ha, hhi, he.of_iff hx⟩
      · rename_i q given
        have hli := (hb.links p q (ha.first ▸ ht)).mp given
        have ho := hw.onward hq hc hn hld hv ha hb hu
        have hr := ho.rooted hq (fun s low high hh => hu (hh ▸ hw.pruned s low (ha.first ▸ high)))
          hj hli
        have last := ih (ho.of_iff hx) ((hx p.slot).mp (.inr rfl)) hj hli (by omega)
          fun hd atRoot => (hx w.root).mp (hr hd atRoot)
        exact last.mono fun r hy => ⟨ha.trans hy.framed, hy.highest.trans hhi, hy.settled⟩

end FinalityTracker

end Firebam.Votor
