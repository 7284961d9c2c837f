import Firebam.Reasm.System

namespace Firebam.Reassembly
open Lib List

variable {l : Log} {s s' : Reasm} {i j p r : Idx} {kids : Idx → List Idx} {fecMax : Nat}

/-- The live elements that have been delivered, last first. An element that is released and
acquired again is another FEC set. -/
structure Log where
  reasm : Reasm
  delivered : List Idx

def Log.new (fecMax : Nat) : Log := ⟨Reasm.new fecMax, []⟩

def Log.step (l : Log) (op : Op) : Except Fault Log := do
  let (s, out) ← l.reasm.step op
  return ⟨s, (out.toList ++ l.delivered).filter fun i => decide (i ∈ s.live)⟩

structure Log.Sound (l : Log) : Prop where
  queue : Queued l.reasm
  spreads : Spreads l.reasm fun _ => False
  twins : Twins l.reasm fun _ => True
  seen : ∀ i ∈ l.delivered, i ∈ l.reasm.live ∧ (l.reasm.fec i).popped = true
  told : ∀ i ∈ l.reasm.live, (l.reasm.fec i).popped = true → i ∈ l.delivered ∨ l.reasm.root = some i
  once : l.delivered.Nodup

lemma deliverable_iff : s.deliverable i = true ↔
    (s.fec i).popped = false ∧ ((s.fec i).eqvoc = true → (s.fec i).confirmed = true) := by
  unfold Reasm.deliverable
  dsimp only
  cases (s.fec i).popped <;> cases (s.fec i).eqvoc <;> simp

lemma new_sound (fecMax : Nat) : (Log.new fecMax).Sound where
  queue := ⟨(fun _ hc => hc.elim nofun nofun), nofun⟩
  spreads := nofun
  twins := nofun
  seen := nofun
  told := nofun
  once := nodup_nil

lemma Log.Sound.starts (hb : s'.root = some r) (ho : ∀ j ∈ s'.live, j = r)
    (hr : (s'.fec r).parent = none) (hp : (s'.fec r).popped = true) (hc : ∀ j ∈ s'.out, s'.Conn j)
    (hs : l.Sound) : Log.Sound ⟨s', l.delivered.filter fun i => decide (i ∈ s'.live)⟩ := by
  refine ⟨⟨fun j ht hu => ?_, fun j hm p up ha => ?_⟩, fun c hl p _ ha => ?_, fun a hl b hi _ _ ne => ?_,
    fun i hm => ?_, fun i hl _ => ?_, hs.once.filter _⟩
  · rw [ho j ht.live, hp] at hu
    cases hu
  · rw [ho j (hc j hm).live, hr] at ha
    cases ha
  · rw [ho c hl, hr] at ha
    cases ha
  · exact absurd ((ho a hl).trans (ho b hi).symm) ne
  · have hl := of_decide_eq_true (mem_filter.mp hm).2
    exact ⟨hl, ho i hl ▸ hp⟩
  · exact .inr (ho i hl ▸ hb)

lemma Log.Sound.adds {a : Arrival} (hn : i ∉ l.reasm.live) (hi : Inserts l.reasm s' i a)
    (hs : l.Sound) : Log.Sound ⟨s', l.delivered.filter fun i => decide (i ∈ s'.live)⟩ := by
  have hp : ∀ j, j ≠ i → (s'.fec j).popped = (l.reasm.fec j).popped := fun j ne =>
    (congrArg Fec.popped (hi.ident j ne) :)
  refine ⟨hi.queue hs.queue, hi.spreads hs.spreads, hi.twins hs.twins, fun j hm => ?_,
    fun j hl on => ?_, hs.once.filter _⟩
  · obtain ⟨hb, hl⟩ := mem_filter.mp hm
    obtain ⟨ho, on⟩ := hs.seen j hb
    have ne : j ≠ i := fun eq => hn (eq ▸ ho)
    exact ⟨of_decide_eq_true hl, (hp j ne).trans on⟩
  · by_cases hh : j = i
    · subst hh
      exact nomatch (congrArg Fec.popped (hi.new hl) :).symm.trans on
    · rw [hp j hh] at on
      refine (hs.told j ((hi.live j hl).resolve_left hh) on).imp (fun hm => ?_) fun hr => ?_
      · exact mem_filter.mpr ⟨hm, decide_eq_true hl⟩
      · exact hi.root.trans hr

lemma Log.Sound.drops {root : Option Idx} (hk : Kept { l.reasm with root := root } s')
    (ha : ∀ j ∈ s'.live, l.reasm.root = some j → s'.root = some j) (hs : l.Sound) :
    Log.Sound ⟨s', l.delivered.filter fun i => decide (i ∈ s'.live)⟩ := by
  have hp : ∀ j, (s'.fec j).popped = (l.reasm.fec j).popped := fun j => (congrArg Fec.popped (hk.ident j) :)
  refine ⟨hk.queue ⟨hs.queue.fresh, hs.queue.order⟩, hk.spreads hs.spreads, hk.twins hs.twins,
    fun j hm => ?_, fun j hl on => ?_, hs.once.filter _⟩
  · obtain ⟨hb, hl⟩ := mem_filter.mp hm
    exact ⟨of_decide_eq_true hl, (hp j).trans (hs.seen j hb).2⟩
  · rw [hp j] at on
    refine (hs.told j (hk.live j hl) on).imp (fun hm => ?_) (ha j hl)
    exact mem_filter.mpr ⟨hm, decide_eq_true hl⟩

lemma Log.Sound.confirms (confirms : Confirms l.reasm s') (hs : l.Sound) :
    Log.Sound ⟨s', l.delivered.filter fun i => decide (i ∈ s'.live)⟩ := by
  have hp : ∀ j, (s'.fec j).parent = (l.reasm.fec j).parent := fun j => (congrArg Fec.parent (confirms.plain j) :)
  have hk : ∀ j, (s'.fec j).xidKey = (l.reasm.fec j).xidKey := fun j => (congrArg Fec.xidKey (confirms.plain j) :)
  refine ⟨confirms.queue hs.queue, fun c hl p hi up on ha => ?_, fun a hl b hi _ _ ne eq => ?_,
    fun j hm => ?_, fun j hl on => ?_, hs.once.filter _⟩
  · rw [confirms.live] at hl hi
    rw [hp] at up
    rw [confirms.eqvoc] at on ⊢
    refine hs.spreads c hl p hi up on ?_
    exact Bool.eq_false_iff.mpr fun hb => nomatch ha.symm.trans (confirms.confirmed p hb)
  · rw [confirms.live] at hl hi
    rw [hk, hk] at eq
    rw [confirms.eqvoc]
    exact hs.twins a hl b hi trivial trivial ne eq
  · obtain ⟨hb, hl⟩ := mem_filter.mp hm
    exact ⟨of_decide_eq_true hl, (confirms.popped j).trans (hs.seen j hb).2⟩
  · rw [confirms.popped] at on
    refine (hs.told j (confirms.live ▸ hl) on).imp (fun hm => ?_) confirms.root.trans
    exact mem_filter.mpr ⟨hm, decide_eq_true hl⟩

lemma Log.Sound.pops {gone rest : List Idx} {f : Idx → Fec} (pops : Pops l.reasm l.reasm.out gone rest f l.reasm.peek)
    (hs : l.Sound) : Log.Sound ⟨{ l.reasm with fec := f, out := rest },
      (l.reasm.peek.toList ++ l.delivered).filter fun i => decide (i ∈ l.reasm.live)⟩ := by
  have he : ∀ j, (f j).eqvoc = (l.reasm.fec j).eqvoc := fun j => (congrArg Fec.eqvoc (pops.fec j) :)
  have hc : ∀ j, (f j).confirmed = (l.reasm.fec j).confirmed := fun j => (congrArg Fec.confirmed (pops.fec j) :)
  have hp : ∀ j, (f j).parent = (l.reasm.fec j).parent := fun j => (congrArg Fec.parent (pops.fec j) :)
  have hk : ∀ j, (f j).xidKey = (l.reasm.fec j).xidKey := fun j => (congrArg Fec.xidKey (pops.fec j) :)
  refine ⟨pops.queue hs.queue, fun c hl p hi up on ha => ?_, fun a hl b hi _ _ ne eq => ?_,
    fun j hm => ?_, fun j hl on => ?_, ?_⟩
  · exact (he c).symm ▸ hs.spreads c hl p hi ((hp c).symm.trans up) ((he p).symm.trans on)
      ((hc p).symm.trans ha)
  · exact (he a).trans (hs.twins a hl b hi trivial trivial ne ((hk a).symm.trans (eq.trans (hk b))))
  · obtain ⟨hb, hl⟩ := mem_filter.mp hm
    refine ⟨of_decide_eq_true hl, (pops.popped j).mpr ?_⟩
    rcases mem_append.mp hb with hn | ho
    · exact .inr (Option.mem_toList.mp hn)
    · exact .inl (hs.seen j ho).2
  · rcases (pops.popped j).mp on with hb | hn
    · refine (hs.told j hl hb).imp_left fun hm => ?_
      exact mem_filter.mpr ⟨mem_append_right _ hm, decide_eq_true hl⟩
    · exact .inl (mem_filter.mpr ⟨mem_append_left _ (Option.mem_toList.mpr hn), decide_eq_true hl⟩)
  · refine List.Nodup.filter _ ?_
    refine nodup_append.mpr ⟨?_, hs.once, ?_⟩
    · cases l.reasm.peek with
      | none => exact nodup_nil
      | some j => exact nodup_singleton j
    · intro a hn b ho eq
      subst eq
      have hf := find?_some (Option.mem_toList.mp hn)
      exact nomatch (deliverable_iff.mp hf).1.symm.trans (hs.seen a ho).2

lemma Log.Sound.step (hb : 2 ≤ fecMax) {op : Op} (hh : Held fecMax l.reasm) (hs : l.Sound)
    (hp : l.reasm.Promise op) (hw : l.reasm.Onward op) :
    ∃ l', l.step op = .ok l' ∧ Held fecMax l'.reasm ∧ l'.Sound := by
  obtain ⟨s', out, h, hl, he⟩ := hh.step hb hp hw
  refine ⟨_, bind_ok.mpr ⟨_, h, rfl⟩, hl, ?_⟩
  cases he with
  | starts r root ho ha hd => exact hs.starts root ho ha hd hl.outs.conn
  | adds i a hn hi => exact hs.adds hn hi
  | drops root hk ht => exact hs.drops hk ht
  | confirms confirms => exact hs.confirms confirms
  | pops gone rest f eq pops =>
    subst eq
    exact hs.pops pops

structure Log.Fair (l : Log) : Prop where
  peek : l.reasm.pop.2 = l.reasm.peek
  once : ∀ j, l.reasm.pop.2 = some j → j ∉ l.delivered
  connected : ∀ j, l.reasm.pop.2 = some j → l.reasm.Conn j
  order : ∀ j, l.reasm.pop.2 = some j → ∀ p, (l.reasm.fec j).parent = some p →
    p ∈ l.delivered ∨ l.reasm.root = some p ∨ (l.reasm.fec p).eqvoc = true
  unmarked : ∀ j, l.reasm.pop.2 = some j → (l.reasm.fec j).eqvoc = true → (l.reasm.fec j).confirmed = true
  below : ∀ j, l.reasm.pop.2 = some j → ∀ p, (l.reasm.fec j).parent = some p → (l.reasm.fec p).eqvoc = true →
    (l.reasm.fec p).confirmed = true ∨ (l.reasm.fec j).confirmed = true
  twins : ∀ a ∈ l.reasm.live, ∀ b ∈ l.reasm.live, a ≠ b → (l.reasm.fec a).slot = (l.reasm.fec b).slot →
    (l.reasm.fec a).fecSetIdx = (l.reasm.fec b).fecSetIdx → (l.reasm.fec a).eqvoc = true ∧ (l.reasm.fec b).eqvoc = true
  descendants : ∀ a ∈ l.reasm.live, (l.reasm.fec a).eqvoc = true → ∀ d,
    Relation.ReflTransGen (fun p c => c ∈ l.reasm.children p ∧ (l.reasm.fec p).confirmed = false) a d →
    (l.reasm.fec d).eqvoc = true

lemma pop_eq_peek (nd : s.out.Nodup) : s.pop.2 = s.peek := by
  obtain ⟨f, gone, rest, r, hr, hp⟩ := popLoop_spec (s := s) nd
  exact (congrArg Prod.snd hr).trans hp.first

lemma before_peek (nd : s.out.Nodup) (hn : s.peek = some j) (hb : [p, j].Sublist s.out) : s.deliverable p = false := by
  obtain ⟨-, front, back, hs, hp⟩ := find?_eq_some_iff_append.mp hn
  rw [hs] at nd hb
  obtain ⟨-, ho, -⟩ := nodup_append.mp nd
  have hl := (nodup_cons.mp ho).1
  have hm : p ∈ front := by
    obtain ⟨first, second, eq, he, hr⟩ := sublist_append_iff.mp hb
    cases first with
    | nil =>
      rw [nil_append] at eq
      subst eq
      rcases sublist_cons_iff.mp hr with ht | ⟨more, eq, ht⟩
      · exact absurd (ht.subset (.tail _ (.head _))) hl
      · cases eq
        exact absurd (ht.subset (.head _)) hl
    | cons q first =>
      rw [cons_append] at eq
      exact (List.cons.inj eq).1 ▸ he.subset (.head _)
  have no := hp p hm
  rw [Bool.not_eq_true_eq_eq_false] at no
  exact no

lemma Rooted.parent_conn (hr : Rooted s kids r []) (hc : s.Conn j) (ha : (s.fec j).parent = some p) : s.Conn p := by
  have hw := hr.whole
  obtain ⟨hl, hk⟩ := hw.links.parent_mem hc.live ha
  exact (hw.places.same p hl not_mem_nil j hk).mp hc

lemma Held.parent_conn (hh : Held fecMax s) (hc : s.Conn j) (ha : (s.fec j).parent = some p) : s.Conn p := by
  cases hh with
  | fresh hn =>
    subst hn
    exact nomatch ha
  | rooted kids r rooted _ => exact rooted.parent_conn hc ha

lemma Log.Sound.fair (he : Held fecMax l.reasm) (hn : l.Sound) : l.Fair := by
  have hr := he.tree
  have nd := he.outs.nodup
  have hx := pop_eq_peek nd
  have hg : ∀ j, l.reasm.peek = some j → l.reasm.Conn j ∧ l.reasm.deliverable j = true := fun j hf =>
    ⟨he.outs.conn j (mem_of_find?_eq_some hf), find?_some hf⟩
  refine ⟨hx, ?_, ?_, ?_, ?_, ?_, fun a hl b hi ne hw hj => ?_, fun a hl on d hk => ?_⟩
  · intro j hf hy
    rw [hx] at hf
    exact nomatch (deliverable_iff.mp (hg j hf).2).1.symm.trans (hn.seen j hy).2
  · exact fun j hf => (hg j (hx.symm.trans hf)).1
  · intro j hf p ha
    rw [hx] at hf
    have up := he.parent_conn (hg j hf).1 ha
    have ho : (l.reasm.fec p).popped = true → p ∈ l.delivered ∨ l.reasm.root = some p ∨ (l.reasm.fec p).eqvoc = true :=
      fun on => (hn.told p up.live on).imp_right .inl
    rcases hn.queue.order j (mem_of_find?_eq_some hf) p up ha with on | hm | hb
    · exact ho on
    · exact .inr (.inr hm)
    · have hp := before_peek nd hf hb
      by_cases on : (l.reasm.fec p).popped = true
      · exact ho on
      · refine .inr (.inr (by_contra fun hv => ?_))
        have ht : l.reasm.deliverable p = true :=
          deliverable_iff.mpr ⟨Bool.eq_false_iff.mpr on, fun hm => absurd hm hv⟩
        exact nomatch hp.symm.trans ht
  · exact fun j hf => (deliverable_iff.mp (hg j (hx.symm.trans hf)).2).2
  · intro j hf p ha hm
    rw [hx] at hf
    by_cases hu : (l.reasm.fec p).confirmed = true
    · exact .inl hu
    · have hc := (hg j hf).1
      have up := he.parent_conn hc ha
      have hh := (hn.spreads j hc.live p up.live ha hm (Bool.eq_false_iff.mpr hu)).resolve_right fun no => no
      exact .inr ((deliverable_iff.mp (hg j hf).2).2 hh)
  · have hs : (l.reasm.fec a).xidKey = (l.reasm.fec b).xidKey := by
      unfold Fec.xidKey
      rw [hw, hj]
    exact ⟨hn.twins a hl b hi trivial trivial ne hs,
      hn.twins b hi a hl trivial trivial ne.symm hs.symm⟩
  · have hq : d ∈ l.reasm.live ∧ (l.reasm.fec d).eqvoc = true := by
      induction hk with
      | refl => exact ⟨hl, on⟩
      | tail _ hd up =>
        obtain ⟨hi, ha⟩ := (hr.links _ up.1 _).mp hd.1
        exact ⟨hi, (hn.spreads _ hi _ up.1 ha up.2 hd.2).resolve_right fun no => no⟩
    exact hq.2

/-- In every run in which a new root is another FEC set than the old one and the last one of its
slot: a FEC set is delivered once, when it is connected, and after its parent unless the parent
equivocates. -/
theorem delivered_in_order (fecMax : Nat) (two : 2 ≤ fecMax) (ops : List Op)
    (promised : Allowed Log.step (fun l => l.reasm.Promise) (Log.new fecMax) ops)
    (onward : Allowed Log.step (fun l => l.reasm.Onward) (Log.new fecMax) ops) :
    ∃ l, run Log.step (Log.new fecMax) ops = .ok l ∧ l.Fair := by
  have progress : ∀ (l : Log) op, (Held fecMax l.reasm ∧ l.Sound) → (l.reasm.Promise op ∧ l.reasm.Onward op) →
      ∃ l', l.step op = .ok l' ∧ (Held fecMax l'.reasm ∧ l'.Sound) :=
    fun l op inv may => inv.2.step two inv.1 may.1 may.2
  obtain ⟨l, done, held, sound⟩ := run_allowed Log.step _ (fun l => Held fecMax l.reasm ∧ l.Sound) progress
    ⟨.fresh rfl, new_sound fecMax⟩ (allowed_and promised onward)
  exact ⟨l, done, sound.fair held⟩

theorem out_of_order_delivered : ∃ l, run Log.step (Log.new 4) outOfOrder = .ok l ∧ l.Fair :=
  delivered_in_order 4 (by decide) outOfOrder (by decide +kernel) (by decide +kernel)

def confirmedChild : List Op :=
  [.init 1 1, .insert (fecSet 2 1 2 0 false [] [0]), .insert (fecSet 3 1 2 0 false [] [1]),
    .insert (fecSet 4 2 2 32 false [] [1, 2]), .pop, .confirm 4]

def parentAgain : List Op :=
  [.init 1 1, .insert (fecSet 2 1 2 0 false [] [0]), .insert (fecSet 4 2 2 32 false [] [1]), .confirm 4, .remove 2,
    .insert (fecSet 3 1 2 0 false [] [0]), .insert (fecSet 2 1 2 0 false [] [1])]

/-- The confirmed child is delivered before its parent, which is not the root. What is inserted
below it then is neither marked nor confirmed. A FEC set that was confirmed below a parent that
is gone is delivered below the new one, which equivocates and is not confirmed. -/
theorem parent_passed_over :
    (Allowed Log.step (fun l => l.reasm.Promise) (Log.new 8) confirmedChild ∧
      ∃ l, run Log.step (Log.new 8) confirmedChild = .ok l ∧ ∃ j p, l.reasm.pop.2 = some j ∧
        (l.reasm.fec j).parent = some p ∧ p ∉ l.delivered ∧ l.reasm.root ≠ some p) ∧
    (Allowed Log.step (fun l => l.reasm.Promise) (Log.new 8) (confirmedChild ++ [.insert (fecSet 5 4 2 64 true [] [2, 3])]) ∧
      ∃ l, run Log.step (Log.new 8) (confirmedChild ++ [.insert (fecSet 5 4 2 64 true [] [2, 3])]) = .ok l ∧
        ∃ a b c d, a ∈ l.reasm.live ∧ b ∈ l.reasm.live ∧ a ≠ b ∧ (l.reasm.fec a).xidKey = (l.reasm.fec b).xidKey ∧
          c ∈ l.reasm.children a ∧ d ∈ l.reasm.children c ∧ (l.reasm.fec d).confirmed = false ∧
          (l.reasm.fec d).eqvoc = false) ∧
    Allowed Log.step (fun l => l.reasm.Promise) (Log.new 8) parentAgain ∧
      ∃ l, run Log.step (Log.new 8) parentAgain = .ok l ∧ ∃ j p, l.reasm.pop.2 = some j ∧
        (l.reasm.fec j).parent = some p ∧ l.reasm.root ≠ some p ∧ (l.reasm.fec p).eqvoc = true ∧
        (l.reasm.fec p).confirmed = false := by
  refine ⟨⟨by decide +kernel, ?_⟩, ⟨by decide +kernel, ?_⟩, by decide +kernel, ?_⟩
  · obtain ⟨l, done, known⟩ : ∃ l, run Log.step (Log.new 8) confirmedChild = .ok l ∧ (l.reasm.pop.2 = some 3 ∧
        (l.reasm.fec 3).parent = some 1 ∧ 1 ∉ l.delivered ∧ l.reasm.root ≠ some 1) := exists_of_endsIn (by decide +kernel)
    exact ⟨l, done, 3, 1, known⟩
  · obtain ⟨l, done, known⟩ : ∃ l, run Log.step (Log.new 8) (confirmedChild ++ [.insert (fecSet 5 4 2 64 true [] [2, 3])]) = .ok l ∧
        (1 ∈ l.reasm.live ∧ 2 ∈ l.reasm.live ∧ 1 ≠ 2 ∧ (l.reasm.fec 1).xidKey = (l.reasm.fec 2).xidKey ∧
          3 ∈ l.reasm.children 1 ∧ 4 ∈ l.reasm.children 3 ∧ (l.reasm.fec 4).confirmed = false ∧
          (l.reasm.fec 4).eqvoc = false) := exists_of_endsIn (by decide +kernel)
    exact ⟨l, done, 1, 2, 3, 4, known⟩
  · obtain ⟨l, done, known⟩ : ∃ l, run Log.step (Log.new 8) parentAgain = .ok l ∧ (l.reasm.pop.2 = some 2 ∧
        (l.reasm.fec 2).parent = some 3 ∧ l.reasm.root ≠ some 3 ∧ (l.reasm.fec 3).eqvoc = true ∧
        (l.reasm.fec 3).confirmed = false) := exists_of_endsIn (by decide +kernel)
    exact ⟨l, done, 2, 3, known⟩

end Firebam.Reassembly
