import Firebam.Reasm.Adopt
import Firebam.Lib.Visit

/-! Marks on the elements: equivocation goes down the tree, confirmation goes up. -/
namespace Firebam.Reassembly
open Lib List Fec Option

variable {t : Todo} {kids : Idx → List Idx} {i r : Idx} {seen l spare : List Idx} {but : Idx → Prop} {n : Nat}
  {f : Idx → Fec} {s s' s'' : Reasm}

section
variable (hw : Whole s kids t)
include hw

lemma Whole.lineage (ht : t.detached = []) (hr : t.keep = none) (hl : i ∈ s.live) :
    ∃ l, Chain (fun j => (s.fec j).parent) (some i) l ∧ (∀ j ∈ l, j ∈ s.live) ∧ l.length ≤ s.fecMax := by
  have up : ∃ l, Chain (fun j => (s.fec j).parent) (some i) l ∧ ∀ j ∈ l, j ∈ s.live := by
    generalize he : (s.fec i).rank = n
    induction n using Nat.strong_induction_on generalizing i with
    | _ n ih =>
      cases ha : (s.fec i).parent with
      | none =>
        refine ⟨[i], ⟨rfl, ha⟩, fun j hm => ?_⟩
        rw [mem_singleton.mp hm]
        exact hl
      | some p =>
        have hk := hw.links
        rw [ht, hr] at hk
        obtain ⟨hh, hi⟩ := hk.parent_mem hl ha
        obtain ⟨l, hc, m⟩ := ih _ (he ▸ hk.rank hw.pool hh hi) hh rfl
        refine ⟨i :: l, ⟨rfl, ?_⟩, forall_mem_cons.mpr ⟨hl, m⟩⟩
        dsimp only
        rw [ha]
        exact hc
  obtain ⟨l, hc, m⟩ := up
  exact ⟨l, hc, m, @length_le_range _ 0 s.fecMax hc.nodup fun j hm =>
    ⟨Nat.zero_le j, hw.pool.lt (m j hm)⟩⟩

lemma Whole.forest (start : Idx) : Forest s.live kids fun j => (s.fec start).rank ≤ (s.fec j).rank where
  sub := fun p hl c hk => ((hw.links.kid p hl c).mp hk).1
  nodup := fun p hl => (hw.links.chain p hl).nodup
  unique := fun p hl q hi c hk hd => some.inj
    (((hw.links.kid p hl c).mp hk).2.1.symm.trans ((hw.links.kid q hi c).mp hd).2.1)
  down := fun _ hl ho _ hk => ho.trans (le_of_lt (hw.links.rank hw.pool hl hk))

lemma Whole.visit (hl : i ∈ s.live) : Visit s.live kids (fun j => (s.fec i).rank ≤ (s.fec j).rank) [i] [i] := by
  refine .start hl (le_refl _) fun p hi ho hk => ?_
  exact not_lt.mpr ho (hw.links.rank hw.pool hi hk)

end

def Fec.plain (f : Fec) : Fec := { f with eqvoc := false, confirmed := false, popped := false }

structure Flags (s s' : Reasm) : Prop where
  eq : ∃ f, s' = { s with fec := f } ∧ ∀ j, (f j).plain = (s.fec j).plain
  eqvoc : ∀ j, (s.fec j).eqvoc = true → (s'.fec j).eqvoc = true
  confirmed : ∀ j, (s.fec j).confirmed = true → (s'.fec j).confirmed = true
  popped : ∀ j, (s'.fec j).popped = (s.fec j).popped

lemma Flags.refl (s : Reasm) : Flags s s := ⟨⟨s.fec, rfl, fun _ => rfl⟩, fun _ h => h, fun _ h => h, fun _ => rfl⟩

lemma Flags.trans (hf : Flags s s') (he : Flags s' s'') : Flags s s'' := by
  refine ⟨?_, fun j h => he.eqvoc j (hf.eqvoc j h), fun j h => he.confirmed j (hf.confirmed j h),
    fun j => (he.popped j).trans (hf.popped j)⟩
  obtain ⟨⟨f, rfl, hs⟩, -⟩ := hf
  obtain ⟨⟨g, rfl, ha⟩, -⟩ := he
  exact ⟨g, rfl, fun j => (ha j).trans (hs j)⟩

section
variable (hf : Flags s s')
include hf

lemma Flags.still : Still s s' := by
  obtain ⟨⟨f, rfl, hs⟩, -⟩ := hf
  exact ⟨f, s.xid, rfl, fun j => (congrArg body (hs j) :)⟩

lemma Flags.plain (j : Idx) : (s'.fec j).plain = (s.fec j).plain := by
  obtain ⟨⟨f, rfl, hs⟩, -⟩ := hf
  exact hs j

lemma Flags.queue (hq : Queued s) : Queued s' := by
  have hp := hf.plain
  have he := hf.eqvoc
  have ho := hf.popped
  obtain ⟨⟨f, rfl, -⟩, -⟩ := hf
  refine ⟨fun j ht => ?_, fun j hm p up ha => ?_⟩
  · rw [ho]
    exact fun hu hn => he j (hq.fresh j ht hu hn)
  · rw [ho]
    have ha := (congrArg parent (hp j) :).symm.trans ha
    exact (hq.order j hm p up ha).imp_right (Or.imp_left (he p))

lemma Flags.whole (whole : Whole s kids t) : Whole s' kids t := by
  have hs := hf.still
  have hp := hf.plain
  obtain ⟨⟨f, rfl, -⟩, -⟩ := hf
  refine ⟨hs.pool whole.pool, hs.links whole.links, hs.places whole.places, hs.outs whole.outs, ?_, ?_⟩
  · exact whole.xids.congr rfl (fun j _ => (congrArg listing (hp j) :)) fun _ => .rfl
  · exact fun j hn => (congrArg xidNext (hp j) :).trans (whole.unlisted j hn)

end

section
variable {queue : List Idx}

def Spreads (s : Reasm) (but : Idx → Prop) : Prop :=
  ∀ c ∈ s.live, ∀ p ∈ s.live, (s.fec c).parent = some p → (s.fec p).eqvoc = true → (s.fec p).confirmed = false →
    (s.fec c).eqvoc = true ∨ but c

lemma Spreads.mono {but' : Idx → Prop} (hs : Spreads s but) (hw : ∀ j, but j → but' j) : Spreads s but' :=
  fun c hl p hi hp on ho => (hs c hl p hi hp on ho).imp_right (hw c)

lemma Kept.spreads (hk : Kept s s') (spreads : Spreads s but) : Spreads s' but := by
  have eqvoc : ∀ j, (s'.fec j).eqvoc = (s.fec j).eqvoc := fun j => (congrArg eqvoc (hk.ident j) :)
  have confirmed : ∀ j, (s'.fec j).confirmed = (s.fec j).confirmed := fun j => (congrArg confirmed (hk.ident j) :)
  intro c hl p live' parent on open_
  rw [eqvoc] at on ⊢
  rw [confirmed] at open_
  rcases hk.parent c hl p parent with hb | clean
  · exact spreads c (hk.live c hl) p (hk.live p live') hb on open_
  · exact nomatch clean.symm.trans on

lemma set_flags (s : Reasm) (j : Idx) : Flags s (s.set j fun f => { f with eqvoc := true }) := by
  refine ⟨⟨_, rfl, fun k => ?_⟩, fun k on => ?_, fun k on => ?_, fun k => ?_⟩
  · dsimp only
    split <;> rfl
  · simp only [Reasm.set]
    split
    · rfl
    · exact on
  · simp only [Reasm.set]
    split <;> exact on
  · simp only [Reasm.set]
    split <;> rfl

lemma eqvocLoop_ok (he : Whole s kids t) (ht : t.detached = [])
    (hi : Visit s.live kids (fun j => (s.fec i).rank ≤ (s.fec j).rank) seen queue)
    (hg : s.live.length + queue.length ≤ n + seen.length) :
    ∃ s', eqvocLoop n queue s = .ok s' ∧ Flags s s' ∧ (∀ j, (s'.fec j).confirmed = (s.fec j).confirmed) ∧
      (∀ j ∈ queue, (s'.fec j).eqvoc = true) ∧
      ∀ but, Spreads s (fun j => j ∈ queue ∨ but j) → Spreads s' but := by
  induction n generalizing s seen queue with
  | zero =>
    cases queue with
    | nil =>
      refine ⟨s, rfl, .refl s, fun _ => rfl, nofun, fun but spreads => ?_⟩
      exact spreads.mono fun j hr => hr.resolve_left not_mem_nil
    | cons j rest =>
      have few := hi.length_le
      rw [length_cons] at hg
      omega
  | succ n ih =>
    cases queue with
    | nil =>
      refine ⟨s, rfl, .refl s, fun _ => rfl, nofun, fun but spreads => ?_⟩
      exact spreads.mono fun j hr => hr.resolve_left not_mem_nil
    | cons j rest =>
      have hl := hi.sub j (hi.queued j (.head _)).1
      rw [length_cons] at hg
      unfold eqvocLoop
      by_cases hm : (s.fec j).eqvoc = true
      · rw [if_pos hm]
        obtain ⟨s', run, flags, hs, all, hp⟩ := ih he hi.skip (by omega)
        refine ⟨s', run, flags, hs, ?_, fun but spreads => hp but ?_⟩
        · intro k hx
          rcases mem_cons.mp hx with rfl | hx
          · exact flags.eqvoc k hm
          · exact all k hx
        · intro c hl p hc parent on hn
          rcases spreads c hl p hc parent on hn with on | hw | ne
          · exact .inl on
          · rcases mem_cons.mp hw with rfl | hw
            · exact .inl hm
            · exact .inr (.inl hw)
          · exact .inr (.inr ne)
      · rw [if_neg hm]
        dsimp only
        have hf := set_flags s j
        have hh : ((s.set j fun f => { f with eqvoc := true }).fec j).eqvoc = true := (congrArg eqvoc (if_pos rfl) :)
        have ho : ∀ k, k ≠ j → (s.set j fun f => { f with eqvoc := true }).fec k = s.fec k := fun k ne => if_neg ne
        have hk : ∀ k, ((s.set j fun f => { f with eqvoc := true }).fec k).confirmed = (s.fec k).confirmed := by
          intro k
          simp only [Reasm.set]
          split <;> rfl
        have hj := hf.whole he
        have rank : ∀ k, ((s.set j fun f => { f with eqvoc := true }).fec k).rank = (s.fec k).rank := fun k =>
          (congrArg rank (hf.plain k) :)
        have hv : Visit s.live kids (fun k => ((s.set j fun f => { f with eqvoc := true }).fec i).rank ≤
            ((s.set j fun f => { f with eqvoc := true }).fec k).rank) (seen ++ kids j) (rest ++ kids j) := by
          simp only [rank]
          exact hi.expand (he.forest i)
        have hu : s.live.length + (rest ++ kids j).length ≤ n + (seen ++ kids j).length := by
          rw [length_append, length_append]
          omega
        rw [hj.links.children hj.pool hl]
        obtain ⟨s', run, flags, hs, all, hp⟩ := ih hj hv hu
        refine ⟨s', run, hf.trans flags, fun k => (hs k).trans (hk k), ?_, fun but spreads => hp but ?_⟩
        · intro k hx
          rcases mem_cons.mp hx with rfl | hx
          · exact flags.eqvoc k hh
          · exact all k (mem_append_left _ hx)
        · intro c hc p hd parent on hn
          have hb : (s.fec c).parent = some p := (congrArg Fec.parent (hf.plain c) :).symm.trans parent
          by_cases ha : p = j
          · subst ha
            have hq := (he.links.kid p hl c).mpr ⟨hc, hb, ht.symm ▸ not_mem_nil⟩
            exact .inr (.inl (mem_append_right _ hq))
          · rw [ho p ha] at on hn
            rcases spreads c hc p hd hb on hn with on | hw | ne
            · exact .inl (hf.eqvoc c on)
            · rcases mem_cons.mp hw with rfl | hw
              · exact .inl hh
              · exact .inr (.inl (mem_append_left _ hw))
            · exact .inr (.inr ne)

lemma Whole.markEqvoc (hw : Whole s kids t) (ha : t.detached = []) (hl : i ∈ s.live) :
    ∃ s', s.markEqvoc i = .ok s' ∧ Flags s s' ∧ (∀ j, (s'.fec j).confirmed = (s.fec j).confirmed) ∧
      (s'.fec i).eqvoc = true ∧ ∀ but, Spreads s (fun j => j = i ∨ but j) → Spreads s' but := by
  have he := hw.pool.few
  have hu : s.live.length + [i].length ≤ s.fecMax + 1 + [i].length := by omega
  obtain ⟨s', hr, hf, hs, all, hd⟩ := eqvocLoop_ok hw ha (hw.visit hl) hu
  refine ⟨s', hr, hf, hs, all i (.head _), fun but hp => hd but ?_⟩
  exact hp.mono fun j => Or.imp_left mem_singleton.mpr

end

lemma confirmUp_ok {first : Option Idx} (hc : Chain (fun j => (s.fec j).parent) first l) (hu : l.length ≤ n) :
    ∃ s', confirmUp n first s = .ok s' ∧ Flags s s' ∧ ∀ j, (s'.fec j).eqvoc = (s.fec j).eqvoc := by
  induction l generalizing s n first with
  | nil =>
    cases hc
    refine ⟨s, ?_, .refl s, fun _ => rfl⟩
    cases n <;> rfl
  | cons j rest ih =>
    obtain ⟨rfl, ha⟩ := hc
    cases n with
    | zero => exact absurd hu (Nat.not_succ_le_zero _)
    | succ n =>
      unfold confirmUp
      by_cases hm : (s.fec j).confirmed = true
      · rw [if_pos hm]
        exact ⟨s, rfl, .refl s, fun _ => rfl⟩
      · rw [if_neg hm]
        have he : Flags s (s.set j fun f => { f with confirmed := true }) := by
          refine ⟨⟨_, rfl, fun k => ?_⟩, fun k on => ?_, fun k on => ?_, fun k => ?_⟩
          · dsimp only
            split <;> rfl
          · simp only [Reasm.set]
            split <;> exact on
          · simp only [Reasm.set]
            split
            · rfl
            · exact on
          · simp only [Reasm.set]
            split <;> rfl
        have hb : Chain (fun k => ((s.set j fun f => { f with confirmed := true }).fec k).parent) (s.fec j).parent rest :=
          ha.congr fun k _ => (congrArg parent (he.plain k) :)
        obtain ⟨s', hr, hf, hs⟩ := ih hb (Nat.le_of_succ_le_succ hu)
        refine ⟨s', hr, he.trans hf, fun k => (hs k).trans ?_⟩
        simp only [Reasm.set]
        split <;> rfl

lemma Whole.reout (hw : Whole s kids t) {out : List Idx}
    (hs : ∀ j, { f j with popped := false, inOut := false } = { s.fec j with popped := false, inOut := false })
    (outs : Outs { s with fec := f, out := out }) : Whole { s with fec := f, out := out } kids t := by
  let u : Reasm := { s with fec := fun j => { f j with inOut := (s.fec j).inOut } }
  have hl : Still s u := ⟨_, s.xid, rfl, fun j =>
    (congrArg (fun g : Fec => { g.body with inOut := (s.fec j).inOut }) (hs j) :)⟩
  have hm : Moved u { s with fec := f, out := out } := ⟨rfl, rfl, rfl, rfl, rfl, fun _ => rfl, .refl _⟩
  have parent : ∀ j, (f j).parent = (s.fec j).parent := fun j => (congrArg parent (hs j) :)
  have child : ∀ j, (f j).child = (s.fec j).child := fun j => (congrArg child (hs j) :)
  have hp := hw.places
  refine ⟨hm.pool (hl.pool hw.pool), hm.links (hl.links hw.links),
    ⟨hp.same, hp.waiting, hp.tops, ?_, ?_, hp.subtreel⟩, outs, ?_, ?_⟩
  · intro j ht he
    rw [child]
    exact hp.leaf j ht he
  · intro j hx ha
    rw [parent]
    exact hp.orphan j hx ha
  · exact hw.xids.congr rfl (fun j _ => (congrArg listing (hs j) :)) fun _ => .rfl
  · exact fun j new => (congrArg xidNext (hs j) :).trans (hw.unlisted j new)

lemma pushOut_fec (s : Reasm) (i j : Idx) : { (s.pushOut i).fec j with popped := false, inOut := false } =
    { s.fec j with popped := false, inOut := false } := by
  simp only [Reasm.pushOut, Reasm.set]
  split <;> rfl

lemma Whole.pushOut (hw : Whole s kids t) (hc : s.Conn i) (hn : i ∉ s.out) : Whole (s.pushOut i) kids t := by
  refine hw.reout (pushOut_fec s i) ⟨?_, ?_, ?_⟩
  · refine nodup_append.mpr ⟨hw.outs.nodup, nodup_singleton i, ?_⟩
    intro a hm b hi eq
    exact hn (mem_singleton.mp hi ▸ eq ▸ hm)
  · exact forall_mem_concat.mpr ⟨hw.outs.conn, hc⟩
  · intro j hm
    change ((s.set i fun f => { f with inOut := true }).fec j).inOut = true ↔ j ∈ s.out ++ [i]
    rw [mem_append, mem_singleton]
    by_cases hh : j = i
    · subst hh
      have on : ((s.set j fun f => { f with inOut := true }).fec j).inOut = true := (congrArg inOut (if_pos rfl) :)
      rw [on]
      simp
    · have hs : (s.set i fun f => { f with inOut := true }).fec j = s.fec j := if_neg hh
      rw [hs, hw.outs.flag j hm]
      exact (or_iff_left hh).symm

structure Confirms (s s' : Reasm) : Prop where
  fecMax : s'.fecMax = s.fecMax
  xidMax : s'.xidMax = s.xidMax
  root : s'.root = s.root
  live : s'.live = s.live
  conn : ∀ j, s'.Conn j ↔ s.Conn j
  plain : ∀ j, { (s'.fec j).plain with inOut := false } = { (s.fec j).plain with inOut := false }
  eqvoc : ∀ j, (s'.fec j).eqvoc = (s.fec j).eqvoc
  popped : ∀ j, (s'.fec j).popped = (s.fec j).popped
  confirmed : ∀ j, (s.fec j).confirmed = true → (s'.fec j).confirmed = true
  queue : Queued s → Queued s'

lemma Confirms.refl (s : Reasm) : Confirms s s :=
  ⟨rfl, rfl, rfl, rfl, fun _ => .rfl, fun _ => rfl, fun _ => rfl, fun _ => rfl, fun _ h => h, id⟩

lemma Confirms.flags (hf : Confirms s s') (flags : Flags s' s'')
    (hs : ∀ j, (s''.fec j).eqvoc = (s'.fec j).eqvoc) : Confirms s s'' := by
  have hp := flags.plain
  have hq := flags.queue
  have hc := flags.confirmed
  have ho := flags.popped
  obtain ⟨⟨f, rfl, -⟩, -⟩ := flags
  refine ⟨hf.fecMax, hf.xidMax, hf.root, hf.live, hf.conn, ?_, fun j => (hs j).trans (hf.eqvoc j),
    fun j => (ho j).trans (hf.popped j), fun j on => hc j (hf.confirmed j on), hq ∘ hf.queue⟩
  intro j
  exact (congrArg (fun g : Fec => { g with inOut := false }) (hp j)).trans (hf.plain j)

lemma Whole.confirm (hw : Whole s kids t) (ha : t.detached = []) (ho : t.keep = none) (blockId : Hash) :
    ∃ s', s.confirm blockId = .ok s' ∧ Whole s' kids t ∧ Confirms s s' := by
  unfold Reasm.confirm
  cases hf : (s.find s.ancestry blockId).or (s.find s.frontier blockId) with
  | none => exact ⟨s, rfl, hw, .refl s⟩
  | some i =>
    have hh : s.Conn i := by
      rcases or_eq_some_iff.mp hf with hi | ⟨-, he⟩
      · exact .inl (find_some hi).1
      · exact .inr (find_some he).1
    dsimp only
    obtain ⟨l, hc, -, hb⟩ := hw.lineage ha ho hh.live
    by_cases hr : (!(s.fec i).popped && !(s.fec i).inOut && !(s.fec i).confirmed) = true
    · rw [if_pos hr]
      simp only [Bool.and_eq_true, Bool.not_eq_true'] at hr
      have hn : i ∉ s.out := fun hm =>
        Bool.false_ne_true (hr.1.2.symm.trans ((hw.outs.flag i hh.live).mpr hm))
      have hp : Confirms s (s.pushOut i) := by
        have hg : ∀ j, { (s.pushOut i).fec j with inOut := false } = { s.fec j with inOut := false } := by
          intro j
          simp only [Reasm.pushOut, Reasm.set]
          split <;> rfl
        refine ⟨rfl, rfl, rfl, rfl, fun _ => .rfl, fun j => (congrArg plain (hg j) :), ?_, ?_, ?_, ?_⟩
        · exact fun j => (congrArg eqvoc (hg j) :)
        · exact fun j => (congrArg popped (hg j) :)
        · exact fun j on => (congrArg confirmed (hg j) :).trans on
        · refine fun hq => hq.push (l := [i]) (fun j => (congrArg ident (hg j) :))
            (fun _ ht => .inl ht) rfl (fun j _ p up some => ⟨up, ?_⟩) fun _ _ _ up _ => up
          exact (congrArg parent (hg j) :).symm.trans some
      have hc : Chain (fun j => ((s.pushOut i).fec j).parent) (some i) l :=
        hc.congr fun j _ => (congrArg parent (pushOut_fec s i j) :)
      obtain ⟨s', hu, hl, hs⟩ := confirmUp_ok hc (Nat.le_succ_of_le hb)
      exact ⟨s', hu, hl.whole (hw.pushOut hh hn), hp.flags hl hs⟩
    · rw [if_neg hr]
      obtain ⟨s', hu, hl, hs⟩ := confirmUp_ok hc (Nat.le_succ_of_le hb)
      exact ⟨s', hu, hl.whole hw, (Confirms.refl s).flags hl hs⟩

structure Pops (s : Reasm) (l gone rest : List Idx) (f : Idx → Fec) (r : Option Idx) : Prop where
  split : l = gone ++ rest
  first : r = l.find? s.deliverable
  fec : ∀ j, { f j with popped := false, inOut := false } = { s.fec j with popped := false, inOut := false }
  others : ∀ j, j ∉ gone → f j = s.fec j
  off : ∀ j ∈ gone, (f j).inOut = false
  popped : ∀ j, (f j).popped = true ↔ (s.fec j).popped = true ∨ r = some j
  passed : ∀ j ∈ gone, r = some j ∨ s.deliverable j = false

lemma popLoop_spec (nd : l.Nodup) :
    ∃ f gone rest r, popLoop l s = ({ s with fec := f, out := rest }, r) ∧ Pops s l gone rest f r := by
  induction l generalizing s with
  | nil =>
    refine ⟨s.fec, [], [], none, rfl, ⟨rfl, rfl, fun _ => rfl, fun _ _ => rfl, nofun, fun j => ?_, nofun⟩⟩
    exact (or_iff_left nofun).symm
  | cons i l ih =>
    obtain ⟨he, nd⟩ := nodup_cons.mp nd
    let u := s.set i fun f => { f with inOut := false }
    have fec : ∀ j, { u.fec j with inOut := false } = { s.fec j with inOut := false } := by
      intro j
      simp only [u, Reasm.set]
      split <;> rfl
    have ho : ∀ j, j ≠ i → u.fec j = s.fec j := fun j ne => if_neg ne
    have hb : (u.fec i).inOut = false := (congrArg inOut (if_pos rfl) :)
    have hs : u.deliverable = s.deliverable := funext fun j =>
      (congrArg (fun f : Fec => !f.popped && (!f.eqvoc || f.confirmed)) (fec j) :)
    have hf : ∀ j, (u.fec j).popped = (s.fec j).popped := fun j => (congrArg popped (fec j) :)
    unfold popLoop
    change ∃ f gone rest r, (if u.deliverable i = true then _ else popLoop l u) = _ ∧ _
    rw [hs]
    by_cases hr : s.deliverable i = true
    · rw [if_pos hr]
      refine ⟨(u.set i fun f => { f with popped := true }).fec, [i], l, some i, rfl,
        ⟨rfl, ?_, fun j => ?_, fun j hn => ?_, fun j hm => ?_, fun j => ?_, fun j hm => ?_⟩⟩
      · rw [find?_cons, hr]
      · refine Eq.trans ?_ (congrArg (fun f : Fec => { f with popped := false, inOut := false }) (fec j) :)
        simp only [Reasm.set]
        split <;> rfl
      · have ne : j ≠ i := fun eq => hn (mem_singleton.mpr eq)
        exact (if_neg ne).trans (ho j ne)
      · rw [mem_singleton.mp hm]
        exact (congrArg inOut (if_pos rfl) :).trans hb
      · by_cases hh : j = i
        · subst hh
          have on : ((u.set j fun f => { f with popped := true }).fec j).popped = true := (congrArg popped (if_pos rfl) :)
          rw [on]
          simp
        · have hk : (u.set i fun f => { f with popped := true }).fec j = u.fec j := if_neg hh
          rw [hk, hf]
          exact (or_iff_left fun eq => hh (some.inj eq).symm).symm
      · exact .inl (congrArg some (mem_singleton.mp hm).symm)
    · rw [if_neg hr]
      obtain ⟨f, gone, rest, r, hu, hp⟩ := ih (s := u) nd
      have ha : i ∉ gone := fun hm => he (hp.split ▸ mem_append_left _ hm)
      refine ⟨f, i :: gone, rest, r, hu, ⟨congrArg (i :: ·) hp.split, ?_, ?_, ?_, ?_, ?_, ?_⟩⟩
      · rw [hp.first, hs, find?_cons_of_neg hr]
      · intro j
        exact (hp.fec j).trans (congrArg (fun f : Fec => { f with popped := false, inOut := false }) (fec j) :)
      · intro j hn
        rw [mem_cons, not_or] at hn
        exact (hp.others j hn.2).trans (ho j hn.1)
      · intro j hm
        rcases mem_cons.mp hm with rfl | hm
        · rw [hp.others j ha]
          exact hb
        · exact hp.off j hm
      · intro j
        rw [hp.popped j, hf]
      · intro j hm
        rcases mem_cons.mp hm with rfl | hm
        · exact .inr (Bool.eq_false_iff.mpr hr)
        · exact hs ▸ hp.passed j hm

lemma Whole.pop (hw : Whole s kids t) :
    ∃ f gone rest, s.pop = ({ s with fec := f, out := rest }, s.peek) ∧ Pops s s.out gone rest f s.peek ∧
      Whole { s with fec := f, out := rest } kids t := by
  obtain ⟨f, gone, rest, r, hr, hp⟩ := popLoop_spec (s := s) hw.outs.nodup
  have hf : r = s.peek := hp.first
  subst hf
  have nd := hw.outs.nodup
  rw [hp.split] at nd
  obtain ⟨-, ho, ne⟩ := nodup_append.mp nd
  refine ⟨f, gone, rest, hr, hp, hw.reout hp.fec ⟨ho, ?_, ?_⟩⟩
  · intro j hm
    refine hw.outs.conn j ?_
    rw [hp.split]
    exact mem_append_right _ hm
  · intro j hl
    change (f j).inOut = true ↔ j ∈ rest
    by_cases he : j ∈ gone
    · rw [hp.off j he]
      exact ⟨nofun, fun hm => absurd rfl (ne j he j hm)⟩
    · rw [hp.others j he, hw.outs.flag j hl, hp.split, mem_append]
      exact or_iff_right he

lemma Pops.queue {gone rest : List Idx} {r : Option Idx} (hp : Pops s s.out gone rest f r)
    (hq : Queued s) : Queued { s with fec := f, out := rest } := by
  have eqvoc : ∀ j, (f j).eqvoc = (s.fec j).eqvoc := fun j => (congrArg eqvoc (hp.fec j) :)
  have parent : ∀ j, (f j).parent = (s.fec j).parent := fun j => (congrArg parent (hp.fec j) :)
  have hs : ∀ j ∈ gone, (f j).popped = true ∨ (f j).eqvoc = true := by
    intro j hx
    rw [hp.popped, eqvoc]
    rcases hp.passed j hx with hh | no
    · exact .inl (.inr hh)
    · unfold Reasm.deliverable at no
      cases seen : (s.fec j).popped with
      | true => exact .inl (.inl rfl)
      | false =>
        cases hm : (s.fec j).eqvoc with
        | true => exact .inr rfl
        | false => simp [seen, hm] at no
  refine ⟨fun j ht hu hn => ?_, fun j hx p up ha => ?_⟩
  · by_cases left : j ∈ gone
    · exact (hs j left).resolve_left fun on => nomatch hu.symm.trans on
    · change (f j).popped = false at hu
      change (f j).eqvoc = true
      rw [hp.others j left] at hu ⊢
      refine hq.fresh j ht hu fun hx => ?_
      rw [hp.split] at hx
      exact (mem_append.mp hx).elim left hn
  · change (f p).popped = true ∨ (f p).eqvoc = true ∨ [p, j].Sublist rest
    by_cases left : p ∈ gone
    · exact (hs p left).imp_right .inl
    · have m : j ∈ s.out := by
        rw [hp.split]
        exact mem_append_right _ hx
      have ha := (parent j).symm.trans ha
      rw [hp.others p left]
      refine (hq.order j m p up ha).imp_right (Or.imp_right fun hb => ?_)
      rw [hp.split] at hb
      -- neither of the two is in the part that has gone
      obtain ⟨a, b, eq, hf, hk⟩ := sublist_append_iff.mp hb
      have he : a = [] := by
        cases a with
        | nil => rfl
        | cons x more =>
          have hh : x = p := by
            rw [cons_append] at eq
            exact (List.cons.inj eq).1.symm
          exact absurd (hf.subset (.head _)) (hh ▸ left)
      rw [he, nil_append] at eq
      exact eq ▸ hk

variable {queue : List Idx}

lemma latestLoop_ok {latest : Option Idx} (hw : Whole s kids t)
    (hv : Visit s.live kids (fun j => (s.fec i).rank ≤ (s.fec j).rank) seen queue)
    (hf : s.live.length + queue.length ≤ n + seen.length) : ∃ r, latestLoop n queue latest s = .ok r := by
  induction n generalizing seen queue latest with
  | zero =>
    cases queue with
    | nil => exact ⟨latest, rfl⟩
    | cons j rest =>
      have he := hv.length_le
      rw [length_cons] at hf
      omega
  | succ n ih =>
    cases queue with
    | nil => exact ⟨latest, rfl⟩
    | cons j rest =>
      have hl := hv.sub j (hv.queued j (.head _)).1
      unfold latestLoop
      rw [hw.links.children hw.pool hl]
      refine ih (hv.expand (hw.forest i)) ?_
      rw [length_append, length_append]
      rw [length_cons] at hf
      omega

lemma Whole.treeRoot (hw : Whole s kids t) (ht : t.detached = []) (hr : t.keep = none)
    (hl : i ∈ s.live) : s.treeRoot n i ∈ s.live := by
  induction n generalizing i with
  | zero => exact hl
  | succ n ih =>
    unfold Reasm.treeRoot
    cases ha : (s.fec i).parent with
    | none => exact hl
    | some p =>
      have hk := hw.links
      rw [ht, hr] at hk
      exact ih (hk.parent_mem hl ha).1

lemma Rooted.worthwhile (hr : Rooted s kids r spare) (key : Hash) : ∃ b, s.worthwhile key = .ok b := by
  have hw := hr.whole
  unfold Reasm.worthwhile
  rw [hr.root]
  cases hf : s.query key with
  | none => exact ⟨true, rfl⟩
  | some parent =>
    have he := hw.pool.few
    have ht : ∀ j ∈ s.live, ∃ latest, latestLoop (s.fecMax + 1) [j] none s = .ok latest := fun j hl =>
      latestLoop_ok hw (hw.visit hl) (by rw [length_singleton]; omega)
    have ho : (if (s.find s.subtrees key).or (s.find s.orphaned key) ≠ none then s.treeRoot s.fecMax parent else r) ∈ s.live := by
      split
      · exact hw.treeRoot rfl rfl (query_some hf).1
      · exact hr.conn.live
    obtain ⟨latest, hu⟩ := ht _ ho
    cases latest with
    | none => exact ⟨true, bind_ok.mpr ⟨none, hu, rfl⟩⟩
    | some j => exact ⟨_, bind_ok.mpr ⟨some j, hu, rfl⟩⟩

lemma highest_mem (hf : s.highest l = some i) : i ∈ l := by
  unfold Reasm.highest at hf
  revert hf
  refine foldlRecOn (motive := fun best => best = some i → i ∈ l) l _ (fun h => by cases h) fun best ih k hk h => ?_
  cases best with
  | none => exact some.inj h ▸ hk
  | some j =>
    dsimp only at h
    split at h
    · exact some.inj h ▸ hk
    · exact ih h

lemma Rooted.evictee {orphans leaves : List Idx} (hd : Rooted s kids r spare) (key : Hash)
    (hq : orphans.Perm s.orphaned) (ha : leaves.Perm s.frontier) :
    ∃ e, s.evictee orphans leaves key = .ok e ∧ ∀ i, e = some i → i ∈ s.live ∧ i ≠ r ∧ (s.fec i).child = none := by
  have hw := hd.whole
  have hl : ∀ q i, s.highest (((s.subtreel ++ orphans).filter fun i =>
      decide ((s.fec i).child = none ∧ (s.fec i).key ≠ key)).filter q) = some i →
      i ∈ s.live ∧ i ≠ r ∧ (s.fec i).child = none := by
    intro q i hf
    obtain ⟨hm, he⟩ := mem_filter.mp (mem_filter.mp (highest_mem hf)).1
    have he := (of_decide_eq_true he).1
    have ne := hw.pool.disjoint.2.2.2.2.2.1
    rcases mem_append.mp hm with ht | ho
    · have ht := (hw.places.subtreel.mem i).mp ht
      refine ⟨subtrees_live i ht, ?_, he⟩
      rintro rfl
      exact (ne i hd.conn).2 ht
    · have ho := hq.mem_iff.mp ho
      refine ⟨orphaned_live i ho, ?_, he⟩
      rintro rfl
      exact (ne i hd.conn).1 ho
  have hg : ∀ i, s.highest (leaves.filter fun i =>
      decide (s.root ≠ some i ∧ (s.fec i).key ≠ key) && !(s.fec i).confirmed && !(s.fec i).slotComplete && !(s.fec i).isLeader) =
        some i → i ∈ s.live ∧ i ≠ r ∧ (s.fec i).child = none := by
    intro i hf
    obtain ⟨hm, hi⟩ := mem_filter.mp (highest_mem hf)
    have hr := ha.mem_iff.mp hm
    simp only [Bool.and_eq_true, decide_eq_true_eq] at hi
    refine ⟨frontier_live i hr, ?_, ?_⟩
    · rintro rfl
      exact hi.1.1.1.1 hd.root
    · exact ((hw.places.leaf i (.inr hr) not_mem_nil).mp hr).resolve_right not_mem_nil
  unfold Reasm.evictee
  dsimp only
  split
  · rename_i i hf
    refine ⟨some i, rfl, fun j eq => ?_⟩
    cases eq
    rcases or_eq_some_iff.mp hf with ho | ⟨-, he⟩
    · exact hl _ i ho
    · exact hg i he
  · split
    · exact ⟨none, rfl, nofun⟩
    · rename_i i hf
      obtain ⟨b, h⟩ := hd.worthwhile key
      refine ⟨if b then some i else none, bind_ok.mpr ⟨b, h, rfl⟩, fun j eq => ?_⟩
      split at eq
      · cases eq
        exact hl _ i hf
      · cases eq

end Firebam.Reassembly
