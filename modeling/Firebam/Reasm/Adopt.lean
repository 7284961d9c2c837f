import Firebam.Reasm.Grow

/-! Orphans find their parent, and join the tree with it. -/
namespace Firebam.Reassembly
open Lib List

variable {s s' s'' : Reasm} {kids : Idx → List Idx} {i c : Idx} {spare pending todo l m queue : List Idx}
  {top fresh : Option Idx} {A : Idx → Prop}

structure Adopting (s : Reasm) (kids : Idx → List Idx) (spare pending : List Idx) (top : Option Idx) (i : Idx)
    (A : Idx → Prop) (todo : List Idx) : Prop where
  whole : Whole s kids ⟨spare, [], pending, [], none, top, some i⟩
  live : i ∈ s.live
  side : s.Conn i ↔ i ∈ pending
  clean : (s.fec i).eqvoc = false
  mine : A i
  closed : ∀ j, A j → ∀ p, (s.fec j).parent = some p → A p
  acyclic : ∀ j, A j → (s.fec j).cmr ≠ (s.fec i).key
  trees : ∀ c ∈ todo, c ∈ s.subtrees
  nodup : todo.Nodup

structure Beside (s s' : Reasm) (A : Idx → Prop) : Prop where
  kept : Kept s s'
  conn : ∀ j, s'.Conn j ↔ s.Conn j
  live : ∀ j ∈ s.live, A j → j ∈ s'.live
  parent : ∀ j, A j → (s'.fec j).parent = (s.fec j).parent

lemma Beside.refl (s : Reasm) (A : Idx → Prop) : Beside s s A :=
  ⟨.refl s, fun _ => .rfl, fun _ hm _ => hm, fun _ _ => rfl⟩

lemma Beside.trans (hf : Beside s s' A) (hs : Beside s' s'' A) : Beside s s'' A where
  kept := hf.kept.trans hs.kept
  conn := fun j => (hs.conn j).trans (hf.conn j)
  live := fun j hm hk => hs.live j (hf.live j hm hk) hk
  parent := fun j hk => (hs.parent j hk).trans (hf.parent j hk)

section
variable (a : Adopting s kids spare pending top i A (c :: todo))
include a

lemma Adopting.next {kids' : Idx → List Idx}
    (hb : Beside s s' A) (whole : Whole s' kids' ⟨spare, [], pending, [], none, top, some i⟩)
    (trees : ∀ j ∈ todo, j ∈ s'.subtrees) : Adopting s' kids' spare pending top i A todo where
  whole := whole
  live := hb.live i a.live a.mine
  side := (hb.conn i).trans a.side
  clean := (congrArg Fec.eqvoc (hb.kept.ident i) :).trans a.clean
  mine := a.mine
  closed := fun j hk p some => a.closed j hk p ((hb.parent j hk).symm.trans some)
  acyclic := by
    intro j hk
    have hc : (s'.fec j).cmr = (s.fec j).cmr := (congrArg Fec.cmr (hb.kept.ident j) :)
    have he : (s'.fec i).key = (s.fec i).key := (congrArg Fec.key (hb.kept.ident i) :)
    rw [hc, he]
    exact a.acyclic j hk
  trees := trees
  nodup := a.nodup.of_cons

lemma Adopting.step :
    ∃ s' kids', s.adopt i c = .ok s' ∧ Adopting s' kids' spare pending top i A todo ∧ Beside s s' A := by
  have hw := a.whole
  have hp := hw.places
  have tree := a.trees c (.head _)
  have hl := subtrees_live c tree
  have hu := (nodup_cons.mp a.nodup).1
  have ho : ∀ j ∈ s.subtrees, ¬s.Conn j := fun j hi ht =>
    (hw.pool.disjoint.2.2.2.2.2.1 j ht).2 hi
  have rest : ∀ j ∈ todo, j ∈ s.subtrees ∧ j ≠ c := fun j mem =>
    ⟨a.trees j (.tail _ mem), fun eq => hu (eq ▸ mem)⟩
  unfold Reasm.adopt
  by_cases ne : (s.fec i).key ≠ (s.fec c).cmr
  · rw [if_pos ne]
    have he := Beside.refl s A
    exact ⟨s, kids, rfl, a.next he hw fun j mem => (rest j mem).1, he⟩
  · rw [if_neg ne]
    have hc := (not_not.mp ne).symm
    have hx : ¬A c := fun hk => a.acyclic c hk hc
    have hsi : c ∉ s.out := fun mem => ho c tree (hw.outs.conn c mem)
    by_cases hv : validateChainedBlockId (s.fec i) (s.fec c) = true
    · rw [if_pos hv]
      obtain ⟨hg, ha⟩ := hw.attach a.live tree a.side hc hv
      have he : Beside s (s.attach i c) A := ⟨ha.kept a.live a.clean hsi, ha.conn,
        fun j mem _ => (ha.live j).mpr mem,
        fun j hk => ha.parents j fun eq => hx (eq ▸ hk)⟩
      refine ⟨s.attach i c, Function.update kids i (kids i ++ [c]), rfl, a.next he hg ?_, he⟩
      exact fun j mem => (ha.subtrees j).mpr ⟨(rest j mem).2, (rest j mem).1⟩
    · rw [if_neg hv]
      -- what is not in the tree of the root stays
      let B : Idx → Prop := fun j => A j ∨ (j ∈ s.subtrees ∧ j ≠ c) ∨ s.Conn j
      have hd : ∀ j, B j → ∀ p, (s.fec j).parent = some p → B p := by
        rintro j (hk | ⟨hi, -⟩ | ht) p some
        · exact .inl (a.closed j hk p some)
        · have none := (hp.orphan j (subtrees_live j hi) (ho j hi)).mp hi
          cases none.symm.trans some
        · obtain ⟨up, hz⟩ := hw.links.parent_mem ht.live some
          by_cases hj : p ∈ pending
          · have hb := (hp.waiting p hj).2 j hz
            exact absurd hb (hw.pool.disjoint.2.2.2.2.2.1 j ht).1
          · exact .inr (.inr ((hp.same p up hj j hz).mp ht))
      have hq : ∀ j ∈ [c], ¬B j := by
        intro j mem
        rw [mem_singleton.mp mem]
        rintro (hk | ⟨-, no⟩ | ht)
        · exact hx hk
        · exact no rfl
        · exact ho c tree ht
      have few : s.live.length ≤ s.fecMax + 1 := Nat.le_succ_of_le hw.pool.few
      have hst : Whole s kids ⟨spare, [c], pending, [], none, top, some i⟩ := by
        have top := (hp.orphan c hl (ho c tree)).mp tree
        have hm := hw.links
        refine ⟨hw.pool, ⟨hm.chain, ?_, hm.alone, ?_, hm.valid⟩,
          ⟨hp.same, hp.waiting, ?_, hp.leaf, hp.orphan, hp.subtreel⟩, hw.outs, hw.xids,
          hw.unlisted⟩
        · intro p mem j
          rw [hm.kid p mem j]
          refine and_congr_right fun _ => and_congr_right fun some => ?_
          refine ⟨fun _ hs => ?_, fun _ => not_mem_nil⟩
          rw [mem_singleton.mp hs] at some
          cases top.symm.trans some
        · intro j mem p some
          exact (hm.up j mem p some).imp_right (Or.imp_left nofun)
        · intro j ht
          exact (hp.tops j ht).imp_right (Or.imp_right nofun)
      have hn : ∀ j, some i = some j → B j := fun j eq => .inl (Option.some.inj eq ▸ a.mine)
      have hi : ∀ j ∈ [c], j ∈ s.live := fun j mem => mem_singleton.mp mem ▸ hl
      have hr : ∀ j ∈ [c], ¬s.Conn j := fun j mem => mem_singleton.mp mem ▸ ho c tree
      obtain ⟨s', run, hg, hh, hf⟩ := subtreesLoop_ok (t := ⟨spare, [], pending, [], none, top, some i⟩)
        hst (nodup_singleton c) hi hr hd hq hn few
      have conn : ∀ j, s'.Conn j ↔ s.Conn j := fun j =>
        ⟨fun ht => (hh.conn j ht.live).mp ht, fun ht =>
          (hh.conn j (hf j ht.live (.inr (.inr ht)))).mpr ht⟩
      have he : Beside s s' A := ⟨hh.kept, conn, fun j mem hk => hf j mem (.inl hk),
        fun j _ => hh.parent j⟩
      refine ⟨s', kids, run, a.next he hg fun j mem => ?_, he⟩
      obtain ⟨hi, hq⟩ := rest j mem
      have hy := hf j (subtrees_live j hi) (.inr (.inl ⟨hi, hq⟩))
      exact (hh.subtrees j hy).mpr hi

end

lemma Adopting.run (a : Adopting s kids spare pending top i A todo) :
    ∃ s' kids', todo.foldlM (fun s child => s.adopt i child) s = .ok s' ∧
      Adopting s' kids' spare pending top i A [] ∧ Beside s s' A := by
  induction todo generalizing s kids with
  | nil => exact ⟨s, kids, rfl, a, .refl s A⟩
  | cons c todo ih =>
    obtain ⟨s₁, kids₁, h, a₁, hb⟩ := a.step
    obtain ⟨s', kids', run, a', he⟩ := ih a₁
    refine ⟨s', kids', ?_, a', hb.trans he⟩
    rw [foldlM_cons]
    exact bind_ok.mpr ⟨s₁, h, run⟩

lemma Moved.refl (s : Reasm) : Moved s s := ⟨rfl, rfl, rfl, rfl, rfl, fun _ => rfl, .refl _⟩

lemma Moved.trans (hf : Moved s s') (hs : Moved s' s'') : Moved s s'' where
  fecMax := hs.fecMax.trans hf.fecMax
  xidMax := hs.xidMax.trans hf.xidMax
  root := hs.root.trans hf.root
  free := hs.free.trans hf.free
  xid := hs.xid.trans hf.xid
  fec := fun j => (hs.fec j).trans (hf.fec j)
  perm := hs.perm.trans hf.perm

structure Connects (s s' : Reasm) (l : List Idx) : Prop where
  moved : Moved s s'
  ancestry : s'.ancestry = s.ancestry
  subtrees : s'.subtrees = s.subtrees
  subtreel : s'.subtreel = s.subtreel
  frontier : ∀ j, j ∈ s'.frontier ↔ j ∈ s.frontier ∨ j ∈ l
  orphaned : ∀ j, j ∈ s'.orphaned ↔ j ∈ s.orphaned ∧ j ∉ l
  count : s'.orphaned.length + l.length = s.orphaned.length
  out : s'.out = s.out ++ l
  flag : ∀ j ∈ l, (s'.fec j).inOut = true
  flags : ∀ j, j ∉ l → (s'.fec j).inOut = (s.fec j).inOut

lemma Connects.conn (hc : Connects s s' l) (j : Idx) : s'.Conn j ↔ s.Conn j ∨ j ∈ l := by
  unfold Reasm.Conn
  rw [hc.ancestry, hc.frontier, or_assoc]

lemma connect_ok (hp : Pool s spare) (hi : i ∈ s.orphaned) : ∃ s', s.connect i = .ok s' ∧ Connects s s' [i] := by
  have hf := hp.find_mem orphaned_live hi
  refine ⟨_, check_of _ hf _, ⟨⟨rfl, rfl, rfl, rfl, rfl, ?_, ?_⟩, rfl, rfl, rfl, ?_, ?_, ?_, rfl, ?_, ?_⟩⟩
  · intro j
    simp only [Reasm.pushOut, Reasm.set]
    split <;> rfl
  · change (s.ancestry ++ i :: s.frontier ++ s.orphaned.erase i ++ s.subtrees).Perm _
    unfold Reasm.live
    refine List.Perm.append_right _ ?_
    have hs : (i :: (s.ancestry ++ s.frontier ++ s.orphaned.erase i)).Perm
        (s.ancestry ++ s.frontier ++ i :: s.orphaned.erase i) := perm_middle.symm
    refine (perm_middle.append_right _).trans (hs.trans ?_)
    exact (perm_cons_erase hi).symm.append_left _
  · intro j
    change j ∈ i :: s.frontier ↔ _
    rw [mem_cons, mem_singleton, or_comm]
  · intro j
    change j ∈ s.orphaned.erase i ↔ _
    rw [hp.disjoint.2.2.1.mem_erase_iff, mem_singleton, and_comm]
  · change (s.orphaned.erase i).length + 1 = _
    exact (perm_cons_erase hi).symm.length_eq
  · intro j hm
    rw [mem_singleton.mp hm]
    exact (congrArg Fec.inOut (if_pos rfl) :)
  · intro j hn
    have ne : j ≠ i := fun eq => hn (mem_singleton.mpr eq)
    exact (congrArg Fec.inOut (if_neg ne) :)

lemma Connects.append (hf : Connects s s' [i]) (hs : Connects s' s'' l) (hr : i ∉ l) : Connects s s'' (i :: l) := by
  refine ⟨hf.moved.trans hs.moved, hs.ancestry.trans hf.ancestry, hs.subtrees.trans hf.subtrees,
    hs.subtreel.trans hf.subtreel, ?_, ?_, ?_, ?_, ?_, ?_⟩
  · intro j
    rw [hs.frontier, hf.frontier, or_assoc, mem_singleton, mem_cons]
  · intro j
    rw [hs.orphaned, hf.orphaned, and_assoc, mem_singleton, mem_cons, not_or]
  · have ho := hf.count
    have hm := hs.count
    rw [length_singleton] at ho
    rw [length_cons]
    omega
  · rw [hs.out, hf.out, append_assoc]
    rfl
  · intro j hx
    rcases mem_cons.mp hx with rfl | hx
    · rw [hs.flags j hr]
      exact hf.flag j (mem_singleton_self j)
    · exact hs.flag j hx
  · intro j hn
    rw [mem_cons, not_or] at hn
    rw [hs.flags j hn.2]
    exact hf.flags j fun hx => hn.1 (mem_singleton.mp hx)

lemma connect_all (hp : Pool s spare) (hi : ∀ j ∈ l, j ∈ s.orphaned) (nd : l.Nodup) :
    ∃ s', l.foldlM Reasm.connect s = .ok s' ∧ Connects s s' l := by
  induction l generalizing s with
  | nil =>
    refine ⟨s, rfl, ⟨.refl s, rfl, rfl, rfl, fun j => ?_, fun j => ?_, rfl, (append_nil _).symm, nofun, fun _ _ => rfl⟩⟩
    · exact (or_iff_left not_mem_nil).symm
    · exact (and_iff_left not_mem_nil).symm
  | cons i l ih =>
    obtain ⟨hr, nd⟩ := nodup_cons.mp nd
    obtain ⟨s₁, h, hf⟩ := connect_ok hp (hi i (.head _))
    have hn : ∀ j ∈ l, j ∈ s₁.orphaned := by
      intro j hm
      refine (hf.orphaned j).mpr ⟨hi j (.tail _ hm), fun eq => ?_⟩
      exact hr (mem_singleton.mp eq ▸ hm)
    obtain ⟨s', hu, hs⟩ := ih (hf.moved.pool hp) hn nd
    refine ⟨s', ?_, hf.append hs hr⟩
    rw [foldlM_cons]
    exact bind_ok.mpr ⟨s₁, h, hu⟩

lemma Whole.advanceLeaf (hw : Whole s kids ⟨spare, [], i :: queue, [], none, top, fresh⟩) (hb : kids i = []) :
    Whole s kids ⟨spare, [], queue, [], none, top, fresh⟩ := by
  have hp := hw.places
  refine ⟨hw.pool, hw.links, ⟨?_, ?_, hp.tops, ?_, hp.orphan, hp.subtreel⟩, hw.outs, hw.xids,
    hw.unlisted⟩
  · intro p hm hr c hk
    by_cases hf : p = i
    · rw [hf, hb] at hk
      cases hk
    · refine hp.same p hm (fun ha => ?_) c hk
      exact (mem_cons.mp ha).elim hf hr
  · exact fun p ha => hp.waiting p (.tail _ ha)
  · intro j ht hs
    rw [hp.leaf j ht hs]
    constructor
    · rintro (none | ha)
      · exact .inl none
      · rcases mem_cons.mp ha with rfl | ha
        · exact .inl ((hw.links.child_none (frontier_live j (hp.waiting j (.head _)).1)).mpr hb)
        · exact .inr ha
    · exact Or.imp_right (.tail _)

lemma Whole.advance (hw : Whole s kids ⟨spare, [], i :: queue, [], none, top, fresh⟩) (nd : (i :: queue).Nodup) :
    ∃ s', (kids i).foldlM Reasm.connect
        (if kids i = [] then s else { s with frontier := s.frontier.erase i, ancestry := i :: s.ancestry }) = .ok s' ∧
      Whole s' kids ⟨spare, [], queue ++ kids i, [], none, top, fresh⟩ ∧ Kept s s' ∧ (queue ++ kids i).Nodup ∧
      s'.orphaned.length + (queue ++ kids i).length + 1 = s.orphaned.length + (i :: queue).length ∧
      (∀ j, (s'.fec j).parent = (s.fec j).parent) ∧ (∀ j, j ∈ s'.live ↔ j ∈ s.live) ∧ (∀ j, s.Conn j → s'.Conn j) := by
  have hpo := hw.pool
  have hk := hw.links
  have hp := hw.places
  obtain ⟨hon, hre⟩ := nodup_cons.mp nd
  obtain ⟨hfr, hb⟩ := hp.waiting i (.head _)
  have hl := frontier_live i hfr
  have hh : s.Conn i := .inr hfr
  by_cases hba : kids i = []
  · rw [if_pos hba, hba, append_nil]
    exact ⟨s, rfl, hw.advanceLeaf hba, .refl s, hre, rfl, fun _ => rfl, fun _ => .rfl, fun _ ht => ht⟩
  · rw [if_neg hba]
    have hc := hk.chain i hl
    -- the element is not a leaf any more
    have hd : Moved s { s with frontier := s.frontier.erase i, ancestry := i :: s.ancestry } := by
      refine ⟨rfl, rfl, rfl, rfl, rfl, fun _ => rfl, ?_⟩
      unfold Reasm.live
      refine List.Perm.append_right _ (List.Perm.append_right _ ?_)
      exact perm_middle.symm.trans ((perm_cons_erase hfr).symm.append_left _)
    obtain ⟨s', run, hx⟩ := connect_all (hd.pool hpo) hb hc.nodup
    have hm := hd.trans hx.moved
    have hi : ∀ j, j ∈ s'.live ↔ j ∈ s.live := fun j => hm.perm.mem_iff
    have hn : ∀ c ∈ kids i, ¬s.Conn c := fun c hj ht => (hpo.disjoint.2.2.2.2.2.1 c ht).1 (hb c hj)
    have he : ∀ j, j ∈ s'.frontier ↔ (j ≠ i ∧ j ∈ s.frontier) ∨ j ∈ kids i := by
      intro j
      rw [hx.frontier]
      change (j ∈ s.frontier.erase i ∨ _) ↔ _
      rw [hpo.disjoint.2.1.mem_erase_iff]
    have hz : ∀ j, s'.Conn j ↔ s.Conn j ∨ j ∈ kids i := by
      intro j
      rw [hx.conn]
      refine or_congr_left ?_
      change (j ∈ i :: s.ancestry ∨ j ∈ s.frontier.erase i) ↔ _
      unfold Reasm.Conn
      rw [mem_cons, hpo.disjoint.2.1.mem_erase_iff]
      by_cases hf : j = i
      · simp [hf, hfr]
      · simp [hf]
    have hsi : ∀ p ∈ s.live, ∀ c, c ∈ kids p → c ∈ kids i → p = i := fun p mem c hj hv =>
      Option.some.inj (((hk.kid p mem c).mp hj).2.1.symm.trans ((hk.kid i hl c).mp hv).2.1)
    have hse : i ∉ kids i := fun hj => hn i hj hh
    have hq : ∀ p ∈ queue, p ∈ s.frontier ∧ p ≠ i ∧ p ∉ kids i := by
      intro p hu
      have ht := (hp.waiting p (.tail _ hu)).1
      exact ⟨ht, fun eq => hon (eq ▸ hu), fun hj => hn p hj (.inr ht)⟩
    refine ⟨s', run, ⟨hm.pool hpo, hm.links hk, ⟨?_, ?_, ?_, ?_, ?_, ?_⟩, ⟨?_, ?_, ?_⟩, hm.xids hw.xids, ?_⟩,
      hm.kept ?_, ?_, ?_, hm.parent, hi, fun j ht => (hz j).mpr (.inl ht)⟩
    · intro p mem hr c hj
      have mem := (hi p).mp mem
      rw [mem_append, not_or] at hr
      rw [hz, hz]
      by_cases hf : p = i
      · rw [hf] at hj ⊢
        exact ⟨fun _ => .inl hh, fun _ => .inr hj⟩
      · have hid : p ∉ i :: queue := fun hu => (mem_cons.mp hu).elim hf hr.1
        have ne : c ∉ kids i := fun hag => hf (hsi p mem c hj hag)
        rw [hp.same p mem hid c hj]
        simp [ne, hr.2]
    · intro p hu
      rw [he]
      have hs : ∀ c ∈ s.orphaned, c ∉ kids i → c ∈ s'.orphaned := fun c hy ne =>
        (hx.orphaned c).mpr ⟨hy, ne⟩
      rcases mem_append.mp hu with hu | hj
      · obtain ⟨ht, ne, -⟩ := hq p hu
        refine ⟨.inl ⟨ne, ht⟩, fun c hj => hs c ?_ ?_⟩
        · exact (hp.waiting p (.tail _ hu)).2 c hj
        · exact fun hag => ne (hsi p (frontier_live p ht) c hj hag)
      · refine ⟨.inr hj, fun c hv => ?_⟩
        have mem := orphaned_live p (hb p hj)
        have hy := hn p hj
        have hid : p ∉ i :: queue := fun hu => hy (.inr (hp.waiting p hu).1)
        have hg : ¬s.Conn c := fun ht => hy ((hp.same p mem hid c hv).mp ht)
        obtain ⟨mem', hpa, -⟩ := (hk.kid p mem c).mp hv
        refine hs c ((orphan_cases mem' hg).resolve_right fun htr => ?_) fun hag => ?_
        · exact nomatch ((hp.orphan c mem' hg).mp htr).symm.trans hpa
        · have eq := hsi p mem c hv hag
          exact hse (eq ▸ hj)
    · intro c ht
      rcases (hz c).mp ht with ht | hj
      · rcases hp.tops c ht with ⟨p, mem, hj⟩ | ho
        · exact .inl ⟨p, (hi p).mpr mem, hj⟩
        · exact .inr ho
      · exact .inl ⟨i, (hi i).mpr hl, hj⟩
    · intro j ht hs
      rw [he, hm.child, mem_append]
      rcases (hz j).mp ht with ht | hj
      · by_cases hf : j = i
        · subst hf
          have hso : (s.fec j).child ≠ none := fun none => hba ((hk.child_none hl).mp none)
          simp [hso, hon, hse]
        · have ne : j ∉ kids i := fun hj => hn j hj ht
          rw [and_iff_right hf, or_iff_left ne, hp.leaf j ht hs, mem_cons, or_iff_right hf,
            or_iff_left ne]
      · exact ⟨fun _ => .inr (.inr hj), fun _ => .inr hj⟩
    · intro j mem hy
      rw [hm.parent, hx.subtrees]
      exact hp.orphan j ((hi j).mp mem) fun ht => hy ((hz j).mpr (.inl ht))
    · rw [hx.subtreel, hx.subtrees]
      exact hp.subtreel
    · rw [hx.out]
      refine nodup_append.mpr ⟨hw.outs.nodup, hc.nodup, ?_⟩
      intro a mem b hj eq
      exact hn b hj (hw.outs.conn b (eq ▸ mem))
    · intro j mem
      rw [hx.out] at mem
      exact (hz j).mpr ((mem_append.mp mem).imp_left (hw.outs.conn j))
    · intro j mem
      rw [hx.out, mem_append]
      by_cases hj : j ∈ kids i
      · exact ⟨fun _ => .inr hj, fun _ => hx.flag j hj⟩
      · rw [hx.flags j hj, or_iff_left hj]
        exact hw.outs.flag j ((hi j).mp mem)
    · exact fun j new => (congrArg Fec.xidNext (hm.fec j) :).trans (hw.unlisted j new)
    · refine fun hq => hq.push (fun j => (congrArg Fec.ident (hm.fec j) :)) (fun j ht => (hz j).mp ht)
        hx.out ?_ ?_
      · intro j mem p up hso
        have ha := (hm.parent j).symm.trans hso
        refine ⟨((hz p).mp up).resolve_right fun hj => ?_, ha⟩
        -- a child that waits has no children in the tree
        have ht := hw.outs.conn j mem
        have mem := orphaned_live p (hb p hj)
        have hv := (hk.kid p mem j).mpr ⟨ht.live, ha, not_mem_nil⟩
        have hid : p ∉ i :: queue := fun hu => hn p hj (.inr (hp.waiting p hu).1)
        exact hn p hj ((hp.same p mem hid j hv).mp ht)
      · intro j hj p _ hso
        have ha := (hm.parent j).symm.trans hso
        exact Option.some.inj (((hk.kid i hl j).mp hj).2.1.symm.trans ha) ▸ hh
    · refine nodup_append.mpr ⟨hre, hc.nodup, ?_⟩
      intro a hu b hj eq
      exact (hq a hu).2.2 (eq ▸ hj)
    · have hco : s'.orphaned.length + (kids i).length = s.orphaned.length := hx.count
      rw [length_append, length_cons]
      omega

lemma advanceLoop_ok {n : Nat} (hw : Whole s kids ⟨spare, [], queue, [], none, top, fresh⟩) (nd : queue.Nodup)
    (hf : s.orphaned.length + queue.length ≤ n) :
    ∃ s', advanceLoop n queue s = .ok s' ∧ Whole s' kids ⟨spare, [], [], [], none, top, fresh⟩ ∧ Kept s s' ∧
      (∀ j, (s'.fec j).parent = (s.fec j).parent) ∧ (∀ j, j ∈ s'.live ↔ j ∈ s.live) ∧ (∀ j, s.Conn j → s'.Conn j) := by
  induction n generalizing s queue with
  | zero =>
    cases queue with
    | nil => exact ⟨s, rfl, hw, .refl s, fun _ => rfl, fun _ => .rfl, fun _ ht => ht⟩
    | cons i rest =>
      rw [length_cons] at hf
      omega
  | succ n ih =>
    cases queue with
    | nil => exact ⟨s, rfl, hw, .refl s, fun _ => rfl, fun _ => .rfl, fun _ ht => ht⟩
    | cons i rest =>
      have hl := frontier_live i (hw.places.waiting i (.head _)).1
      have hi := hw.links.children hw.pool hl
      obtain ⟨s₁, h, hh, hk, hn, ho, hp, hx, hc⟩ := hw.advance nd
      obtain ⟨s', hr, he, hb, ha, hm, hd⟩ := ih hh hn (by omega)
      refine ⟨s', ?_, he, hk.trans hb, fun j => (ha j).trans (hp j),
        fun j => (hm j).trans (hx j), fun j ht => hd j (hc j ht)⟩
      unfold advanceLoop
      rw [hi]
      exact bind_ok.mpr ⟨s₁, h, hr⟩

lemma Whole.advanced (hw : Whole s kids ⟨spare, [], pending, [], none, top, fresh⟩)
    (hl : i ∈ s.live) (hs : pending = [i] ∧ s.Conn i ∨ pending = [] ∧ ¬s.Conn i) :
    ∃ s', s.advance i = .ok s' ∧ Whole s' kids ⟨spare, [], [], [], none, top, fresh⟩ ∧ Kept s s' ∧
      (∀ j, (s'.fec j).parent = (s.fec j).parent) ∧ (∀ j, j ∈ s'.live ↔ j ∈ s.live) ∧ (∀ j, s.Conn j → s'.Conn j) := by
  have hp := hw.pool
  unfold Reasm.advance
  rcases hs with ⟨rfl, -⟩ | ⟨rfl, ha⟩
  · rw [hp.find_mem frontier_live (hw.places.waiting i mem_cons_self).1]
    refine advanceLoop_ok hw (nodup_singleton i) ?_
    have he := hp.length_le hp.disjoint.2.2.1 orphaned_live
    rw [length_singleton]
    omega
  · rw [hp.find_not_mem frontier_live hl fun hf => ha (.inr hf)]
    exact ⟨s, rfl, hw, .refl s, fun _ => rfl, fun _ => .rfl, fun _ ht => ht⟩

end Firebam.Reassembly
