import Firebam.Reasm.Remove

namespace Firebam.Reassembly
open Lib List Function Fec

variable {s s' : Reasm} {t : Todo} {kids : Idx → List Idx} {i p c j : Idx} {spare pending : List Idx}
  {top fresh : Option Idx}

lemma Whole.overwrite (hw : Whole s kids t) (hn : i ∉ s.live) (hi : t.fresh ≠ some i) (g : Fec → Fec) :
    Whole (s.set i g) kids t := by
  have hs : ∀ j ∈ s.live, (s.set i g).fec j = s.fec j := by
    intro j hx
    have ne : j ≠ i := fun eq => hn (eq ▸ hx)
    exact if_neg ne
  have hl := hw.links
  have hp := hw.places
  refine ⟨⟨hw.pool.nodup, hw.pool.all, ?_, ?_⟩, ⟨?_, ?_, ?_, ?_, ?_⟩,
    ⟨hp.same, hp.waiting, hp.tops, ?_, ?_, hp.subtreel⟩,
    ⟨hw.outs.nodup, hw.outs.conn, ?_⟩, ?_, ?_⟩
  · intro a hx b hm eq
    rw [hs a hx, hs b hm] at eq
    exact hw.pool.keys a hx b hm eq
  · intro j hx
    rw [hs j hx]
    exact hw.pool.sane j hx
  · intro p hx
    rw [hs p hx]
    refine (hl.chain p hx).congr fun j hd => ?_
    rw [hs j ((hl.kid p hx j).mp hd).1]
  · intro p hx c
    rw [hl.kid p hx c]
    exact and_congr_right fun m => by rw [hs c m]
  · intro c hx hh
    rw [hs c hx] at hh ⊢
    exact hl.alone c hx hh
  · intro c hx p some
    rw [hs c hx] at some
    exact hl.up c hx p some
  · intro c hx p hm some
    rw [hs c hx] at some ⊢
    rw [hs p hm]
    exact hl.valid c hx p hm some
  · intro j hc he
    rw [hs j hc.live]
    exact hp.leaf j hc he
  · intro j hx ho
    rw [hs j hx]
    exact hp.orphan j hx ho
  · intro j hx
    rw [hs j hx]
    exact hw.outs.flag j hx
  · exact hw.xids.congr rfl (fun j hk => congrArg listing (hs j hk.1)) fun _ => .rfl
  · intro j hf
    have ne : j ≠ i := fun eq => hi (eq ▸ hf)
    exact (congrArg xidNext (if_neg ne) :).trans (hw.unlisted j hf)

structure Fec.New (f : Fec) : Prop where
  sane : f.Sane
  parent : f.parent = none
  child : f.child = none
  sibling : f.sibling = none
  xidNext : f.xidNext = none
  inOut : f.inOut = false
  eqvoc : f.eqvoc = false

def Reasm.addTree (s : Reasm) (i : Idx) : Reasm := { s with subtrees := i :: s.subtrees, subtreel := s.subtreel ++ [i] }

lemma addTree_perm (s : Reasm) (i : Idx) : (s.addTree i).live.Perm (i :: s.live) := perm_middle

lemma addTree_live : j ∈ (s.addTree i).live ↔ j = i ∨ j ∈ s.live :=
  (addTree_perm s i).mem_iff.trans mem_cons

lemma Whole.addTree (hw : Whole s kids ⟨i :: spare, [], [], [], none, top, none⟩)
    (hd : (s.fec i).New) (hu : ∀ j ∈ s.live, (s.fec j).key ≠ (s.fec i).key) :
    Whole (s.addTree i) (update kids i []) ⟨spare, [], [], [], none, top, some i⟩ := by
  have hl := hw.pool
  have hk := hw.links
  have hp := hw.places
  have hn := hl.spare_absent
  have hr : ¬s.Conn i := fun hc => hn hc.live
  have he : ((s.addTree i).live ++ s.free ++ spare).Perm (s.live ++ s.free ++ (i :: spare)) := by
    have hs : (i :: (s.live ++ s.free ++ spare)).Perm (s.live ++ s.free ++ (i :: spare)) := perm_middle.symm
    exact (((addTree_perm s i).append_right _).append_right _).trans hs
  have hg : ∀ j ∈ s.live, j ≠ i := fun j hx eq => hn (eq ▸ hx)
  -- nobody has the new element as its parent
  have hb : ∀ c ∈ s.live, (s.fec c).parent ≠ some i := fun c hx ht => hn (hk.parent_mem hx ht).1
  refine ⟨⟨he.nodup_iff.mpr hl.nodup, fun j => (hl.all j).trans he.mem_iff.symm, ?_, ?_⟩,
    ⟨?_, ?_, ?_, ?_, ?_⟩, ⟨?_, nofun, ?_, ?_, ?_, ?_⟩, ⟨hw.outs.nodup, hw.outs.conn, ?_⟩, ?_, ?_⟩
  · intro a hx b hm eq
    rcases addTree_live.mp hx with rfl | m
    · rcases addTree_live.mp hm with rfl | hi
      · rfl
      · exact absurd eq.symm (hu b hi)
    · rcases addTree_live.mp hm with rfl | hi
      · exact absurd eq (hu a m)
      · exact hl.keys a m b hi eq
  · intro j hx
    rcases addTree_live.mp hx with rfl | hx
    · exact hd.sane
    · exact hl.sane j hx
  · intro p hx
    rcases addTree_live.mp hx with rfl | hx
    · rw [update_self]
      exact hd.child
    · rw [update_of_ne (hg p hx)]
      exact hk.chain p hx
  · intro p hx c
    rw [addTree_live]
    rcases addTree_live.mp hx with rfl | hx
    · rw [update_self]
      refine ⟨nofun, ?_⟩
      rintro ⟨rfl | m, ht, -⟩
      · exact nomatch hd.parent.symm.trans ht
      · exact absurd ht (hb c m)
    · rw [update_of_ne (hg p hx), hk.kid p hx c]
      refine and_congr_left fun hh => ⟨.inr, ?_⟩
      rintro (rfl | m)
      · exact nomatch hd.parent.symm.trans hh.1
      · exact m
  · intro c hx none
    rcases addTree_live.mp hx with rfl | hx
    · exact hd.sibling
    · exact hk.alone c hx none
  · intro c hx p some
    rcases addTree_live.mp hx with rfl | hx
    · exact nomatch hd.parent.symm.trans some
    · exact (hk.up c hx p some).imp (fun up => addTree_live.mpr (.inr up)) id
  · intro c hx p hm some
    rcases addTree_live.mp hx with rfl | m
    · exact nomatch hd.parent.symm.trans some
    · rcases addTree_live.mp hm with rfl | hi
      · exact absurd some (hb c m)
      · exact hk.valid c m p hi some
  · intro p hx _ c hf
    rcases addTree_live.mp hx with rfl | hx
    · rw [update_self] at hf
      cases hf
    · rw [update_of_ne (hg p hx)] at hf
      exact hp.same p hx not_mem_nil c hf
  · intro c hc
    rcases hp.tops c hc with ⟨p, hx, hf⟩ | ho
    · refine .inl ⟨p, addTree_live.mpr (.inr hx), ?_⟩
      rw [update_of_ne (hg p hx)]
      exact hf
    · exact .inr ho
  · exact hp.leaf
  · intro j hx ha
    change j ∈ i :: s.subtrees ↔ _
    rw [mem_cons]
    rcases addTree_live.mp hx with rfl | hx
    · exact ⟨fun _ => hd.parent, fun _ => .inl rfl⟩
    · rw [or_iff_right (hg j hx)]
      exact hp.orphan j hx ha
  · refine (hp.subtreel.concat fun m => hn (subtrees_live i m)).congr fun j => ?_
    exact mem_cons.symm
  · intro j hx
    rcases addTree_live.mp hx with rfl | hx
    · exact ⟨(fun set => nomatch hd.inOut.symm.trans set), fun m => absurd (hw.outs.conn j m) hr⟩
    · exact hw.outs.flag j hx
  · refine hw.xids.congr rfl (fun _ _ => rfl) fun j => ?_
    rw [addTree_live]
    constructor
    · rintro ⟨rfl | hx, ne⟩
      · exact absurd rfl ne
      · exact ⟨hx, nofun⟩
    · rintro ⟨hx, -⟩
      exact ⟨.inr hx, fun eq => hg j hx (Option.some.inj eq).symm⟩
  · intro j eq
    cases eq
    exact hd.xidNext

structure Linked (s s' : Reasm) (kids : Idx → List Idx) (p c : Idx) : Prop where
  eq : ∃ f, s' = { s with fec := f } ∧ ∀ j, { f j with parent := none, child := none, sibling := none } =
    { s.fec j with parent := none, child := none, sibling := none }
  chain : ∀ q ∈ s.live, Chain (fun j => (s'.fec j).sibling) (s'.fec q).child (update kids p (kids p ++ [c]) q)
  parent : (s'.fec c).parent = some p
  parents : ∀ j, j ≠ c → (s'.fec j).parent = (s.fec j).parent
  child : ∀ j, j ≠ p → (s'.fec j).child = (s.fec j).child
  alone : ∀ j ∈ s.live, (s.fec j).parent = none → (s'.fec j).sibling = none

lemma Links.link (hk : Links s kids [] none) (ho : Pool s spare) (up : p ∈ s.live) (hi : c ∈ s.live)
    (hu : (s.fec c).parent = none) : Linked s (s.link p c) kids p c := by
  have hc := hk.chain p up
  have hl : ∀ q ∈ s.live, c ∉ kids q := fun q hv hq =>
    nomatch hu.symm.trans ((hk.kid q hv c).mp hq).2.1
  have hm : (s.fec c).sibling = none := hk.alone c hi hu
  -- the parent of the child is set first
  let u := s.set c fun f => { f with parent := some p }
  have hg : ∀ j, { u.fec j with parent := none } = { s.fec j with parent := none } := by
    intro j
    simp only [u, Reasm.set]
    split <;> rfl
  have parent : (u.fec c).parent = some p := (congrArg parent (if_pos rfl) :)
  have hp : ∀ j, j ≠ c → (u.fec j).parent = (s.fec j).parent := fun j ne => (congrArg Fec.parent (if_neg ne) :)
  have sibling : ∀ j, (u.fec j).sibling = (s.fec j).sibling := fun j => (congrArg sibling (hg j) :)
  have child : ∀ j, (u.fec j).child = (s.fec j).child := fun j => (congrArg child (hg j) :)
  have hn : u.children p = kids p := by
    rw [← hk.children ho up]
    unfold Reasm.children
    rw [child p, funext sibling]
    rfl
  have hj : s.link p c = (kids p).getLast?.elim (u.set p fun f => { f with child := some c })
      fun last => u.set last fun f => { f with sibling := some c } := by
    rw [← hn]
    dsimp only [Reasm.link, u]
    cases ((s.set c fun f => { f with parent := some p }).children p).getLast? <;> rfl
  have hw : ∀ j, { u.fec j with parent := none, child := none, sibling := none } =
      { s.fec j with parent := none, child := none, sibling := none } := fun j =>
    (congrArg (fun f : Fec => { f with parent := none, child := none, sibling := none }) (hg j) :)
  rcases eq_nil_or_concat (kids p) with he | ⟨front, last, split⟩
  · have eq : s.link p c = u.set p fun f => { f with child := some c } := by
      rw [hj, he]
      rfl
    have hs : ∀ j, { (s.link p c).fec j with child := none } = { u.fec j with child := none } := by
      intro j
      rw [eq]
      simp only [Reasm.set]
      split <;> rfl
    have hb : ∀ j, ((s.link p c).fec j).sibling = (s.fec j).sibling := fun j =>
      (congrArg Fec.sibling (hs j) :).trans (sibling j)
    have hr : ∀ j, ((s.link p c).fec j).parent = (u.fec j).parent := fun j => (congrArg Fec.parent (hs j) :)
    have hd : ∀ j, j ≠ p → ((s.link p c).fec j).child = (s.fec j).child := by
      intro j ne
      rw [eq]
      exact (congrArg Fec.child (if_neg ne) :).trans (child j)
    refine ⟨⟨(s.link p c).fec, by rw [eq]; rfl, fun j => ?_⟩, ?_, (hr c).trans parent,
      fun j ne => (hr j).trans (hp j ne), hd, ?_⟩
    · exact (congrArg (fun f : Fec => { f with parent := none, child := none, sibling := none }) (hs j) :).trans (hw j)
    · intro q hv
      by_cases hh : q = p
      · subst hh
        have hf : ((s.link q c).fec q).child = some c := by
          rw [eq]
          exact (congrArg Fec.child (if_pos rfl) :)
        rw [update_self, he, nil_append, hf]
        exact ⟨rfl, (hb c).trans hm⟩
      · rw [update_of_ne hh, hd q hh]
        exact (hk.chain q hv).congr fun j _ => hb j
    · exact fun j hv none => (hb j).trans (hk.alone j hv none)
  · rw [concat_eq_append] at split
    have hx : last ∈ kids p := by
      rw [split]
      exact mem_append_right _ (mem_singleton_self _)
    have eq : s.link p c = u.set last fun f => { f with sibling := some c } := by
      rw [hj, split, getLast?_append]
      rfl
    have hs : ∀ j, { (s.link p c).fec j with sibling := none } = { u.fec j with sibling := none } := by
      intro j
      rw [eq]
      simp only [Reasm.set]
      split <;> rfl
    have hr : ∀ j, ((s.link p c).fec j).parent = (u.fec j).parent := fun j => (congrArg Fec.parent (hs j) :)
    have hd : ∀ j, ((s.link p c).fec j).child = (s.fec j).child := fun j =>
      (congrArg Fec.child (hs j) :).trans (child j)
    have hb : ∀ j, j ≠ last → ((s.link p c).fec j).sibling = (s.fec j).sibling := by
      intro j ne
      rw [eq]
      exact (congrArg Fec.sibling (if_neg ne) :).trans (sibling j)
    have ht : c ≠ last := fun eq => hl p up (eq ▸ hx)
    have ha := ((hk.kid p up last).mp hx).2.1
    refine ⟨⟨(s.link p c).fec, by rw [eq]; rfl, fun j => ?_⟩, ?_, (hr c).trans parent,
      fun j ne => (hr j).trans (hp j ne), fun j _ => hd j, ?_⟩
    · exact (congrArg (fun f : Fec => { f with parent := none, child := none, sibling := none }) (hs j) :).trans (hw j)
    · intro q hv
      rw [hd q]
      by_cases hh : q = p
      · subst hh
        rw [update_self]
        rw [split] at hc ⊢
        have nd := hc.nodup
        refine hc.concat ?_ ((hb c ht).trans hm) fun j m => hb j ?_
        · rw [eq]
          exact (congrArg Fec.sibling (if_pos rfl) :)
        · rintro rfl
          exact (nodup_append.mp nd).2.2 j m j (mem_singleton_self _) rfl
      · rw [update_of_ne hh]
        refine (hk.chain q hv).congr fun j hq => hb j ?_
        rintro rfl
        exact hh (Option.some.inj (((hk.kid q hv j).mp hq).2.1.symm.trans ha))
    · intro j hv none
      refine (hb j ?_).trans (hk.alone j hv none)
      rintro rfl
      exact nomatch none.symm.trans ha

lemma Linked.links (hl : Linked s s' kids p c) (links : Links s kids [] none) (up : p ∈ s.live) (live : c ∈ s.live)
    (top : (s.fec c).parent = none) (cmr : (s.fec c).cmr = (s.fec p).key)
    (hv : validateChainedBlockId (s.fec p) (s.fec c) = true) : Links s' (update kids p (kids p ++ [c])) [] none := by
  obtain ⟨⟨f, rfl, hc⟩, chain, parent, hp, -, hn⟩ := hl
  have name : ∀ j, (f j).name = (s.fec j).name := fun j => (congrArg name (hc j) :)
  have hm : ∀ j, (f j).cmr = (s.fec j).cmr := fun j => (congrArg Fec.cmr (hc j) :)
  have key : ∀ j, (f j).key = (s.fec j).key := fun j => (congrArg key (hc j) :)
  have ho : ∀ q ∈ s.live, c ∉ kids q := fun q hi hk =>
    nomatch top.symm.trans ((links.kid q hi c).mp hk).2.1
  refine ⟨chain, ?_, ?_, ?_, ?_⟩
  · intro q hi j
    by_cases hh : j = c
    · subst hh
      rw [parent]
      by_cases ha : q = p
      · subst ha
        rw [update_self]
        exact ⟨fun _ => ⟨live, rfl, not_mem_nil⟩, fun _ => mem_append_right _ (mem_singleton_self _)⟩
      · rw [update_of_ne ha]
        refine ⟨fun hk => absurd hk (ho q hi), fun both => ?_⟩
        exact absurd (Option.some.inj both.2.1).symm ha
    · rw [hp j hh]
      have hd : j ∈ update kids p (kids p ++ [c]) q ↔ j ∈ kids q := by
        by_cases ha : q = p
        · subst ha
          rw [update_self, mem_append, mem_singleton]
          exact or_iff_left hh
        · rw [update_of_ne ha]
      rw [hd]
      exact links.kid q hi j
  · intro j hi none
    by_cases hh : j = c
    · subst hh
      exact nomatch parent.symm.trans none
    · exact hn j hi ((hp j hh).symm.trans none)
  · intro j hi q some
    by_cases hh : j = c
    · subst hh
      exact .inl (Option.some.inj (parent.symm.trans some) ▸ up)
    · exact links.up j hi q ((hp j hh).symm.trans some)
  · intro j hi q he some
    by_cases hh : j = c
    · subst hh
      cases Option.some.inj (parent.symm.trans some)
      exact ⟨(hm j).trans (cmr.trans (key p).symm), (validate_name (name p) (name j)).trans hv⟩
    · obtain ⟨eq, hv⟩ := links.valid j hi q he ((hp j hh).symm.trans some)
      exact ⟨(hm j).trans (eq.trans (key q).symm), (validate_name (name q) (name j)).trans hv⟩

def Reasm.attach (s : Reasm) (p c : Idx) : Reasm :=
  let s := s.link p c
  { s with subtrees := s.subtrees.erase c, subtreel := s.subtreel.erase c, orphaned := c :: s.orphaned }

structure Attached (s s' : Reasm) (p c : Idx) : Prop where
  fecMax : s'.fecMax = s.fecMax
  xidMax : s'.xidMax = s.xidMax
  root : s'.root = s.root
  out : s'.out = s.out
  live : ∀ j, j ∈ s'.live ↔ j ∈ s.live
  conn : ∀ j, s'.Conn j ↔ s.Conn j
  subtrees : ∀ j, j ∈ s'.subtrees ↔ j ≠ c ∧ j ∈ s.subtrees
  ident : ∀ j, (s'.fec j).ident = (s.fec j).ident
  child : ∀ j, j ≠ p → (s'.fec j).child = (s.fec j).child
  parent : (s'.fec c).parent = some p
  parents : ∀ j, j ≠ c → (s'.fec j).parent = (s.fec j).parent

lemma Attached.queue (ha : Attached s s' p c) (hn : c ∉ s.out) (hq : Queued s) : Queued s' := by
  refine hq.keep ha.ident (fun j ht => (ha.conn j).mp ht) (fun j hm q hs => ?_) ha.out
  exact (ha.parents j fun hh => hn (hh ▸ hm)).symm.trans hs

lemma Attached.kept (ha : Attached s s' p c) (up : p ∈ s.live) (hc : (s.fec p).eqvoc = false)
    (hn : c ∉ s.out) : Kept s s' where
  fecMax := ha.fecMax
  xidMax := ha.xidMax
  root := ha.root
  live := fun j hm => (ha.live j).mp hm
  ident := ha.ident
  child := fun j hn => ha.child j fun hh => hn (hh ▸ up)
  parent := by
    intro j _ q hs
    by_cases hh : j = c
    · subst hh
      cases Option.some.inj (ha.parent.symm.trans hs)
      exact .inr hc
    · exact .inl ((ha.parents j hh).symm.trans hs)
  queue := ha.queue hn

lemma mem_update {q : Idx} : j ∈ update kids p (kids p ++ [c]) q ↔ j ∈ kids q ∨ q = p ∧ j = c := by
  by_cases hh : q = p
  · subst hh
    rw [update_self, mem_append, mem_singleton]
    simp
  · rw [update_of_ne hh]
    simp [hh]

lemma Whole.attach (hq : Whole s kids ⟨spare, [], pending, [], none, top, fresh⟩) (up : p ∈ s.live)
    (hj : c ∈ s.subtrees) (hz : s.Conn p ↔ p ∈ pending) (cmr : (s.fec c).cmr = (s.fec p).key)
    (valid : validateChainedBlockId (s.fec p) (s.fec c) = true) :
    Whole (s.attach p c) (update kids p (kids p ++ [c])) ⟨spare, [], pending, [], none, top, fresh⟩ ∧
      Attached s (s.attach p c) p c := by
  have hx := hq.pool
  have hp := hq.places
  have hv := subtrees_live c hj
  obtain ⟨-, -, -, hu, -, conn, ne⟩ := hx.disjoint
  have hn : ¬s.Conn c := fun ht => (conn c ht).2 hj
  have he := (hp.orphan c hv hn).mp hj
  have hl := hq.links.link hx up hv he
  have hk := hl.links hq.links up hv he cmr valid
  obtain ⟨⟨f, eq, hg⟩, -, hf, hc, hi, -⟩ := hl
  unfold Reasm.attach
  rw [eq] at hk hf hc hi ⊢
  have hm : Moved { s with fec := f } { s with
      fec := f
      subtrees := s.subtrees.erase c
      subtreel := s.subtreel.erase c
      orphaned := c :: s.orphaned } := by
    refine ⟨rfl, rfl, rfl, rfl, rfl, fun _ => rfl, ?_⟩
    unfold Reasm.live
    refine (List.Perm.append_right _ perm_middle).trans (perm_middle.symm.trans ?_)
    exact (perm_cons_erase hj).symm.append_left _
  have m : ∀ j, j ∈ Reasm.live { s with
      fec := f
      subtrees := s.subtrees.erase c
      subtreel := s.subtreel.erase c
      orphaned := c :: s.orphaned } ↔ j ∈ s.live := fun j => hm.perm.mem_iff
  have name : ∀ j, (f j).name = (s.fec j).name := fun j => (congrArg name (hg j) :)
  refine ⟨⟨hm.pool (hx.refec name), hm.links hk, ⟨?_, ?_, ?_, ?_, ?_, ?_⟩, ?_, ?_, ?_⟩,
    ⟨rfl, rfl, rfl, rfl, m, fun _ => .rfl, fun _ => hu.mem_erase_iff, fun j => (congrArg ident (hg j) :),
      hi, hf, hc⟩⟩
  · intro q mem hr j kid
    have mem := (m q).mp mem
    rcases mem_update.mp kid with old | ⟨rfl, rfl⟩
    · exact hp.same q mem hr j old
    · exact ⟨fun ht => absurd ht hn, fun ht => absurd (hz.mp ht) hr⟩
  · intro q hw
    obtain ⟨front, hb⟩ := hp.waiting q hw
    refine ⟨front, fun j kid => ?_⟩
    rcases mem_update.mp kid with old | ⟨-, rfl⟩
    · exact .tail _ (hb j old)
    · exact .head _
  · intro j ht
    rcases hp.tops j ht with ⟨q, mem, kid⟩ | ho
    · exact .inl ⟨q, (m q).mpr mem, mem_update.mpr (.inl kid)⟩
    · exact .inr ho
  · intro j ht _
    by_cases hh : j = p
    · subst hh
      have hw := hz.mp ht
      exact ⟨fun _ => .inr hw, fun _ => (hp.waiting j hw).1⟩
    · have hs : (f j).child = (s.fec j).child := hi j hh
      rw [hs]
      exact hp.leaf j ht not_mem_nil
  · intro j mem ha
    have hd : j ∈ s.subtrees.erase c ↔ j ≠ c ∧ j ∈ s.subtrees := hu.mem_erase_iff
    rw [hd]
    by_cases hh : j = c
    · subst hh
      refine ⟨fun both => absurd rfl both.1, fun none => ?_⟩
      exact nomatch hf.symm.trans none
    · have hs : (f j).parent = (s.fec j).parent := hc j hh
      rw [hs, and_iff_right hh]
      exact hp.orphan j ((m j).mp mem) ha
  · refine hp.subtreel.erase.congr fun j => ?_
    exact hu.mem_erase_iff.symm
  · have hy := hq.outs.refec (f := f) fun j => (congrArg inOut (hg j) :)
    exact ⟨hy.nodup, hy.conn, fun j mem => hy.flag j ((m j).mp mem)⟩
  · exact hq.xids.congr rfl (fun j _ => (congrArg listing (hg j) :)) fun j => and_congr_left fun _ => m j
  · exact fun j new => (congrArg xidNext (hg j) :).trans (hq.unlisted j new)

lemma link_maps (s : Reasm) (p c : Idx) (orphaned subtrees subtreel : List Idx) :
    Reasm.link { s with orphaned := orphaned, subtrees := subtrees, subtreel := subtreel } p c =
      { s.link p c with orphaned := orphaned, subtrees := subtrees, subtreel := subtreel } := by
  unfold Reasm.link
  dsimp only
  have hs : Reasm.children (Reasm.set { s with orphaned := orphaned, subtrees := subtrees, subtreel := subtreel } c
      fun f => { f with parent := some p }) p = (s.set c fun f => { f with parent := some p }).children p := rfl
  rw [hs]
  cases ((s.set c fun f => { f with parent := some p }).children p).getLast? <;> rfl

structure Joins (s s' : Reasm) (p c : Idx) : Prop where
  moved : Moved s s'
  conn : ∀ j, s'.Conn j ↔ s.Conn j ∨ j = c
  frontier : ∀ j, j ∈ s'.frontier ↔ j ∈ s.frontier ∧ j ≠ p ∨ j = c
  subtrees : ∀ j, j ∈ s'.subtrees ↔ j ≠ c ∧ j ∈ s.subtrees
  subtreel : Lists s'.subtreel fun j => j ∈ s'.subtrees
  out : s'.out = s.out ++ [c]
  flag : (s'.fec c).inOut = true
  flags : ∀ j, j ≠ c → (s'.fec j).inOut = (s.fec j).inOut

section
variable (hwh : Whole s kids ⟨spare, [], [], [], none, top, fresh⟩)
include hwh

lemma Whole.join (hj : Joins s s' p c) (up : s.Conn p) (tree : c ∈ s.subtrees) (bare : kids c = [])
    (cmr : (s.fec c).cmr = (s.fec p).key) (valid : validateChainedBlockId (s.fec p) (s.fec c) = true) :
    Whole (s'.link p c) (update kids p (kids p ++ [c])) ⟨spare, [], [], [], none, top, fresh⟩ ∧
      Linked s' (s'.link p c) kids p c := by
  have hm := hj.moved
  have pool := hwh.pool
  have hp := hwh.places
  have live := subtrees_live c tree
  have hr : ¬s.Conn c := fun ht => (pool.disjoint.2.2.2.2.2.1 c ht).2 tree
  have m : ∀ j, j ∈ s'.live ↔ j ∈ s.live := fun j => hm.perm.mem_iff
  have he : (s'.fec c).parent = none := (hm.parent c).trans ((hp.orphan c live hr).mp tree)
  have hv : ∀ j, (s'.fec j).cmr = (s.fec j).cmr := fun j => (congrArg Fec.cmr (hm.fec j) :)
  have key : ∀ j, (s'.fec j).key = (s.fec j).key := fun j => (congrArg key (hm.fec j) :)
  have name : ∀ j, (s'.fec j).name = (s.fec j).name := fun j => (congrArg name (hm.fec j) :)
  have hl := (hm.links hwh.links).link (hm.pool pool) ((m p).mpr up.live) ((m c).mpr live) he
  have hk := hl.links (hm.links hwh.links) ((m p).mpr up.live) ((m c).mpr live) he
    ((hv c).trans (cmr.trans (key p).symm)) ((validate_name (name p) (name c)).trans valid)
  refine ⟨?_, hl⟩
  obtain ⟨⟨f, eq, hc⟩, -, parent, hn, child, -⟩ := hl
  have hf : ∀ j, (f j).name = (s'.fec j).name := fun j => (congrArg Fec.name (hc j) :)
  rw [eq] at hk parent hn child ⊢
  have ne : c ≠ p := fun hh => hr (hh ▸ up)
  have hu : c ∉ s.out := fun hz => hr (hwh.outs.conn c hz)
  refine ⟨(hm.pool pool).refec hf, hk, ⟨?_, nofun, ?_, ?_, ?_, hj.subtreel⟩, ⟨?_, ?_, ?_⟩, ?_, ?_⟩
  · intro q hz _ j hx
    have hz := (m q).mp hz
    change s'.Conn j ↔ s'.Conn q
    rw [hj.conn, hj.conn]
    rcases mem_update.mp hx with hg | ⟨rfl, rfl⟩
    · have hb : j ≠ c := by
        rintro rfl
        exact nomatch ((hp.orphan j live hr).mp tree).symm.trans ((hwh.links.kid q hz j).mp hg).2.1
      have ha : q ≠ c := by
        rintro rfl
        rw [bare] at hg
        cases hg
      rw [hp.same q hz not_mem_nil j hg]
      simp [hb, ha]
    · exact ⟨fun _ => .inl up, fun _ => .inr rfl⟩
  · intro j ht
    rcases (hj.conn j).mp ht with ht | rfl
    · rcases hp.tops j ht with ⟨q, hz, hx⟩ | ho
      · exact .inl ⟨q, (m q).mpr hz, mem_update.mpr (.inl hx)⟩
      · exact .inr ho
    · exact .inl ⟨p, (m p).mpr up.live, mem_update.mpr (.inr ⟨rfl, rfl⟩)⟩
  · intro j ht _
    change j ∈ s'.frontier ↔ _
    rw [hj.frontier]
    by_cases hh : j = c
    · subst hh
      have none : (f j).child = none := by
        refine (child j ne).trans ((hm.child j).trans ?_)
        exact (hwh.links.child_none live).mpr bare
      exact ⟨fun _ => .inl none, fun _ => .inr rfl⟩
    · by_cases ha : j = p
      · subst ha
        have some : (f j).child ≠ none := by
          intro none
          have hy := (hk.child_none ((m j).mpr up.live)).mp none
          rw [update_self] at hy
          exact absurd hy (by simp)
        simp [hh, some]
      · have ht := ((hj.conn j).mp ht).resolve_right hh
        have hs : (f j).child = (s.fec j).child := (child j ha).trans (hm.child j)
        rw [hs, ← hp.leaf j ht not_mem_nil]
        simp [hh, ha]
  · intro j hz hw
    change j ∈ s'.subtrees ↔ _
    rw [hj.subtrees]
    have hw : ¬(s.Conn j ∨ j = c) := fun hd => hw ((hj.conn j).mpr hd)
    have hh : j ≠ c := fun eq => hw (.inr eq)
    have hs : (f j).parent = (s.fec j).parent := (hn j hh).trans (hm.parent j)
    rw [hs, and_iff_right hh]
    exact hp.orphan j ((m j).mp hz) fun ht => hw (.inl ht)
  · change s'.out.Nodup
    rw [hj.out]
    refine nodup_append.mpr ⟨hwh.outs.nodup, nodup_singleton c, ?_⟩
    intro a hz b hi eq
    exact hu (mem_singleton.mp hi ▸ eq ▸ hz)
  · intro j hz
    change j ∈ s'.out at hz
    rw [hj.out, mem_append, mem_singleton] at hz
    exact (hj.conn j).mpr (hz.imp_left (hwh.outs.conn j))
  · intro j hz
    have hq : (f j).inOut = (s'.fec j).inOut := (congrArg inOut (hc j) :)
    change (f j).inOut = true ↔ j ∈ s'.out
    rw [hq, hj.out, mem_append, mem_singleton]
    by_cases hh : j = c
    · rw [hh, hj.flag]
      simp
    · rw [hj.flags j hh, hwh.outs.flag j ((m j).mp hz)]
      exact (or_iff_left hh).symm
  · exact (hm.xids hwh.xids).congr rfl (fun j _ => (congrArg listing (hc j) :)) fun _ => .rfl
  · intro j new
    have hs : (f j).xidNext = (s'.fec j).xidNext := (congrArg xidNext (hc j) :)
    exact hs.trans ((congrArg xidNext (hm.fec j) :).trans (hwh.unlisted j new))

lemma Whole.await (hf : i ∈ s.frontier) (hb : kids i = []) : Whole s kids ⟨spare, [], [i], [], none, top, fresh⟩ := by
  have hp := hwh.places
  refine ⟨hwh.pool, hwh.links, ⟨?_, ?_, hp.tops, ?_, hp.orphan, hp.subtreel⟩, hwh.outs, hwh.xids,
    hwh.unlisted⟩
  · exact fun q hm _ => hp.same q hm not_mem_nil
  · intro q hw
    cases mem_singleton.mp hw
    refine ⟨hf, fun c hk => ?_⟩
    rw [hb] at hk
    cases hk
  · intro j hc hs
    rw [hp.leaf j hc hs]
    constructor
    · exact fun he => .inl (he.resolve_right not_mem_nil)
    · rintro (none | hw)
      · exact .inl none
      · cases mem_singleton.mp hw
        exact .inl ((hwh.links.child_none hc.live).mpr hb)

end

structure Grown (s s' : Reasm) (i : Idx) (parent : Option Idx) : Prop where
  fecMax : s'.fecMax = s.fecMax
  xidMax : s'.xidMax = s.xidMax
  root : s'.root = s.root
  live : ∀ j, j ∈ s'.live ↔ j = i ∨ j ∈ s.live
  conn : ∀ j, s'.Conn j ↔ s.Conn j ∨ j = i ∧ ∃ p, parent = some p ∧ s.Conn p
  ident : ∀ j, (s'.fec j).ident = (s.fec j).ident
  child : ∀ j, j ∉ s.live → (s'.fec j).child = (s.fec j).child
  parent : (s'.fec i).parent = parent
  parents : ∀ j, j ≠ i → (s'.fec j).parent = (s.fec j).parent
  queue : Queued s → Queued s'

lemma addTree_grown (hn : (s.fec i).New) : Grown s (s.addTree i) i none where
  fecMax := rfl
  xidMax := rfl
  root := rfl
  live := fun _ => addTree_live
  conn := fun _ => (or_iff_left fun hb => nomatch hb.2.choose_spec.1).symm
  ident := fun _ => rfl
  child := fun _ _ => rfl
  parent := hn.parent
  parents := fun _ _ => rfl
  queue := fun hq => hq.keep (fun _ => rfl) (fun _ ht => ht) (fun _ _ _ some => some) rfl

lemma Joins.grown (hj : Joins (s.addTree i) s' p i) (hl : Linked s' (s'.link p i) kids p i)
    (up : s.Conn p) (hn : i ∉ s.out) (hr : ∀ j ∈ s.out, (s.fec j).parent ≠ some i) :
    Grown s (s'.link p i) i (some p) := by
  have hm := hj.moved
  obtain ⟨⟨f, eq, hc⟩, -, parent, parents, child, -⟩ := hl
  rw [eq] at parent parents child ⊢
  have live : ∀ j, j ∈ s'.live ↔ j = i ∨ j ∈ s.live := fun j => hm.perm.mem_iff.trans addTree_live
  have conn : ∀ j, s'.Conn j ↔ s.Conn j ∨ j = i := hj.conn
  exact {
    fecMax := hm.fecMax
    xidMax := hm.xidMax
    root := hm.root
    live := live
    conn := fun j => (conn j).trans (or_congr_right ⟨fun hh => ⟨hh, p, rfl, up⟩, fun hb => hb.1⟩)
    ident := fun j => (congrArg ident (hc j) :).trans (congrArg ident (hm.fec j) :)
    child := fun j hn => (child j fun hh => hn (hh ▸ up.live)).trans (hm.child j)
    parent := parent
    parents := fun j ne => (parents j ne).trans (hm.parent j)
    queue := by
      intro hq
      refine hq.push (l := [i]) (fun j => (congrArg ident (hc j) :).trans (congrArg ident (hm.fec j) :))
        (fun j ht => ((conn j).mp ht).imp_right mem_singleton.mpr) hj.out ?_ ?_
      · intro j hx q ht some
        have ne : j ≠ i := fun eq => hn (eq ▸ hx)
        have ha := ((parents j ne).trans (hm.parent j)).symm.trans some
        refine ⟨((conn q).mp ht).resolve_right fun eq => ?_, ha⟩
        exact hr j hx (eq ▸ ha)
      · intro j hx q _ some
        rw [mem_singleton.mp hx] at some
        exact Option.some.inj (parent.symm.trans some) ▸ up }

def Reasm.placed (s : Reasm) (i : Idx) : Reasm :=
  match (s.place i).2 with
  | none => (s.place i).1
  | some p => (s.place i).1.link p i

def Placed (s s' : Reasm) (i : Idx) (spare : List Idx) (top parent : Option Idx) : Prop :=
  ∃ kids pending, Whole s' kids ⟨spare, [], pending, [], none, top, some i⟩ ∧ Grown s s' i parent ∧
    (pending = [i] ∧ s'.Conn i ∨ pending = [] ∧ ¬s'.Conn i)

section
variable (hwh : Whole s kids ⟨i :: spare, [], [], [], none, top, none⟩) (new : (s.fec i).New)
  (hi : ∀ j ∈ s.live, (s.fec j).key ≠ (s.fec i).key)
  (hv : ∀ p, s.query (s.fec i).cmr = some p → validateChainedBlockId (s.fec p) (s.fec i) = true)
include hwh

lemma Whole.outside : i ∉ s.out := fun hm => hwh.pool.spare_absent (hwh.outs.conn i hm).live

include new hi hv

lemma Whole.placeJoined (up : s.Conn p) (hf : s.query (s.fec i).cmr = some p) (hj : Joins (s.addTree i) s' p i) :
    Placed s (s'.link p i) i spare top (some p) := by
  have hn := hwh.pool.spare_absent
  have hb : update kids i [] i = [] := update_self _ _ _
  have ho : ∀ j ∈ s.out, (s.fec j).parent ≠ some i := fun j hm hp =>
    hn (hwh.links.parent_mem (hwh.outs.conn j hm).live hp).1
  obtain ⟨hw, hl⟩ := (hwh.addTree new hi).join hj up (.head _) hb (query_some hf).2.symm
    (hv p hf)
  have hg := hj.grown hl up hwh.outside ho
  obtain ⟨⟨f, eq, -⟩, -⟩ := hl
  have ne : i ≠ p := fun eq => hn (eq ▸ up.live)
  have hr : i ∈ (s'.link p i).frontier := by
    rw [eq]
    exact (hj.frontier i).mpr (.inr rfl)
  have he : update (update kids i []) p (update kids i [] p ++ [i]) i = [] := by
    rw [update_of_ne ne, update_self]
  exact ⟨_, [i], hw.await hr he, hg, .inl ⟨rfl, .inr hr⟩⟩

lemma Whole.placeAttached (live : p ∈ s.live) (hw : ¬s.Conn p) (hf : s.query (s.fec i).cmr = some p) :
    Placed s (Reasm.link { s with orphaned := i :: s.orphaned } p i) i spare top (some p) := by
  have hn := hwh.pool.spare_absent
  have hu : i ∉ s.subtreel := fun m => hn (subtrees_live i ((hwh.places.subtreel.mem i).mp m))
  have hs : Reasm.link { s with orphaned := i :: s.orphaned } p i = (s.addTree i).attach p i := by
    unfold Reasm.attach Reasm.addTree
    rw [link_maps s p i (i :: s.orphaned) s.subtrees s.subtreel,
      link_maps s p i s.orphaned (i :: s.subtrees) (s.subtreel ++ [i])]
    dsimp only
    rw [erase_cons_head, erase_append_right _ hu, erase_cons_head, append_nil]
  obtain ⟨ho, ha⟩ := (hwh.addTree new hi).attach (addTree_live.mpr (.inr live)) (.head _)
    ⟨fun ht => absurd ht hw, nofun⟩ (query_some hf).2.symm (hv p hf)
  have hb : ¬s.Conn i := fun ht => hn ht.live
  rw [hs]
  refine ⟨_, [], ho, ?_, .inr ⟨rfl, fun ht => hb ((ha.conn i).mp ht)⟩⟩
  exact {
    fecMax := ha.fecMax
    xidMax := ha.xidMax
    root := ha.root
    live := fun j => (ha.live j).trans addTree_live
    conn := by
      intro j
      rw [ha.conn]
      refine (or_iff_left ?_).symm
      rintro ⟨-, q, eq, up⟩
      exact hw (Option.some.inj eq ▸ up)
    ident := ha.ident
    child := fun j hw => ha.child j fun hh => hw (hh ▸ live)
    parent := ha.parent
    parents := ha.parents
    queue := fun hq => ha.queue hwh.outside ⟨hq.fresh, hq.order⟩ }

lemma Whole.place : (s.place i).2 = s.query (s.fec i).cmr ∧
    Placed s (s.placed i) i spare top (s.query (s.fec i).cmr) := by
  have he := hwh.pool
  have hn := he.spare_absent
  have hu : ∀ j, j ∈ s.subtrees ↔ j ≠ i ∧ j ∈ i :: s.subtrees := by
    intro j
    have ha : j ∈ s.subtrees → j ≠ i := fun m eq => hn (eq ▸ subtrees_live j m)
    rw [mem_cons]
    exact ⟨fun m => ⟨ha m, .inr m⟩, fun hd => hd.2.resolve_left hd.1⟩
  unfold Reasm.placed Reasm.place
  dsimp only
  obtain ⟨-, hj, -, -, split, hg, -⟩ := he.disjoint
  have hq : s.query (s.fec i).cmr = ((s.find s.ancestry (s.fec i).cmr).or (s.find s.frontier (s.fec i).cmr)).or
    ((s.find s.orphaned (s.fec i).cmr).or (s.find s.subtrees (s.fec i).cmr)) := rfl
  have hl : ∀ u : Reasm, ∀ j, { (u.pushOut i).fec j with inOut := false } = { u.fec j with inOut := false } := by
    intro u j
    simp only [Reasm.pushOut, Reasm.set]
    split <;> rfl
  cases hc : s.find s.ancestry (s.fec i).cmr with
  | some p =>
    rw [hc] at hq
    have m := (find_some hc).1
    refine ⟨hq.symm, ?_⟩
    rw [hq]
    refine hwh.placeJoined new hi hv (.inl m) hq ⟨⟨rfl, rfl, rfl, rfl, rfl, hl _, ?_⟩, ?_, ?_, hu, ?_, rfl, ?_, ?_⟩
    · exact ((perm_middle.append_right _).append_right _).trans (addTree_perm s i).symm
    · intro j
      change (j ∈ s.ancestry ∨ j ∈ i :: s.frontier) ↔ (j ∈ s.ancestry ∨ j ∈ s.frontier) ∨ j = i
      rw [mem_cons, or_assoc, or_comm (b := j ∈ s.frontier)]
    · intro j
      change j ∈ i :: s.frontier ↔ j ∈ s.frontier ∧ j ≠ p ∨ j = i
      have hb : j ∈ s.frontier → j ≠ p := fun ho eq => split p m (eq ▸ ho)
      rw [mem_cons, or_comm, and_iff_left_of_imp hb]
    · exact hwh.places.subtreel
    · exact (congrArg inOut (if_pos rfl) :)
    · exact fun j ne => (congrArg inOut (if_neg ne) :)
  | none =>
    rw [hc] at hq
    cases hs : s.find s.frontier (s.fec i).cmr with
    | some p =>
      rw [hs] at hq
      have m := (find_some hs).1
      refine ⟨hq.symm, ?_⟩
      rw [hq]
      refine hwh.placeJoined new hi hv (.inr m) hq ⟨⟨rfl, rfl, rfl, rfl, rfl, hl _, ?_⟩, ?_, ?_, hu, ?_, rfl, ?_, ?_⟩
      · have hp : (p :: s.ancestry ++ i :: s.frontier.erase p).Perm (i :: (s.ancestry ++ s.frontier)) := by
          refine perm_middle.trans (List.Perm.cons i ?_)
          exact perm_middle.symm.trans ((perm_cons_erase m).symm.append_left _)
        exact ((hp.append_right _).append_right _).trans (addTree_perm s i).symm
      · intro j
        change (j ∈ p :: s.ancestry ∨ j ∈ i :: s.frontier.erase p) ↔ (j ∈ s.ancestry ∨ j ∈ s.frontier) ∨ j = i
        rw [mem_cons, mem_cons, hj.mem_erase_iff]
        by_cases hh : j = p
        · subst hh
          simp [m]
        · simp only [hh, ne_eq, not_false_eq_true, true_and, false_or]
          rw [or_assoc, or_comm (b := j ∈ s.frontier)]
      · intro j
        change j ∈ i :: s.frontier.erase p ↔ j ∈ s.frontier ∧ j ≠ p ∨ j = i
        rw [mem_cons, hj.mem_erase_iff, or_comm, and_comm]
      · exact hwh.places.subtreel
      · exact (congrArg inOut (if_pos rfl) :)
      · exact fun j ne => (congrArg inOut (if_neg ne) :)
    | none =>
      rw [hs] at hq
      cases hr : s.find s.orphaned (s.fec i).cmr with
      | some p =>
        rw [hr] at hq
        have m := (find_some hr).1
        refine ⟨hq.symm, ?_⟩
        rw [hq]
        exact hwh.placeAttached new hi hv (orphaned_live p m) (fun ht => (hg p ht).1 m) hq
      | none =>
        rw [hr] at hq
        cases hf : s.find s.subtrees (s.fec i).cmr with
        | some p =>
          rw [hf] at hq
          have m := (find_some hf).1
          refine ⟨hq.symm, ?_⟩
          rw [hq]
          exact hwh.placeAttached new hi hv (subtrees_live p m) (fun ht => (hg p ht).2 m) hq
        | none =>
          rw [hf] at hq
          refine ⟨hq.symm, update kids i [], [], ?_⟩
          rw [hq]
          exact ⟨hwh.addTree new hi, addTree_grown new,
            .inr ⟨rfl, fun ht => hn (Reasm.Conn.live (s := s) ht)⟩⟩

end

end Firebam.Reassembly
