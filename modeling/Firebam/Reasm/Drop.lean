import Firebam.Reasm.Xids

/-! Elements leave the maps, one by one or with the tree below them. -/
namespace Firebam.Reassembly
open Lib List Fec

variable {s s' s'' : Reasm} {i j : Idx} {spare detached detached' pending stale free queue down : List Idx}
  {kids : Idx → List Idx} {top : Option Idx} {t : Todo}

structure Todo where
  spare : List Idx
  detached : List Idx
  pending : List Idx
  stale : List Idx
  keep : Option Idx
  top : Option Idx
  fresh : Option Idx

structure Whole (s : Reasm) (kids : Idx → List Idx) (t : Todo) : Prop where
  pool : Pool s t.spare
  links : Links s kids t.detached t.keep
  places : Places s kids t.detached t.pending t.stale t.top
  outs : Outs s
  xids : Xids s fun j => j ∈ s.live ∧ t.fresh ≠ some j
  unlisted : ∀ j, t.fresh = some j → (s.fec j).xidNext = none

def Fec.ident (f : Fec) : Fec :=
  { f with parent := none, child := none, sibling := none, xidNext := none, inOut := false }

structure Queued (s : Reasm) : Prop where
  fresh : ∀ j, s.Conn j → (s.fec j).popped = false → j ∉ s.out → (s.fec j).eqvoc = true
  order : ∀ j ∈ s.out, ∀ p, s.Conn p → (s.fec j).parent = some p →
    (s.fec p).popped = true ∨ (s.fec p).eqvoc = true ∨ [p, j].Sublist s.out

structure Kept (s s' : Reasm) : Prop where
  fecMax : s'.fecMax = s.fecMax
  xidMax : s'.xidMax = s.xidMax
  root : s'.root = s.root
  live : ∀ j ∈ s'.live, j ∈ s.live
  ident : ∀ j, (s'.fec j).ident = (s.fec j).ident
  child : ∀ j, j ∉ s.live → (s'.fec j).child = (s.fec j).child
  parent : ∀ c ∈ s'.live, ∀ p, (s'.fec c).parent = some p → (s.fec c).parent = some p ∨ (s.fec p).eqvoc = false
  queue : Queued s → Queued s'

structure Shrinks (s s' : Reasm) : Prop where
  kept : Kept s s'
  parent : ∀ j, (s'.fec j).parent = (s.fec j).parent
  child : ∀ j, (s'.fec j).child = (s.fec j).child
  conn : ∀ j ∈ s'.live, (s'.Conn j ↔ s.Conn j)
  frontier : ∀ j ∈ s'.live, (j ∈ s'.frontier ↔ j ∈ s.frontier)
  subtrees : ∀ j ∈ s'.live, (j ∈ s'.subtrees ↔ j ∈ s.subtrees)

section
variable (hd : Queued s) (hi : ∀ j, (s'.fec j).ident = (s.fec j).ident)
include hi

lemma popped_eq (j : Idx) : (s'.fec j).popped = (s.fec j).popped := (congrArg popped (hi j) :)

lemma eqvoc_eq (j : Idx) : (s'.fec j).eqvoc = (s.fec j).eqvoc := (congrArg eqvoc (hi j) :)

include hd

lemma Queued.keep (hc : ∀ j, s'.Conn j → s.Conn j)
    (hp : ∀ j ∈ s.out, ∀ p, (s'.fec j).parent = some p → (s.fec j).parent = some p) (ho : s'.out = s.out) :
    Queued s' := by
  refine ⟨fun j ht => ?_, fun j hx p up ha => ?_⟩
  · rw [popped_eq hi, eqvoc_eq hi, ho]
    exact hd.fresh j (hc j ht)
  · rw [ho] at hx ⊢
    rw [popped_eq hi, eqvoc_eq hi]
    exact hd.order j hx p (hc p up) (hp j hx p ha)

lemma Queued.erase (hc : ∀ j, s'.Conn j → s.Conn j ∧ j ≠ i)
    (hr : ∀ j ∈ s.out, ∀ p, (s'.fec j).parent = some p → (s.fec j).parent = some p) (nd : s.out.Nodup)
    (hu : s'.out = s.out.erase i) : Queued s' := by
  refine ⟨fun j ht => ?_, fun j hx p up ha => ?_⟩
  · obtain ⟨ht, ne⟩ := hc j ht
    rw [popped_eq hi, eqvoc_eq hi, hu, mem_erase_of_ne ne]
    exact hd.fresh j ht
  · rw [hu] at hx ⊢
    obtain ⟨hp, hx⟩ := nd.mem_erase_iff.mp hx
    obtain ⟨up, ne⟩ := hc p up
    rw [popped_eq hi, eqvoc_eq hi]
    refine (hd.order j hx p up (hr j hx p ha)).imp_right (Or.imp_right fun hb => ?_)
    have ho : [p, j].erase i = [p, j] := erase_of_not_mem (by simp [ne.symm, hp.symm])
    exact ho ▸ hb.erase i

lemma Queued.push {l : List Idx} (hc : ∀ j, s'.Conn j → s.Conn j ∨ j ∈ l) (ho : s'.out = s.out ++ l)
    (hl : ∀ j ∈ s.out, ∀ p, s'.Conn p → (s'.fec j).parent = some p → s.Conn p ∧ (s.fec j).parent = some p)
    (he : ∀ j ∈ l, ∀ p, s'.Conn p → (s'.fec j).parent = some p → s.Conn p) : Queued s' := by
  refine ⟨fun j ht => ?_, fun j hx p up ha => ?_⟩
  · rw [popped_eq hi, eqvoc_eq hi, ho, mem_append, not_or]
    rintro hu ⟨hn, ne⟩
    exact hd.fresh j ((hc j ht).resolve_right ne) hu hn
  · rw [popped_eq hi, eqvoc_eq hi, ho]
    rw [ho] at hx
    rcases mem_append.mp hx with hx | hx
    · obtain ⟨up, ha⟩ := hl j hx p up ha
      refine (hd.order j hx p up ha).imp_right (Or.imp_right fun hb => ?_)
      exact hb.trans (sublist_append_left _ _)
    · have up := he j hx p up ha
      by_cases hu : (s.fec p).popped = false
      · by_cases hq : p ∈ s.out
        · exact .inr (.inr ((singleton_sublist.mpr hq).append (singleton_sublist.mpr hx)))
        · exact .inr (.inl (hd.fresh p up hu hq))
      · exact .inl (Bool.not_eq_false _ ▸ hu)

end

lemma Kept.refl (s : Reasm) : Kept s s where
  fecMax := rfl
  xidMax := rfl
  root := rfl
  live := fun _ hx => hx
  ident := fun _ => rfl
  child := fun _ _ => rfl
  parent := fun _ _ _ some => .inl some
  queue := id

lemma Kept.trans (hf : Kept s s') (hs : Kept s' s'') : Kept s s'' where
  fecMax := hs.fecMax.trans hf.fecMax
  xidMax := hs.xidMax.trans hf.xidMax
  root := hs.root.trans hf.root
  live := fun j hx => hf.live j (hs.live j hx)
  ident := fun j => (hs.ident j).trans (hf.ident j)
  child := fun j hn => (hs.child j fun hx => hn (hf.live j hx)).trans (hf.child j hn)
  parent := by
    intro c hx p some
    rcases hs.parent c hx p some with hb | hc
    · exact hf.parent c (hs.live c hx) p hb
    · have eqvoc : (s'.fec p).eqvoc = (s.fec p).eqvoc := (congrArg eqvoc (hf.ident p) :)
      exact .inr (eqvoc.symm.trans hc)
  queue := hs.queue ∘ hf.queue

lemma Shrinks.refl (s : Reasm) : Shrinks s s :=
  ⟨.refl s, fun _ => rfl, fun _ => rfl, fun _ _ => .rfl, fun _ _ => .rfl, fun _ _ => .rfl⟩

lemma Shrinks.trans (hf : Shrinks s s') (hs : Shrinks s' s'') : Shrinks s s'' where
  kept := hf.kept.trans hs.kept
  parent := fun j => (hs.parent j).trans (hf.parent j)
  child := fun j => (hs.child j).trans (hf.child j)
  conn := fun j hx => (hs.conn j hx).trans (hf.conn j (hs.kept.live j hx))
  frontier := fun j hx => (hs.frontier j hx).trans (hf.frontier j (hs.kept.live j hx))
  subtrees := fun j hx => (hs.subtrees j hx).trans (hf.subtrees j (hs.kept.live j hx))

lemma Relisted.shrinks (hr : Relisted s s') : Shrinks s s' := by
  obtain ⟨f, x, rfl, hs⟩ := hr
  have parent : ∀ j, (f j).parent = (s.fec j).parent := fun j => (congrArg parent (hs j) :)
  have child : ∀ j, (f j).child = (s.fec j).child := fun j => (congrArg child (hs j) :)
  refine ⟨?_, parent, child, fun _ _ => .rfl, fun _ _ => .rfl, fun _ _ => .rfl⟩
  exact {
    fecMax := rfl
    xidMax := rfl
    root := rfl
    live := fun _ hx => hx
    ident := fun j => (congrArg ident (hs j) :)
    child := fun j _ => child j
    parent := fun c _ p ho => .inl ((parent c).symm.trans ho)
    queue := fun hq => hq.keep (fun j => (congrArg ident (hs j) :)) (fun _ hc => hc)
      (fun j _ p ho => (parent j).symm.trans ho) rfl }

section

structure Moved (s s' : Reasm) : Prop where
  fecMax : s'.fecMax = s.fecMax
  xidMax : s'.xidMax = s.xidMax
  root : s'.root = s.root
  free : s'.free = s.free
  xid : s'.xid = s.xid
  fec : ∀ j, { s'.fec j with inOut := false } = { s.fec j with inOut := false }
  perm : s'.live.Perm s.live

variable {keep : Option Idx}

variable (hm : Moved s s')
include hm

lemma Moved.parent (j : Idx) : (s'.fec j).parent = (s.fec j).parent :=
  (congrArg Fec.parent (hm.fec j) :)

lemma Moved.child (j : Idx) : (s'.fec j).child = (s.fec j).child :=
  (congrArg Fec.child (hm.fec j) :)

lemma Moved.name (j : Idx) : (s'.fec j).name = (s.fec j).name :=
  (congrArg Fec.name (hm.fec j) :)

lemma Moved.pool (pool : Pool s spare) : Pool s' spare :=
  .congr hm.name pool hm.perm hm.free hm.fecMax

lemma Moved.links (links : Links s kids detached keep) : Links s' kids detached keep :=
  .congr hm.name links (fun _ => hm.perm.mem_iff) hm.parent hm.child
    fun j => (congrArg sibling (hm.fec j) :)

lemma Moved.xids {fresh : Option Idx} (xids : Xids s fun j => j ∈ s.live ∧ fresh ≠ some j) :
    Xids s' fun j => j ∈ s'.live ∧ fresh ≠ some j := by
  exact xids.congr hm.xid (fun j _ => (congrArg listing (hm.fec j) :)) fun j => and_congr_left fun _ => hm.perm.mem_iff

lemma Moved.kept (queue : Queued s → Queued s') : Kept s s' where
  fecMax := hm.fecMax
  xidMax := hm.xidMax
  root := hm.root
  live := fun _ hx => hm.perm.mem_iff.mp hx
  ident := fun j => (congrArg ident (hm.fec j) :)
  child := fun j _ => hm.child j
  parent := fun c _ _ some => .inl ((hm.parent c).symm.trans some)
  queue := queue

end

section

def Reasm.drop (s : Reasm) (i : Idx) : Reasm :=
  { s.set i fun f => { f with inOut := false } with
    ancestry := s.ancestry.erase i
    frontier := s.frontier.erase i
    orphaned := s.orphaned.erase i
    subtrees := s.subtrees.erase i
    subtreel := s.subtreel.erase i
    out := s.out.erase i }

variable {keep : Option Idx}

lemma drop_fec (s : Reasm) (i j : Idx) :
    { (s.drop i).fec j with inOut := false } = { s.fec j with inOut := false } := by
  simp only [Reasm.drop, Reasm.set]
  split <;> rfl

lemma drop_fec_of_ne (ne : j ≠ i) : (s.drop i).fec j = s.fec j := if_neg ne

lemma drop_parent (s : Reasm) (i j : Idx) : ((s.drop i).fec j).parent = (s.fec j).parent :=
  (congrArg parent (drop_fec s i j) :)

lemma drop_child (s : Reasm) (i j : Idx) : ((s.drop i).fec j).child = (s.fec j).child :=
  (congrArg child (drop_fec s i j) :)

section
variable (hpo : Pool s spare)
include hpo

lemma Pool.drop_mem (i j : Idx) :
    (j ∈ (s.drop i).ancestry ↔ j ≠ i ∧ j ∈ s.ancestry) ∧ (j ∈ (s.drop i).frontier ↔ j ≠ i ∧ j ∈ s.frontier) ∧
    (j ∈ (s.drop i).orphaned ↔ j ≠ i ∧ j ∈ s.orphaned) ∧ (j ∈ (s.drop i).subtrees ↔ j ≠ i ∧ j ∈ s.subtrees) := by
  obtain ⟨ha, hf, ho, hs, -⟩ := hpo.disjoint
  exact ⟨ha.mem_erase_iff, hf.mem_erase_iff, ho.mem_erase_iff, hs.mem_erase_iff⟩

lemma Pool.drop_live : j ∈ (s.drop i).live ↔ j ∈ s.live ∧ j ≠ i := by
  obtain ⟨a, f, o, t⟩ := hpo.drop_mem i j
  rw [mem_live, mem_live, a, f, o, t, ← and_or_left, ← and_or_left, ← and_or_left]
  exact and_comm

lemma Pool.drop_conn : (s.drop i).Conn j ↔ s.Conn j ∧ j ≠ i := by
  obtain ⟨a, f, -⟩ := hpo.drop_mem i j
  unfold Reasm.Conn
  rw [a, f, ← and_or_left]
  exact and_comm

lemma Pool.drop_perm (hl : i ∈ s.live) : (i :: (s.drop i).live).Perm s.live := by
  have hp : (s.drop i).live.Sublist s.live :=
    ((erase_sublist.append erase_sublist).append erase_sublist).append erase_sublist
  refine (perm_ext_iff_of_nodup ?_ hpo.live_nodup).mpr fun j => ?_
  · exact nodup_cons.mpr ⟨fun ha => (hpo.drop_live.mp ha).2 rfl, hpo.live_nodup.sublist hp⟩
  · rw [mem_cons, hpo.drop_live]
    by_cases hh : j = i
    · simp [hh, hl]
    · simp [hh]

lemma Pool.drop (hl : i ∈ s.live) : Pool (s.drop i) (i :: spare) := by
  have hp : ((s.drop i).live ++ (s.drop i).free ++ (i :: spare)).Perm (s.live ++ s.free ++ spare) := by
    refine perm_middle.trans ?_
    exact ((hpo.drop_perm hl).append_right _).append_right _
  refine ⟨hp.nodup_iff.mpr hpo.nodup, fun j => (hpo.all j).trans hp.mem_iff.symm, ?_, ?_⟩
  · intro j hx k hm eq
    obtain ⟨hx, ne⟩ := hpo.drop_live.mp hx
    obtain ⟨hm, ho⟩ := hpo.drop_live.mp hm
    rw [drop_fec_of_ne ne, drop_fec_of_ne ho] at eq
    exact hpo.keys j hx k hm eq
  · intro j hx
    obtain ⟨hx, ne⟩ := hpo.drop_live.mp hx
    rw [drop_fec_of_ne ne]
    exact hpo.sane j hx

end

/-- Who is detached when the element is gone: its children, but for the one to keep. -/
structure Handed (s : Reasm) (kids : Idx → List Idx) (i : Idx) (detached detached' : List Idx) (keep top : Option Idx) :
    Prop where
  old : ∀ c ∈ s.live, c ≠ i → c ∈ detached → c ∈ detached'
  new : ∀ c ∈ kids i, c ∈ detached' ∨ keep = some c ∧ top = some c
  only : ∀ c ∈ detached', c ∈ detached ∨ c ∈ kids i

lemma Links.drop (hi : Links s kids detached keep) (pool : Pool s spare) (hl : i ∈ s.live)
    (hs : ∀ p ∈ s.live, i ∉ kids p) (hd : Handed s kids i detached detached' keep top) :
    Links (s.drop i) kids detached' keep := by
  refine ⟨?_, ?_, ?_, ?_, ?_⟩
  · intro p hx
    obtain ⟨hx, ne⟩ := pool.drop_live.mp hx
    rw [drop_child]
    exact (hi.chain p hx).congr fun j _ => (congrArg sibling (drop_fec s i j) :)
  · intro p hx c
    obtain ⟨hx, ne⟩ := pool.drop_live.mp hx
    rw [hi.kid p hx c, drop_parent, pool.drop_live]
    constructor
    · rintro ⟨m, parent, ha⟩
      have kid := (hi.kid p hx c).mpr ⟨m, parent, ha⟩
      refine ⟨⟨m, fun eq => hs p hx (eq ▸ kid)⟩, parent, fun hg => ?_⟩
      rcases hd.only c hg with hb | kid'
      · exact ha hb
      · exact ne (Option.some.inj (parent.symm.trans ((hi.kid i hl c).mp kid').2.1))
    · rintro ⟨⟨m, hp⟩, parent, ha⟩
      exact ⟨m, parent, fun hb => ha (hd.old c m hp hb)⟩
  · intro c hx none
    have sibling : ((s.drop i).fec c).sibling = (s.fec c).sibling := (congrArg sibling (drop_fec s i c) :)
    rw [drop_parent] at none
    rw [sibling]
    exact hi.alone c (pool.drop_live.mp hx).1 none
  · intro c hx p some
    obtain ⟨m, hp⟩ := pool.drop_live.mp hx
    rw [drop_parent] at some
    rw [pool.drop_live]
    by_cases ha : c ∈ detached
    · exact .inr (.inl (hd.old c m hp ha))
    · by_cases hh : p = i
      · subst hh
        have kid := (hi.kid p hl c).mpr ⟨m, some, ha⟩
        exact .inr ((hd.new c kid).imp id And.left)
      · rcases hi.up c m p some with up | hb | hk
        · exact .inl ⟨up, hh⟩
        · exact absurd hb ha
        · exact .inr (.inr hk)
  · intro c hx p mem' some
    obtain ⟨m, hp⟩ := pool.drop_live.mp hx
    obtain ⟨inside', apart'⟩ := pool.drop_live.mp mem'
    rw [drop_fec_of_ne hp] at some ⊢
    rw [drop_fec_of_ne apart']
    exact hi.valid c m p inside' some

lemma Places.drop (hp : Places s kids detached pending stale top) (he : Pool s spare)
    (hs : ∀ p ∈ s.live, i ∉ kids p) (hg : i ∉ pending) (hd : Handed s kids i detached detached' keep top) :
    Places (s.drop i) kids detached' pending stale top := by
  refine ⟨?_, ?_, ?_, ?_, ?_, ?_⟩
  · intro p hx hr c hi
    obtain ⟨hx, ne⟩ := he.drop_live.mp hx
    have ha : c ≠ i := fun eq => hs p hx (eq ▸ hi)
    rw [he.drop_conn, he.drop_conn, hp.same p hx hr c hi]
    simp [ha, ne]
  · intro p hw
    obtain ⟨ht, hb⟩ := hp.waiting p hw
    have ne : p ≠ i := fun eq => hg (eq ▸ hw)
    refine ⟨(he.drop_mem i p).2.1.mpr ⟨ne, ht⟩, fun c hi => ?_⟩
    have ha : c ≠ i := fun eq => hs p (frontier_live p ht) (eq ▸ hi)
    exact (he.drop_mem i c).2.2.1.mpr ⟨ha, hb c hi⟩
  · intro c hc
    obtain ⟨hc, ha⟩ := he.drop_conn.mp hc
    rcases hp.tops c hc with ⟨p, hx, hi⟩ | top | hl
    · by_cases hh : p = i
      · rcases hd.new c (hh ▸ hi) with hl | hk
        · exact .inr (.inr hl)
        · exact .inr (.inl hk.2)
      · exact .inl ⟨p, he.drop_live.mpr ⟨hx, hh⟩, hi⟩
    · exact .inr (.inl top)
    · exact .inr (.inr (hd.old c hc.live ha hl))
  · intro j hc hf
    obtain ⟨hc, ha⟩ := he.drop_conn.mp hc
    rw [drop_child, ← hp.leaf j hc hf, (he.drop_mem i j).2.1]
    exact and_iff_right ha
  · intro j hx ho
    obtain ⟨m, ha⟩ := he.drop_live.mp hx
    have ho : ¬s.Conn j := fun hc => ho (he.drop_conn.mpr ⟨hc, ha⟩)
    rw [drop_parent, ← hp.orphan j m ho, (he.drop_mem i j).2.2.2]
    exact and_iff_right ha
  · exact hp.subtreel.erase.congr fun j => (he.drop_mem i j).2.2.2.symm

lemma Outs.drop (ho : Outs s) (hp : Pool s spare) : Outs (s.drop i) := by
  refine ⟨ho.nodup.erase i, ?_, ?_⟩
  · intro j hx
    obtain ⟨ne, m⟩ := ho.nodup.mem_erase_iff.mp hx
    exact hp.drop_conn.mpr ⟨ho.conn j m, ne⟩
  · intro j hx
    obtain ⟨m, ne⟩ := hp.drop_live.mp hx
    have hu : j ∈ (s.drop i).out ↔ j ≠ i ∧ j ∈ s.out := ho.nodup.mem_erase_iff
    rw [drop_fec_of_ne ne, hu, ho.flag j m]
    exact (and_iff_right ne).symm

lemma Pool.drop_shrinks (hp : Pool s spare) (ho : Outs s) : Shrinks s (s.drop i) := by
  refine ⟨?_, drop_parent s i, drop_child s i, ?_, ?_, ?_⟩
  · exact {
      fecMax := rfl
      xidMax := rfl
      root := rfl
      live := fun j hx => (hp.drop_live.mp hx).1
      ident := fun j => (congrArg ident (drop_fec s i j) :)
      child := fun j _ => drop_child s i j
      parent := fun c _ p hs => .inl ((drop_parent s i c).symm.trans hs)
      queue := fun hq => hq.erase (fun j => (congrArg ident (drop_fec s i j) :))
        (fun _ hc => hp.drop_conn.mp hc) (fun j _ p hs => (drop_parent s i j).symm.trans hs) ho.nodup rfl }
  · intro j hx
    rw [hp.drop_conn]
    exact and_iff_left (hp.drop_live.mp hx).2
  · intro j hx
    rw [(hp.drop_mem i j).2.1]
    exact and_iff_right (hp.drop_live.mp hx).2
  · intro j hx
    rw [(hp.drop_mem i j).2.2.2]
    exact and_iff_right (hp.drop_live.mp hx).2

end

lemma Whole.leaveMap (hw : Whole s kids t) (hl : i ∈ s.live) : s.leaveMap i = { s with
      ancestry := s.ancestry.erase i
      frontier := s.frontier.erase i
      orphaned := s.orphaned.erase i
      subtrees := s.subtrees.erase i
      subtreel := s.subtreel.erase i } := by
  have hp := hw.pool
  obtain ⟨-, -, -, -, hs, hc, ho⟩ := hp.disjoint
  have hi := hw.places.subtreel.mem i
  unfold Reasm.leaveMap
  dsimp only
  by_cases a : i ∈ s.ancestry
  · rw [hp.find_mem ancestry_live a]
    obtain ⟨o, t⟩ := hc i (.inl a)
    rw [erase_of_not_mem (hs i a), erase_of_not_mem o, erase_of_not_mem t,
      erase_of_not_mem fun hx => t (hi.mp hx)]
  · rw [hp.find_not_mem ancestry_live hl a, erase_of_not_mem a]
    by_cases f : i ∈ s.frontier
    · rw [hp.find_mem frontier_live f]
      obtain ⟨o, t⟩ := hc i (.inr f)
      rw [erase_of_not_mem o, erase_of_not_mem t, erase_of_not_mem fun hx => t (hi.mp hx)]
    · rw [hp.find_not_mem frontier_live hl f, erase_of_not_mem f]
      by_cases o : i ∈ s.orphaned
      · rw [hp.find_mem orphaned_live o]
        have t := ho i o
        rw [erase_of_not_mem t, erase_of_not_mem fun hx => t (hi.mp hx)]
      · rw [hp.find_not_mem orphaned_live hl o, erase_of_not_mem o]

lemma Whole.leaveTree (hw : Whole s kids t) (hc : s.Conn i) : s.leaveTree i = s.leaveMap i := by
  have hp := hw.pool
  unfold Reasm.leaveTree Reasm.leaveMap
  dsimp only
  by_cases a : i ∈ s.ancestry
  · rw [hp.find_mem ancestry_live a]
  · rw [hp.find_not_mem ancestry_live hc.live a]
    have f := hc.resolve_left a
    rw [hp.find_mem frontier_live f]

lemma leaveOut_eq (hf : (s.fec i).inOut = true ↔ i ∈ s.out) :
    s.leaveOut i = { s.set i fun f => { f with inOut := false } with out := s.out.erase i } := by
  unfold Reasm.leaveOut
  split_ifs with ho
  · rfl
  · have hn : i ∉ s.out := fun hx => ho (hf.mpr hx)
    have hs : s.set i (fun f => { f with inOut := false }) = s := by
      have fec : (s.set i fun f => { f with inOut := false }).fec = s.fec := by
        funext j
        simp only [Reasm.set]
        split_ifs with hh
        · subst hh
          have ho := Bool.eq_false_iff.mpr ho
          rw [← ho]
        · rfl
      exact congrArg (fun f => { s with fec := f }) fec
    rw [erase_of_not_mem hn, hs]

lemma Whole.leave (hw : Whole s kids t) (hl : i ∈ s.live) : (s.leaveMap i).leaveOut i = s.drop i := by
  rw [hw.leaveMap hl, leaveOut_eq]
  · rfl
  · exact hw.outs.flag i hl

lemma Whole.dropped (hw : Whole s kids t) (hl : i ∈ s.live) (hi : ∀ p ∈ s.live, i ∉ kids p)
    (hd : i ∉ t.pending) (hh : Handed s kids i t.detached detached t.keep t.top)
    (hr : Relisted (s.drop i) s') (xids : Xids s' fun j => (j ∈ s.live ∧ t.fresh ≠ some j) ∧ j ≠ i)
    (ho : ∀ j, ¬(j ∈ s.live ∧ t.fresh ≠ some j) → (s'.fec j).xidNext = (s.fec j).xidNext) :
    Whole s' kids { t with spare := i :: t.spare, detached := detached } ∧ Shrinks s s' ∧
      ∀ j, j ∈ s'.live ↔ j ∈ s.live ∧ j ≠ i := by
  have ht := hr.still
  have hs : s'.live = (s.drop i).live := by
    obtain ⟨f, x, rfl, -⟩ := hr
    rfl
  have hx : ∀ j, j ∈ s'.live ↔ j ∈ s.live ∧ j ≠ i := fun j => by rw [hs, hw.pool.drop_live]
  refine ⟨?_, (hw.pool.drop_shrinks hw.outs).trans hr.shrinks, hx⟩
  exact {
    pool := ht.pool (hw.pool.drop hl)
    links := ht.links (hw.links.drop hw.pool hl hi hh)
    places := ht.places (hw.places.drop hw.pool hi hd hh)
    outs := ht.outs (hw.outs.drop hw.pool)
    xids := xids.congr rfl (fun _ _ => rfl) fun j => by rw [hx j, and_right_comm]
    unlisted := fun j hf => (ho j fun hb => hb.2 hf).trans (hw.unlisted j hf) }

lemma drop_xids {listed : Idx → Prop} (hx : Xids s listed) : Xids (s.drop i) listed := by
  exact hx.congr rfl (fun j _ => (congrArg listing (drop_fec s i j) :)) fun _ => .rfl

lemma Whole.clear (hw : Whole s kids t) (hl : i ∈ s.live) (hs : ∀ p ∈ s.live, i ∉ kids p)
    (hd : i ∉ t.pending) (hi : t.fresh ≠ some i) (hh : Handed s kids i t.detached detached t.keep t.top) :
    ∃ s', (s.drop i).clearXid i = .ok s' ∧ Whole s' kids { t with spare := i :: t.spare, detached := detached } ∧
      Shrinks s s' ∧ ∀ j, j ∈ s'.live ↔ j ∈ s.live ∧ j ≠ i := by
  obtain ⟨s', h, hr, ho, hx⟩ :=
    clearXid_ok (drop_xids hw.xids) ⟨hl, hi⟩ fun j hy => hw.pool.lt hy.1
  refine ⟨s', h, hw.dropped hl hs hd hh hr hx fun j hu => ?_⟩
  exact (ho j hu).trans (congrArg xidNext (drop_fec s i j) :)

lemma Whole.refree (hw : Whole s kids t) (hp : (free ++ spare).Perm (s.free ++ t.spare)) :
    Whole { s with free := free } kids { t with spare := spare } := by
  have pool := hw.pool
  have all : (s.live ++ free ++ spare).Perm (s.live ++ s.free ++ t.spare) := by
    rw [append_assoc, append_assoc]
    exact hp.append_left _
  exact {
    pool := ⟨all.nodup_iff.mpr pool.nodup, fun j => (pool.all j).trans all.mem_iff.symm, pool.keys, pool.sane⟩
    links := ⟨hw.links.chain, hw.links.kid, hw.links.alone, hw.links.up, hw.links.valid⟩
    places := ⟨hw.places.same, hw.places.waiting, hw.places.tops, hw.places.leaf, hw.places.orphan,
      hw.places.subtreel⟩
    outs := ⟨hw.outs.nodup, hw.outs.conn, hw.outs.flag⟩
    xids := ⟨hw.xids.distinct, hw.xids.entry, hw.xids.present⟩
    unlisted := hw.unlisted }

lemma Kept.refree (hk : Kept s s') (free : List Idx) : Kept s { s' with free := free } :=
  ⟨hk.fecMax, hk.xidMax, hk.root, hk.live, hk.ident, hk.child, hk.parent,
    fun hq => ⟨(hk.queue hq).fresh, (hk.queue hq).order⟩⟩

lemma Shrinks.refree (hs : Shrinks s s') (free : List Idx) : Shrinks s { s' with free := free } :=
  ⟨hs.kept.refree free, hs.parent, hs.child, hs.conn, hs.frontier, hs.subtrees⟩

lemma Whole.drop_orphaned (hw : Whole s kids t) (hx : i ∈ s.orphaned) :
    s.drop i = { s with orphaned := s.orphaned.erase i } := by
  have hp := hw.pool
  have hl := orphaned_live i hx
  have ho : ¬s.Conn i := fun hc => (hp.disjoint.2.2.2.2.2.1 i hc).1 hx
  rw [← hw.leave hl]
  have he : s.leaveMap i = { s with orphaned := s.orphaned.erase i } := by
    unfold Reasm.leaveMap
    dsimp only
    rw [hp.find_not_mem ancestry_live hl fun a => ho (.inl a),
      hp.find_not_mem frontier_live hl fun f => ho (.inr f), hp.find_mem orphaned_live hx]
  rw [he]
  exact if_neg fun on => ho (hw.outs.conn i ((hw.outs.flag i hl).mp on))

lemma Whole.drop_subtrees (hw : Whole s kids t) (hx : i ∈ s.subtrees) :
    s.drop i = { s with subtrees := s.subtrees.erase i, subtreel := s.subtreel.erase i } := by
  have hp := hw.pool
  have hl := subtrees_live i hx
  have ho : ¬s.Conn i := fun hc => (hp.disjoint.2.2.2.2.2.1 i hc).2 hx
  rw [← hw.leave hl]
  have he : s.leaveMap i = { s with subtrees := s.subtrees.erase i, subtreel := s.subtreel.erase i } := by
    unfold Reasm.leaveMap
    dsimp only
    rw [hp.find_not_mem ancestry_live hl fun a => ho (.inl a),
      hp.find_not_mem frontier_live hl fun f => ho (.inr f),
      hp.find_not_mem orphaned_live hl fun o => hp.disjoint.2.2.2.2.2.2 i o hx]
  rw [he]
  exact if_neg fun on => ho (hw.outs.conn i ((hw.outs.flag i hl).mp on))

lemma orphan_cases (hl : i ∈ s.live) (hr : ¬s.Conn i) : i ∈ s.orphaned ∨ i ∈ s.subtrees := by
  rcases mem_live.mp hl with hx | hx | ho
  · exact absurd (.inl hx) hr
  · exact absurd (.inr hx) hr
  · exact ho

section
variable (hwh : Whole s kids t)
include hwh

lemma Whole.dropOrphan (hl : i ∈ s.live) (ho : ¬s.Conn i) (hi : ∀ p ∈ s.live, i ∉ kids p)
    (hd : t.fresh ≠ some i) (hh : Handed s kids i t.detached detached t.keep t.top) :
    ∃ s', s.dropOrphan i = .ok s' ∧ Whole s' kids { t with detached := detached } ∧ Shrinks s s' ∧
      ∀ j, j ∈ s'.live ↔ j ∈ s.live ∧ j ≠ i := by
  have hp := hwh.pool
  have he : i ∉ t.pending := fun hw => ho (.inr (hwh.places.waiting i hw).1)
  obtain ⟨s', h, ha, hs, hx⟩ := hwh.clear hl hi he hd hh
  refine ⟨{ s' with free := i :: s'.free }, ?_, ?_, hs.refree _, hx⟩
  · unfold Reasm.dropOrphan
    dsimp only
    rcases orphan_cases hl ho with o | t
    · rw [hwh.drop_orphaned o] at h
      rw [hp.find_not_mem subtrees_live hl (hp.disjoint.2.2.2.2.2.2 i o), if_neg nofun,
        hp.find_mem orphaned_live o, check_of _ rfl]
      exact bind_ok.mpr ⟨_, rfl, bind_ok.mpr ⟨_, h, rfl⟩⟩
    · rw [hwh.drop_subtrees t] at h
      rw [hp.find_mem subtrees_live t, if_pos rfl]
      exact bind_ok.mpr ⟨_, rfl, bind_ok.mpr ⟨_, h, rfl⟩⟩
  · exact ha.refree perm_middle.symm

lemma Whole.next (hq : t.detached = i :: queue) (nd : (i :: queue).Nodup) (m : ∀ j ∈ i :: queue, j ∈ s.live)
    (hp : down.Sublist (kids i)) (hc : ∀ c ∈ kids i, c ∈ down ∨ t.keep = some c ∧ t.top = some c) :
    (∀ p ∈ s.live, i ∉ kids p) ∧ Handed s kids i t.detached (queue ++ down) t.keep t.top ∧
      (queue ++ down).Nodup ∧ ∀ j ∈ queue ++ down, j ∈ s.live ∧ j ≠ i := by
  have hl := m i (.head _)
  have hk := hwh.links
  rw [hq] at hk ⊢
  have hs : ∀ p ∈ s.live, i ∉ kids p := fun p hx hi => ((hk.kid p hx i).mp hi).2.2 (.head _)
  have hi : ∀ c ∈ down, c ∈ s.live ∧ c ∉ i :: queue := fun c hx =>
    have hi := (hk.kid i hl c).mp (hp.subset hx)
    ⟨hi.1, hi.2.2⟩
  obtain ⟨ho, hr⟩ := nodup_cons.mp nd
  refine ⟨hs, ⟨?_, ?_, ?_⟩, ?_, ?_⟩
  · intro c _ ne hx
    exact mem_append_left _ ((mem_cons.mp hx).resolve_left ne)
  · intro c hx
    exact (hc c hx).imp (mem_append_right _) id
  · intro c hx
    rcases mem_append.mp hx with hx | hx
    · exact .inl (.tail _ hx)
    · exact .inr (hp.subset hx)
  · refine nodup_append.mpr ⟨hr, (hk.chain i hl).nodup.sublist hp, ?_⟩
    intro a hx b hm eq
    exact (hi b hm).2 (eq ▸ .tail _ hx)
  · intro j hx
    rcases mem_append.mp hx with hx | hx
    · exact ⟨m j (.tail _ hx), fun eq => ho (eq ▸ hx)⟩
    · exact ⟨(hi j hx).1, fun eq => (hi j hx).2 (eq ▸ .head _)⟩

lemma Whole.fewer (hl : i ∈ s.live) {t' : Todo} (hw : Whole s' kids t')
    (hx : ∀ j, j ∈ s'.live ↔ j ∈ s.live ∧ j ≠ i) : s'.live.length + 1 = s.live.length := by
  have hp : (i :: s'.live).Perm s.live := by
    refine (perm_ext_iff_of_nodup ?_ hwh.pool.live_nodup).mpr fun j => ?_
    · exact nodup_cons.mpr ⟨fun ha => ((hx i).mp ha).2 rfl, hw.pool.live_nodup⟩
    · rw [mem_cons, hx j]
      by_cases hh : j = i
      · simp [hh, hl]
      · simp [hh]
  exact hp.length_eq

end

lemma subtreesLoop_ok {n : Nat} {A : Idx → Prop} (hj : Whole s kids { t with detached := queue }) (nd : queue.Nodup)
    (m : ∀ j ∈ queue, j ∈ s.live) (hy : ∀ j ∈ queue, ¬s.Conn j) (hx : ∀ j, A j → ∀ p, (s.fec j).parent = some p → A p)
    (ne : ∀ j ∈ queue, ¬A j) (hf : ∀ j, t.fresh = some j → A j) (ht : s.live.length ≤ n) :
    ∃ s', subtreesLoop n queue s = .ok s' ∧ Whole s' kids { t with detached := [] } ∧ Shrinks s s' ∧
      ∀ j ∈ s.live, A j → j ∈ s'.live := by
  induction n generalizing s queue with
  | zero =>
    cases queue with
    | nil => exact ⟨s, rfl, hj, .refl s, fun _ hm _ => hm⟩
    | cons i rest =>
      have hl := m i (.head _)
      rw [length_eq_zero_iff.mp (Nat.le_zero.mp ht)] at hl
      cases hl
  | succ n ih =>
    cases queue with
    | nil => exact ⟨s, rfl, hj, .refl s, fun _ hm _ => hm⟩
    | cons i rest =>
      have hl := m i (.head _)
      have ho := hy i (.head _)
      have he := ne i (.head _)
      have hi := hj.links.children hj.pool hl
      obtain ⟨hsi, hh, hu, hv⟩ :=
        hj.next rfl nd m (List.Sublist.refl _) fun _ hm => .inl hm
      obtain ⟨s₁, h, hb, hs, mem⟩ :=
        hj.dropOrphan hl ho hsi (fun eq => he (hf i eq)) hh
      have hr := hj.fewer hl hb mem
      have hd : i ∉ t.pending := fun hw => ho (.inr (hj.places.waiting i hw).1)
      have hn : ∀ j ∈ rest ++ kids i, j ∈ s₁.live := fun j hm => (mem j).mpr (hv j hm)
      have hor : ∀ j ∈ rest ++ kids i, ¬s₁.Conn j := by
        intro j hm
        rw [hs.conn j (hn j hm)]
        rcases mem_append.mp hm with hm | hm
        · exact hy j (.tail _ hm)
        · exact fun hz => ho ((hj.places.same i hl hd j hm).mp hz)
      have hc : ∀ j, A j → ∀ p, (s₁.fec j).parent = some p → A p :=
        fun j hk p some => hx j hk p ((hs.parent j).symm.trans some)
      have ha : ∀ j ∈ rest ++ kids i, ¬A j := by
        intro c hm hk
        rcases mem_append.mp hm with hm | hm
        · exact ne c (.tail _ hm) hk
        · exact he (hx c hk i ((hj.links.kid i hl c).mp hm).2.1)
      obtain ⟨s', run, hq, hg, hp⟩ := ih hb hu hn hor hc ha (by omega)
      refine ⟨s', ?_, hq, hs.trans hg, ?_⟩
      · unfold subtreesLoop
        rw [hi]
        exact bind_ok.mpr ⟨s₁, h, run⟩
      · intro j hm hk
        exact hp j ((mem j).mpr ⟨hm, fun eq => he (eq ▸ hk)⟩) hk

end Firebam.Reassembly
