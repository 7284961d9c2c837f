import Firebam.Tower.System

/-! Vote safety: a vote is for a descendant of every vote that is still locked out. -/
namespace Firebam.Choreo
open Lib List Run Ghost
open Firebam.Ghost (Hash Pubkey SamePlaces)

variable {tree older : List SlotCompleted} {p a bankSeq : Nat} {tower : Tower} {s' : Marks} {blk : Ghost.Blk}
  {out : Out} {votes below : List Vote} {r r' : Run} {tile mid : Tile} {ghost' : Ghost.Tree} {blks : List Blk}
  {m : SlotCompleted}

/-- Every block that was delivered for the slot has an ancestor in the other slot. -/
def SlotAncestor (tree : List SlotCompleted) (ancestor slot : Nat) : Prop :=
  (∃ m ∈ tree, m.slot = slot) ∧ ∀ m ∈ tree, m.slot = slot → ancestor ∈ slotsAbove tree m.blockId

structure Run.Safe (r : Run) : Prop where
  stacked : Stacked r.tile.tower.votes
  emitted : r.votes.Pairwise fun newer older => older.1 < newer.1
  chain : r.tile.tower.votes.Pairwise fun newer older => SlotAncestor r.tree older.slot newer.slot
  rooted : ∀ root ∈ r.tile.tower.root, ∀ vote ∈ r.tile.tower.votes, SlotAncestor r.tree root vote.slot

structure Run.SafeStep (r r' : Run) : Prop where
  vote : ∀ slot id, r'.votes = (slot, id) :: r.votes → (∀ old ∈ r.votes, old.1 < slot) ∧
    ∀ vote ∈ simulateVote r.tile.tower.votes slot, vote.slot ∈ slotsAbove r'.tree id
  root : r.tree ≠ [] → r'.tile.tower.root ≠ r.tile.tower.root → ∃ slot id vote, r'.votes = (slot, id) :: r.votes ∧
    vote ∈ simulateVote r.tile.tower.votes slot ∧ vote.conf = voteMax ∧ r'.tile.tower.root = some vote.slot

/-- The slots of a growing block tree, and no vote account that overwrites the tower. -/
def Run.Growing (r : Run) : Msg → Prop
  | .slotCompleted m => r.Promise (.slotCompleted m) ∧ m.slot < wordSize - 1 ∧
      (r.tree = [] → m.parentSlot < m.slot ∨ m.parentSlot = wordSize - 1) ∧ m.onchain = none
  | .voteTxn _ | .slotDuplicate _ => True

/-- A block of a slot that has one already has the same parent slot. -/
def Run.OneParent (r : Run) : Msg → Prop
  | .slotCompleted m => ∀ x ∈ r.tree, x.slot = m.slot → x.parentSlot = m.parentSlot
  | .voteTxn _ | .slotDuplicate _ => True

instance (r : Run) : ∀ msg, Decidable (r.Growing msg)
  | .slotCompleted _ | .voteTxn _ | .slotDuplicate _ => by
    unfold Run.Growing
    infer_instance

instance (r : Run) : ∀ msg, Decidable (r.OneParent msg)
  | .slotCompleted _ | .voteTxn _ | .slotDuplicate _ => by
    unfold Run.OneParent
    infer_instance

structure Guarded (tree : List SlotCompleted) (tower : Tower) (ghost : Tree) : Prop where
  grows : Grows tree
  small : ∀ m ∈ tree, m.slot < wordSize - 1
  uniform : ∀ s p q, (s, p) ∈ links tree → (s, q) ∈ links tree → p = q
  linked : Linked tree tower.blks
  along : ghost.Along fun child parent => (child, parent) ∈ links tree
  bootLow : ∀ boot ∈ tree.getLast?, ∀ root ∈ tower.root, boot.slot ≤ root
  stacked : Stacked tower.votes
  chain : tower.votes.Pairwise fun newer older => Above tree older.slot newer.slot
  rooted : ∀ root ∈ tower.root, ∀ vote ∈ tower.votes, Above tree root vote.slot

section
variable {s : Nat}

lemma link_mem (hl : (s, p) ∈ links tree) : ∃ m ∈ tree, m.slot = s ∧ m.parentSlot = p := by
  induction tree with
  | nil => cases hl
  | cons top rest ih =>
    cases rest with
    | nil => cases hl
    | cons next older =>
      rcases mem_cons.mp hl with hh | ht
      · cases hh
        exact ⟨top, .head _, rfl, rfl⟩
      · obtain ⟨m, hm, hs⟩ := ih ht
        exact ⟨m, .tail _ hm, hs⟩

lemma Above.mem (ha : Above tree a s) : ∃ m ∈ tree, m.slot = s := by
  obtain ⟨p, hl, -⟩ := ha.cases_link
  obtain ⟨m, mem, hs, -⟩ := link_mem hl
  exact ⟨m, mem, hs⟩

lemma Linked.slot (hl : Linked tree blks) {slot : Nat} (hi : slot ∈ slots blks) : ∃ m ∈ tree, m.slot = slot := by
  obtain ⟨b, hm, rfl⟩ := mem_map.mp hi
  rcases hl.link b hm with hk | ⟨boot, ha, hs, -⟩
  · obtain ⟨m, hi, slot, -⟩ := link_mem hk
    exact ⟨m, hi, slot⟩
  · exact ⟨boot, mem_of_getLast? ha, hs.symm⟩

lemma Linked.sub {fewer : List Blk} (hl : Linked tree blks)
    (sub : ∀ b ∈ fewer, ∃ old ∈ blks, (old.slot, old.parentSlot) = (b.slot, b.parentSlot)) : Linked tree fewer := by
  refine ⟨fun b hm => ?_⟩
  obtain ⟨old, m, hs⟩ := sub b hm
  obtain ⟨ht, hp⟩ := Prod.mk.inj hs
  rw [← ht, ← hp]
  exact hl.link old m

lemma Linked.cons (hl : Linked older blks) (hg : Grows older) : Linked (m :: older) blks := by
  refine ⟨fun b hm => ?_⟩
  rcases hl.link b hm with hi | ⟨boot, ha, hs⟩
  · exact .inl (hg.links_sub hi)
  · exact .inr ⟨boot, (getLast_older (mem_of_getLast? ha)).mpr ha, hs⟩

lemma below_above {ghost : Tree} {x y : Hash} (hl : ghost.Along fun child parent => (child, parent) ∈ links tree)
    (hb : Below (parOf ghost.shape) x y) : x = y ∨ Above tree (ghost.slotAt x) (ghost.slotAt y) := by
  induction hb with
  | refl => exact .inl rfl
  | @step y p link _ ih =>
    have step := hl y p link
    rcases ih with rfl | ha
    · exact .inr (.parent step)
    · exact .inr (.up step ha)

end

section
variable {ghost : Tree}

lemma Guarded.slotAncestor (hg : Guarded tree tower ghost) (hn : Named tree) {s : Nat}
    (ha : Above tree a s) : SlotAncestor tree a s := by
  refine ⟨ha.mem, ?_⟩
  rintro m hm rfl
  exact hg.grows.mem_slotsAbove hn hg.uniform hg.grows.link_above (fun _ h => h) (fun _ h => h)
    hm ha

lemma Guarded.safe (hg : Guarded r.tree r.tile.tower ghost) (hn : Named r.tree)
    (hm : r.votes.Pairwise fun newer older => older.1 < newer.1) : r.Safe :=
  ⟨hg.stacked, hm, hg.chain.imp (hg.slotAncestor hn),
    fun root hk vote hx => hg.slotAncestor hn (hg.rooted root hk vote hx)⟩

lemma Guarded.congr {tower' : Tower} {ghost' : Tree} (hg : Guarded tree tower ghost)
    (hv : tower'.votes = tower.votes) (hr : tower'.root = tower.root)
    (hb : tower'.blks.map Blk.link = tower.blks.map Blk.link) (hp : SamePlaces ghost ghost') :
    Guarded tree tower' ghost' := by
  refine ⟨hg.grows, hg.small, hg.uniform, hg.linked.sub ?_, hp.along hg.along, ?_, ?_, ?_, ?_⟩
  · intro b hm
    obtain ⟨old, m, hl⟩ := blk_of_link hb hm
    simp only [Blk.link, Prod.mk.injEq] at hl
    exact ⟨old, m, by rw [hl.1, hl.2.1]⟩
  · rw [hr]
    exact hg.bootLow
  · rw [hv]
    exact hg.stacked
  · rw [hv]
    exact hg.chain
  · rw [hr, hv]
    exact hg.rooted

end

section
variable {s : Marks} {ghost : Tree}

lemma Guarded.insert (hu : Guarded tree s.tower s.ghost) (hl : Live tree s)
    (hf : Fits tree s.tower s.votes m) (hb : m.slot < wordSize - 1)
    (hq : ∀ x ∈ tree, x.slot = m.slot → x.parentSlot = m.parentSlot) (hi : m.parentBlockId ∈ nodes s.ghost.shape)
    (hy : s.ghost.insert bankSeq m.slot m.blockId m.parentBlockId = .ok ghost)
    (hd : Marks.Absorbed ⟨s.tower, ghost, s.votes⟩ m s') : Guarded (m :: tree) s'.tower s'.ghost := by
  obtain ⟨p, mem, hz, hp, ha, hv⟩ := hl.parent hf hi
  have hg : Grows (m :: tree) := .next hu.grows mem hz hp ha
  have hm := hu.grows.links_sub (m := m)
  have hw : (m.slot, m.parentSlot) ∈ links (m :: tree) := by
    rw [links_cons hu.grows]
    exact .head _
  have hal : ghost.Along fun child parent => (child, parent) ∈ links (m :: tree) := by
    refine insert_along hl.wf (fun b q hn => hm (hu.along b q hn)) hy hi ?_
    rw [hv, hp]
    exact hw
  refine ⟨hg, ?_, ?_, ⟨?_⟩, hd.ghost.along hal, ?_, ?_, ?_, ?_⟩
  · intro x ht
    rcases mem_cons.mp ht with rfl | ht
    · exact hb
    · exact hu.small x ht
  · intro slot p q hr hc
    rw [links_cons hu.grows] at hr hc
    rcases mem_cons.mp hr with hh | hr <;> rcases mem_cons.mp hc with hj | hc
    · rw [(Prod.mk.inj hh).2, (Prod.mk.inj hj).2]
    · obtain ⟨x, ht, ho, hx⟩ := link_mem hc
      rw [(Prod.mk.inj hh).2, ← hx]
      exact (hq x ht (ho.trans (Prod.mk.inj hh).1)).symm
    · obtain ⟨x, ht, ho, hx⟩ := link_mem hr
      rw [(Prod.mk.inj hj).2, ← hx]
      exact hq x ht (ho.trans (Prod.mk.inj hj).1)
    · exact hu.uniform slot p q hr hc
  · intro b ht
    rcases hd.blks b ht with hs | ⟨old, he, hs⟩
    · rw [hs]
      exact .inl hw
    · obtain ⟨slot, parent⟩ := Prod.mk.inj hs
      rw [← slot, ← parent]
      exact (hu.linked.cons hu.grows).link old he
  · rw [hd.root]
    exact fun boot hla => hu.bootLow boot ((getLast_older mem).mp hla)
  · rw [hd.votes]
    exact hu.stacked
  · rw [hd.votes]
    exact hu.chain.imp fun ha => ha.mono hm
  · rw [hd.root, hd.votes]
    exact fun root hk vote ht => (hu.rooted root hk vote ht).mono hm

lemma guarded_boot {blkMax vtrMax : Nat} {votes : Votes} (hn : tower.votes = [])
    (hc : tower.blks = []) (hb : m.slot < wordSize - 1) (ho : m.parentSlot < m.slot ∨ m.parentSlot = wordSize - 1)
    (hi : Tree.init blkMax vtrMax bankSeq m.slot m.blockId = .ok ghost)
    (ha : Marks.Absorbed ⟨tower, ghost, votes⟩ m s') :
    Guarded [m] (s'.bootRoot m.slot).tower (s'.bootRoot m.slot).ghost := by
  have he : s'.tower.votes = [] := ha.votes.trans hn
  refine ⟨.boot m, ?_, ?_, ⟨?_⟩, ha.ghost.along (init_along hi), ?_, ?_, ?_, ?_⟩
  · intro x ht
    rw [mem_singleton.mp ht]
    exact hb
  · intro slot p q hl
    cases hl
  · intro b ht
    rcases ha.blks b ht with hs | ⟨old, hp, -⟩
    · obtain ⟨slot, hr⟩ := Prod.mk.inj hs
      exact .inr ⟨m, rfl, slot, by rw [hr]; exact ho⟩
    · change old ∈ tower.blks at hp
      rw [hc] at hp
      cases hp
  · intro boot hh root hk
    cases hh
    cases hk
    exact le_refl _
  · simp only [Marks.bootRoot, he]
    exact Stacked.nil
  · simp only [Marks.bootRoot, he]
    exact .nil
  · simp only [Marks.bootRoot, he]
    exact fun _ _ => forall_mem_nil _

end

section
variable {s : Marks}

section
variable (hg : Guarded tree s.tower s.ghost)
include hg

lemma Guarded.kept_above (hl : Live tree s) (hr : s.tower.lockoutCheck blk.slot = true) :
    ∀ vote ∈ simulateVote s.tower.votes blk.slot, Above tree vote.slot blk.slot := by
  unfold Tower.lockoutCheck at hr
  split at hr
  · rename_i he
    rw [he]
    exact forall_mem_nil _
  · split at hr
    · cases hr
    · have ho := hg.chain.sublist (simulateVote_sublist s.tower.votes blk.slot)
      split at hr
      · rename_i hh
        rw [hh]
        exact forall_mem_nil _
      · rename_i newest rest hk
        have hm : newest ∈ s.tower.votes :=
          (simulateVote_sublist s.tower.votes blk.slot).subset (by rw [hk]; exact mem_cons_self)
        have hb : ∀ boot ∈ tree.getLast?, boot.slot ≤ newest.slot := by
          intro boot ha
          have hw := hg.bootLow boot ha _ hl.root
          exact le_of_lt (lt_of_le_of_lt hw (hl.held.above newest hm))
        have hs : ∀ slot ∈ slots s.tower.blks, slot < wordSize - 1 := by
          intro slot hi
          obtain ⟨m, ht, rfl⟩ := hg.linked.slot hi
          exact hg.small m ht
        have hf : Above tree newest.slot blk.slot :=
          isAncestor_above hg.grows hg.linked hb (hs _ (hl.held.present newest hm))
            (fun b ht => hs b.slot (mem_map_of_mem ht)) hr
        rw [hk] at ho ⊢
        intro vote ht
        rcases mem_cons.mp ht with rfl | ht
        · exact hf
        · exact ((pairwise_cons.mp ho).1 vote ht).trans hf

lemma Guarded.root_above (hl : Live tree s) (hm : blk ∈ s.ghost.blks)
    (hh : s.ghost.rootSlot < blk.slot) : Above tree s.ghost.rootSlot blk.slot := by
  have hn : blk.id ∈ nodes s.ghost.shape := by
    rw [s.ghost.nodes_shape]
    exact mem_map_of_mem hm
  have he := hl.wf.slotAt_blk hm
  rcases below_above hg.along (hl.wf.root_spec.2.2 blk.id hn) with hs | ha
  · have hq : s.ghost.rootSlot = blk.slot := by
      rw [← he, ← hs]
      rfl
    exact absurd hq (ne_of_lt hh)
  · rw [he] at ha
    exact ha

lemma Guarded.push (hk : ∀ vote ∈ simulateVote s.tower.votes blk.slot, Above tree vote.slot blk.slot)
    (hs : below.Sublist (simulateVote s.tower.votes blk.slot)) (ho : votes = ⟨blk.slot, 1⟩ :: doubled 0 below) :
    votes.Pairwise fun newer older => Above tree older.slot newer.slot := by
  have hc : (votes.map Vote.slot).Pairwise fun newer older => Above tree older newer := by
    rw [pushed_slots ho, pairwise_cons]
    refine ⟨?_, pairwise_map.mpr (hg.chain.sublist (hs.trans (simulateVote_sublist _ _)))⟩
    intro slot ht
    obtain ⟨old, hm, rfl⟩ := mem_map.mp ht
    exact hk old (hs.subset hm)
  exact pairwise_map.mp hc

end

lemma pushed_above {base : Nat} (ho : votes = ⟨blk.slot, 1⟩ :: doubled 0 below)
    (hn : Above tree base blk.slot) (hl : ∀ vote ∈ below, Above tree base vote.slot) :
    ∀ vote ∈ votes, Above tree base vote.slot := by
  intro vote hm
  have hs := mem_map_of_mem (f := Vote.slot) hm
  rw [pushed_slots ho] at hs
  rcases mem_cons.mp hs with hh | hs
  · rw [hh]
    exact hn
  · obtain ⟨prior, ht, eq⟩ := mem_map.mp hs
    rw [← eq]
    exact hl prior ht

lemma cast_linked (hl : Linked tree s.tower.blks) :
    Linked tree (setBlk s.tower.blks blk.slot fun b => { b with voted := true, votedBlockId := blk.id }) := by
  refine hl.sub fun b ht => ?_
  obtain ⟨old, hm, rfl⟩ := mem_map.mp ht
  refine ⟨old, hm, ?_⟩
  split <;> rfl

lemma Guarded.cast (hg : Guarded tree s.tower s.ghost) (hl : Live tree s) (hm : blk ∈ s.ghost.blks)
    (cast : Cast s.tower blk votes none tower out) : Guarded tree tower s.ghost := by
  obtain ⟨hn, below, hp, ho⟩ := pushVote_ok hl.held.sorted cast.pushed
  have he := hg.kept_above hl cast.free
  have hh := lockout_above hl.held hl.root cast.free
  have eq := cast.tower
  subst eq
  refine ⟨hg.grows, hg.small, hg.uniform, cast_linked hg.linked, hg.along, hg.bootLow,
    ?_, hg.push he hp.sublist ho, ?_⟩
  · rw [ho]
    exact hg.stacked.push hn (hp.sublist.trans (simulateVote_sublist _ _)) (hg.stacked.room hp)
  · intro root hk
    have hs : root = s.ghost.rootSlot := Option.some.inj ((show s.tower.root = some root from hk).symm.trans hl.root)
    subst hs
    refine pushed_above ho (hg.root_above hl hm hh) fun vote ht => ?_
    exact hg.rooted _ hk vote ((hp.sublist.trans (simulateVote_sublist _ _)).subset ht)

lemma Guarded.castRoot {slot : Nat} {id : Hash} (hg : Guarded tree s.tower s.ghost) (hl : Live tree s)
    (hb : Cast s.tower blk votes (some slot) tower out) (hm : id ∈ nodes s.ghost.shape) (oldRoot : Nat) :
    Guarded tree { tower.prune oldRoot slot with root := some slot } (s.ghost.publish id) ∧
      ∃ vote ∈ simulateVote s.tower.votes blk.slot, vote.conf = voteMax ∧ vote.slot = slot := by
  obtain ⟨hn, below, hp, hd⟩ := pushVote_ok hl.held.sorted hb.pushed
  have he := hg.kept_above hl hb.free
  obtain ⟨bottom, rfl, hc, ha⟩ := hg.stacked.rooted hp
  have hh : bottom ∈ simulateVote s.tower.votes blk.slot := by
    rw [ha]
    simp
  have hk := (simulateVote_sublist _ _).subset hh
  have eq := hb.tower
  subst eq
  refine ⟨⟨hg.grows, hg.small, hg.uniform, ?_, publish_along hl.wf hg.along hm, ?_, ?_,
    hg.push he hp.sublist hd, ?_⟩, bottom, hh, hc, rfl⟩
  · exact (cast_linked hg.linked).sub fun b ht => ⟨b, (mem_filter.mp ht).1, rfl⟩
  · intro boot hf root hs
    cases hs
    have hw := hg.bootLow boot hf _ hl.root
    exact le_of_lt (lt_of_le_of_lt hw (hl.held.above bottom hk))
  · change Stacked votes
    rw [hd]
    exact hg.stacked.push hn (hp.sublist.trans (simulateVote_sublist _ _)) (hg.stacked.room hp)
  · intro root hs
    cases hs
    refine pushed_above hd (he bottom hh) fun vote ht => ?_
    have ho := hg.chain.sublist (simulateVote_sublist s.tower.votes blk.slot)
    rw [ha, pairwise_append] at ho
    exact ho.2.2 vote ht bottom (mem_singleton_self _)

end

section
variable {ghost : Ghost.Tree}

structure Run.Inv (r : Run) : Prop where
  agreed : Agreed r.tree r.tile
  guarded : ∀ ghost, r.tile.ghost = some ghost → Guarded r.tree r.tile.tower ghost
  emitted : r.votes.Pairwise fun newer older => older.1 < newer.1
  top : r.votes.head?.map Prod.fst = r.tile.tower.votes.head?.map Vote.slot

section
variable (inv : r.Inv)
include inv

lemma Run.Inv.newer {slot : Nat} (ha : ∀ vote ∈ r.tile.tower.votes, vote.slot < slot) :
    ∀ old ∈ r.votes, old.1 < slot := by
  have ht := inv.top
  cases he : r.votes with
  | nil => exact forall_mem_nil _
  | cons last rest =>
    rw [he] at ht
    cases hv : r.tile.tower.votes with
    | nil =>
      rw [hv] at ht
      cases ht
    | cons vote older =>
      rw [hv] at ht ha
      have hl : last.1 = vote.slot := Option.some.inj ht
      have hb := ha vote (.head _)
      have hs := inv.emitted
      rw [he] at hs
      intro old hm
      rcases mem_cons.mp hm with rfl | hm
      · omega
      · have := (pairwise_cons.mp hs).1 old hm
        omega

lemma Run.Inv.quiet (ha : Agreed tree tile) (hg : ∀ ghost, tile.ghost = some ghost → Guarded tree tile.tower ghost)
    (hv : tile.tower.votes = r.tile.tower.votes) (hr : r.tree ≠ [] → tile.tower.root = r.tile.tower.root) :
    (Run.mk tile tree r.votes).Inv ∧ r.SafeStep ⟨tile, tree, r.votes⟩ := by
  refine ⟨⟨ha, hg, inv.emitted, ?_⟩, ?_, fun hl hm => absurd (hr hl) hm⟩
  · rw [hv]
    exact inv.top
  · intro slot id hs
    have he := congrArg List.length hs
    simp at he

lemma absorb_guarded (hr : r.Growing (.slotCompleted m))
    (hp : r.OneParent (.slotCompleted m)) (hi : (r.tile.cleared m.slot).insertGhost m = .ok (some ghost))
    (ha : (r.tile.cleared m.slot).absorb m ghost = .ok (mid, ghost')) :
    Guarded (m :: r.tree) mid.tower ghost' ∧ mid.tower.votes = r.tile.tower.votes ∧
      (r.tree ≠ [] → mid.tower.root = r.tile.tower.root) := by
  obtain ⟨⟨hf, -⟩, hb, ho, hu⟩ := hr
  obtain ⟨s, last, hq, hs, -, rfl, hw, -⟩ := absorb_ok ha
  have he := insertBlk_absorbed hq
  -- without a vote account, the vote accounts of others only move stake
  have hh : Marks.Calm (if (r.tile.cleared m.slot).ghost.isNone then s.bootRoot m.slot else s) last := by
    obtain ⟨mid, hc, hs⟩ := bind_ok.mp hs
    rw [hu] at hs
    cases hs
    exact voteAccs_calm hc
  rw [hw]
  rcases insertGhost_ok hi with ⟨hj, hv⟩ | ⟨old, hk, hz, hg⟩
  · rw [hj] at hh
    cases inv.agreed with
    | live ht _ =>
      rw [show r.tile.ghost = none from hj] at ht
      cases ht
    | fresh hm fresh =>
      have hn : (r.tile.cleared m.slot).tower.votes = [] := fresh.votes
      have hy := guarded_boot hn fresh.blks hb (ho hm) hv he
      rw [hm]
      exact ⟨hy.congr hh.votes hh.root hh.blks hh.ghost, hh.votes.trans he.votes, fun live => absurd rfl live⟩
  · rw [hk] at hh
    have ht : r.tile.ghost = some old := hk
    have live := inv.agreed.live_of ht
    have hl : Live r.tree ⟨(r.tile.cleared m.slot).tower, old, r.tile.votes⟩ :=
      (inv.agreed.cleared m.slot).live_of ht
    have hd : Guarded r.tree (r.tile.cleared m.slot).tower old :=
      (inv.guarded old ht).congr rfl rfl rfl (.refl _)
    have hf : Fits r.tree (r.tile.cleared m.slot).tower r.tile.votes m :=
      ⟨hf.parent, hf.same, hf.confirmed, hf.forward⟩
    have hx := hd.insert (s := ⟨(r.tile.cleared m.slot).tower, old, r.tile.votes⟩) hl hf hb hp
      hz hg he
    exact ⟨hx.congr hh.votes hh.root hh.blks hh.ghost, hh.votes.trans he.votes,
      fun _ => hh.root.trans he.root⟩

lemma conclude_safe (hl : Live tree ⟨mid.tower, ghost, mid.votes⟩) (ht : mid.ghost = some ghost)
    (hu : Guarded tree mid.tower ghost) (hv : mid.tower.votes = r.tile.tower.votes)
    (root : r.tree ≠ [] → mid.tower.root = r.tile.tower.root) (hc : Concluded mid ghost tile out) :
    (mk tile tree (r.emit (some out))).Inv ∧ r.SafeStep ⟨tile, tree, r.emit (some out)⟩ := by
  obtain ⟨ghost', hh, hq⟩ := hc.live ht hl
  have hg : Agreed tree tile := .live hh hq
  -- what the cases with a vote have in common
  have he : ∀ {blk : Ghost.Blk} {cast : List Vote} {newRoot : Option Nat} {tower : Tower}, blk ∈ ghost.blks →
      Cast mid.tower blk cast newRoot tower out → tile.tower.votes = tower.votes →
      (∀ ghost', tile.ghost = some ghost' → Guarded tree tile.tower ghost') →
      (r.tree ≠ [] → tile.tower.root ≠ r.tile.tower.root →
        ∃ vote ∈ simulateVote mid.tower.votes blk.slot, vote.conf = voteMax ∧ tile.tower.root = some vote.slot) →
      (mk tile tree (r.emit (some out))).Inv ∧ r.SafeStep ⟨tile, tree, r.emit (some out)⟩ := by
    intro blk cast newRoot tower m voted hs hb rooted
    obtain ⟨newer, below, -, hw⟩ := pushVote_ok hl.held.sorted voted.pushed
    obtain ⟨bankHash, vote⟩ := voted.vote
    have emit : r.emit (some out) = (blk.slot, blk.id) :: r.votes := by simp [emit, vote]
    change ∀ vote ∈ mid.tower.votes, vote.slot < blk.slot at newer
    rw [hv] at newer
    have older := inv.newer newer
    rw [emit]
    refine ⟨⟨hg, hb, pairwise_cons.mpr ⟨older, inv.emitted⟩, ?_⟩, ?_, ?_⟩
    · rw [hs, voted.tower, hw]
      rfl
    · intro slot id eq
      obtain ⟨rfl, rfl⟩ := Prod.mk.inj (List.cons.inj eq).1
      refine ⟨older, fun vote hx => ?_⟩
      rw [← hv] at hx
      have ha := hu.kept_above hl voted.free vote hx
      obtain ⟨x, hi, hn, slot⟩ := hl.honest.known blk m
      have hr := (hu.slotAncestor hl.named ha).2 x hi slot
      rw [hn] at hr
      exact hr
    · intro hd hm
      obtain ⟨vote, hx, hf, eq⟩ := rooted hd hm
      exact ⟨blk.slot, blk.id, vote, rfl, hv ▸ hx, hf, eq⟩
  cases hc with
  | quiet hj hs =>
    subst hs
    have emit : r.emit (some out) = r.votes := by simp [emit, hj]
    rw [emit]
    refine inv.quiet hg ?_ hv root
    intro g eq
    rw [ht] at eq
    cases eq
    exact hu
  | voted m cast hs =>
    subst hs
    refine he m cast rfl ?_ ?_
    · intro g eq
      have eq : mid.ghost = some g := eq
      rw [ht] at eq
      cases eq
      exact hu.cast hl m cast
    · intro hd hm
      refine absurd ?_ hm
      rw [cast.tower]
      exact root hd
  | rooted m cast hn hp =>
    obtain ⟨oldRoot, -, ho⟩ := hp.tower
    obtain ⟨next, vote, hx, hf, hk⟩ := hu.castRoot hl cast (Ghost.Tree.query_isSome.mp hp.inside) oldRoot
    refine he m cast (by rw [ho]; rfl) ?_ ?_
    · intro g eq
      rw [hp.ghost] at eq
      cases eq
      rw [ho]
      exact next
    · intro _ _
      refine ⟨vote, hx, hf, ?_⟩
      rw [ho, hk]

lemma step_safe {msg : Msg} (hj : r.Growing msg) (hn : r.OneParent msg)
    (done : r.step msg = .ok r') : r'.Inv ∧ r.SafeStep r' := by
  have hp : r.Promise msg := by
    cases msg with
    | slotCompleted m => exact hj.1
    | voteTxn txn => trivial
    | slotDuplicate slot => trivial
  have he : r.RootKept msg := by
    cases msg with
    | slotCompleted m =>
      intro onchain hk
      rw [hj.2.2.2] at hk
      cases hk
    | voteTxn txn => trivial
    | slotDuplicate slot => trivial
  have ha := step_agreed inv.agreed hp he done
  obtain ⟨⟨tile, out⟩, hd, done⟩ := bind_ok.mp done
  cases done
  cases msg with
  | slotCompleted m =>
    cases slotCompleted_ok hd with
    | @again ghost ht hs =>
      subst hs
      refine inv.quiet ha ?_ rfl fun _ => rfl
      intro g eq
      cases eq
      exact (inv.guarded ghost ht).congr rfl rfl rfl (.setBlk fun _ => rfl)
    | orphan hs =>
      subst hs
      refine inv.quiet ha ?_ rfl fun _ => rfl
      intro g eq
      exact (inv.guarded g eq).congr rfl rfl rfl (.refl _)
    | done hi hb ho =>
      obtain ⟨hg, hv, hq⟩ := absorb_guarded inv hj hn hi hb
      have hf := hp.1
      have hf : Fits r.tree (r.tile.cleared m.slot).tower (r.tile.cleared m.slot).votes m :=
        ⟨hf.parent, hf.same, hf.confirmed, hf.forward⟩
      obtain ⟨ht, hl⟩ := absorb_live (inv.agreed.cleared m.slot) hf hp.2 he hi hb
      exact conclude_safe inv hl ht hg hv hq ho
  | voteTxn txn =>
    obtain ⟨last, hc, hs⟩ := map_ok.mp hd
    cases hs
    unfold Tile.voteTxn at hc
    split at hc
    · rename_i ghost newest older ht _
      split at hc
      · cases hc
        exact inv.quiet ha inv.guarded rfl fun _ => rfl
      · obtain ⟨s, hm, hc⟩ := bind_ok.mp hc
        cases hc
        have hh := countVotes_calm hm
        refine inv.quiet ha ?_ hh.votes fun _ => hh.root
        intro g eq
        cases eq
        exact (inv.guarded ghost ht).congr hh.votes hh.root hh.blks hh.ghost
    · cases hc
      exact inv.quiet ha inv.guarded rfl fun _ => rfl
  | slotDuplicate slot =>
    cases hd
    have hr : (r.tile.slotDuplicate slot).tower = r.tile.tower := by
      unfold Tile.slotDuplicate
      split
      · split <;> rfl
      · rfl
    refine inv.quiet ha ?_ (by rw [hr]) fun _ => by rw [hr]
    intro g eq
    rw [hr]
    unfold Tile.slotDuplicate at eq
    split at eq
    · rename_i ghost blk ht _
      split at eq
      · cases eq
        exact (inv.guarded ghost ht).congr rfl rfl rfl (eqvoc_samePlaces _ _)
      · exact inv.guarded g eq
    · exact inv.guarded g eq

end

lemma new_inv (slotMax blkMax vtrMax : Nat) (wfs : Bool) : (new slotMax blkMax vtrMax wfs).Inv :=
  ⟨new_agreed slotMax blkMax vtrMax wfs, nofun, .nil, rfl⟩

lemma Run.Inv.safe (hi : r.Inv) : r.Safe := by
  cases hi.agreed with
  | fresh he fresh =>
    refine ⟨?_, hi.emitted, ?_, ?_⟩
    · rw [fresh.votes]
      exact Stacked.nil
    · rw [fresh.votes]
      exact .nil
    · rw [fresh.votes]
      exact fun _ _ => forall_mem_nil _
  | live ht live => exact (hi.guarded _ ht).safe live.named hi.emitted

end

/-- In every run on a growing block tree in which the blocks of a slot have one parent slot, the
tower is a chain of ancestors above its root, every vote is for a descendant of all votes that
have not expired, and a vote is rooted when it has been confirmed 31 times. -/
theorem tower_vote_safety (slotMax blkMax vtrMax : Nat) (wfs : Bool) (msgs : List Msg)
    (growing : Allowed step Growing (new slotMax blkMax vtrMax wfs) msgs)
    (one : Allowed step OneParent (new slotMax blkMax vtrMax wfs) msgs) {r : Run}
    (done : run step (new slotMax blkMax vtrMax wfs) msgs = .ok r) :
    r.Safe ∧ ∀ msg r', r.Growing msg → r.OneParent msg → r.step msg = .ok r' → r.SafeStep r' := by
  have keeps : ∀ r msg r', r.Inv → (r.Growing msg ∧ r.OneParent msg) → step r msg = .ok r' → r'.Inv :=
    fun r msg r' inv may stepped => (step_safe inv may.1 may.2 stepped).1
  have inv := run_allowed_preserves step _ Inv keeps (new_inv slotMax blkMax vtrMax wfs) (allowed_and growing one) done
  exact ⟨inv.safe, fun msg r' may same stepped => (step_safe inv may same stepped).2⟩

def forkAt3 : List Msg :=
  [.slotCompleted (plain 1 1 0 0), .slotCompleted (plain 3 3 1 1), .slotCompleted (plain 4 4 3 3),
    .slotCompleted (plain 5 5 4 4), .slotCompleted (plain 6 6 3 3)]

theorem fork_votes_safe : ∃ r, run step (new 16 32 8 false) forkAt3 = .ok r ∧
    r.votes.map Prod.fst = [5, 4, 3] ∧ r.Safe := by
  have ends : ∃ r, run step (new 16 32 8 false) forkAt3 = .ok r ∧ r.votes.map Prod.fst = [5, 4, 3] :=
    exists_of_endsIn (by decide +kernel)
  obtain ⟨r, done, votes⟩ := ends
  exact ⟨r, done, votes, (tower_vote_safety 16 32 8 false forkAt3 (by decide +kernel) (by decide +kernel) done).1⟩

def reparented : List Msg :=
  [.slotCompleted (plain 1 1 0 0), .slotCompleted (plain 3 3 1 1), .slotCompleted (plain 4 4 3 3),
    .slotCompleted (plain 5 5 4 4), .slotCompleted (plain 5 50 3 3)]

def childOfSecond : Msg :=
  .slotCompleted { plain 6 6 5 50 with vtrs := [⟨9, 100, [⟨5, 1⟩]⟩], totalStake := 100 }

def Run.after (r : Run) (msg : Msg) (P : Run → Prop) [DecidablePred P] : Prop := endsIn P (r.step msg) = true

instance (msg : Msg) (P : Run → Prop) [DecidablePred P] : DecidablePred fun r : Run => r.after msg P :=
  fun r => inferInstanceAs (Decidable (endsIn P (r.step msg) = true))

/-- The vote for slot 6 passes the lockout check by the slot of the last vote, and is for a block
that does not descend from slot 4, from which we are locked out until slot 8. -/
theorem reparented_breaks_lockout :
    Allowed step Growing (new 16 32 8 false) (reparented ++ [childOfSecond]) ∧
    ∃ r r', run step (new 16 32 8 false) reparented = .ok r ∧ r.step childOfSecond = .ok r' ∧
      r'.votes = (6, 6) :: r.votes ∧ ⟨4, 2⟩ ∈ simulateVote r.tile.tower.votes 6 ∧ 4 ∉ slotsAbove r'.tree 6 := by
  refine ⟨by decide +kernel, ?_⟩
  have ends : ∃ r, run step (new 16 32 8 false) reparented = .ok r ∧ ⟨4, 2⟩ ∈ simulateVote r.tile.tower.votes 6 ∧
      r.after childOfSecond fun r' => r'.votes = (6, 6) :: r.votes ∧ 4 ∉ slotsAbove r'.tree 6 :=
    exists_of_endsIn (by decide +kernel)
  obtain ⟨r, done, locked, last⟩ := ends
  obtain ⟨r', stepped, votes, outside⟩ := exists_of_endsIn last
  exact ⟨r, r', done, stepped, votes, locked, outside⟩

end Firebam.Choreo
