import Firebam.Tower.Live

/-! A tower that is taken over from the vote account, a vote that is cast, and a root that
advances: the structures stay in step, as long as the vote account does not advance the root. -/
namespace Firebam.Choreo
open Lib List Ghost Tower Option
open Firebam.Ghost (Hash Pubkey SamePlaces)

variable {votes below : List Vote} {tree : List SlotCompleted} {s : Marks} {tower tower' : Tower} {onchain : Onchain}
  {blk : Ghost.Blk} {total : Ghost.Blk → Nat} {out : Out} {level : List Nat} {totalStake slot : Nat} {choice : Choice}
  {id : Hash}

section
variable {ghost : Tree} {root : Nat}

@[mk_iff]
structure Onchain.Sound (onchain : Onchain) : Prop where
  sorted : onchain.votes.Pairwise fun newer older => older.slot < newer.slot
  above : ∀ r ∈ onchain.root, ∀ vote ∈ onchain.votes, r < vote.slot

lemma dropWhile_above (hs : votes.Pairwise fun older newer => older.slot < newer.slot) :
    ∀ vote ∈ votes.dropWhile (fun v => decide (v.slot ≤ root)), root < vote.slot := by
  induction votes with
  | nil => exact forall_mem_nil _
  | cons first rest ih =>
    obtain ⟨hb, ht⟩ := pairwise_cons.mp hs
    rw [dropWhile_cons]
    split_ifs with hh
    · exact ih ht
    · have ho : root < first.slot := by simpa using hh
      intro vote hm
      rcases mem_cons.mp hm with rfl | hm
      · exact ho
      · exact lt_trans ho (hb vote hm)

lemma Onchain.Sound.adopted (hn : onchain.Sound) (hb : ∀ r ∈ onchain.root, r ≤ root) :
    (onchain.adopted root).1 = root ∧ (onchain.adopted root).2.Pairwise (fun older newer => older.slot < newer.slot) ∧
      ∀ vote ∈ (onchain.adopted root).2, root < vote.slot := by
  have ho : onchain.votes.reverse.Pairwise fun older newer => older.slot < newer.slot :=
    pairwise_reverse.mpr hn.sorted
  have hd := ho.sublist (dropWhile_suffix fun v => decide (v.slot ≤ root)).sublist
  unfold Onchain.adopted
  split
  · exact ⟨rfl, hd, dropWhile_above ho⟩
  · rename_i r hk
    split_ifs with hh
    · exact ⟨rfl, hd, dropWhile_above ho⟩
    · have hs : r = root := le_antisymm (hb r hk) (Nat.le_of_not_lt hh)
      exact ⟨hs, ho, fun vote hm => hs ▸ hn.above r hk vote (mem_reverse.mp hm)⟩

lemma unvotes_ok {blks blks' : List Blk}
    (hh : ∀ b ∈ blks, b.Honest tree ghost) (h : votes.foldlM unvote blks = .ok blks') :
    slots blks' = slots blks ∧ ∀ b ∈ blks', b.Honest tree ghost := by
  refine foldlM_preserves (I := fun l => slots l = slots blks ∧ ∀ b ∈ l, b.Honest tree ghost) ?_ ⟨rfl, hh⟩ h
  intro l vote _ l' hk hs
  obtain ⟨-, hs⟩ := check_ok.mp hs
  cases hs
  have hl : slots (setBlk l vote.slot fun b => { b with voted := false }) = slots l := slots_setBlk fun _ => rfl
  refine ⟨hl.trans hk.1, ?_⟩
  exact setBlk_forall hk.2 fun b _ _ ho => ⟨ho.confirmed, fun hf => Bool.noConfusion hf, ho.replayed⟩

lemma prune_self (tower : Tower) (root : Nat) : tower.prune root root = tower := by
  have hk (x : Nat) : decide (¬ (root ≤ x ∧ x < root)) = true := decide_eq_true (by omega)
  simp only [prune, hk, filter_true]

structure Adopting (tree : List SlotCompleted) (ghost : Tree) (base : Nat) (level : List Nat) (tower : Tower) : Prop where
  root : tower.root = some base
  slots : slots tower.blks = level
  honest : ∀ b ∈ tower.blks, b.Honest tree ghost
  held : Held tower.votes base tower.blks

lemma adoptVote_ok {vote : Vote} (hd : Adopting tree ghost root level tower) (ha : root < vote.slot)
    (hn : ∀ old ∈ tower.votes, old.slot < vote.slot) (h : tower.adoptVote vote = .ok tower') :
    Adopting tree ghost root level tower' ∧ tower'.votes = vote :: tower.votes := by
  obtain ⟨hp, h⟩ := check_ok.mp h
  cases h
  have hk : ∀ b : Blk, (if b.voted = true then b else
      { b with voted := true, votedBlockId := b.replayedBlockId }).slot = b.slot := by
    intro b
    split <;> rfl
  have hs : slots (setBlk tower.blks vote.slot fun b => if b.voted = true then b else
      { b with voted := true, votedBlockId := b.replayedBlockId }) = slots tower.blks := slots_setBlk hk
  refine ⟨⟨hd.root, hs.trans hd.slots, ?_, ?_⟩, rfl⟩
  · refine setBlk_forall hd.honest ?_
    intro b _ _ old
    split
    · exact old
    · exact ⟨old.confirmed, fun _ => old.replayed, old.replayed⟩
  · refine ⟨pairwise_cons.mpr ⟨hn, hd.held.sorted⟩, ?_, ?_, ?_⟩
    · intro v hm
      rcases mem_cons.mp hm with rfl | hm
      · exact ha
      · exact hd.held.above v hm
    · intro v hm
      rw [hs]
      rcases mem_cons.mp hm with rfl | hm
      · exact query_isSome.mp hp
      · exact hd.held.present v hm
    · intro v hm b ht hh
      obtain ⟨old, m, rfl⟩ := mem_map.mp ht
      by_cases hi : old.slot = vote.slot
      · rw [if_pos hi]
        dsimp only
        by_cases hf : old.voted = true
        · rw [if_pos hf]
          exact hf
        · rw [if_neg hf]
      · rw [if_neg hi] at hh ⊢
        rcases mem_cons.mp hm with rfl | hm
        · exact absurd hh hi
        · exact hd.held.voted v hm old m hh

lemma adoptVotes_ok (hd : Adopting tree ghost root level tower)
    (hs : votes.Pairwise fun older newer => older.slot < newer.slot) (ha : ∀ vote ∈ votes, root < vote.slot)
    (newer : ∀ vote ∈ votes, ∀ old ∈ tower.votes, old.slot < vote.slot)
    (h : votes.foldlM adoptVote tower = .ok tower') : Adopting tree ghost root level tower' := by
  induction votes generalizing tower with
  | nil =>
    cases h
    exact hd
  | cons vote rest ih =>
    rw [foldlM_cons] at h
    obtain ⟨mid, hf, h⟩ := bind_ok.mp h
    obtain ⟨hb, hl⟩ := pairwise_cons.mp hs
    obtain ⟨he, votes⟩ := adoptVote_ok hd (ha vote (.head _)) (newer vote (.head _)) hf
    refine ih he hl (fun v hm => ha v (.tail _ hm)) ?_ h
    intro v hm old ht
    rw [votes] at ht
    rcases mem_cons.mp ht with rfl | ht
    · exact hb v hm
    · exact newer v (.tail _ hm) old ht

lemma Live.reconcile (hi : Live tree s)
    (hs : s.tower.behind onchain = true → onchain.Sound ∧ ∀ r ∈ onchain.root, r ≤ s.ghost.rootSlot)
    (h : s.tower.reconcile onchain = .ok tower) : Live tree { s with tower := tower } := by
  unfold Tower.reconcile at h
  split_ifs at h with he
  · obtain ⟨hs, hb⟩ := hs he
    rw [hi.root] at h
    dsimp only at h
    obtain ⟨blks, hu, h⟩ := bind_ok.mp h
    obtain ⟨hr, ho, ha⟩ := hs.adopted hb
    obtain ⟨hl, hh⟩ := unvotes_ok hi.honest.blks hu
    rw [hr, prune_self] at h
    have ht : Adopting tree s.ghost s.ghost.rootSlot (slots s.tower.blks)
        { s.tower with blks := blks, root := some s.ghost.rootSlot, votes := [] } :=
      ⟨rfl, hl, hh, .nil, forall_mem_nil _, forall_mem_nil _, forall_mem_nil _⟩
    have hd := adoptVotes_ok ht ho ha (fun _ _ => forall_mem_nil _) h
    refine ⟨hi.named, ⟨hi.honest.known, hd.honest, hi.honest.forward⟩, hi.wf, hi.rising, hd.root,
      hi.votesRoot, ?_, hd.held⟩
    rw [hd.slots]
    exact hi.present
  · cases h
    exact hi

end

section
variable {ghost : Ghost.Tree} {root : Option Nat}

structure Cast (tower : Tower) (blk : Ghost.Blk) (votes : List Vote) (root : Option Nat) (tower' : Tower) (out : Out) :
    Prop where
  free : tower.lockoutCheck blk.slot = true
  pushed : pushVote tower.votes blk.slot = .ok (votes, root)
  tower : tower' = { tower with
    votes := votes
    blks := setBlk tower.blks blk.slot fun b => { b with voted := true, votedBlockId := blk.id } }
  vote : ∃ bankHash, out.vote = some (blk.slot, blk.id, bankHash)
  root : match root with
    | none => out.root = none
    | some slot => ∃ id, out.root = some (slot, id) ∧ tower'.rootBlockId slot = .ok (slot, id)

lemma castVote_ok {bankHash : Hash} (h : tower.castVote blk = .ok (tower', bankHash, root)) :
    ∃ votes, pushVote tower.votes blk.slot = .ok (votes, root) ∧ tower' = { tower with
      votes := votes
      blks := setBlk tower.blks blk.slot fun b => { b with voted := true, votedBlockId := blk.id } } := by
  obtain ⟨⟨votes, r⟩, hp, h⟩ := bind_ok.mp h
  dsimp only at h
  split at h
  · cases h
  · cases h
    exact ⟨votes, hp, rfl⟩

lemma voteFor_cast {flags : List Flag} {reset : Ghost.Blk} (hf : tower.lockoutCheck blk.slot = true)
    (h : tower.voteFor flags reset blk = .ok (tower', out)) : ∃ votes root, Cast tower blk votes root tower' out := by
  obtain ⟨⟨next, bankHash, root⟩, hc, h⟩ := bind_ok.mp h
  obtain ⟨votes, hp, eq⟩ := castVote_ok hc
  dsimp only at h
  split at h
  · cases h
    exact ⟨votes, none, hf, hp, eq, ⟨_, rfl⟩, rfl⟩
  · rename_i slot
    obtain ⟨⟨r, id⟩, hn, h⟩ := bind_ok.mp h
    cases h
    have hs : r = slot := by
      unfold rootBlockId at hn
      split at hn
      · cases hn
      · cases hn
        rfl
    subst hs
    exact ⟨votes, some r, hf, hp, eq, ⟨_, rfl⟩, id, rfl, hn⟩

lemma firstVote_cast (he : tower.votes = []) (hf : tower.lockoutCheck blk.slot = true)
    (h : tower.firstVote blk = .ok (tower', out)) : ∃ votes root, Cast tower blk votes root tower' out := by
  obtain ⟨⟨next, bankHash, root⟩, hc, h⟩ := bind_ok.mp h
  obtain ⟨votes, hp, eq⟩ := castVote_ok hc
  cases h
  have none : root = none := by
    rw [he] at hp
    obtain ⟨-, hp⟩ := check_ok.mp hp
    exact (Prod.mk.inj (Except.ok.inj hp)).2.symm
  subst none
  exact ⟨votes, none, hf, hp, eq, ⟨_, rfl⟩, rfl⟩

lemma gate_free (h : tower.gate totalStake slot = .ok none) : tower.lockoutCheck slot = true := by
  unfold gate at h
  split at h
  · cases h
  · rename_i hf
    simpa using hf

lemma settle_ok (h : tower.settle total choice = .ok (tower', out)) :
    out.vote = none ∧ out.root = none ∧ tower' = tower ∨
      ∃ blk ∈ choice.vote, ∃ votes root, Cast tower blk votes root tower' out := by
  unfold settle at h
  split at h
  · cases h
    exact .inl ⟨rfl, rfl, rfl⟩
  · rename_i blk hh
    obtain ⟨fail, hc, h⟩ := bind_ok.mp h
    split at h
    · cases h
      exact .inl ⟨rfl, rfl, rfl⟩
    · exact .inr ⟨blk, hh, voteFor_cast (gate_free hc) h⟩

lemma choose_best {prevVoteSlot : Nat} {best : Ghost.Blk}
    (h : tower.choose ghost totalStake best prevVoteSlot = .ok choice) : ∀ blk ∈ choice.vote, blk = best := by
  unfold Tower.choose at h
  split at h
  · cases h
  dsimp only at h
  split at h
  · cases h
    exact nofun
  split at h
  · cases h
    exact fun blk hs => (some.inj hs).symm
  split at h
  · cases h
    exact fun blk hs => (some.inj hs).symm
  · obtain ⟨pass, -, h⟩ := bind_ok.mp h
    split at h
    · cases h
      exact fun blk hs => (some.inj hs).symm
    · split at h
      · cases h
      · split at h
        · cases h
          exact nofun
        · cases h
          exact nofun

lemma voteAndReset_ok (h : tower.voteAndReset ghost total = .ok (tower', out)) :
    out.vote = none ∧ out.root = none ∧ tower' = tower ∨
      ∃ blk ∈ ghost.blks, ∃ votes root, Cast tower blk votes root tower' out := by
  unfold voteAndReset at h
  split at h
  · cases h
  · rename_i root hf
    have hm : ghost.best root ∈ ghost.blks := Ghost.bestFrom_mem (mem_of_find?_eq_some hf)
    dsimp only at h
    split at h
    · rename_i he
      split at h
      · rename_i hr
        exact .inr ⟨_, hm, firstVote_cast he hr h⟩
      · cases h
        exact .inl ⟨rfl, rfl, rfl⟩
    · obtain ⟨choice, hc, h⟩ := bind_ok.mp h
      rcases settle_ok h with hq | ⟨blk, hp, ha⟩
      · exact .inl hq
      · exact .inr ⟨blk, choose_best hc blk hp ▸ hm, ha⟩

end

variable {root : Option Nat}

lemma lockout_above (hh : Held s.tower.votes s.ghost.rootSlot s.tower.blks)
    (hr : s.tower.root = some s.ghost.rootSlot) (hf : s.tower.lockoutCheck blk.slot = true) :
    s.ghost.rootSlot < blk.slot := by
  unfold lockoutCheck at hf
  split at hf
  · rw [hr] at hf
    simpa using hf
  · rename_i last older hv
    split at hf
    · cases hf
    · rename_i hn
      have hb := hh.above last (by rw [hv]; exact mem_cons_self)
      omega

lemma pushed_slots (hp : votes = ⟨blk.slot, 1⟩ :: doubled 0 below) :
    votes.map Vote.slot = blk.slot :: below.map Vote.slot := by
  rw [hp, map_cons, doubled_slots]

lemma Held.cast {base : Nat} (hd : Held s.tower.votes s.ghost.rootSlot s.tower.blks) (m : blk.slot ∈ slots s.tower.blks)
    (newer : ∀ vote ∈ s.tower.votes, vote.slot < blk.slot) (hu : below.Sublist s.tower.votes)
    (hp : votes = ⟨blk.slot, 1⟩ :: doubled 0 below) (ha : ∀ slot ∈ blk.slot :: below.map Vote.slot, base < slot) :
    Held votes base (setBlk s.tower.blks blk.slot fun b => { b with voted := true, votedBlockId := blk.id }) := by
  have hl := pushed_slots hp
  have hf : ∀ vote ∈ votes, vote.slot = blk.slot ∨ ∃ old ∈ s.tower.votes, old.slot = vote.slot := by
    intro vote hm
    have slot := mem_map_of_mem (f := Vote.slot) hm
    rw [hl] at slot
    rcases mem_cons.mp slot with hh | slot
    · exact .inl hh
    · obtain ⟨old, ht, eq⟩ := mem_map.mp slot
      exact .inr ⟨old, hu.subset ht, eq⟩
  have he : slots (setBlk s.tower.blks blk.slot fun b => { b with voted := true, votedBlockId := blk.id }) =
      slots s.tower.blks := slots_setBlk fun _ => rfl
  refine ⟨?_, ?_, ?_, ?_⟩
  · have hs : (votes.map Vote.slot).Pairwise fun newer older => older < newer := by
      rw [hl, pairwise_cons]
      refine ⟨?_, pairwise_map.mpr (hd.sorted.sublist hu)⟩
      intro slot hm
      obtain ⟨old, ht, rfl⟩ := mem_map.mp hm
      exact newer old (hu.subset ht)
    exact pairwise_map.mp hs
  · intro vote hm
    have slot := mem_map_of_mem (f := Vote.slot) hm
    rw [hl] at slot
    exact ha vote.slot slot
  · intro vote hm
    rw [he]
    rcases hf vote hm with hh | ⟨old, ht, eq⟩
    · rw [hh]
      exact m
    · rw [← eq]
      exact hd.present old ht
  · intro vote hm b ht hh
    obtain ⟨old, hb, rfl⟩ := mem_map.mp ht
    by_cases hi : old.slot = blk.slot
    · rw [if_pos hi]
    · rw [if_neg hi] at hh ⊢
      rcases hf vote hm with hn | ⟨prior, hk, eq⟩
      · exact absurd (hh.trans hn) hi
      · exact hd.voted prior hk old hb (hh.trans eq.symm)

variable (hli : Live tree s)
include hli

lemma Live.cast (hm : blk ∈ s.ghost.blks) (cast : Cast s.tower blk votes root tower out) :
    Live tree { s with tower := tower } ∧ ∀ r ∈ root, (∀ vote ∈ tower.votes, r < vote.slot) ∧
      ∀ b ∈ tower.blks, b.slot = r → b.voted = true := by
  obtain ⟨hn, below, hp, hb⟩ := pushVote_ok hli.held.sorted cast.pushed
  have hu : below.Sublist s.tower.votes := hp.sublist.trans (simulateVote_sublist _ _)
  have m := hli.present blk hm
  have hi := lockout_above hli.held hli.root cast.free
  have eq := cast.tower
  subst eq
  have he : slots (setBlk s.tower.blks blk.slot fun b => { b with voted := true, votedBlockId := blk.id }) =
      slots s.tower.blks := slots_setBlk fun _ => rfl
  have ho : ∀ b ∈ setBlk s.tower.blks blk.slot fun b => { b with voted := true, votedBlockId := blk.id },
      b.Honest tree s.ghost := by
    refine setBlk_forall hli.honest.blks ?_
    intro b _ hh old
    exact ⟨old.confirmed, fun _ => hh ▸ hli.honest.known blk hm, old.replayed⟩
  have ha : ∀ slot ∈ blk.slot :: below.map Vote.slot, s.ghost.rootSlot < slot := by
    intro slot ht
    rcases mem_cons.mp ht with rfl | ht
    · exact hi
    · obtain ⟨old, hk, rfl⟩ := mem_map.mp ht
      exact hli.held.above old (hu.subset hk)
  have hf := hli.held.cast m hn hu hb ha
  refine ⟨⟨hli.named, ⟨hli.honest.known, ho, hli.honest.forward⟩, hli.wf, hli.rising, hli.root,
    hli.votesRoot, ?_, hf⟩, ?_⟩
  · rw [he]
    exact hli.present
  · intro r hd
    obtain rfl : root = some r := hd
    obtain ⟨-, bottom, rfl, hs⟩ := hp
    have hk : bottom ∈ s.tower.votes := (simulateVote_sublist _ _).subset (by rw [hs]; simp)
    refine ⟨?_, setBlk_forall (hli.held.voted bottom hk) fun b _ _ _ _ => rfl⟩
    intro vote ht
    have slot := mem_map_of_mem (f := Vote.slot) ht
    rw [pushed_slots hb] at slot
    rcases mem_cons.mp slot with hh | slot
    · rw [hh]
      exact hn bottom hk
    · obtain ⟨old, hc, hl⟩ := mem_map.mp slot
      rw [← hl]
      have hr := hli.held.sorted.sublist (simulateVote_sublist s.tower.votes blk.slot)
      rw [hs, pairwise_append] at hr
      exact hr.2.2 old hc bottom (mem_singleton_self _)

lemma Live.root_slot (hv : ∀ b ∈ s.tower.blks, b.slot = slot → b.voted = true)
    (hn : s.tower.rootBlockId slot = .ok (slot, id)) (m : (s.ghost.query id).isSome = true) :
    s.ghost.slotAt id = slot := by
  obtain ⟨g, hf⟩ := isSome_iff_exists.mp m
  obtain ⟨hm, rfl⟩ := Tree.query_some hf
  rw [hli.wf.slotAt_blk hm]
  unfold rootBlockId at hn
  split at hn
  · cases hn
  · rename_i fork hk
    obtain ⟨ht, hl⟩ := query_some hk
    have id := (Prod.mk.inj (Except.ok.inj hn)).2
    have hh := hli.honest.blks fork ht
    rw [← hl]
    split_ifs at id with hg
    · exact hh.confirmed hg g hm id.symm
    · exact (hh.voted (hv fork ht hl)).apart hli.named hli.honest.known g hm id.symm

lemma Live.publish (ha : ∀ vote ∈ s.tower.votes, slot < vote.slot)
    (hv : ∀ b ∈ s.tower.blks, b.slot = slot → b.voted = true)
    (hn : s.tower.rootBlockId slot = .ok (slot, id)) (m : (s.ghost.query id).isSome = true) :
    Live tree ⟨{ s.tower.prune s.ghost.rootSlot slot with root := some slot }, s.ghost.publish id,
      s.votes.publish slot⟩ := by
  have hl := hli.root_slot hv hn m
  have ho := Tree.query_isSome.mp m
  have hr := (publish_rootSlot hli.wf ho).trans hl
  have hb : ∀ b ∈ (s.ghost.publish id).blks, ∃ old ∈ s.ghost.blks, old.id = b.id ∧ old.slot = b.slot ∧
      s.ghost.slotAt id ≤ b.slot := publish_blks hli.wf hli.rising
  have ne : ∀ {x : Nat} {y : Hash}, Apart s.ghost x y → Apart (s.ghost.publish id) x y := by
    intro x y old g hx eq
    obtain ⟨prior, ht, hs, slot, -⟩ := hb g hx
    rw [← slot]
    exact old prior ht (hs.trans eq)
  have hc : ∀ x, slot ≤ x → x ∈ slots s.tower.blks → x ∈ slots (s.tower.prune s.ghost.rootSlot slot).blks := by
    intro x hh ht
    obtain ⟨b, hx, rfl⟩ := mem_map.mp ht
    refine mem_map_of_mem (mem_filter.mpr ⟨hx, decide_eq_true ?_⟩)
    omega
  have hf : ∀ b ∈ (s.tower.prune s.ghost.rootSlot slot).blks, b ∈ s.tower.blks := fun b hx =>
    (mem_filter.mp hx).1
  have hm : ∀ v ∈ (s.votes.publish slot).blks, v ∈ s.votes.blks := by
    unfold Votes.publish
    rw [hli.votesRoot]
    exact fun v hx => (mem_filter.mp hx).1
  refine ⟨hli.named, ⟨?_, ?_, ?_⟩, publish_wf hli.wf ho, publish_along hli.wf hli.rising ho, ?_, ?_, ?_, ?_⟩
  · intro g hx
    obtain ⟨old, ht, hs, slot, -⟩ := hb g hx
    rw [← slot, ← hs]
    exact hli.honest.known old ht
  · intro b hx
    have old := hli.honest.blks b (hf b hx)
    exact ⟨fun hg => ne (old.confirmed hg), old.voted, old.replayed⟩
  · exact fun v hx hg => ne (hli.honest.forward v (hm v hx) hg)
  · exact congrArg some hr.symm
  · unfold Votes.publish
    rw [hli.votesRoot]
    exact congrArg some hr.symm
  · intro g hx
    obtain ⟨old, ht, -, hs, hh⟩ := hb g hx
    exact hc g.slot (hl ▸ hh) (hs ▸ hli.present old ht)
  · rw [hr]
    refine ⟨hli.held.sorted, ha, ?_, fun vote hx b ht => hli.held.voted vote hx b (hf b ht)⟩
    exact fun vote hx => hc vote.slot (le_of_lt (ha vote hx)) (hli.held.present vote hx)

lemma Live.voters (voteAccs : List Pubkey) : Live tree { s with votes := s.votes.updateVoters voteAccs } :=
  ⟨hli.named, ⟨hli.honest.known, hli.honest.blks, hli.honest.forward⟩, hli.wf, hli.rising, hli.root,
    hli.votesRoot, hli.present, hli.held⟩

end Firebam.Choreo
