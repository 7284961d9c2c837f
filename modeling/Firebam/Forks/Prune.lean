import Firebam.Forks.Leave

/-! A leaf is unlinked from its parent and from its siblings and leaves the tree. -/
namespace Firebam.Forks
open List Lib Banks

variable {front rest : List Entry} {s t u : Banks} {past : Past} {i j p c : Idx} {l b : List Idx}

def Bank.bare (b : Bank) : Bank := { b with parent := none, child := none, sibling := none }

structure Relinked (s u : Banks) : Prop where
  rest : u = { s with bank := u.bank, currForkWidth := u.currForkWidth }
  bare : ∀ j, (u.bank j).bare = (s.bank j).bare

namespace Relinked

variable (re : Relinked s u)
include re

lemma field {β : Type} (f : Bank → β) (hu : ∀ b : Bank, f b.bare = f b) (j : Idx) : f (u.bank j) = f (s.bank j) := by
  rw [← hu (u.bank j), re.bare, hu]

section
variable (j : Idx)

lemma state : (u.bank j).state = (s.bank j).state := re.field Bank.state (fun _ => rfl) j

lemma seq : (u.bank j).seq = (s.bank j).seq := re.field Bank.seq (fun _ => rfl) j

lemma tracker : (u.bank j).costTracker = (s.bank j).costTracker :=
  re.field Bank.costTracker (fun _ => rfl) j

lemma live : u.Live j ↔ s.Live j := by
  unfold Live
  rw [re.state]

lemma entry : u.entry j = s.entry j := congrArg (Entry.mk j) (re.seq j)

end

lemma pool (pool : Pool s) : Pool u := by
  have hf : u.free = s.free := by rw [re.rest]
  have hs : u.maxTotalBanks = s.maxTotalBanks := by rw [re.rest]
  refine ⟨hf ▸ pool.nodup, ?_, ?_⟩
  · intro j
    rw [hf, hs, re.live]
    exact pool.mem_free j
  · intro j hl
    rw [hs]
    exact pool.bounded j ((re.live j).mp hl)

lemma pending (pending : Pending s) (hl : ∀ j, (s.bank j).state = .prunable → (u.bank j).child = none) : Pending u := by
  have hp : u.prunable = s.prunable := by rw [re.rest]
  refine ⟨?_, ?_⟩
  · intro j
    rw [re.state, hp]
    exact pending.iff j
  · intro j hw
    rw [re.state] at hw
    exact hl j hw

lemma marked : u.marked = s.marked := by
  have dead : u.dead = s.dead := by rw [re.rest]
  have stale : u.stale = s.stale := by
    funext e
    unfold stale
    rw [re.state, re.seq]
  rw [Banks.marked, Banks.marked, dead, stale]

lemma marks (marks : Marks s)
    (hp : ∀ j q, s.Live j → (u.bank j).parent = some q → (s.bank q).state = .dead → (s.bank j).parent = some q) :
    Marks u := by
  have hd : u.dead = s.dead := by rw [re.rest]
  have hb : u.bankSeq = s.bankSeq := by rw [re.rest]
  refine ⟨?_, ?_, ?_, ?_, ?_⟩
  · intro j
    rw [re.state, re.marked]
    exact marks.iff j
  · rw [re.marked]
    exact marks.nodup
  · intro j q hl ha hg
    rw [re.live] at hl
    rw [re.state] at hg
    rw [re.marked]
    exact marks.order j q hl (hp j q hl ha hg) hg
  · rw [hd, hb]
    exact marks.old
  · intro j hl
    rw [re.seq, hb]
    exact marks.seq j ((re.live j).mp hl)

lemma trackers (trackers : Trackers s past) : Trackers u past := by
  have hp : u.costTrackers = s.costTrackers := by rw [re.rest]
  have hb : u.bankSeq = s.bankSeq := by rw [re.rest]
  refine ⟨⟨hp ▸ trackers.nodup, ?_, ?_⟩, ?_, ?_, ?_, ?_, trackers.sub, hb ▸ trackers.old⟩
  · intro j k
    rw [re.tracker, hp]
    exact trackers.apart j k
  · intro j j' k
    rw [re.tracker, re.tracker]
    exact trackers.unique j j' k
  · intro j
    rw [re.live, re.tracker]
    exact trackers.inactive j
  · intro j
    rw [re.live, re.tracker, re.entry]
    exact trackers.held j
  · intro j
    rw [re.state, re.entry]
    exact trackers.init j
  · intro j
    rw [re.state, re.entry]
    exact trackers.replayable j

end Relinked

structure Unlinked (s u : Banks) (p i : Idx) (l : List Idx) : Prop extends Relinked s u where
  mem : ∀ c, c ∈ l ↔ c ∈ s.children p ∧ c ≠ i
  chain : Chain (fun j => (u.bank j).sibling) (u.bank p).child l
  parent : ∀ j, j ≠ i → (u.bank j).parent = (s.bank j).parent
  top : (u.bank i).parent = none
  child : ∀ j, j ≠ p → (u.bank j).child = (s.bank j).child
  sibling : ∀ j, j ∉ s.children p → (u.bank j).sibling = (s.bank j).sibling

section
variable (links : Links s)
include links

lemma unlink_first (up : s.Live p) (hk : s.children p = i :: b)
    (ne : p ≠ i) : Unlinked s ((s.modify p fun b => { b with child := (s.bank i).sibling }).modify i fun b =>
      { b with parent := none, sibling := none }) p i b := by
  have hc := links.chain p up
  have nd := hc.nodup
  rw [hk] at hc nd
  obtain ⟨hn, -⟩ := nodup_cons.mp nd
  refine ⟨⟨rfl, ?_⟩, ?_, ?_, ?_, ?_, ?_, ?_⟩
  · intro j
    simp only [modify_bank]
    split <;> split <;> rfl
  · intro c
    rw [hk, mem_cons]
    constructor
    · intro hm
      refine ⟨.inr hm, ?_⟩
      rintro rfl
      exact hn hm
    · rintro ⟨rfl | hm, ht⟩
      · exact absurd rfl ht
      · exact hm
  · simp only [modify_bank, if_neg ne, if_true]
    refine hc.2.congr fun x hm => ?_
    have ht : x ≠ i := fun eq => hn (eq ▸ hm)
    rw [if_neg ht]
    split <;> rfl
  · intro j ht
    simp only [modify_bank, if_neg ht]
    split <;> rfl
  · simp only [modify_bank, if_true]
  · intro j ht
    simp only [modify_bank, if_neg ht]
    split <;> rfl
  · intro j ho
    rw [hk, mem_cons, not_or] at ho
    simp only [modify_bank, if_neg ho.1]
    split <;> rfl

lemma unlink_later {a : List Idx} {q : Idx} (up : s.Live p)
    (hk : s.children p = a ++ q :: i :: b) : Unlinked s ((s.modify q fun b =>
      { b with sibling := (s.bank i).sibling }).modify i fun b => { b with parent := none, sibling := none }) p i
        (a ++ q :: b) := by
  have hc := links.chain p up
  have nd := hc.nodup
  rw [hk] at hc nd
  obtain ⟨ne, ho, he⟩ := hc.erase_next
  have hr : ∀ {c}, c ∈ a ++ q :: b ↔ c ∈ s.children p ∧ c ≠ i := by
    intro c
    rw [hk, ← he, nd.mem_erase_iff, and_comm]
  refine ⟨⟨rfl, ?_⟩, ?_, ?_, ?_, ?_, ?_, ?_⟩
  · intro j
    simp only [modify_bank]
    split <;> split <;> rfl
  · intro c
    exact hr
  · have hf : (((s.modify q fun b => { b with sibling := (s.bank i).sibling }).modify i fun b =>
        { b with parent := none, sibling := none }).bank p).child = (s.bank p).child := by
      simp only [modify_bank]
      split <;> split <;> rfl
    rw [hf]
    refine hc.skip ?_ ?_
    · simp only [modify_bank, if_neg ne, if_true]
    · intro z hm
      have ht := (hr.mp ((sublist_cons_self q b).append_left a |>.subset hm)).2
      simp only [modify_bank, if_neg ht, if_neg (ho z hm)]
  · intro j ht
    simp only [modify_bank, if_neg ht]
    split <;> rfl
  · simp only [modify_bank, if_true]
  · intro j _
    simp only [modify_bank]
    split <;> split <;> rfl
  · intro j ho
    rw [hk] at ho
    simp only [mem_append, mem_cons, not_or] at ho
    simp only [modify_bank, if_neg ho.2.2.1, if_neg ho.2.1]

lemma unlink_ok (hl : s.Live i) (ht : (s.bank i).parent = some p) :
    ∃ u l, s.unlink p i = .ok u ∧ u.currForkWidth = s.currForkWidth ∧ Unlinked s u p i l := by
  have up := (links.parent_live hl ht).1
  have hc := links.chain p up
  have hm := (links.mem_children p up i).mpr ⟨hl, ht⟩
  have ne : p ≠ i := by
    rintro rfl
    exact links.parent_ne_self hl ht
  unfold unlink
  by_cases hi : (s.bank p).child = some i
  · rw [if_pos hi]
    have hh := hc.first_eq.symm.trans hi
    obtain ⟨b, hk⟩ := head?_eq_some_iff.mp hh
    exact ⟨_, b, rfl, rfl, unlink_first links up hk ne⟩
  · rw [if_neg hi]
    -- some sibling is before it, and what is behind that one is the bank itself
    have hf : ((s.children p).find? fun j => (s.bank j).sibling = some i).isSome := by
      rw [find?_isSome]
      cases hk : s.children p with
      | nil =>
        rw [hk] at hm
        cases hm
      | cons x rest =>
        rw [hk] at hc hm
        rcases mem_cons.mp hm with rfl | ha
        · exact absurd hc.1 hi
        · obtain ⟨q, m, hp⟩ := hc.before ha
          exact ⟨q, m, decide_eq_true hp⟩
    obtain ⟨q, hs⟩ := Option.isSome_iff_exists.mp hf
    rw [hs]
    have hp : (s.bank q).sibling = some i := by simpa using find?_some hs
    obtain ⟨a, b, hk⟩ := append_of_mem (mem_of_find?_eq_some hs)
    rw [hk] at hc
    obtain ⟨rest, rfl⟩ := hc.after hp
    exact ⟨_, _, rfl, rfl, unlink_later links up hk⟩

lemma Links.exists_leaf (ho : Pool s) (hl : s.Live i) :
    ∃ j, Reaches s.children i j ∧ s.Live j ∧ (s.bank j).child = none := by
  induction size : above s.live (fun j => (s.bank j).seq) i using Nat.strongRecOn generalizing i with
  | ind _ ih =>
    cases hk : s.children i with
    | nil => exact ⟨i, Relation.ReflTransGen.refl, hl, (links.child_none hl).mpr hk⟩
    | cons c rest =>
      have hi : c ∈ s.children i := hk ▸ .head _
      have hb := ((links.mem_children i hl c).mp hi).1
      have he := (links.branches ho).above_kid (ho.mem_live.mpr hl) hi
      obtain ⟨j, hp, hh, hf⟩ := ih _ (size ▸ he) hb rfl
      exact ⟨j, Relation.ReflTransGen.head hi hp, hh, hf⟩

lemma isNewFork_iff (up : s.Live p) (hm : i ∈ s.children p) (hx : ∀ c, c ∈ l ↔ c ∈ s.children p ∧ c ≠ i) :
    ((s.bank p).child ≠ some i ∨ (s.bank i).sibling ≠ none) ↔ l ≠ [] := by
  have hc := links.chain p up
  have nd := hc.nodup
  obtain ⟨x, rest, hk⟩ := exists_cons_of_ne_nil (ne_nil_of_mem hm)
  rw [hk] at hc nd
  constructor
  · rintro he rfl
    have hn : ∀ c ∈ x :: rest, c = i := by
      intro c m
      by_contra ne
      cases (hx c).mpr ⟨hk ▸ m, ne⟩
    cases hn x (.head _)
    cases rest with
    | nil =>
      rcases he with hf | hl
      · exact hf hc.1
      · exact hl hc.2
    | cons y rest =>
      cases hn y (.tail _ (.head _))
      exact (nodup_cons.mp nd).1 (.head _)
  · intro ho
    by_contra ha
    rw [not_or, not_not, not_not] at ha
    obtain ⟨c, m⟩ := exists_mem_of_ne_nil l ho
    obtain ⟨m, ne⟩ := (hx c).mp m
    have hh := hc.1
    rw [ha.1] at hh
    cases hh
    have ht : Chain (fun j => (s.bank j).sibling) (s.bank i).sibling rest := hc.2
    rw [ha.2] at ht
    rw [hk, ht.eq_nil, mem_singleton] at m
    exact ne m

end

lemma Marks.shorten (hm : Marks s) (dead : s.dead = front ++ rest)
    (stale : ∀ e ∈ front, s.stale e = true) : Marks { s with dead := rest } := by
  have marked : ({ s with dead := rest } : Banks).marked = s.marked := by
    have none : front.filter (fun e => !s.stale e) = [] :=
      filter_eq_nil_iff.mpr fun e hx => by rw [stale e hx]; decide
    unfold marked
    rw [dead, filter_append, none]
    rfl
  refine ⟨?_, ?_, ?_, ?_, hm.seq⟩
  · rw [marked]
    exact hm.iff
  · rw [marked]
    exact hm.nodup
  · rw [marked]
    exact hm.order
  · intro e hx
    exact hm.old e (dead ▸ mem_append_right _ hx)

namespace Unlinked

section
variable (hu : Unlinked s u p i l)
include hu

lemma rewidth (w : Nat) : Unlinked s { u with currForkWidth := w } p i l := by
  refine { hu with rest := ?_ }
  have rest := hu.rest
  rw [rest]

lemma drop_live : (u.drop i).Live j ↔ s.Live j ∧ j ≠ i := by
  rw [Forks.drop_live, hu.live]

lemma drop_parent (ne : j ≠ i) : ((u.drop i).bank j).parent = (s.bank j).parent := by
  rw [drop_keeps Bank.parent j fun _ => rfl, hu.parent j ne]

lemma drop_state (ne : j ≠ i) : ((u.drop i).bank j).state = (s.bank j).state := by
  rw [(drop_changes u i).there j ne, hu.state]

lemma drop_root : (u.drop i).root = s.root := by
  change u.root = s.root
  rw [hu.rest]

lemma drop_pool (hp : Pool s) (hl : s.Live i) : Pool (u.drop i) :=
  (hu.pool hp).drop ((hu.live i).mpr hl)

lemma links (links : Links s) (hd : Pool s) (hl : s.Live i)
    (hp : (s.bank i).parent = some p) (he : (s.bank i).child = none) : Links (u.drop i) := by
  have up := (links.parent_live hl hp).1
  have hg := links.parent_ne_root hp
  have hc := hu.drop_root
  have ho : ∀ {j x}, s.Live j → j ≠ p → x ∈ s.children j → x ∉ s.children p := by
    intro j x hh hr hx hm
    have hf := ((links.mem_children j hh x).mp hx).2
    rw [((links.mem_children p up x).mp hm).2] at hf
    exact hr (Option.some.inj hf).symm
  have hi : (fun j => ((u.drop i).bank j).sibling) = fun j => (u.bank j).sibling :=
    funext fun j => drop_keeps Bank.sibling j fun _ => rfl
  refine Links.of (hu.drop_pool hd hl) (fun j => if j = p then l else s.children j) ?_ ?_ ?_ ?_ ?_ ?_
  · rw [hc, hu.drop_live]
    exact ⟨links.root_live, hg.symm⟩
  · rw [hc, hu.drop_parent hg.symm]
    exact links.root_parent
  · rw [hc, drop_keeps Bank.sibling _ fun _ => rfl, hu.sibling]
    · exact links.root_sibling
    · intro hx
      have ha := ((links.mem_children p up s.root).mp hx).2
      rw [links.root_parent] at ha
      cases ha
  · intro j hh
    obtain ⟨ht, -⟩ := hu.drop_live.mp hh
    rw [hi, drop_keeps Bank.child j fun _ => rfl]
    split
    · rename_i eq
      rw [eq]
      exact hu.chain
    · rename_i hr
      rw [hu.child j hr]
      exact (links.chain j ht).congr fun x hx => hu.sibling x (ho ht hr hx)
  · intro j hh c
    obtain ⟨ht, -⟩ := hu.drop_live.mp hh
    rw [hu.drop_live]
    by_cases eq : c = i
    · subst eq
      refine iff_of_false ?_ fun hb => hb.1.2 rfl
      split_ifs with hr
      · exact fun hx => ((hu.mem c).mp hx).2 rfl
      · intro hx
        have ha := ((links.mem_children j ht c).mp hx).2
        rw [hp] at ha
        exact hr (Option.some.inj ha).symm
    · rw [hu.drop_parent eq, and_iff_left eq]
      split_ifs with hs
      · rw [hu.mem, and_iff_left eq, hs]
        exact links.mem_children p up c
      · exact links.mem_children j ht c
  · intro j hh hr
    obtain ⟨ht, ne⟩ := hu.drop_live.mp hh
    rw [hc] at hr
    obtain ⟨q, ha, hv, hy⟩ := links.up j ht hr
    refine ⟨q, (hu.drop_parent ne).trans ha, hu.drop_live.mpr ⟨hv, ?_⟩, ?_⟩
    · rintro rfl
      exact links.not_parent hl he ht ha
    · rw [drop_keeps Bank.seq q fun _ => rfl, drop_keeps Bank.seq j fun _ => rfl, hu.seq, hu.seq]
      exact hy

lemma states (states : States s) (hi : Links s) (hl : s.Live i)
    (hp : (s.bank i).parent = some p) (he : (s.bank i).child = none) : States (u.drop i) := by
  have hg : ((u.drop i).bank i).state = .inactive := by rw [(drop_changes u i).here]
  refine ⟨?_, ?_, ?_⟩
  · rw [hu.drop_root, hu.drop_state (Ne.symm (hi.parent_ne_root hp))]
    exact states.root
  · intro j q hh ha hd
    obtain ⟨hs, ne⟩ := hu.drop_live.mp hh
    have hn : q ≠ i := by
      rintro rfl
      rw [hg] at hd
      cases hd
    rw [hu.drop_parent ne] at ha
    rw [hu.drop_state hn] at hd
    rw [hu.drop_state ne]
    exact states.dead j q hs ha hd
  · intro j q hc ha
    have hh : (u.drop i).Live j := by
      unfold Live
      rcases hc with ht | ht <;> rw [ht] <;> decide
    obtain ⟨hs, ne⟩ := hu.drop_live.mp hh
    rw [hu.drop_state ne] at hc
    rw [hu.drop_parent ne] at ha
    rw [hu.drop_state]
    · exact states.frozen j q hc ha
    · rintro rfl
      exact hi.not_parent hl he hs ha

end

lemma marks (hu : Unlinked { s with dead := rest } u p i l) (marks : Marks s)
    (dead : s.dead = front ++ rest) (ht : ∀ e ∈ front, s.stale e = true ∨ e.idx = i) : Marks (u.drop i) := by
  -- with all its entries the deque is as good as before
  have re : Relinked s { u with dead := s.dead } := by
    refine ⟨?_, hu.bare⟩
    have rest := hu.rest
    rw [rest]
  have hw : Marks { u with dead := s.dead } := by
    refine re.marks marks fun j q _ ha _ => ?_
    by_cases eq : j = i
    · rw [eq] at ha
      change (u.bank i).parent = some q at ha
      rw [hu.top] at ha
      cases ha
    · exact (hu.parent j eq).symm.trans ha
  have hs := (hw.drop : Marks (drop { u with dead := s.dead } i)).shorten dead ?_
  · have hr : u.dead = rest := by rw [hu.rest]
    rw [← hr] at hs
    exact hs
  · intro e hm
    unfold Banks.stale
    by_cases eq : e.idx = i
    · rw [eq, (drop_changes { u with dead := s.dead } i).here]
      simp
    · have ho := (ht e hm).resolve_right eq
      rw [(drop_changes { u with dead := s.dead } i).there _ eq, re.state, re.seq]
      exact ho

lemma countP (hu : Unlinked s u p i l) (hj : Links s) (hg : Pool s) (hl : s.Live i)
    (hx : (s.bank i).parent = some p) (hy : (s.bank i).child = none) :
    s.live.countP s.leaf = (u.drop i).live.countP (u.drop i).leaf + (if l = [] then 0 else 1) ∧
      (l ≠ [] → 1 < s.live.countP s.leaf) := by
  have up := (hj.parent_live hl hx).1
  have ne : p ≠ i := by
    rintro rfl
    exact hj.parent_ne_self hl hx
  have hi : (s.bank p).child ≠ none := fun none => hj.not_parent up none hl hx
  -- neither the bank nor its parent is among the others
  let others := s.live.filter fun j => j ≠ i ∧ j ≠ p
  have hm : ∀ j, j ∈ others ↔ s.Live j ∧ j ≠ i ∧ j ≠ p := by
    intro j
    rw [mem_filter, hg.mem_live, decide_eq_true_iff]
  have nd : (p :: others).Nodup :=
    nodup_cons.mpr ⟨fun mem => ((hm p).mp mem).2.2 rfl, (live_nodup s).filter _⟩
  have hb : s.live.Perm (i :: p :: others) := by
    refine hg.live_perm (nodup_cons.mpr ⟨?_, nd⟩) ?_
    · rw [mem_cons, hm]
      rintro (eq | mem)
      · exact ne eq.symm
      · exact mem.2.1 rfl
    · intro j
      rw [mem_cons, mem_cons, hm]
      constructor
      · rintro (rfl | rfl | mem)
        · exact hl
        · exact up
        · exact mem.1
      · tauto
  have hf : (u.drop i).live.Perm (p :: others) := by
    refine (hu.drop_pool hg hl).live_perm nd ?_
    intro j
    rw [mem_cons, hm, hu.drop_live]
    constructor
    · rintro (rfl | mem)
      · exact ⟨up, ne⟩
      · exact ⟨mem.1, mem.2.1⟩
    · tauto
  have hs : others.countP (u.drop i).leaf = others.countP s.leaf := by
    refine countP_congr fun j mem => ?_
    rw [drop_leaf, Banks.leaf, Banks.leaf, hu.child j ((hm j).mp mem).2.2]
  have ht : s.leaf i = true := decide_eq_true hy
  have he : s.leaf p = false := decide_eq_false hi
  have hd : (u.drop i).leaf p = decide (l = []) := by
    rw [drop_leaf, Banks.leaf, hu.chain.first_eq, decide_eq_decide, head?_eq_none_iff]
  have hc : s.live.countP s.leaf = others.countP s.leaf + 1 := by
    rw [hb.countP_eq, countP_cons_of_pos ht, countP_cons_of_neg (by rw [he]; decide)]
  refine ⟨?_, ?_⟩
  · rw [hc, hf.countP_eq, countP_cons, hd, hs]
    by_cases ho : l = []
    · simp [ho]
    · simp [ho]
  · intro hk
    -- below another child there is another leaf
    obtain ⟨c, mem⟩ := exists_mem_of_ne_nil l hk
    obtain ⟨hz, hr⟩ := (hu.mem c).mp mem
    have hw := ((hj.mem_children p up c).mp hz).1
    obtain ⟨j, hp, hh, hv⟩ := hj.exists_leaf hg hw
    have ha : j ≠ i := by
      rintro rfl
      have htr := hj.branches hg
      have hn := (hj.mem_children p up j).mpr ⟨hl, hx⟩
      exact hr (htr.kids_apart (hg.mem_live.mpr up) hz hn hp Relation.ReflTransGen.refl)
    have hq : j ≠ p := by
      rintro rfl
      exact hi hv
    have some : 0 < others.countP s.leaf :=
      countP_pos_iff.mpr ⟨j, (hm j).mpr ⟨hh, ha, hq⟩, decide_eq_true hv⟩
    omega

end Unlinked

variable (hso : Sound s past)
include hso

lemma Sound.pruneOneLeaf (hl : s.Live i) (ne : i ≠ s.root) (hd : (s.bank i).child = none)
    (dead : s.dead = front ++ rest) (hb : ∀ e ∈ front, s.stale e = true ∨ e.idx = i) :
    ∃ t, pruneOneLeaf { s with dead := rest } i = .ok t ∧ Sound t.1 past := by
  have hs : Relabelled s { s with dead := rest } :=
    ⟨rfl, rfl, rfl, rfl, rfl, fun _ => rfl, fun _ => rfl, fun _ => rfl, fun _ => rfl, fun _ => .rfl⟩
  have hi := hs.links hso.links
  have hg := hs.pool hso.pool
  have hp := hso.pending.relabel hs rfl fun _ => .rfl
  have ht := hso.trackers.relabel hs rfl (fun _ => rfl) (fun _ => id) fun _ => id
  have hv : States { s with dead := rest } := ⟨hso.states.root, hso.states.dead, hso.states.frozen⟩
  obtain ⟨p, ha, up, -⟩ := hso.links.up i hl ne
  obtain ⟨u, l, hq, hh, hu⟩ := unlink_ok hi hl ha
  have hf := isNewFork_iff hi up ((hi.mem_children p up i).mpr ⟨hl, ha⟩) hu.mem
  obtain ⟨hc, hm⟩ := hu.countP hi hg hl ha hd
  have ho : u.currForkWidth = s.live.countP s.leaf := hh.trans hso.width
  -- the width goes down with the number of leaves
  have hn : u.narrow (decide ((s.bank p).child ≠ some i ∨ (s.bank i).sibling ≠ none)) =
      .ok { u with currForkWidth := (u.drop i).live.countP (u.drop i).leaf } := by
    unfold narrow
    by_cases he : l = []
    · rw [if_pos he] at hc
      have hk : u.currForkWidth = (u.drop i).live.countP (u.drop i).leaf := ho.trans hc
      rw [if_neg fun hy => hf.mp (of_decide_eq_true hy) he, ← hk]
    · rw [if_neg he] at hc
      have hr : 1 < u.currForkWidth := ho ▸ hm he
      have hx : u.currForkWidth - 1 = (u.drop i).live.countP (u.drop i).leaf :=
        Nat.sub_eq_of_eq_add (ho.trans hc)
      rw [if_pos (decide_eq_true (hf.mpr he)), check_of _ hr, hx]
  have h := hu.rewidth ((u.drop i).live.countP (u.drop i).leaf)
  have hw := h.pending hp ?_
  · refine ⟨(drop { u with currForkWidth := (u.drop i).live.countP (u.drop i).leaf } i,
      1 + (s.bank i).delegations.toNat), ?_, ⟨⟨h.drop_pool hg hl, hw.drop, ?_, ?_⟩, ?_, ?_, ?_⟩⟩
    · unfold Banks.pruneOneLeaf
      rw [ha]
      dsimp only
      rw [check_of _ hd, hq]
      dsimp only [bind, Except.bind]
      rw [hn]
      dsimp only
      rw [retire_eq hw]
    · exact h.marks hso.marks dead hb
    · exact (h.trackers ht).drop
    · exact h.links hi hg hl ha hd
    · exact h.states hv hi hl ha hd
    · rfl
  · intro j hj
    have ne : j ≠ p := by
      rintro rfl
      exact hso.links.not_parent up (hso.pending.leaf j hj) hl ha
    exact (h.child j ne).trans (hso.pending.leaf j hj)

section
variable (dead : s.dead = front ++ rest) (ht : ∀ e ∈ front, s.stale e = true)
include dead ht

lemma Sound.shorten : Sound { s with dead := rest } past := by
  have hs : Relabelled s { s with dead := rest } :=
    ⟨rfl, rfl, rfl, rfl, rfl, fun _ => rfl, fun _ => rfl, fun _ => rfl, fun _ => rfl, fun _ => .rfl⟩
  refine ⟨⟨hs.pool hso.pool, ?_, hso.marks.shorten dead ht, ?_⟩, hs.links hso.links, ?_,
    hs.width hso.width⟩
  · exact hso.pending.relabel hs rfl fun _ => .rfl
  · exact hso.trackers.relabel hs rfl (fun _ => rfl) (fun _ => id) fun _ => id
  · exact ⟨hso.states.root, hso.states.dead, hso.states.frozen⟩

lemma Sound.prunePrunable : ∃ t, prunePrunable { s with dead := rest } = .ok t ∧ Sound t.1 past := by
  unfold Banks.prunePrunable
  cases hw : s.prunable with
  | none => exact ⟨_, rfl, hw ▸ hso.shorten dead ht⟩
  | some i =>
    have hs := (hso.pending.iff i).mpr hw
    dsimp only
    rw [check_of _ hs]
    split
    · exact ⟨_, rfl, hw ▸ hso.shorten dead ht⟩
    · have hl : s.Live i := by
        unfold Live
        rw [hs]
        decide
      have ne : i ≠ s.root := by
        rintro rfl
        rw [hso.states.root] at hs
        cases hs
      rw [← hw]
      exact hso.pruneOneLeaf hl ne (hso.pending.leaf i hs) dead fun e hm => .inl (ht e hm)

end

lemma Sound.first_leaf {rest : List Idx} (hf : s.marked = i :: rest) :
    s.Live i ∧ i ≠ s.root ∧ (s.bank i).child = none := by
  have hs := (hso.marks.iff i).mpr (hf ▸ .head _)
  have hl : s.Live i := by
    unfold Live
    rw [hs]
    decide
  refine ⟨hl, ?_, ?_⟩
  · rintro rfl
    rw [hso.states.root] at hs
    cases hs
  · rw [hso.links.child_none hl, eq_nil_iff_forall_not_mem]
    intro c hk
    obtain ⟨hh, hp⟩ := (hso.links.mem_children i hl c).mp hk
    have ho := hso.marks.order c i hh hp hs
    have nd := hso.marks.nodup
    rw [hf] at ho nd
    have hn := (nodup_cons.mp nd).1
    cases ho with
    | cons _ ha => exact hn (ha.subset (.tail _ (.head _)))
    | cons_cons _ ha => exact hn (ha.subset (.head _))

lemma Sound.pruneOneBank : ∃ t, s.pruneOneBank = .ok t ∧ Sound t.1 past := by
  have hs : s.dead = s.dead.takeWhile s.stale ++ s.dead.dropWhile s.stale := takeWhile_append_dropWhile.symm
  have ht : ∀ e ∈ s.dead.takeWhile s.stale, s.stale e = true := fun e hm => mem_takeWhile_imp hm
  unfold Banks.pruneOneBank
  cases hr : s.dead.dropWhile s.stale with
  | nil =>
    rw [hr] at hs
    exact hso.prunePrunable hs ht
  | cons e rest' =>
    rw [hr] at hs
    dsimp only
    by_cases hh : (s.bank e.idx).refcnt ≠ 0
    · rw [if_pos hh]
      exact hso.prunePrunable hs ht
    · rw [if_neg hh]
      have hg : s.stale e = false := by
        have he : (s.dead.dropWhile s.stale).head? = some e := by rw [hr]; rfl
        have ho := head?_dropWhile_not s.stale s.dead
        rw [he] at ho
        simpa using ho
      have hf : s.marked = e.idx :: ((rest'.filter fun e => !s.stale e).map Entry.idx) := by
        have hn : (s.dead.takeWhile s.stale).filter (fun e => !s.stale e) = [] :=
          filter_eq_nil_iff.mpr fun e hm => by rw [ht e hm]; decide
        unfold marked
        rw [hs, filter_append, hn, filter_cons_of_pos (by rw [hg]; rfl)]
        rfl
      obtain ⟨hl, ne, ha⟩ := hso.first_leaf hf
      have hd : s.dead = (s.dead.takeWhile s.stale ++ [e]) ++ rest' := by
        rw [append_assoc]
        exact hs
      refine hso.pruneOneLeaf hl ne ha hd fun e' hm => ?_
      rcases mem_concat.mp hm with hm | hm
      · exact .inl (ht e' hm)
      · exact .inr (congrArg Entry.idx hm)

end Firebam.Forks
