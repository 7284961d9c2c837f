import Firebam.Forks.Basic

/-! What holds of the banks between two operations. -/
namespace Firebam.Forks
open List Lib

variable {l : List Idx}

structure Past where
  cloned : List Entry
  frozen : List Entry

namespace Banks
variable (s : Banks)

def Live (i : Idx) : Prop := (s.bank i).state ≠ .inactive

def entry (i : Idx) : Entry := ⟨i, (s.bank i).seq⟩

def marked : List Idx := (s.dead.filter fun e => !s.stale e).map Entry.idx

def subtree (i : Idx) : List Idx := Lib.subtree s.children s.maxTotalBanks i

def leaf (i : Idx) : Bool := (s.bank i).child = none

end Banks

structure Pool (s : Banks) : Prop where
  nodup : s.free.Nodup
  mem_free : ∀ i, i ∈ s.free ↔ i < s.maxTotalBanks ∧ ¬s.Live i
  bounded : ∀ i, s.Live i → i < s.maxTotalBanks

/-- The links describe a tree. Every bank is younger than its parent. -/
structure Links (s : Banks) : Prop where
  root_live : s.Live s.root
  root_parent : (s.bank s.root).parent = none
  root_sibling : (s.bank s.root).sibling = none
  chain : ∀ i, s.Live i → Chain (fun j => (s.bank j).sibling) (s.bank i).child (s.children i)
  mem_children : ∀ i, s.Live i → ∀ c, c ∈ s.children i ↔ s.Live c ∧ (s.bank c).parent = some i
  up : ∀ i, s.Live i → i ≠ s.root → ∃ p, (s.bank i).parent = some p ∧ s.Live p ∧ (s.bank p).seq < (s.bank i).seq

structure Pending (s : Banks) : Prop where
  iff : ∀ i, (s.bank i).state = .prunable ↔ s.prunable = some i
  leaf : ∀ i, (s.bank i).state = .prunable → (s.bank i).child = none

structure States (s : Banks) : Prop where
  root : (s.bank s.root).state = .frozen
  dead : ∀ i p, s.Live i → (s.bank i).parent = some p → (s.bank p).state = .dead → (s.bank i).state = .dead
  frozen : ∀ i p, (s.bank i).state = .replayable ∨ (s.bank i).state = .frozen → (s.bank i).parent = some p →
    (s.bank p).state = .frozen

/-- Children are pruned before their parents. -/
structure Marks (s : Banks) : Prop where
  iff : ∀ i, (s.bank i).state = .dead ↔ i ∈ s.marked
  nodup : s.marked.Nodup
  order : ∀ i p, s.Live i → (s.bank i).parent = some p → (s.bank p).state = .dead → [i, p].Sublist s.marked
  old : ∀ e ∈ s.dead, e.seq < s.bankSeq
  seq : ∀ i, s.Live i → (s.bank i).seq < s.bankSeq

structure Holders (s : Banks) : Prop where
  nodup : s.costTrackers.Nodup
  apart : ∀ i k, (s.bank i).costTracker = some k → k ∉ s.costTrackers
  unique : ∀ i j k, (s.bank i).costTracker = some k → (s.bank j).costTracker = some k → i = j

structure Trackers (s : Banks) (past : Past) : Prop extends Holders s where
  inactive : ∀ i, ¬s.Live i → (s.bank i).costTracker = none
  held : ∀ i, s.Live i → ((s.bank i).costTracker ≠ none ↔ s.entry i ∈ past.cloned ∧ s.entry i ∉ past.frozen)
  init : ∀ i, (s.bank i).state = .init → s.entry i ∉ past.cloned
  replayable : ∀ i, (s.bank i).state = .replayable → s.entry i ∈ past.cloned ∧ s.entry i ∉ past.frozen
  sub : ∀ e ∈ past.frozen, e ∈ past.cloned
  old : ∀ e ∈ past.cloned, e.seq < s.bankSeq

structure Core (s : Banks) (past : Past) : Prop where
  pool : Pool s
  pending : Pending s
  marks : Marks s
  trackers : Trackers s past

structure Sound (s : Banks) (past : Past) : Prop extends Core s past where
  links : Links s
  states : States s
  width : s.currForkWidth = s.live.countP s.leaf

variable {s t : Banks} {i j p c r : Idx}

lemma Pool.mem_live (hp : Pool s) : i ∈ s.live ↔ s.Live i := by
  unfold Banks.live Banks.Live
  rw [mem_filter, mem_range, decide_eq_true_iff]
  exact ⟨fun hb => hb.2, fun hl => ⟨hp.bounded i hl, hl⟩⟩

lemma live_nodup (s : Banks) : s.live.Nodup := nodup_range.filter _

lemma live_length (s : Banks) : s.live.length ≤ s.maxTotalBanks := by
  have hs : s.live.length ≤ (List.range s.maxTotalBanks).length := length_filter_le _ _
  rwa [length_range] at hs

lemma Pool.length_le (hp : Pool s) (nd : l.Nodup) (hl : ∀ i ∈ l, s.Live i) : l.length ≤ s.maxTotalBanks :=
  Nat.le_trans (subperm_of_subset nd fun i hm => hp.mem_live.mpr (hl i hm)).length_le (live_length s)

lemma Pool.live_perm (hp : Pool s) (nd : l.Nodup) (hi : ∀ i, i ∈ l ↔ s.Live i) : s.live.Perm l := by
  refine (perm_ext_iff_of_nodup (live_nodup s) nd).mpr fun i => ?_
  rw [hp.mem_live, hi]

lemma Pool.children_eq (hp : Pool s)
    (hc : Chain (fun j => (s.bank j).sibling) (s.bank i).child l) (hl : ∀ i ∈ l, s.Live i) : s.children i = l :=
  hc.follow (hp.length_le hc.nodup hl)

lemma Links.of (hp : Pool s) (kids : Idx → List Idx) (he : s.Live s.root)
    (ho : (s.bank s.root).parent = none) (hr : (s.bank s.root).sibling = none)
    (hc : ∀ i, s.Live i → Chain (fun j => (s.bank j).sibling) (s.bank i).child (kids i))
    (hm : ∀ i, s.Live i → ∀ c, c ∈ kids i ↔ s.Live c ∧ (s.bank c).parent = some i)
    (up : ∀ i, s.Live i → i ≠ s.root → ∃ p, (s.bank i).parent = some p ∧ s.Live p ∧ (s.bank p).seq < (s.bank i).seq) :
    Links s := by
  have hs : ∀ i, s.Live i → s.children i = kids i := fun i hl =>
    hp.children_eq (hc i hl) fun c m => ((hm i hl c).mp m).1
  refine ⟨he, ho, hr, ?_, ?_, up⟩
  · intro i hl
    rw [hs i hl]
    exact hc i hl
  · intro i hl
    rw [hs i hl]
    exact hm i hl

namespace Links

variable (links : Links s)
include links

lemma parent_ne_root (hp : (s.bank i).parent = some p) : i ≠ s.root := by
  rintro rfl
  rw [links.root_parent] at hp
  cases hp

lemma parent_live (hl : s.Live i) (hp : (s.bank i).parent = some p) : s.Live p ∧ (s.bank p).seq < (s.bank i).seq := by
  obtain ⟨q, ha, hl, hy⟩ := links.up i hl (links.parent_ne_root hp)
  rw [hp] at ha
  cases ha
  exact ⟨hl, hy⟩

lemma branches (hp : Pool s) : Branches s.live s.children fun i => (s.bank i).seq where
  sub := fun i hx c hk =>
    hp.mem_live.mpr ((links.mem_children i (hp.mem_live.mp hx) c).mp hk).1
  rises := fun i hx c hk => by
    obtain ⟨hl, ha⟩ := (links.mem_children i (hp.mem_live.mp hx) c).mp hk
    exact (links.parent_live hl ha).2
  nodup := fun i hx => (links.chain i (hp.mem_live.mp hx)).nodup
  unique := fun i hx j hm c hk hi => by
    have hf := ((links.mem_children i (hp.mem_live.mp hx) c).mp hk).2
    have hs := ((links.mem_children j (hp.mem_live.mp hm) c).mp hi).2
    rw [hf] at hs
    exact Option.some.inj hs

lemma child_none (hl : s.Live i) : (s.bank i).child = none ↔ s.children i = [] := by
  rw [(links.chain i hl).first_eq, head?_eq_none_iff]

lemma not_parent (hl : s.Live i) (he : (s.bank i).child = none) (hk : s.Live c) : (s.bank c).parent ≠ some i := by
  intro hp
  have hm := (links.mem_children i hl c).mpr ⟨hk, hp⟩
  rw [(links.child_none hl).mp he] at hm
  cases hm

lemma below_root (hl : s.Live i) : Reaches s.children s.root i := by
  induction age : (s.bank i).seq using Nat.strongRecOn generalizing i with
  | ind _ ih =>
    by_cases ht : i = s.root
    · rw [ht]
      exact Relation.ReflTransGen.refl
    · obtain ⟨p, hp, up, hy⟩ := links.up i hl ht
      have ha := ih _ (age ▸ hy) up rfl
      exact ha.trans_kid ((links.mem_children p up i).mpr ⟨hl, hp⟩)

variable (pool : Pool s) (hl : s.Live i)
include pool hl

lemma mem_subtree : j ∈ s.subtree i ↔ Reaches s.children i j :=
  (links.branches pool).mem_subtree (live_length s) (pool.mem_live.mpr hl)

lemma subtree_live (hm : j ∈ s.subtree i) : s.Live j := by
  have hb := (links.mem_subtree pool hl).mp hm
  exact pool.mem_live.mp ((links.branches pool).below_mem (pool.mem_live.mpr hl) hb)

lemma subtree_eq : s.subtree i = i :: (s.children i).flatMap s.subtree :=
  (links.branches pool).subtree_eq (live_length s) (pool.mem_live.mpr hl)

lemma subtree_nodup : (s.subtree i).Nodup :=
  (links.branches pool).subtree_nodup (live_length s) (pool.mem_live.mpr hl)

lemma subtree_closed (hm : p ∈ s.subtree i) (hk : s.Live c) (hp : (s.bank c).parent = some p) : c ∈ s.subtree i := by
  have up := links.subtree_live pool hl hm
  have hb := (links.mem_subtree pool hl).mp hm
  exact (links.mem_subtree pool hl).mpr (hb.trans_kid ((links.mem_children p up c).mpr ⟨hk, hp⟩))

lemma root_not_mem (ne : i ≠ s.root) : s.root ∉ s.subtree i := by
  intro hm
  rcases Relation.ReflTransGen.cases_tail ((links.mem_subtree pool hl).mp hm) with eq | ⟨p, ha, hk⟩
  · exact ne eq.symm
  · have up := pool.mem_live.mp ((links.branches pool).below_mem (pool.mem_live.mpr hl) ha)
    have hp := ((links.mem_children p up s.root).mp hk).2
    rw [links.root_parent] at hp
    cases hp

end Links

structure Relabelled (s t : Banks) : Prop where
  maxTotalBanks : t.maxTotalBanks = s.maxTotalBanks
  free : t.free = s.free
  root : t.root = s.root
  bankSeq : t.bankSeq = s.bankSeq
  currForkWidth : t.currForkWidth = s.currForkWidth
  parent : ∀ i, (t.bank i).parent = (s.bank i).parent
  child : ∀ i, (t.bank i).child = (s.bank i).child
  sibling : ∀ i, (t.bank i).sibling = (s.bank i).sibling
  seq : ∀ i, (t.bank i).seq = (s.bank i).seq
  live : ∀ i, t.Live i ↔ s.Live i

namespace Relabelled

variable (hs : Relabelled s t)
include hs

lemma entry (i : Idx) : t.entry i = s.entry i := congrArg (Entry.mk i) (hs.seq i)

lemma children : t.children = s.children := by
  funext i
  unfold Banks.children
  rw [funext hs.sibling, hs.maxTotalBanks, hs.child]

lemma stale : t.stale = s.stale := by
  funext e
  have hl := not_congr (hs.live e.idx)
  unfold Banks.Live at hl
  unfold Banks.stale
  rw [hs.seq]
  simp only [not_not] at hl
  simp [hl]

lemma pool (pool : Pool s) : Pool t := by
  refine ⟨hs.free ▸ pool.nodup, ?_, ?_⟩
  · intro i
    rw [hs.free, hs.maxTotalBanks, hs.live]
    exact pool.mem_free i
  · intro i hl
    rw [hs.maxTotalBanks]
    exact pool.bounded i ((hs.live i).mp hl)

lemma links (links : Links s) : Links t := by
  refine ⟨?_, ?_, ?_, ?_, ?_, ?_⟩
  · rw [hs.live, hs.root]
    exact links.root_live
  · rw [hs.parent, hs.root]
    exact links.root_parent
  · rw [hs.sibling, hs.root]
    exact links.root_sibling
  · intro i hl
    rw [funext hs.sibling, hs.child, hs.children]
    exact links.chain i ((hs.live i).mp hl)
  · intro i hl c
    rw [hs.children, hs.live, hs.parent]
    exact links.mem_children i ((hs.live i).mp hl) c
  · intro i hl ne
    rw [hs.root] at ne
    obtain ⟨p, hp, up, hy⟩ := links.up i ((hs.live i).mp hl) ne
    refine ⟨p, (hs.parent i).trans hp, (hs.live p).mpr up, ?_⟩
    rw [hs.seq, hs.seq]
    exact hy

lemma width (width : s.currForkWidth = s.live.countP s.leaf) : t.currForkWidth = t.live.countP t.leaf := by
  have hl : t.leaf = s.leaf := funext fun i => by rw [Banks.leaf, Banks.leaf, hs.child]
  have hi : t.live = s.live := by
    unfold Banks.live
    rw [hs.maxTotalBanks]
    refine filter_congr fun i _ => decide_eq_decide.mpr (hs.live i)
  rw [hs.currForkWidth, width, hl, hi]

end Relabelled

end Firebam.Forks
