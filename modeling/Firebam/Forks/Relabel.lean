import Firebam.Forks.Shape

/-! The operations that leave the tree as it is: a bank is cloned, frozen, referred to or chosen for
eviction. -/
namespace Firebam.Forks
open List Lib Banks Option

variable {b : Bank} {s t : Banks} {past : Past} {i j p c : Idx} {f : Bank → Bank} {k : Nat} {guarded : Option Idx}

lemma modify_bank (s : Banks) (i j : Idx) (f : Bank → Bank) :
    (s.modify i f).bank j = if j = i then f (s.bank j) else s.bank j := rfl

lemma modify_children (hc : ∀ b, (f b).child = b.child) (hi : ∀ b, (f b).sibling = b.sibling) :
    (s.modify i f).children = s.children := by
  have hk : ∀ {β : Type} (field : Bank → β), (∀ b, field (f b) = field b) →
      ∀ j, field ((s.modify i f).bank j) = field (s.bank j) := by
    intro β field hs j
    rw [modify_bank]
    split
    · exact hs _
    · rfl
  funext j
  unfold children
  rw [funext (hk Bank.sibling hi), hk Bank.child hc]
  rfl

lemma clearPrunable_eq (hi : (s.bank i).state = .prunable ↔ s.prunable = some i) :
    s.clearPrunable i = .ok { s with prunable := s.prunable.filter (· ≠ i) } := by
  unfold clearPrunable
  by_cases hw : (s.bank i).state = .prunable
  · have hh := hi.mp hw
    rw [if_pos hw, check_of _ hh, hh]
    simp [Option.filter]
  · rw [if_neg hw]
    rw [hi] at hw
    have hs : s.prunable.filter (· ≠ i) = s.prunable := by
      cases prunable : s.prunable with
      | none => rfl
      | some j =>
        have ne : j ≠ i := fun eq => hw (eq ▸ prunable)
        simp [Option.filter, ne]
    rw [hs]

lemma Pending.relabel (hp : Pending s) (ha : Relabelled s t) (hr : t.prunable = s.prunable)
    (hs : ∀ i, (t.bank i).state = .prunable ↔ (s.bank i).state = .prunable) : Pending t := by
  refine ⟨?_, ?_⟩
  · intro i
    rw [hs, hr]
    exact hp.iff i
  · intro i hw
    rw [ha.child]
    exact hp.leaf i ((hs i).mp hw)

lemma Marks.relabel (hm : Marks s) (same : Relabelled s t) (hd : t.dead = s.dead)
    (hs : ∀ i, (t.bank i).state = .dead ↔ (s.bank i).state = .dead) : Marks t := by
  have marked : t.marked = s.marked := by rw [marked, marked, hd, same.stale]
  refine ⟨?_, ?_, ?_, ?_, ?_⟩
  · intro i
    rw [hs, marked]
    exact hm.iff i
  · rw [marked]
    exact hm.nodup
  · intro i p live parent hg
    rw [marked]
    exact hm.order i p ((same.live i).mp live) ((same.parent i).symm.trans parent) ((hs p).mp hg)
  · rw [hd, same.bankSeq]
    exact hm.old
  · intro i live
    rw [same.seq, same.bankSeq]
    exact hm.seq i ((same.live i).mp live)

lemma Trackers.relabel (ht : Trackers s past) (hs : Relabelled s t) (hp : t.costTrackers = s.costTrackers)
    (ha : ∀ i, (t.bank i).costTracker = (s.bank i).costTracker)
    (hi : ∀ i, (t.bank i).state = .init → (s.bank i).state = .init)
    (he : ∀ i, (t.bank i).state = .replayable → (s.bank i).state = .replayable) : Trackers t past := by
  refine ⟨⟨hp ▸ ht.nodup, ?_, ?_⟩, ?_, ?_, ?_, ?_, ?_, ?_⟩
  · intro i k
    rw [ha, hp]
    exact ht.apart i k
  · intro i j k
    rw [ha, ha]
    exact ht.unique i j k
  · intro i
    rw [hs.live, ha]
    exact ht.inactive i
  · intro i
    rw [hs.live, ha, hs.entry]
    exact ht.held i
  · intro i hf
    rw [hs.entry]
    exact ht.init i (hi i hf)
  · intro i hr
    rw [hs.entry]
    exact ht.replayable i (he i hr)
  · exact ht.sub
  · rw [hs.bankSeq]
    exact ht.old

structure Changes (s t : Banks) (i : Idx) (b : Bank) : Prop where
  here : t.bank i = b
  there : ∀ j, j ≠ i → t.bank j = s.bank j

lemma Changes.field {β : Type} (hc : Changes s t i b) (field : Bank → β) (hs : field b = field (s.bank i))
    (j : Idx) : field (t.bank j) = field (s.bank j) := by
  by_cases eq : j = i
  · rw [eq, hc.here, hs]
  · rw [hc.there j eq]

lemma Changes.relabelled (hc : Changes s t i b) (hm : t.maxTotalBanks = s.maxTotalBanks) (hf : t.free = s.free)
    (hr : t.root = s.root) (hb : t.bankSeq = s.bankSeq) (hw : t.currForkWidth = s.currForkWidth)
    (hp : b.parent = (s.bank i).parent) (hh : b.child = (s.bank i).child) (hs : b.sibling = (s.bank i).sibling)
    (he : b.seq = (s.bank i).seq) (hl : s.Live i) (hi : b.state ≠ .inactive) : Relabelled s t := by
  refine ⟨hm, hf, hr, hb, hw, hc.field _ hp, hc.field _ hh,
    hc.field _ hs, hc.field _ he, ?_⟩
  intro j
  by_cases eq : j = i
  · subst eq
    unfold Live
    rw [hc.here]
    exact iff_of_true hi hl
  · unfold Live
    rw [hc.there j eq]

lemma Changes.state_iff {k : State} (hc : Changes s t i b) (hb : (s.bank i).state ≠ k)
    (ha : b.state ≠ k) (j : Idx) : (t.bank j).state = k ↔ (s.bank j).state = k := by
  by_cases eq : j = i
  · rw [eq, hc.here]
    exact iff_of_false ha hb
  · rw [hc.there j eq]

lemma Sound.touch (hs : Sound s past)
    (hk : ∀ b, f b = { b with refcnt := (f b).refcnt, delegations := (f b).delegations }) :
    Sound (s.modify i f) past := by
  have he : ∀ {β : Type} (field : Bank → β), (∀ b r d, field { b with refcnt := r, delegations := d } = field b) →
      ∀ j, field ((s.modify i f).bank j) = field (s.bank j) := by
    intro β field ha j
    rw [modify_bank]
    split
    · rw [hk, ha]
    · rfl
  have ht := he Bank.state fun _ _ _ => rfl
  have hr := he Bank.costTracker fun _ _ _ => rfl
  have ha : Relabelled s (s.modify i f) :=
    ⟨rfl, rfl, rfl, rfl, rfl, he Bank.parent fun _ _ _ => rfl, he Bank.child fun _ _ _ => rfl,
      he Bank.sibling fun _ _ _ => rfl, he Bank.seq fun _ _ _ => rfl, fun j => by
        unfold Live
        rw [ht]⟩
  refine ⟨⟨ha.pool hs.pool, ?_, ?_, ?_⟩, ha.links hs.links, ⟨?_, ?_, ?_⟩, ha.width hs.width⟩
  · exact hs.pending.relabel ha rfl fun j => by rw [ht]
  · exact hs.marks.relabel ha rfl fun j => by rw [ht]
  · exact hs.trackers.relabel ha rfl hr (fun j => (ht j).symm.trans) fun j => (ht j).symm.trans
  · rw [ht]
    exact hs.states.root
  · intro j p hh hp
    rw [ht, ht]
    exact hs.states.dead j p ((ha.live j).mp hh) ((ha.parent j).symm.trans hp)
  · intro j p
    rw [ht, ha.parent, ht]
    exact hs.states.frozen j p

def Past.clone (past : Past) (e : Entry) : Past := { past with cloned := e :: past.cloned }

def Past.freeze (past : Past) (e : Entry) : Past := { past with frozen := e :: past.frozen }

lemma entry_ne (ne : j ≠ i) : s.entry j ≠ s.entry i := fun eq => ne (congrArg Entry.idx eq)

lemma Holders.take (ho : Holders s) (hc : Changes s t i b)
    (hp : s.costTrackers = k :: t.costTrackers) (ht : b.costTracker = some k) : Holders t := by
  obtain ⟨hn, nd⟩ := nodup_cons.mp (hp ▸ ho.nodup)
  have hs : ∀ j, (s.bank j).costTracker ≠ some k := fun j hh =>
    ho.apart j k hh (hp ▸ .head _)
  refine ⟨nd, ?_, ?_⟩
  · intro j q hh
    by_cases eq : j = i
    · rw [eq, hc.here, ht] at hh
      cases hh
      exact hn
    · rw [hc.there j eq] at hh
      exact fun hx => ho.apart j q hh (hp ▸ .tail _ hx)
  · intro j l q hh hl
    by_cases eq : j = i <;> by_cases he : l = i
    · rw [eq, he]
    · rw [eq, hc.here, ht] at hh
      rw [hc.there l he] at hl
      cases hh
      exact absurd hl (hs l)
    · rw [he, hc.here, ht] at hl
      rw [hc.there j eq] at hh
      cases hl
      exact absurd hh (hs j)
    · rw [hc.there j eq] at hh
      rw [hc.there l he] at hl
      exact ho.unique j l q hh hl

lemma Holders.giveBack (ho : Holders s) (hc : Changes s t i b)
    (hp : t.costTrackers = (s.bank i).costTracker.toList ++ s.costTrackers) (none : b.costTracker = none) :
    Holders t := by
  have hb : ∀ {j q}, (t.bank j).costTracker = some q → j ≠ i ∧ (s.bank j).costTracker = some q := by
    intro j q hh
    by_cases eq : j = i
    · rw [eq, hc.here, none] at hh
      cases hh
    · rw [hc.there j eq] at hh
      exact ⟨eq, hh⟩
  refine ⟨?_, ?_, ?_⟩
  · rw [hp]
    cases ht : (s.bank i).costTracker with
    | none => exact ho.nodup
    | some k => exact nodup_cons.mpr ⟨ho.apart i k ht, ho.nodup⟩
  · intro j q hh hx
    obtain ⟨ne, hh⟩ := hb hh
    rw [hp, mem_append, mem_toList] at hx
    rcases hx with hm | hx
    · exact ne (ho.unique j i q hh hm)
    · exact ho.apart j q hh hx
  · intro j l q hh hl
    exact ho.unique j l q (hb hh).2 (hb hl).2

section
variable (htr : Trackers s past) (hm : Relabelled s t) (ha : Changes s t i b)
include htr hm ha

lemma Trackers.change {past' : Past} (ho : Holders t)
    (hc : ∀ j, j ≠ i → (s.entry j ∈ past'.cloned ↔ s.entry j ∈ past.cloned))
    (hf : ∀ j, j ≠ i → (s.entry j ∈ past'.frozen ↔ s.entry j ∈ past.frozen)) (hi : ¬s.Live i → b.costTracker = none)
    (he : b.costTracker ≠ none ↔ s.entry i ∈ past'.cloned ∧ s.entry i ∉ past'.frozen) (hb : b.state ≠ .init)
    (hr : b.state = .replayable → s.entry i ∈ past'.cloned ∧ s.entry i ∉ past'.frozen)
    (hd : ∀ e ∈ past'.frozen, e ∈ past'.cloned) (hl : ∀ e ∈ past'.cloned, e.seq < s.bankSeq) : Trackers t past' := by
  refine ⟨ho, ?_, ?_, ?_, ?_, hd, hm.bankSeq ▸ hl⟩
  · intro j hg
    rw [hm.live] at hg
    by_cases eq : j = i
    · rw [eq, ha.here]
      exact hi (eq ▸ hg)
    · rw [ha.there j eq]
      exact htr.inactive j hg
  · intro j hh
    rw [hm.live] at hh
    rw [hm.entry]
    by_cases eq : j = i
    · rw [eq, ha.here]
      exact he
    · rw [ha.there j eq, hc j eq, hf j eq]
      exact htr.held j hh
  · intro j hs
    rw [hm.entry]
    by_cases eq : j = i
    · rw [eq, ha.here] at hs
      exact absurd hs hb
    · rw [ha.there j eq] at hs
      rw [hc j eq]
      exact htr.init j hs
  · intro j hu
    rw [hm.entry]
    by_cases eq : j = i
    · rw [eq, ha.here] at hu
      rw [eq]
      exact hr hu
    · rw [ha.there j eq] at hu
      rw [hc j eq, hf j eq]
      exact htr.replayable j hu

lemma Trackers.clone (hf : (s.bank i).state = .init) (hp : s.costTrackers = k :: t.costTrackers)
    (hr : b.state = .replayable) (ht : b.costTracker = some k) (hy : (s.bank i).seq < s.bankSeq) :
    Trackers t (past.clone (s.entry i)) := by
  have hi : s.entry i ∈ (past.clone (s.entry i)).cloned ∧ s.entry i ∉ past.frozen :=
    ⟨.head _, fun hx => htr.init i hf (htr.sub _ hx)⟩
  refine htr.change hm ha (htr.toHolders.take ha hp ht) ?_ (fun _ _ => .rfl) ?_ ?_ ?_
    (fun _ => hi) ?_ ?_
  · intro j ne
    rw [Past.clone, mem_cons, or_iff_right (entry_ne ne)]
  · intro hg
    unfold Live at hg
    rw [hf] at hg
    exact absurd (by decide) hg
  · rw [ht]
    exact iff_of_true (some_ne_none k) hi
  · rw [hr]
    decide
  · exact fun e hx => .tail _ (htr.sub e hx)
  · exact forall_mem_cons.mpr ⟨hy, htr.old⟩

lemma Trackers.freeze (hr : (s.bank i).state = .replayable) (hf : b.state = .frozen)
    (none : b.costTracker = none) (hp : t.costTrackers = (s.bank i).costTracker.toList ++ s.costTrackers) :
    Trackers t (past.freeze (s.entry i)) := by
  refine htr.change hm ha (htr.toHolders.giveBack ha hp none) (fun _ _ => .rfl) ?_
    (fun _ => none) ?_ ?_ ?_ ?_ htr.old
  · intro j ho
    rw [Past.freeze, mem_cons, or_iff_right (entry_ne ho)]
  · rw [none]
    exact iff_of_false (fun ne => ne rfl) fun hb => hb.2 (.head _)
  · rw [hf]
    decide
  · rw [hf]
    exact nofun
  · exact forall_mem_cons.mpr ⟨(htr.replayable i hr).1, htr.sub⟩

end

lemma Sound.parent_frozen (hs : Sound s past) (hl : s.Live i)
    (hr : s.parentState i = some .frozen ∨ s.parentState i = some .prunable) :
    ∃ p, (s.bank i).parent = some p ∧ (s.bank p).state = .frozen := by
  unfold parentState at hr
  cases hp : (s.bank i).parent with
  | none =>
    rw [hp] at hr
    rcases hr with hr | hr <;> cases hr
  | some p =>
    refine ⟨p, rfl, ?_⟩
    rw [hp] at hr
    simp only [map_some, some.injEq] at hr
    rcases hr with hr | hr
    · exact hr
    · -- a bank that waits for its eviction has no children
      have up := (hs.links.parent_live hl hp).1
      exact absurd hp (hs.links.not_parent up (hs.pending.leaf p hr) hl)

lemma States.change (hd : States s) (hm : Relabelled s t) (hh : Changes s t i b)
    (ne : i ≠ s.root) (hb : (s.bank i).state ≠ .dead) (ha : b.state ≠ .dead)
    (he : (s.bank i).state = .frozen → b.state ≠ .frozen → ∀ c, s.Live c → (s.bank c).parent ≠ some i)
    (hr : b.state = .replayable ∨ b.state = .frozen → ∀ p, (s.bank i).parent = some p → (s.bank p).state = .frozen)
    (hf : (s.bank i).parent ≠ some i) : States t := by
  refine ⟨?_, ?_, ?_⟩
  · rw [hm.root, hh.there _ ne.symm]
    exact hd.root
  · intro j p hl hp
    rw [hh.state_iff hb ha, hh.state_iff hb ha]
    rw [hm.parent] at hp
    exact hd.dead j p ((hm.live j).mp hl) hp
  · intro j p hc hp
    rw [hm.parent] at hp
    have hl : s.Live j := by
      rw [← hm.live]
      unfold Live
      rcases hc with hs | hs <;> rw [hs] <;> decide
    have up : (s.bank p).state = .frozen := by
      by_cases eq : j = i
      · subst eq
        rw [hh.here] at hc
        exact hr hc p hp
      · rw [hh.there j eq] at hc
        exact hd.frozen j p hc hp
    by_cases eq : p = i
    · subst eq
      rw [hh.here]
      by_contra ht
      exact he up ht j hl hp
    · rw [hh.there p eq]
      exact up

lemma Links.parent_ne_self (hk : Links s) (hl : s.Live i) : (s.bank i).parent ≠ some i := by
  intro hp
  have hy := (hk.parent_live hl hp).2
  omega

lemma Sound.cloneFromParent (hs : Sound s past) (hf : (s.bank i).state = .init)
    (hr : s.parentState i = some .frozen ∨ s.parentState i = some .prunable) (ho : s.costTrackers ≠ []) :
    ∃ t, s.cloneFromParent i = .ok t ∧ Sound t (past.clone (s.entry i)) := by
  have hl : s.Live i := by
    unfold Live
    rw [hf]
    decide
  obtain ⟨p, hp, hn⟩ := hs.parent_frozen hl hr
  cases hh : s.costTrackers with
  | nil => exact absurd hh ho
  | cons k rest =>
    refine ⟨{ s.modify i fun b => { b with costTracker := some k, delegations := true, state := .replayable } with
      costTrackers := rest }, ?_, ?_⟩
    · unfold Banks.cloneFromParent
      rw [check_of _ hf, check_of _ hr, hh]
    · have hc : Changes s { s.modify i fun b =>
          { b with costTracker := some k, delegations := true, state := .replayable } with costTrackers := rest } i _ :=
        ⟨if_pos rfl, fun j ht => if_neg ht⟩
      have ha := hc.relabelled rfl rfl rfl rfl rfl rfl rfl rfl rfl hl nofun
      have hk : ∀ {k}, State.init ≠ k → (s.bank i).state ≠ k := fun ne => hf ▸ ne
      refine ⟨⟨ha.pool hs.pool, ?_, ?_, ?_⟩, ha.links hs.links, ?_, ha.width hs.width⟩
      · exact hs.pending.relabel ha rfl (hc.state_iff (hk nofun) nofun)
      · exact hs.marks.relabel ha rfl (hc.state_iff (hk nofun) nofun)
      · exact hs.trackers.clone ha hc hf hh rfl rfl (hs.marks.seq i hl)
      · refine hs.states.change ha hc (hs.links.parent_ne_root hp) (hk nofun) nofun ?_ ?_
          (hs.links.parent_ne_self hl)
        · exact fun hn => absurd hn (hk nofun)
        · intro _ q he
          rw [hp] at he
          cases he
          exact hn

lemma Sound.markBankFrozen (hs : Sound s past) (hu : (s.bank i).state = .replayable) :
    ∃ t, s.markBankFrozen i = .ok t ∧ Sound t (past.freeze (s.entry i)) := by
  have hl : s.Live i := by
    unfold Live
    rw [hu]
    decide
  have hh := (hs.trackers.held i hl).mpr (hs.trackers.replayable i hu)
  obtain ⟨k, ht⟩ := ne_none_iff_exists'.mp hh
  have ho : i ≠ s.root := by
    rintro rfl
    rw [hs.states.root] at hu
    cases hu
  have hr : (s.modify i fun b => { b with state := .frozen }).releaseCostTracker i =
      { (s.modify i fun b => { b with state := .frozen }).modify i fun b => { b with costTracker := none } with
        costTrackers := k :: s.costTrackers } := by
    unfold releaseCostTracker
    rw [modify_bank, if_pos rfl, ht]
    rfl
  refine ⟨(s.modify i fun b => { b with state := .frozen }).releaseCostTracker i, ?_, ?_⟩
  · unfold Banks.markBankFrozen
    rw [check_of _ hu, check_of _ hh]
  · rw [hr]
    have hc : Changes s { (s.modify i fun b => { b with state := .frozen }).modify i fun b =>
        { b with costTracker := none } with costTrackers := k :: s.costTrackers } i
        { s.bank i with state := .frozen, costTracker := none } := by
      refine ⟨?_, ?_⟩
      · simp only [modify_bank, if_true]
      · intro j ne
        simp only [modify_bank, if_neg ne]
    have ha := hc.relabelled rfl rfl rfl rfl rfl rfl rfl rfl rfl hl nofun
    have hk : ∀ {k}, State.replayable ≠ k → (s.bank i).state ≠ k := fun ne => hu ▸ ne
    refine ⟨⟨ha.pool hs.pool, ?_, ?_, ?_⟩, ha.links hs.links, ?_, ha.width hs.width⟩
    · exact hs.pending.relabel ha rfl (hc.state_iff (hk nofun) nofun)
    · exact hs.marks.relabel ha rfl (hc.state_iff (hk nofun) nofun)
    · refine hs.trackers.freeze ha hc hu rfl rfl ?_
      rw [ht]
      rfl
    · refine hs.states.change ha hc ho (hk nofun) nofun ?_ ?_ (hs.links.parent_ne_self hl)
      · exact fun _ hn => absurd rfl hn
      · exact fun _ p hp => hs.states.frozen i p (.inl hu) hp

lemma evictable_of_mem {n : Nat} (hx : j ∈ s.evictables guarded n i) : s.evictable guarded j = true := by
  induction n generalizing i with
  | zero => cases hx
  | succ n ih =>
    rw [evictables, mem_append, mem_flatMap] at hx
    rcases hx with ⟨c, _, hx⟩ | hx
    · exact ih hx
    · split_ifs at hx with hh
      · rw [mem_singleton.mp hx]
        exact hh
      · cases hx

lemma Sound.evict (hs : Sound s past) (hi : s.prunable = none) (hh : s.evictable guarded i = true) (evictRrIdx : Nat) :
    Sound { s.modify i fun b => { b with state := .prunable } with
      evictRrIdx := evictRrIdx, prunable := some i } past := by
  obtain ⟨hf, ne, -, -, hl, he, -⟩ := of_decide_eq_true hh
  have hc : Changes s { s.modify i fun b => { b with state := .prunable } with
      evictRrIdx := evictRrIdx, prunable := some i } i _ := ⟨if_pos rfl, fun j ne => if_neg ne⟩
  have ha := hc.relabelled rfl rfl rfl rfl rfl rfl rfl rfl rfl hl nofun
  refine ⟨⟨ha.pool hs.pool, ⟨?_, ?_⟩, ?_, ?_⟩, ha.links hs.links, ?_, ha.width hs.width⟩
  · intro j
    by_cases eq : j = i
    · rw [eq, hc.here]
      exact iff_of_true rfl rfl
    · rw [hc.there j eq, hs.pending.iff, hi]
      exact iff_of_false nofun fun ha => eq (some.inj ha).symm
  · intro j hw
    rw [ha.child]
    by_cases eq : j = i
    · rw [eq]
      exact hf
    · rw [hc.there j eq, hs.pending.iff, hi] at hw
      cases hw
  · exact hs.marks.relabel ha rfl (hc.state_iff he nofun)
  · refine hs.trackers.relabel ha rfl (hc.field Bank.costTracker rfl) ?_ ?_
    all_goals
      intro j state
      by_cases eq : j = i
      · rw [eq, hc.here] at state
        cases state
      · rw [hc.there j eq] at state
        exact state
  · refine hs.states.change ha hc ne he nofun ?_ ?_ (hs.links.parent_ne_self hl)
    · exact fun _ _ c hk => hs.links.not_parent hl hf hk
    · rintro (state | state) <;> cases state

lemma Sound.getEvictableBank (hs : Sound s past) (guarded : Option Idx) :
    ∃ t, s.getEvictableBank guarded = .ok t ∧ Sound t.1 past := by
  unfold Banks.getEvictableBank
  by_cases hi : s.prunable = none
  · rw [if_neg (not_not.mpr hi)]
    split
    · exact ⟨_, rfl, hs⟩
    · split_ifs with ho
      · exact ⟨_, rfl, hs⟩
      · have hh := Nat.mod_lt s.evictRrIdx (length_pos_of_ne_nil ho)
        have hc := evictable_of_mem (getElem_mem hh)
        unfold pickEvictable
        rw [getElem?_eq_getElem hh]
        dsimp only
        rw [check_of _ (of_decide_eq_true hc).1]
        exact ⟨_, rfl, hs.evict hi hc _⟩
  · rw [if_pos hi]
    exact ⟨_, rfl, hs⟩

end Firebam.Forks
