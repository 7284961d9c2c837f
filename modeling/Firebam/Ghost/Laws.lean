import Firebam.Ghost.Valid

/-! The laws of the validity flags along runs. -/
namespace Firebam.Ghost
open Lib List Ghost.Tree

variable {b : Blk} {g : Tree} {s t : Marked} {op : Op} {bankSeq slot blkMax vtrMax : Nat} {id parentId : Hash}
  {ops : List Op}

structure Marked where
  tree : Tree
  eqvocs : List Hash

def Marked.step (s : Marked) (op : Op) : Except Fault Marked := do
  let g ← s.tree.step op
  .ok { tree := g, eqvocs := match op with
    | .eqvoc id => if (s.tree.query id).isSome then id :: s.eqvocs else s.eqvocs
    | .confirm id => if (s.tree.query id).isSome then s.eqvocs.filter fun m => !s.tree.isAncestor m id
      else s.eqvocs
    | .publish _ => s.eqvocs.filter fun m => (g.query m).isSome
    | .insert _ _ _ _ | .countVote _ _ _ _ => s.eqvocs }

def Marked.ValidParent (s : Marked) : Op → Prop
  | .insert _ _ _ parentId => s.tree.validAt parentId = true
  | .countVote _ _ _ _ | .publish _ | .confirm _ | .eqvoc _ => True

instance (s : Marked) : ∀ op, Decidable (s.ValidParent op)
  | .insert .. | .countVote .. | .publish _ | .confirm _ | .eqvoc _ => by
    unfold Marked.ValidParent
    infer_instance

/-- The laws: a confirmation makes the block and its ancestors valid, a block reported as
equivocating has no valid block below it, and fd_ghost_best passes valid blocks only. -/
structure Marked.Lawful (s : Marked) : Prop where
  confirm : ∀ b ∈ s.tree.blks, ∀ x, s.tree.isAncestor x b.id = true → (s.tree.confirm b.id).validAt x = true
  eqvoc : ∀ m ∈ s.eqvocs, ∀ b ∈ s.tree.blks, s.tree.isAncestor m b.id = true → b.valid = false
  best : ∀ b ∈ s.tree.blks, ∀ x, s.tree.isAncestor b.id x = true →
    s.tree.isAncestor x (s.tree.best b).id = true → x ≠ b.id → s.tree.validAt x = true

/-- Validity is inherited from child to parent, and the reported subtrees are invalid. -/
structure Marked.Inherits (s : Marked) : Prop where
  wf : s.tree.Wf
  up : ∀ b q, parOf s.tree.shape b = some q → s.tree.validAt b = true → s.tree.validAt q = true
  inside : ∀ m ∈ s.eqvocs, m ∈ nodes s.tree.shape
  below : ∀ m ∈ s.eqvocs, ∀ x ∈ nodes s.tree.shape, Below (parOf s.tree.shape) m x → s.tree.validAt x = false

lemma mem_nodes_of_blk (hm : b ∈ g.blks) : b.id ∈ nodes g.shape := by
  rw [g.nodes_shape]
  exact mem_map_of_mem hm

lemma Tree.Wf.validAt_blk (wf : g.Wf) (hm : b ∈ g.blks) : g.validAt b.id = b.valid := by
  rw [validAt, query_of_mem wf.grown.nodup hm]
  rfl

lemma best_lawful (wf : g.Wf) (hm : b ∈ g.blks) (x : Hash)
    (hd : g.isAncestor b.id x = true) (up : g.isAncestor x (g.best b).id = true) (ne : x ≠ b.id) :
    g.validAt x = true := by
  obtain ⟨hi, _, hb⟩ := bestFrom_spec (n := g.blks.length) wf hm
  have ha := (wf.isAncestor_iff (mem_nodes_of_blk hi)).mp up
  have hn := wf.grown.mem_of_below ha (mem_nodes_of_blk hi)
  exact hb x ((wf.isAncestor_iff hn).mp hd) ha ne

lemma Marked.Inherits.lawful (hn : s.Inherits) : s.Lawful := by
  have wf := hn.wf
  refine ⟨?_, ?_, fun b hx x => best_lawful wf hx x⟩
  · intro b hx x ha
    have hi := mem_nodes_of_blk hx
    refine (confirm_spec wf hi ?_ x).mpr (.inr ((wf.isAncestor_iff hi).mp ha))
    exact fun c q _ hl hf => hn.up c q hl hf
  · intro m hm b hx ha
    have hi := mem_nodes_of_blk hx
    rw [← wf.validAt_blk hx]
    exact hn.below m hm b.id hi ((wf.isAncestor_iff hi).mp ha)

lemma validAt_append (hf : b.id ∉ nodes g.shape) (width : Nat) (x : Hash) :
    ({ g with blks := g.blks ++ [b], width := width } : Tree).validAt x =
      if x = b.id then b.valid else g.validAt x := by
  simp only [validAt, query, find?_append]
  by_cases hh : x = b.id
  · subst hh
    have hn : (g.blks.find? fun c => decide (c.id = b.id)) = none := query_none.mpr hf
    simp [hn]
  · have ne : ¬ b.id = x := fun eq => hh eq.symm
    simp [hh, ne]

section
variable (hh : s.Inherits)
include hh

lemma Marked.Inherits.insert (ne : parentId ≠ id) (hv : s.tree.validAt parentId = true)
    (h : s.tree.insert bankSeq slot id parentId = .ok g) : (Marked.mk g s.eqvocs).Inherits := by
  obtain ⟨wf, hp, ht⟩ := insert_wf hh.wf h ne
  obtain ⟨hf, _, hs⟩ := insert_ok h
  have hg := hh.wf.grown
  have hl : ∀ x, g.validAt x = if x = id then true else s.tree.validAt x := fun x => hs ▸ validAt_append hf _ x
  refine ⟨wf, ?_, ?_, ?_⟩
  · intro b q hk hc
    simp only [hp] at hk
    rw [parOf_leaf hf] at hk
    rw [hl] at hc ⊢
    split_ifs at hk with hd
    · cases hk
      rw [if_neg ne]
      exact hv
    · have hi := (hg.mem_of_parOf hk).2
      have hn : q ≠ id := fun eq => hf (eq ▸ hi)
      rw [if_neg hd] at hc
      rw [if_neg hn]
      exact hh.up b q hk hc
  · intro m hm
    simp only [hp]
    exact mem_nodes_leaf.mpr (.inl (hh.inside m hm))
  · intro m hm x he hb
    have hj := hh.inside m hm
    simp only [hp] at he hb
    rw [hl]
    rcases mem_nodes_leaf.mp he with ho | rfl
    · have hd : x ≠ id := fun eq => hf (eq ▸ ho)
      rw [if_neg hd]
      exact hh.below m hm x ho ((hg.below_leaf_old hf ho).mp hb)
    · -- the new block is not below a reported one, since its parent is valid
      rcases (hg.below_leaf_new ht hf).mp hb with eq | ha
      · exact absurd (eq ▸ hj) hf
      · simp [hh.below m hm parentId ht ha] at hv

lemma Marked.Inherits.eqvoc (id : Hash) :
    (Marked.mk (s.tree.eqvoc id) (if (s.tree.query id).isSome then id :: s.eqvocs else s.eqvocs)).Inherits := by
  obtain ⟨only, hl⟩ := eqvoc_spec hh.wf id
  have hp := only.shape
  have hg := hh.wf.grown
  have ha : ∀ m, m ∈ (if (s.tree.query id).isSome then id :: s.eqvocs else s.eqvocs) →
      m ∈ s.eqvocs ∨ m = id ∧ id ∈ nodes s.tree.shape := by
    intro m hx
    split_ifs at hx with hf
    · rcases mem_cons.mp hx with eq | ho
      · exact .inr ⟨eq, query_isSome.mp hf⟩
      · exact .inl ho
    · exact .inl hx
  refine ⟨only.wf hh.wf, ?_, ?_, ?_⟩
  · intro b q hn hc
    simp only [hp] at hn
    obtain ⟨hj, he⟩ := hg.mem_of_parOf hn
    obtain ⟨ho, hr⟩ := (hl b hj).mp hc
    refine (hl q he).mpr ⟨hh.up b q hn ho, ?_⟩
    rintro ⟨hi, hb⟩
    exact hr ⟨hi, .step hn hb⟩
  · intro m hx
    simp only [hp]
    rcases ha m hx with ho | ⟨rfl, hi⟩
    · exact hh.inside m ho
    · exact hi
  · intro m hx x hd hb
    simp only [hp] at hd hb
    rw [← Bool.not_eq_true]
    intro hc
    obtain ⟨ho, hr⟩ := (hl x hd).mp hc
    rcases ha m hx with hm | ⟨rfl, hi⟩
    · simp [hh.below m hm x hd hb] at ho
    · exact hr ⟨hi, hb⟩

lemma Marked.Inherits.confirm (id : Hash) :
    (Marked.mk (s.tree.confirm id) (if (s.tree.query id).isSome then
      s.eqvocs.filter fun m => !s.tree.isAncestor m id else s.eqvocs)).Inherits := by
  have wf := hh.wf
  by_cases hi : id ∈ nodes s.tree.shape
  · have hf := query_isSome.mpr hi
    have hl := confirm_spec wf hi fun c q _ hk hg => hh.up c q hk hg
    have hp := (confirm_only s.tree id).shape
    rw [if_pos hf]
    refine ⟨(confirm_only s.tree id).wf wf, ?_, ?_, ?_⟩
    · intro b q hk hg
      simp only [hp] at hk
      rcases (hl b).mp hg with ho | ha
      · exact (hl q).mpr (.inl (hh.up b q hk ho))
      · exact (hl q).mpr (.inr (.trans (.step hk .refl) ha))
    · intro m hx
      simp only [hp]
      exact hh.inside m (mem_filter.mp hx).1
    · intro m hx x hc hb
      simp only [hp] at hc hb
      obtain ⟨hm, ne⟩ := mem_filter.mp hx
      rw [← Bool.not_eq_true]
      intro hg
      rcases (hl x).mp hg with ho | ha
      · simp [hh.below m hm x hc hb] at ho
      · simp [(wf.isAncestor_iff hi).mpr (hb.trans ha)] at ne
  · have hn := query_none.mpr hi
    have hs : s.tree.confirm id = s.tree := by simp [Tree.confirm, hn]
    simpa [hs, hn] using hh

lemma Marked.Inherits.publish {newr : Hash} (hi : newr ∈ nodes s.tree.shape) :
    (Marked.mk (s.tree.publish newr) (s.eqvocs.filter fun m => ((s.tree.publish newr).query m).isSome)).Inherits := by
  have wf := hh.wf
  have hg := wf.grown
  by_cases hs : newr = s.tree.root
  · have hu : s.tree.publish newr = s.tree := by rw [Tree.publish, if_pos hs.symm]
    rw [hu]
    refine ⟨wf, hh.up, ?_, ?_⟩
    · intro m hm
      exact hh.inside m (mem_filter.mp hm).1
    · intro m hm
      exact hh.below m (mem_filter.mp hm).1
  have hp := publish_shape (g := s.tree) hs
  have he := wf.keeps_iff hs
  have hf : ∀ x ∈ nodes (s.tree.publish newr).shape, (s.tree.publish newr).validAt x = s.tree.validAt x := by
    intro x hm
    rw [hp] at hm
    obtain ⟨hn, hk⟩ := mem_nodes_cut.mp hm
    rw [validAt, query_publish hs hk, validAt]
    cases s.tree.query x with
    | none => rfl
    | some b => by_cases hr : b.id = newr <;> simp [hr]
  refine ⟨publish_wf wf hi, ?_, ?_, ?_⟩
  · intro b q hl ha
    have ho := (publish_wf wf hi).grown.mem_of_parOf hl
    simp only at ho ha
    rw [hf q ho.2]
    rw [hf b ho.1] at ha
    simp only [hp] at hl
    obtain ⟨_, hk⟩ := mem_nodes_cut.mp (hp ▸ ho.1)
    rw [parOf_cut hk] at hl
    split at hl
    · simp at hl
    · exact hh.up b q hl ha
  · intro m hm
    exact query_isSome.mp (mem_filter.mp hm).2
  · intro m hm x hn hb
    simp only at hn
    rw [hf x hn]
    simp only [hp] at hn hb
    obtain ⟨hd, hk⟩ := mem_nodes_cut.mp hn
    exact hh.below m (mem_filter.mp hm).1 x hd ((hg.below_cut he hd hk).mp hb).1

lemma Marked.Inherits.step (hp : s.tree.Promise op) (hv : s.ValidParent op) (h : s.step op = .ok t) : t.Inherits := by
  obtain ⟨g, ht, h⟩ := bind_ok.mp h
  cases h
  cases op with
  | insert bankSeq slot id parentId => exact hh.insert hp hv ht
  | countVote id voteAcc stake slot =>
    obtain ⟨⟨r, g'⟩, hc, rfl⟩ := map_ok.mp ht
    have hs := countVote_sameFlags hc
    refine ⟨hh.wf.congr hs.shape hs.root, ?_, ?_, ?_⟩
    · simp only [hs.shape, hs.flags]
      exact hh.up
    · simp only [hs.shape]
      exact hh.inside
    · simp only [hs.shape, hs.flags]
      exact hh.below
  | publish newr =>
    cases ht
    exact hh.publish (query_isSome.mp hp)
  | confirm id =>
    cases ht
    exact hh.confirm id
  | eqvoc id =>
    cases ht
    exact hh.eqvoc id

end

lemma invalid_parent_unlawful (wf : s.tree.Wf) (ne : parentId ≠ id) (hd : s.tree.validAt parentId = false)
    (h : s.step (.insert bankSeq slot id parentId) = .ok t) : ¬ t.Lawful := by
  obtain ⟨g, hn, h⟩ := bind_ok.mp h
  cases h
  obtain ⟨hb, hp, hr⟩ := insert_wf wf hn ne
  obtain ⟨hf, _, hs⟩ := insert_ok hn
  have hl : ∀ x, g.validAt x = if x = id then true else s.tree.validAt x := fun x => hs ▸ validAt_append hf _ x
  intro hw
  have hm : (⟨id, slot, some parentId, 0, true, [], bankSeq⟩ : Blk) ∈ g.blks := by
    rw [hs]
    simp
  have hi : id ∈ nodes g.shape := mem_nodes_of_blk hm
  have ha : Below (parOf g.shape) parentId id := by
    rw [hp]
    exact (wf.grown.below_leaf_new hr hf).mpr (.inr .refl)
  have hc := hw.confirm _ hm parentId ((hb.isAncestor_iff hi).mpr ha)
  have ht : g.confirm id = g := confirm_valid hi (by rw [hl, if_pos rfl])
  have hg : g.validAt parentId = true := ht ▸ hc
  rw [hl, if_neg ne, hd] at hg
  exact Bool.false_ne_true hg

lemma init_inherits (h : init blkMax vtrMax bankSeq slot id = .ok g) : (Marked.mk g []).Inherits := by
  refine ⟨init_wf h, ?_, by simp, by simp⟩
  intro b q hl
  rw [init_ok h] at hl
  by_cases hs : id = b <;> simp [shape, parOf, Blk.link, hs] at hl

lemma lawful_iff_from (hn : s.Inherits) (hp : Allowed Marked.step (fun s op => s.tree.Promise op) s ops)
    (h : run Marked.step s ops = .ok t) :
    (∀ front back, ops = front ++ back → ∀ u, run Marked.step s front = .ok u → u.Lawful) ↔
      Allowed Marked.step Marked.ValidParent s ops := by
  induction ops generalizing s with
  | nil =>
    refine ⟨fun _ => trivial, ?_⟩
    rintro _ front back he u hr
    obtain ⟨rfl, _⟩ := append_eq_nil_iff.mp he.symm
    cases hr
    exact hn.lawful
  | cons op ops ih =>
    obtain ⟨mid, hs, hb⟩ := (run_cons_ok Marked.step).mp h
    obtain ⟨ho, hl⟩ := hp
    rw [hs] at hl
    constructor
    · intro hw
      have hv : s.ValidParent op := by
        cases op with
        | insert bankSeq slot id parentId =>
          by_contra hi
          have hc := hw [.insert bankSeq slot id parentId] ops rfl mid
            ((run_cons_ok Marked.step).mpr ⟨mid, hs, rfl⟩)
          exact invalid_parent_unlawful hn.wf ho (Bool.not_eq_true _ ▸ hi) hs hc
        | countVote | publish | confirm | eqvoc => trivial
      refine ⟨hv, ?_⟩
      rw [hs]
      refine (ih (hn.step ho hv hs) hl hb).mp ?_
      intro front back hh u hr
      exact hw (op :: front) back (by rw [hh]; rfl) u ((run_cons_ok Marked.step).mpr ⟨mid, hs, hr⟩)
    · rintro ⟨hv, ha⟩ front back hh u hr
      rw [hs] at ha
      cases front with
      | nil =>
        cases hr
        exact hn.lawful
      | cons first front =>
        obtain ⟨rfl, ht⟩ := List.cons.inj hh
        obtain ⟨mid', hd, hr⟩ := (run_cons_ok Marked.step).mp hr
        cases Except.ok.inj (hs.symm.trans hd)
        exact (ih (hn.step ho hv hs) hl hb).mpr ha front back ht u hr

/-- From a fresh tree, the laws hold in every state of a run exactly if every block was
inserted below a valid one. -/
theorem validity_laws_iff {blkMax vtrMax bankSeq slot : Nat} {id : Hash} {g : Tree} {ops : List Op}
    (start : init blkMax vtrMax bankSeq slot id = .ok g)
    (promised : Allowed Marked.step (fun s op => s.tree.Promise op) ⟨g, []⟩ ops)
    (done : run Marked.step ⟨g, []⟩ ops = .ok t) :
    (∀ front back, ops = front ++ back → ∀ s, run Marked.step ⟨g, []⟩ front = .ok s → s.Lawful) ↔
      Allowed Marked.step Marked.ValidParent ⟨g, []⟩ ops :=
  lawful_iff_from (init_inherits start) promised done

def confirmedFork : List Op := [.insert 2 1 1 0, .eqvoc 1, .confirm 1, .insert 3 2 2 1]

theorem confirmed_fork_lawful : ∃ s,
    run Marked.step ⟨⟨8, 8, 0, [⟨0, 0, none, 0, true, [], 1⟩], [], 1⟩, []⟩ confirmedFork = .ok s ∧ s.Lawful :=
  ⟨_, rfl, (validity_laws_iff (show init 8 8 1 0 0 = .ok _ from rfl) (by decide) rfl).mpr (by decide)
    confirmedFork [] (append_nil _).symm _ rfl⟩

/-- A block is inserted below one that was reported as equivocating: it is valid, and when it
is confirmed its parent stays invalid. -/
theorem child_of_equivocation_valid :
    ∃ s, run Marked.step ⟨⟨8, 8, 0, [⟨0, 0, none, 0, true, [], 1⟩], [], 1⟩, []⟩
        [.insert 2 1 1 0, .eqvoc 1, .insert 3 2 2 1] = .ok s ∧
      s.eqvocs = [1] ∧ s.tree.isAncestor 1 2 = true ∧ s.tree.validAt 2 = true ∧
      (s.tree.confirm 2).validAt 1 = false := by
  refine ⟨_, rfl, ?_⟩
  decide

end Firebam.Ghost
