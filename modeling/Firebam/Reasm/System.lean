import Firebam.Reasm.Insert

namespace Firebam.Reassembly
open Lib List Reasm

variable {s s' : Reasm} {kids kids' : Idx → List Idx} {r r' i : Idx} {key : Hash} {fecMax slot idx : Nat}

instance (f : Fec) : Decidable f.Sane := decidable_of_iff' _ f.sane_iff

instance (a : Arrival) (s : Reasm) : Decidable (a.Fits s) := decidable_of_iff' _ (a.fits_iff s)

instance (s : Reasm) (i : Idx) : Decidable (s.Conn i) := inferInstanceAs (Decidable (_ ∨ _))

/-- What the callers do: they initialise first, and remove leaves, or what is in the tree below the
root. A FEC set comes with the orders in which the two hash maps are walked. -/
def Reasm.Promise (s : Reasm) : Op → Prop
  | .init _ slot => s.root = none ∧ slot < 2 ^ 32 - 1
  | .insert a => s.root ≠ none ∧ a.Fits s ∧ a.orphans.Perm s.orphaned ∧ a.leaves.Perm s.frontier
  | .confirm _ => True
  | .pop => True
  | .remove key =>
    match s.query key with
    | none => False
    | some i => s.root ≠ some i ∧ (s.Conn i ∨ (s.fec i).child = none)
  | .publish merkleRoot =>
    match s.query merkleRoot with
    | none => False
    | some i => s.Conn i

/-- The new root is another one, and the last FEC set of its slot. -/
def Reasm.Onward (s : Reasm) : Op → Prop
  | .publish merkleRoot =>
    match s.query merkleRoot with
    | none => True
    | some i => s.root ≠ some i ∧ (s.fec i).slotComplete = true
  | _ => True

instance (s : Reasm) (op : Op) : Decidable (s.Promise op) := by
  cases op <;> unfold Promise <;> dsimp only
  case remove key => cases s.query key <;> infer_instance
  case publish key => cases s.query key <;> infer_instance
  all_goals infer_instance

instance (s : Reasm) (op : Op) : Decidable (s.Onward op) := by
  cases op <;> unfold Onward <;> dsimp only
  case publish key => cases s.query key <;> infer_instance
  all_goals infer_instance

inductive Effect (s s' : Reasm) : Option Idx → Prop
  | starts (r : Idx) (root : s'.root = some r) (only : ∀ j ∈ s'.live, j = r) (parent : (s'.fec r).parent = none) (popped : (s'.fec r).popped = true) :
    Effect s s' none
  | adds (i : Idx) (a : Arrival) (absent : i ∉ s.live) (inserts : Inserts s s' i a) : Effect s s' none
  | drops (root : Option Idx) (kept : Kept { s with root := root } s')
    (past : ∀ j ∈ s'.live, s.root = some j → s'.root = some j) : Effect s s' none
  | confirms (confirms : Confirms s s') : Effect s s' none
  | pops (gone rest : List Idx) (f : Idx → Fec) (eq : s' = { s with fec := f, out := rest })
    (pops : Pops s s.out gone rest f s.peek) : Effect s s' s.peek

inductive Held (fecMax : Nat) (s : Reasm) : Prop
  | fresh (new : s = new fecMax) : Held fecMax s
  | rooted (kids : Idx → List Idx) (r : Idx) (rooted : Rooted s kids r []) (free : s.free ≠ []) : Held fecMax s

section
variable (ho : Rooted s kids r [])
include ho

lemma Rooted.keeps_free (ht : Rooted s' kids' r' []) (hs : s'.fecMax = s.fecMax)
    (hu : ∀ j ∈ s'.live, j ∈ s.live) (he : s.free ≠ []) : s'.free ≠ [] := by
  have hb := ho.whole.pool.count
  have ha := ht.whole.pool.count
  have hf : s'.live.length ≤ s.live.length := (ht.whole.pool.live_nodup.subperm hu).length_le
  have hr := length_pos_iff.mpr he
  refine length_pos_iff.mp ?_
  rw [length_nil] at hb ha
  omega

lemma Rooted.step_remove (hf : s.query key = some i) (ne : i ≠ r) (hl : s.Conn i ∨ (s.fec i).child = none) :
    ∃ s' kids', s.step (.remove key) = .ok (s', none) ∧ Rooted s' kids' r [] ∧ Kept s s' := by
  have hr : ∃ s' kids' head l, s.remove i = .ok (s', head) ∧ Removes s s' kids' r head l := by
    rcases hl with hc | ha
    · obtain ⟨s', kids', head, l, h, he, -⟩ := ho.removeTree hc ne
      exact ⟨s', kids', head, l, h, he⟩
    · obtain ⟨s', kids', head, l, h, he, -⟩ := ho.removeLeaf (query_some hf).1 ne ha
      exact ⟨s', kids', head, l, h, he⟩
  obtain ⟨s', kids', head, l, h, he⟩ := hr
  refine ⟨s'.release head, kids', ?_, he.release⟩
  dsimp only [step]
  rw [hf]
  exact bind_ok.mpr ⟨_, h, rfl⟩

lemma Rooted.step_publish (hf : s.query key = some i)
    (hn : s.Conn i) (ne : i ≠ r) (hc : (s.fec i).slotComplete = true) :
    ∃ s', s.step (.publish key) = .ok (s', none) ∧ Rooted s' kids i [] ∧ Kept { s with root := some i } s' ∧ r ∉ s'.live := by
  obtain ⟨s', h, hp⟩ := ho.publish hf hn ne hc
  exact ⟨s', bind_ok.mpr ⟨_, h, rfl⟩, hp⟩

lemma Rooted.step_confirm (blockId : Hash) :
    ∃ s', s.step (.confirm blockId) = .ok (s', none) ∧ Rooted s' kids r [] ∧ Confirms s s' := by
  obtain ⟨s', h, hw, hc⟩ := ho.whole.confirm rfl rfl blockId
  refine ⟨s', bind_ok.mpr ⟨_, h, rfl⟩, ⟨hw, hc.root.trans ho.root, (hc.conn r).mpr ho.conn, ?_, ?_, ?_⟩,
    hc⟩
  · exact (congrArg Fec.parent (hc.plain r) :).trans ho.parent
  · exact (congrArg Fec.slotComplete (hc.plain r) :).trans ho.complete
  · rw [hc.fecMax, hc.xidMax]
    exact ho.room

lemma Rooted.step_pop :
    ∃ s' gone rest f, s.step .pop = .ok (s', s.peek) ∧ Rooted s' kids r [] ∧ s' = { s with fec := f, out := rest } ∧
      Pops s s.out gone rest f s.peek := by
  obtain ⟨f, gone, rest, h, hp, hw⟩ := ho.whole.pop
  refine ⟨_, gone, rest, f, congrArg Except.ok h, ⟨hw, ho.root, ho.conn, ?_, ?_, ho.room⟩, rfl, hp⟩
  · exact (congrArg Fec.parent (hp.fec r) :).trans ho.parent
  · exact (congrArg Fec.slotComplete (hp.fec r) :).trans ho.complete

end

lemma Held.init (ht : 2 ≤ fecMax) (blockId : Hash) (ho : slot < 2 ^ 32 - 1) :
    ∃ s', (new fecMax).step (.init blockId slot) = .ok (s', none) ∧ Held fecMax s' ∧ Effect (new fecMax) s' none := by
  obtain ⟨s', h, hr, hs, only, hp⟩ := init_ok (lt_of_lt_of_le Nat.two_pos ht) blockId ho
  refine ⟨s', bind_ok.mpr ⟨_, h, rfl⟩, .rooted _ 0 hr fun he => ?_, .starts 0 hr.root only hr.parent hp⟩
  have hc := hr.whole.pool.count
  have hn : s'.live.length ≤ [0].length :=
    (hr.whole.pool.live_nodup.subperm fun j hl => mem_singleton.mpr (only j hl)).length_le
  rw [he, hs] at hc
  simp only [length_nil, length_singleton] at hc hn
  omega

lemma Held.step (hw : 2 ≤ fecMax) {op : Op} (he : Held fecMax s) (hp : s.Promise op)
    (ho : s.Onward op) : ∃ s' out, s.step op = .ok (s', out) ∧ Held fecMax s' ∧ Effect s s' out := by
  cases he with
  | fresh hu =>
    subst hu
    cases op with
    | init blockId slot =>
      obtain ⟨s', h, he, hg⟩ := Held.init hw blockId hp.2
      exact ⟨s', none, h, he, hg⟩
    | confirm blockId => exact ⟨_, none, rfl, .fresh rfl, .confirms (.refl _)⟩
    | pop => exact ⟨_, none, rfl, .fresh rfl, .confirms (.refl _)⟩
    | insert a => exact absurd rfl hp.1
    | remove key => exact hp.elim
    | publish key => exact hp.elim
  | rooted kids r rooted hr =>
    have ht := rooted.root
    cases op with
    | init blockId slot => exact nomatch ht.symm.trans hp.1
    | insert a =>
      obtain ⟨-, hs, hm, ha⟩ := hp
      obtain ⟨s', kids', i, h, hd, hb, hn, hi⟩ := rooted.insert hr hs hm ha
      exact ⟨s', none, h, .rooted kids' r hd hb, .adds i a hn hi⟩
    | confirm blockId =>
      obtain ⟨s', h, hd, hc⟩ := rooted.step_confirm blockId
      refine ⟨s', none, h, .rooted kids r hd ?_, .confirms hc⟩
      exact rooted.keeps_free hd hc.fecMax (fun j hl => hc.live ▸ hl) hr
    | pop =>
      obtain ⟨s', gone, rest, f, h, hd, eq, hq⟩ := rooted.step_pop
      refine ⟨s', s.peek, h, .rooted kids r hd ?_, .pops gone rest f eq hq⟩
      rw [eq]
      exact hr
    | remove key =>
      unfold Promise at hp
      dsimp only at hp
      cases hf : s.query key with
      | none =>
        rw [hf] at hp
        exact hp.elim
      | some i =>
        rw [hf] at hp
        have ne : i ≠ r := fun eq => hp.1 (eq ▸ ht)
        obtain ⟨s', kids', h, hd, hk⟩ := rooted.step_remove hf ne hp.2
        refine ⟨s', none, h, .rooted kids' r hd (rooted.keeps_free hd hk.fecMax hk.live hr), .drops s.root hk ?_⟩
        exact fun j _ hh => hk.root.trans hh
    | publish key =>
      unfold Promise at hp
      unfold Onward at ho
      dsimp only at hp ho
      cases hf : s.query key with
      | none =>
        rw [hf] at hp
        exact hp.elim
      | some i =>
        rw [hf] at hp ho
        have ne : i ≠ r := fun eq => ho.1 (eq ▸ ht)
        obtain ⟨s', h, hd, hk, hj⟩ := rooted.step_publish hf hp ne ho.2
        refine ⟨s', none, h, .rooted kids i hd (rooted.keeps_free hd hk.fecMax hk.live hr), .drops _ hk ?_⟩
        intro j hl hh
        cases Option.some.inj (ht.symm.trans hh)
        exact absurd hl hj

def Reasm.next (s : Reasm) (op : Op) : Except Fault Reasm := do
  let (s, _) ← s.step op
  return s

def Reasm.Reachable (s : Reasm) (r i : Idx) : Prop := Relation.ReflTransGen (fun p c => c ∈ s.children p) r i

/-- The tree of the root and the orphans as the four maps, the links, the xid map and the out list
represent them. -/
structure Reasm.Tree (s : Reasm) : Prop where
  maps : (s.ancestry ++ s.frontier ++ s.orphaned ++ s.subtrees ++ s.free).Perm (List.range s.fecMax)
  tree : ∀ i, i ∈ s.ancestry ∨ i ∈ s.frontier ↔ ∃ r, s.root = some r ∧ s.Reachable r i
  leaves : ∀ i, i ∈ s.frontier ↔ (∃ r, s.root = some r ∧ s.Reachable r i) ∧ s.children i = []
  subtrees : ∀ i, i ∈ s.subtrees ↔ i ∈ s.live ∧ ¬s.Conn i ∧ (s.fec i).parent = none
  orphaned : ∀ i, i ∈ s.orphaned ↔ i ∈ s.live ∧ ¬s.Conn i ∧ (s.fec i).parent ≠ none
  subtreel : Lists s.subtreel fun i => i ∈ s.subtrees
  siblings : ∀ p ∈ s.live, Chain (fun j => (s.fec j).sibling) (s.fec p).child (s.children p)
  links : ∀ p ∈ s.live, ∀ c, c ∈ s.children p ↔ c ∈ s.live ∧ (s.fec c).parent = some p
  chained : ∀ c ∈ s.live, ∀ p, (s.fec c).parent = some p → p ∈ s.live ∧ (s.fec c).cmr = (s.fec p).key
  xids : ∀ slot < 2 ^ 32, ∀ idx < 2 ^ 32, match s.xidQuery (xidKey slot idx) with
    | none => ∀ i ∈ s.live, ¬((s.fec i).slot = slot ∧ (s.fec i).fecSetIdx = idx)
    | some x => ∃ l, Chain (fun j => (s.fec j).xidNext) (some x.idx) l ∧ x.cnt = l.length ∧
      ∀ i, i ∈ l ↔ i ∈ s.live ∧ (s.fec i).slot = slot ∧ (s.fec i).fecSetIdx = idx
  out : Lists s.out fun i => i ∈ s.live ∧ (s.fec i).inOut = true

lemma xidKey_eq (hl : slot < 2 ^ 32) (hs : idx < 2 ^ 32) : xidKey slot idx = slot * 2 ^ 32 + idx := by
  have hf : slot * 2 ^ 32 < 2 ^ 64 := by omega
  unfold xidKey
  rw [Nat.mod_eq_of_lt hf, Nat.mul_comm, Nat.two_pow_add_eq_or_of_lt hs]

lemma Fec.Sane.xidKey_iff {f : Fec} (ha : f.Sane) (hl : slot < 2 ^ 32) (hs : idx < 2 ^ 32) :
    f.xidKey = Reassembly.xidKey slot idx ↔ f.slot = slot ∧ f.fecSetIdx = idx := by
  have ho := ha.slot
  have hm := ha.idx
  unfold Fec.xidKey
  rw [xidKey_eq (by omega) (by omega), xidKey_eq hl hs]
  omega

lemma Rooted.reachable (hd : Rooted s kids r []) (i : Idx) : s.Conn i ↔ s.Reachable r i := by
  have hw := hd.whole
  have hc : ∀ p ∈ s.live, s.children p = kids p := fun p hl => hw.links.children hw.pool hl
  constructor
  · intro hn
    -- upwards, from parent to parent
    generalize ht : (s.fec i).rank = n
    induction n using Nat.strong_induction_on generalizing i with
    | _ n ih =>
      rcases hw.places.tops i hn with ⟨p, hl, hk⟩ | hh | he
      · have ho := hw.links.rank hw.pool hl hk
        have up := (hw.places.same p hl not_mem_nil i hk).mp hn
        refine (ih _ (ht ▸ ho) p up rfl).tail ?_
        rw [hc p hl]
        exact hk
      · cases hh
        exact .refl
      · cases he
  · intro hr
    induction hr with
    | refl => exact hd.conn
    | tail _ hk up =>
      rw [hc _ up.live] at hk
      exact (hw.places.same _ up.live not_mem_nil _ hk).mpr up

lemma Rooted.tree (hm : Rooted s kids r []) : s.Tree := by
  have hw := hm.whole
  have hp := hw.pool
  obtain ⟨-, -, -, -, -, ne, hg⟩ := hp.disjoint
  have hc : ∀ p ∈ s.live, s.children p = kids p := fun p hl => hw.links.children hp hl
  have tree : ∀ i, s.Conn i ↔ ∃ r, s.root = some r ∧ s.Reachable r i := by
    intro i
    rw [hm.root, hm.reachable i]
    exact ⟨fun hk => ⟨r, rfl, hk⟩, fun ⟨_, eq, hk⟩ => Option.some.inj eq ▸ hk⟩
  refine ⟨?_, tree, fun i => ?_, fun i => ?_, fun i => ?_, hw.places.subtreel, fun p hl => ?_, fun p hl c => ?_,
    fun c hl p up => ?_, fun slot hq idx hs => ?_, hw.outs.nodup, fun i => ?_⟩
  · refine (perm_ext_iff_of_nodup ?_ nodup_range).mpr fun i => ?_
    · exact (nodup_append.mp hp.nodup).1
    · rw [mem_range, hp.all, append_nil]
      rfl
  · rw [← tree]
    constructor
    · intro hr
      have hn : s.Conn i := .inr hr
      refine ⟨hn, ?_⟩
      have hx := ((hw.places.leaf i hn not_mem_nil).mp hr).resolve_right not_mem_nil
      rw [hc i hn.live]
      exact (hw.links.child_none hn.live).mp hx
    · rintro ⟨hn, none⟩
      rw [hc i hn.live] at none
      exact (hw.places.leaf i hn not_mem_nil).mpr (.inl ((hw.links.child_none hn.live).mpr none))
  · constructor
    · intro m
      have hl := subtrees_live i m
      have ho : ¬s.Conn i := fun hn => (ne i hn).2 m
      exact ⟨hl, ho, (hw.places.orphan i hl ho).mp m⟩
    · rintro ⟨hl, ho, hj⟩
      exact (hw.places.orphan i hl ho).mpr hj
  · constructor
    · intro m
      have hl := orphaned_live i m
      have ho : ¬s.Conn i := fun hn => (ne i hn).1 m
      exact ⟨hl, ho, fun hj => hg i m ((hw.places.orphan i hl ho).mpr hj)⟩
    · rintro ⟨hl, ho, hb⟩
      rcases mem_live.mp hl with hy | he | hd | hh
      · exact absurd (.inl hy) ho
      · exact absurd (.inr he) ho
      · exact hd
      · exact absurd ((hw.places.orphan i hl ho).mp hh) hb
  · rw [hc p hl]
    exact hw.links.chain p hl
  · rw [hc p hl, hw.links.kid p hl c]
    exact ⟨fun ⟨hl, up, _⟩ => ⟨hl, up⟩, fun ⟨hl, up⟩ => ⟨hl, up, not_mem_nil⟩⟩
  · obtain ⟨hv, -⟩ := hw.links.parent_mem hl up
    exact ⟨hv, (hw.links.valid c hl p hv up).1⟩
  · have hi : ∀ i, (i ∈ s.live ∧ (none : Option Idx) ≠ some i) ↔ i ∈ s.live := fun i =>
      ⟨And.left, fun hl => ⟨hl, nofun⟩⟩
    cases hf : s.xidQuery (xidKey slot idx) with
    | none =>
      intro i hl eq
      obtain ⟨x, ht⟩ := hw.xids.present i ((hi i).mpr hl)
      rw [((hp.sane i hl).xidKey_iff hq hs).mpr eq, hf] at ht
      cases ht
    | some x =>
      obtain ⟨l, ha, hu, hz⟩ := hw.xids.entry _ x hf
      refine ⟨l, ha, hu, fun i => (hz i).trans ((and_congr_left fun _ => hi i).trans ?_)⟩
      exact and_congr_right fun hl => (hp.sane i hl).xidKey_iff hq hs
  · constructor
    · intro m
      have hl := (hw.outs.conn i m).live
      exact ⟨hl, (hw.outs.flag i hl).mpr m⟩
    · exact fun ⟨hl, on⟩ => (hw.outs.flag i hl).mp on

lemma new_tree (fecMax : Nat) : (new fecMax).Tree := by
  refine ⟨.refl _, fun i => ?_, fun i => ?_, fun i => ?_, fun i => ?_, ⟨nodup_nil, fun _ => .rfl⟩,
    nofun, nofun, nofun, nofun, ?_⟩
  · exact ⟨(fun no => no.elim nofun nofun), fun ⟨_, no, _⟩ => nomatch no⟩
  · exact ⟨nofun, fun ⟨⟨_, no, _⟩, _⟩ => nomatch no⟩
  · exact ⟨nofun, fun ⟨no, _⟩ => nomatch no⟩
  · exact ⟨nofun, fun ⟨no, _⟩ => nomatch no⟩
  · exact ⟨nodup_nil, fun i => ⟨nofun, fun ⟨no, _⟩ => nomatch no⟩⟩

lemma Held.tree (hh : Held fecMax s) : s.Tree := by
  cases hh with
  | fresh hn => exact hn ▸ new_tree fecMax
  | rooted kids r rooted _ => exact rooted.tree

lemma Held.outs (hh : Held fecMax s) : Outs s := by
  cases hh with
  | fresh hn => exact hn ▸ ⟨nodup_nil, nofun, nofun⟩
  | rooted kids r rooted _ => exact rooted.whole.outs

/-- In every run in which a new root is another FEC set than the old one and the last one of its
slot, no check fails, and the maps represent the tree and the orphans after every call. -/
theorem tree_represented (fecMax : Nat) (two : 2 ≤ fecMax) (ops : List Op)
    (promised : Allowed next Promise (new fecMax) ops) (onward : Allowed next Onward (new fecMax) ops) :
    ∃ s, run next (new fecMax) ops = .ok s ∧ s.Tree := by
  have progress : ∀ s op, Held fecMax s → (s.Promise op ∧ s.Onward op) → ∃ s', s.next op = .ok s' ∧ Held fecMax s' := by
    intro s op held may
    obtain ⟨s', out, done, held', -⟩ := held.step two may.1 may.2
    exact ⟨s', bind_ok.mpr ⟨_, done, rfl⟩, held'⟩
  obtain ⟨s, done, held⟩ := run_allowed next _ (Held fecMax) progress (.fresh rfl) (allowed_and promised onward)
  exact ⟨s, done, held.tree⟩

def fecSet (merkleRoot chainedMerkleRoot : Hash) (slot fecSetIdx : Nat) (last : Bool) (orphans leaves : List Idx) : Arrival :=
  ⟨merkleRoot, chainedMerkleRoot, slot, fecSetIdx, 1, last, false, orphans, leaves⟩

def outOfOrder : List Op :=
  [.init 1 1, .insert (fecSet 3 2 2 32 true [] [0]), .insert (fecSet 2 1 2 0 false [] [0]), .pop, .pop, .publish 3]

theorem out_of_order_represented : ∃ s, run next (new 4) outOfOrder = .ok s ∧ s.Tree :=
  tree_represented 4 (by decide) outOfOrder (by decide +kernel) (by decide +kernel)

def oneSlot : List Op :=
  [.init 1 1, .insert (fecSet 2 1 2 0 false [] [0]), .insert (fecSet 3 2 2 32 false [] [1]),
    .insert (fecSet 4 3 2 64 true [] [2])]

/-- Publishing the root that there is releases the whole tree with it. When a root in the middle
of a slot is published, the removal of what is below walks past it to a null parent. -/
theorem root_released :
    (Allowed next Promise (new 8) [.init 1 1, .publish 1] ∧
      ∃ s, run next (new 8) [.init 1 1, .publish 1] = .ok s ∧ ¬s.Tree) ∧
    Allowed next Promise (new 8) (oneSlot ++ [.publish 3, .remove 4]) ∧
    faultOf (run next (new 8) (oneSlot ++ [.publish 3, .remove 4])) = some .nullFec := by
  refine ⟨⟨by decide +kernel, ?_⟩, by decide +kernel, by decide +kernel⟩
  obtain ⟨s, done, dangling⟩ : ∃ s, run next (new 8) [.init 1 1, .publish 1] = .ok s ∧
      (s.root = some 0 ∧ ¬s.Conn 0) := exists_of_endsIn (by decide +kernel)
  exact ⟨s, done, fun tree => dangling.2 ((tree.tree 0).mpr ⟨0, dangling.1, .refl⟩)⟩

end Firebam.Reassembly
