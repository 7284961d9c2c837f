import Firebam.Reasm.Basic
import Firebam.Lib.Keyed
import Firebam.Lib.Lists

/-! What the pool, the links and the maps say about each other. -/
namespace Firebam.Reassembly
open Lib List

variable {s s' : Reasm} {i j p c : Idx} {spare map detached : List Idx} {key : Hash} {f : Idx → Fec}
  {kids : Idx → List Idx} {keep : Option Idx}

def Reasm.Conn (s : Reasm) (i : Idx) : Prop := i ∈ s.ancestry ∨ i ∈ s.frontier

@[mk_iff]
structure Fec.Sane (f : Fec) : Prop where
  off : f.parentOff ≤ f.slot
  slot : f.slot < 2 ^ 32 - 1
  idx : f.fecSetIdx + fecShredCnt < 2 ^ 32

def Fec.rank (f : Fec) : Nat := f.slot * 2 ^ 32 + f.fecSetIdx

def Fec.name (f : Fec) : Fec :=
  { Fec.blank with
    key := f.key, cmr := f.cmr, slot := f.slot, fecSetIdx := f.fecSetIdx, parentOff := f.parentOff
    slotComplete := f.slotComplete }

/-- Every element is in one of the four maps, free, or acquired and in none of them. -/
structure Pool (s : Reasm) (spare : List Idx) : Prop where
  nodup : (s.live ++ s.free ++ spare).Nodup
  all : ∀ i, i < s.fecMax ↔ i ∈ s.live ++ s.free ++ spare
  keys : ∀ i ∈ s.live, ∀ j ∈ s.live, (s.fec i).key = (s.fec j).key → i = j
  sane : ∀ i ∈ s.live, (s.fec i).Sane

structure Links (s : Reasm) (kids : Idx → List Idx) (detached : List Idx) (keep : Option Idx) : Prop where
  chain : ∀ p ∈ s.live, Chain (fun j => (s.fec j).sibling) (s.fec p).child (kids p)
  kid : ∀ p ∈ s.live, ∀ c, c ∈ kids p ↔ c ∈ s.live ∧ (s.fec c).parent = some p ∧ c ∉ detached
  alone : ∀ c ∈ s.live, (s.fec c).parent = none → (s.fec c).sibling = none
  up : ∀ c ∈ s.live, ∀ p, (s.fec c).parent = some p → p ∈ s.live ∨ c ∈ detached ∨ keep = some c
  valid : ∀ c ∈ s.live, ∀ p ∈ s.live, (s.fec c).parent = some p →
    (s.fec c).cmr = (s.fec p).key ∧ validateChainedBlockId (s.fec p) (s.fec c) = true

structure Places (s : Reasm) (kids : Idx → List Idx) (detached pending stale : List Idx) (top : Option Idx) : Prop where
  same : ∀ p ∈ s.live, p ∉ pending → ∀ c ∈ kids p, s.Conn c ↔ s.Conn p
  waiting : ∀ p ∈ pending, p ∈ s.frontier ∧ ∀ c ∈ kids p, c ∈ s.orphaned
  tops : ∀ c, s.Conn c → (∃ p ∈ s.live, c ∈ kids p) ∨ top = some c ∨ c ∈ detached
  leaf : ∀ i, s.Conn i → i ∉ stale → (i ∈ s.frontier ↔ (s.fec i).child = none ∨ i ∈ pending)
  orphan : ∀ i ∈ s.live, ¬s.Conn i → (i ∈ s.subtrees ↔ (s.fec i).parent = none)
  subtreel : Lists s.subtreel fun i => i ∈ s.subtrees

structure Outs (s : Reasm) : Prop where
  nodup : s.out.Nodup
  conn : ∀ i ∈ s.out, s.Conn i
  flag : ∀ i ∈ s.live, ((s.fec i).inOut = true ↔ i ∈ s.out)

/-- The list of a (slot, fec_set_idx) has exactly the listed elements with it. -/
structure Xids (s : Reasm) (listed : Idx → Prop) : Prop where
  distinct : (s.xid.map Prod.fst).Nodup
  entry : ∀ key x, s.xidQuery key = some x → ∃ l, Chain (fun j => (s.fec j).xidNext) (some x.idx) l ∧
    x.cnt = l.length ∧ ∀ i, i ∈ l ↔ listed i ∧ (s.fec i).xidKey = key
  present : ∀ i, listed i → ∃ x, s.xidQuery (s.fec i).xidKey = some x

lemma mem_live : i ∈ s.live ↔ i ∈ s.ancestry ∨ i ∈ s.frontier ∨ i ∈ s.orphaned ∨ i ∈ s.subtrees := by
  simp only [Reasm.live, mem_append, or_assoc]

lemma Reasm.Conn.live (hc : s.Conn i) : i ∈ s.live :=
  mem_live.mpr (hc.elim .inl fun hf => .inr (.inl hf))

section
variable (hp : Pool s spare)
include hp

lemma Pool.live_nodup : s.live.Nodup := by
  have all := hp.nodup
  rw [append_assoc] at all
  exact (nodup_append.mp all).1

lemma Pool.lt (hm : i ∈ s.live) : i < s.fecMax :=
  (hp.all i).mpr (mem_append_left _ (mem_append_left _ hm))

lemma Pool.length_le {l : List Idx} (nd : l.Nodup) (m : ∀ j ∈ l, j ∈ s.live) : l.length ≤ s.fecMax :=
  @length_le_range _ 0 s.fecMax nd fun j hm => ⟨Nat.zero_le j, hp.lt (m j hm)⟩

lemma Pool.few : s.live.length ≤ s.fecMax := hp.length_le hp.live_nodup fun _ hm => hm

end

lemma Pool.spare_absent (hp : Pool s (i :: spare)) : i ∉ s.live := by
  intro hm
  obtain ⟨-, -, ne⟩ := nodup_append.mp hp.nodup
  exact ne i (mem_append_left _ hm) i (.head _) rfl

lemma Pool.disjoint (hp : Pool s spare) :
    s.ancestry.Nodup ∧ s.frontier.Nodup ∧ s.orphaned.Nodup ∧ s.subtrees.Nodup ∧
    (∀ i ∈ s.ancestry, i ∉ s.frontier) ∧ (∀ i, s.Conn i → i ∉ s.orphaned ∧ i ∉ s.subtrees) ∧
    ∀ i ∈ s.orphaned, i ∉ s.subtrees := by
  have all := hp.live_nodup
  unfold Reasm.live at all
  obtain ⟨hf, hs, ht⟩ := nodup_append.mp all
  obtain ⟨hf, ho, hd⟩ := nodup_append.mp hf
  obtain ⟨ha, he, hb⟩ := nodup_append.mp hf
  refine ⟨ha, he, ho, hs, ?_, ?_, ?_⟩
  · exact fun i hl hr => hb i hl i hr rfl
  · intro i hc
    have hh : i ∈ s.ancestry ++ s.frontier := mem_append.mpr hc
    exact ⟨fun hr => hd i hh i hr rfl, fun hr => ht i (mem_append_left _ hh) i hr rfl⟩
  · exact fun i hl hr => ht i (mem_append_right _ hl) i hr rfl

lemma find_some (hf : s.find map key = some i) : i ∈ map ∧ (s.fec i).key = key := by
  have hh := find?_some hf
  exact ⟨mem_of_find?_eq_some hf, of_decide_eq_true hh⟩

lemma find_none (hn : s.find map key = none) : ∀ i ∈ map, (s.fec i).key ≠ key := by
  intro i hm
  have no := find?_eq_none.mp hn i hm
  simpa using no

lemma Pool.find_mem (hp : Pool s spare) (hs : ∀ i ∈ map, i ∈ s.live) (hm : i ∈ map) :
    s.find map (s.fec i).key = some i := by
  cases hf : s.find map (s.fec i).key with
  | none => exact absurd rfl (find_none hf i hm)
  | some j =>
    obtain ⟨m, eq⟩ := find_some hf
    rw [hp.keys j (hs j m) i (hs i hm) eq]

lemma Pool.find_not_mem (hp : Pool s spare) (hs : ∀ i ∈ map, i ∈ s.live) (hl : i ∈ s.live) (hn : i ∉ map) :
    s.find map (s.fec i).key = none := by
  cases hf : s.find map (s.fec i).key with
  | none => rfl
  | some j =>
    obtain ⟨hm, eq⟩ := find_some hf
    exact absurd (hp.keys j (hs j hm) i hl eq ▸ hm) hn

lemma ancestry_live : ∀ i ∈ s.ancestry, i ∈ s.live := fun _ h => mem_live.mpr (.inl h)
lemma frontier_live : ∀ i ∈ s.frontier, i ∈ s.live := fun _ h => mem_live.mpr (.inr (.inl h))
lemma orphaned_live : ∀ i ∈ s.orphaned, i ∈ s.live := fun _ h => mem_live.mpr (.inr (.inr (.inl h)))
lemma subtrees_live : ∀ i ∈ s.subtrees, i ∈ s.live := fun _ h => mem_live.mpr (.inr (.inr (.inr h)))

lemma query_some (hf : s.query key = some i) : i ∈ s.live ∧ (s.fec i).key = key := by
  rcases Option.or_eq_some_iff.mp hf with he | ⟨-, hr⟩
  · rcases Option.or_eq_some_iff.mp he with hi | ⟨-, hs⟩
    · exact ⟨ancestry_live i (find_some hi).1, (find_some hi).2⟩
    · exact ⟨frontier_live i (find_some hs).1, (find_some hs).2⟩
  · rcases Option.or_eq_some_iff.mp hr with ht | ⟨-, ho⟩
    · exact ⟨orphaned_live i (find_some ht).1, (find_some ht).2⟩
    · exact ⟨subtrees_live i (find_some ho).1, (find_some ho).2⟩

lemma query_none (hn : s.query key = none) : ∀ i ∈ s.live, (s.fec i).key ≠ key := by
  obtain ⟨hr, ho⟩ := Option.or_eq_none_iff.mp hn
  obtain ⟨hi, hs⟩ := Option.or_eq_none_iff.mp hr
  obtain ⟨ht, hf⟩ := Option.or_eq_none_iff.mp ho
  intro i hm
  rcases mem_live.mp hm with m | m | m | m
  · exact find_none hi i m
  · exact find_none hs i m
  · exact find_none ht i m
  · exact find_none hf i m

lemma Fec.Sane.of_name {f g : Fec} (ha : f.Sane) (hs : g.name = f.name) : g.Sane := by
  have hl : g.slot = f.slot := (congrArg Fec.slot hs :)
  have ho : g.parentOff = f.parentOff := (congrArg Fec.parentOff hs :)
  have hi : g.fecSetIdx = f.fecSetIdx := (congrArg Fec.fecSetIdx hs :)
  exact ⟨by rw [ho, hl]; exact ha.off, by rw [hl]; exact ha.slot, by rw [hi]; exact ha.idx⟩

lemma validate_name {p c p' c' : Fec} (hp : p'.name = p.name) (hc : c'.name = c.name) :
    validateChainedBlockId p' c' = validateChainedBlockId p c := by
  have eq : validateChainedBlockId p'.name c'.name = validateChainedBlockId p.name c.name := by rw [hp, hc]
  exact eq

section
variable (ha : ∀ j, (s'.fec j).name = (s.fec j).name)
include ha

lemma Pool.congr (ho : Pool s spare) (hp : s'.live.Perm s.live) (hr : s'.free = s.free)
    (hf : s'.fecMax = s.fecMax) : Pool s' spare := by
  have all : (s'.live ++ s'.free ++ spare).Perm (s.live ++ s.free ++ spare) := by
    rw [hr]
    exact (hp.append_right _).append_right _
  have hk : ∀ j, (s'.fec j).key = (s.fec j).key := fun j => (congrArg Fec.key (ha j) :)
  refine ⟨all.nodup_iff.mpr ho.nodup, fun j => ?_, ?_, ?_⟩
  · rw [hf, ho.all j, all.mem_iff]
  · intro i hx j hm eq
    rw [hk i, hk j] at eq
    exact ho.keys i (hp.mem_iff.mp hx) j (hp.mem_iff.mp hm) eq
  · exact fun j hx => (ho.sane j (hp.mem_iff.mp hx)).of_name (ha j)

lemma Links.congr (hk : Links s kids detached keep) (hl : ∀ j, j ∈ s'.live ↔ j ∈ s.live)
    (hp : ∀ j, (s'.fec j).parent = (s.fec j).parent) (hc : ∀ j, (s'.fec j).child = (s.fec j).child)
    (hi : ∀ j, (s'.fec j).sibling = (s.fec j).sibling) : Links s' kids detached keep := by
  refine ⟨?_, ?_, ?_, ?_, ?_⟩
  · intro p hx
    rw [hc p]
    exact (hk.chain p ((hl p).mp hx)).congr fun j _ => hi j
  · intro p hx c
    rw [hk.kid p ((hl p).mp hx) c, hl c, hp c]
  · intro c hx hn
    rw [hp c] at hn
    rw [hi c]
    exact hk.alone c ((hl c).mp hx) hn
  · intro c hx p hs
    rw [hp c] at hs
    rw [hl p]
    exact hk.up c ((hl c).mp hx) p hs
  · intro c hx p he hs
    rw [hp c] at hs
    obtain ⟨hr, hv⟩ := hk.valid c ((hl c).mp hx) p ((hl p).mp he) hs
    have hm : (s'.fec c).cmr = (s.fec c).cmr := (congrArg Fec.cmr (ha c) :)
    have hy : (s'.fec p).key = (s.fec p).key := (congrArg Fec.key (ha p) :)
    exact ⟨hm.trans (hr.trans hy.symm), (validate_name (ha p) (ha c)).trans hv⟩

end

lemma Pool.refec (hp : Pool s spare) (hs : ∀ j, (f j).name = (s.fec j).name) : Pool { s with fec := f } spare :=
  .congr hs hp .rfl rfl rfl

lemma Outs.refec (ho : Outs s) (hs : ∀ j, (f j).inOut = (s.fec j).inOut) : Outs { s with fec := f } := by
  refine ⟨ho.nodup, ho.conn, fun j hl => ?_⟩
  rw [hs j]
  exact ho.flag j hl

lemma Links.children (hk : Links s kids detached keep) (hp : Pool s spare) (hl : p ∈ s.live) :
    s.children p = kids p := by
  have hc := hk.chain p hl
  exact hc.follow (hp.length_le hc.nodup fun c hm => ((hk.kid p hl c).mp hm).1)

lemma Links.parent_mem (hk : Links s kids [] none) (hl : c ∈ s.live) (ha : (s.fec c).parent = some p) :
    p ∈ s.live ∧ c ∈ kids p := by
  rcases hk.up c hl p ha with up | no | no
  · exact ⟨up, (hk.kid p up c).mpr ⟨hl, ha, not_mem_nil⟩⟩
  · cases no
  · cases no

lemma Links.child_none (hk : Links s kids detached keep) (hl : p ∈ s.live) : (s.fec p).child = none ↔ kids p = [] := by
  have hf := (hk.chain p hl).first_eq
  rw [hf, head?_eq_none_iff]

lemma validate_rank {parent child : Fec} (hv : validateChainedBlockId parent child = true) (ha : parent.Sane)
    (hn : child.Sane) : parent.rank < child.rank := by
  have hl := ha.idx
  have ho := hn.idx
  have hf := hn.off
  have hi := hn.slot
  unfold Fec.rank
  unfold validateChainedBlockId at hv
  have hh : fecShredCnt = 32 := rfl
  split at hv
  · rename_i hs
    simp only [validateIntra, Bool.and_eq_true, decide_eq_true_iff] at hv
    rw [Nat.mod_eq_of_lt hl] at hv
    omega
  · rename_i ne
    simp only [validateInter, Bool.and_eq_true, decide_eq_true_iff] at hv
    omega

lemma Links.rank (hk : Links s kids detached keep) (ho : Pool s spare) (hl : p ∈ s.live) (hi : c ∈ kids p) :
    (s.fec p).rank < (s.fec c).rank := by
  obtain ⟨hm, hp, -⟩ := (hk.kid p hl c).mp hi
  exact validate_rank (hk.valid c hm p hl hp).2 (ho.sane p hl) (ho.sane c hm)

end Firebam.Reassembly
