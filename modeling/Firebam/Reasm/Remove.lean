import Firebam.Reasm.Publish

/-! Removal of an element with the part of its slot above it. What was below becomes orphans. -/
namespace Firebam.Reassembly
open Lib List Function Reasm Option Fec

variable {s s' : Reasm} {kids kids' : Idx → List Idx} {r head tail parent i j : Idx}
  {rest spare stale queue l : List Idx} {t : Todo} {top : Option Idx} {n : Nat}

def Line (kids : Idx → List Idx) : Idx → List Idx → Idx → Prop
  | i, [], tail => i = tail
  | i, next :: rest, tail => kids i = [next] ∧ Line kids next rest tail

section
variable (hl : Line kids head rest tail)
include hl

lemma Line.tail_mem : tail ∈ head :: rest := by
  induction rest generalizing head with
  | nil => exact mem_singleton.mpr hl.symm
  | cons next more ih => exact .tail _ (ih hl.2)

lemma Line.rank_le (hs : (head :: rest).Pairwise fun a b => (s.fec a).rank < (s.fec b).rank) :
    ∀ j ∈ head :: rest, (s.fec j).rank ≤ (s.fec tail).rank := by
  induction rest generalizing head with
  | nil =>
    intro j hm
    rw [mem_singleton.mp hm, show head = tail from hl]
  | cons next more ih =>
    intro j hm
    obtain ⟨hf, hs⟩ := pairwise_cons.mp hs
    rcases mem_cons.mp hm with rfl | hm
    · exact le_of_lt (hf tail hl.2.tail_mem)
    · exact ih hl.2 hs j hm

lemma Line.congr (nd : (head :: rest).Nodup)
    (hs : ∀ j ∈ head :: rest, j ≠ tail → kids' j = kids j) : Line kids' head rest tail := by
  induction rest generalizing head with
  | nil => exact hl
  | cons next more ih =>
    obtain ⟨ho, hf⟩ := hl
    obtain ⟨hn, nd⟩ := nodup_cons.mp nd
    have ne : head ≠ tail := fun eq => hn (eq ▸ hf.tail_mem)
    refine ⟨?_, ih hf nd fun j hm => hs j (.tail _ hm)⟩
    rw [hs head mem_cons_self ne]
    exact ho

end

lemma Rooted.above (hr : Rooted s kids r spare) (hc : s.Conn head) (ne : head ≠ r) :
    ∃ p ∈ s.ancestry, (s.fec head).parent = some p ∧ head ∈ kids p := by
  have hw := hr.whole
  rcases hw.places.tops head hc with ⟨p, hl, hk⟩ | ht | no
  · have up := (hw.places.same p hl not_mem_nil head hk).mp hc
    refine ⟨p, up.resolve_right fun hf => ?_, ((hw.links.kid p hl head).mp hk).2.1, hk⟩
    have he := ((hw.places.leaf p up not_mem_nil).mp hf).resolve_right not_mem_nil
    rw [(hw.links.child_none hl).mp he] at hk
    cases hk
  · exact absurd (some.inj ht).symm ne
  · cases no

lemma Rooted.inner (hr : Rooted s kids r spare) (hc : s.Conn head) (ne : head ≠ r)
    (hm : (s.fec head).fecSetIdx ≠ 0) : ∃ p, (s.fec head).parent = some p ∧ s.Conn p ∧ p ≠ r ∧ head ∈ kids p := by
  obtain ⟨p, hb, hp, hk⟩ := hr.above hc ne
  have up : s.Conn p := .inl hb
  refine ⟨p, hp, up, ?_, hk⟩
  rintro rfl
  obtain ⟨-, hv⟩ := hr.whole.links.valid head hc.live p up.live hp
  unfold validateChainedBlockId at hv
  split at hv
  · rw [validateIntra, hr.complete] at hv
    simp at hv
  · simp only [validateInter, Bool.and_eq_true, decide_eq_true_iff] at hv
    exact hm hv.1.2

lemma Rooted.bankStart (hd : Rooted s kids r spare) (hn : Line kids head rest tail)
    (ho : ∀ j ∈ head :: rest, s.Conn j) (ne : head ≠ r)
    (hs : (head :: rest).Pairwise fun a b => (s.fec a).rank < (s.fec b).rank) (hu : n + rest.length = s.fecMax + 1) :
    ∃ start more, s.bankStart n head = .ok start ∧ Line kids start more tail ∧ (∀ j ∈ start :: more, s.Conn j) ∧
      start ≠ r ∧ (start :: more).Pairwise fun a b => (s.fec a).rank < (s.fec b).rank := by
  have hw := hd.whole
  induction n generalizing head rest with
  | zero =>
    have nd : (head :: rest).Nodup := hs.imp fun he eq => absurd (eq ▸ he) (lt_irrefl _)
    have hb := hw.pool.length_le nd fun j hm => (ho j hm).live
    rw [length_cons] at hb
    omega
  | succ n ih =>
    unfold bankStart
    by_cases hf : (s.fec head).fecSetIdx = 0
    · rw [if_pos hf]
      exact ⟨head, rest, rfl, hn, ho, ne, hs⟩
    · rw [if_neg hf]
      by_cases more : (s.fec head).sibling = none
      · rw [if_neg (not_not.mpr more)]
        obtain ⟨p, hp, up, ha, hk⟩ := hd.inner (ho head (.head _)) ne hf
        rw [hp]
        dsimp only
        by_cases only : (s.fec p).child = some head
        · rw [if_neg (not_not.mpr only)]
          have hi : kids p = [head] := by
            have hc := hw.links.chain p up.live
            rw [only] at hc
            cases all : kids p with
            | nil =>
              rw [all] at hk
              cases hk
            | cons x others =>
              rw [all] at hc
              obtain ⟨eq, hc⟩ := hc
              cases eq
              dsimp only at hc
              rw [more] at hc
              rw [hc.eq_nil]
          have hl := hw.links.rank hw.pool up.live hk
          have hr : Line kids p (head :: rest) tail := ⟨hi, hn⟩
          refine ih hr ?_ ha ?_ ?_
          · intro j hm
            rcases mem_cons.mp hm with rfl | hm
            · exact up
            · exact ho j hm
          · refine pairwise_cons.mpr ⟨fun j hm => ?_, hs⟩
            rcases mem_cons.mp hm with rfl | hm
            · exact hl
            · exact hl.trans ((pairwise_cons.mp hs).1 j hm)
          · rw [length_cons]
            omega
        · rw [if_pos only]
          exact ⟨head, rest, rfl, hn, ho, ne, hs⟩
      · rw [if_pos more]
        exact ⟨head, rest, rfl, hn, ho, ne, hs⟩

lemma before_spec {first : Idx} (hd : ∀ j ∈ first :: l, (s.fec j).key = (s.fec head).key → j = head)
    (hm : head ∈ l) (nd : (first :: l).Nodup) : ∃ a prev b, first :: l = a ++ prev :: head :: b ∧
      s.before (s.fec head).key (first :: l) = some (prev, head) := by
  induction l generalizing first with
  | nil => cases hm
  | cons next rest ih =>
    unfold before
    by_cases hh : next = head
    · subst hh
      exact ⟨[], first, rest, rfl, if_pos rfl⟩
    · have hk : (s.fec next).key ≠ (s.fec head).key := fun eq =>
        hh (hd next (.tail _ (.head _)) eq)
      rw [if_neg hk]
      have hl := (mem_cons.mp hm).resolve_left (Ne.symm hh)
      obtain ⟨a, prev, b, hs, hf⟩ :=
        ih (fun j m => hd j (.tail _ m)) hl (nodup_cons.mp nd).2
      exact ⟨first :: a, prev, b, by rw [hs, cons_append], hf⟩

structure Rewired (s s' : Reasm) (kids : Idx → List Idx) (parent : Idx) : Prop where
  eq : ∃ f, s' = { s with fec := f } ∧ ∀ j,
    { f j with child := none, sibling := none } = { s.fec j with child := none, sibling := none }
  chain : ∀ p ∈ s.live, Chain (fun j => (s'.fec j).sibling) (s'.fec p).child (kids p)
  child : ∀ j, j ≠ parent → (s'.fec j).child = (s.fec j).child
  alone : ∀ j ∈ s.live, (s.fec j).parent = none → (s'.fec j).sibling = none

lemma Whole.unlink_ok (hw : Whole s kids t) (hl : parent ∈ s.live) (hb : head ∈ kids parent) :
    ∃ s', s.unlink parent head = .ok s' ∧ Rewired s s' (update kids parent ((kids parent).erase head)) parent := by
  have hk := hw.links
  have hp := hw.pool
  have hc := hk.chain parent hl
  have m : ∀ j ∈ kids parent, j ∈ s.live ∧ (s.fec j).parent = some parent := fun j hx =>
    have hb := (hk.kid parent hl j).mp hx
    ⟨hb.1, hb.2.1⟩
  have hd : ∀ j ∈ kids parent, (s.fec j).key = (s.fec head).key → j = head := fun j hx eq =>
    hp.keys j (m j hx).1 head (m head hb).1 eq
  have ha : ∀ p ∈ s.live, p ≠ parent → ∀ j ∈ kids parent, j ∉ kids p := by
    intro p hi ne j hx hg
    exact ne (some.inj (((hk.kid p hi j).mp hg).2.1.symm.trans (m j hx).2))
  unfold unlink
  rw [hk.children hp hl]
  cases all : kids parent with
  | nil =>
    rw [all] at hb
    cases hb
  | cons first rest =>
    rw [all] at hc hb m hd ha
    have nd := hc.nodup
    dsimp only
    by_cases hh : first = head
    · subst hh
      rw [if_pos rfl]
      refine ⟨_, rfl, ⟨⟨_, rfl, fun j => ?_⟩, ?_, ?_, ?_⟩⟩
      · simp only
        split <;> rfl
      · intro p hi
        have hs : ∀ j, ((s.set parent fun f => { f with child := (s.fec first).sibling }).fec j).sibling =
            (s.fec j).sibling := by
          intro j
          simp only [Reasm.set]
          split <;> rfl
        by_cases up : p = parent
        · subst up
          rw [update_self, erase_cons_head]
          have child : ((s.set p fun f => { f with child := (s.fec first).sibling }).fec p).child =
              (s.fec first).sibling := (congrArg child (if_pos rfl) :)
          rw [child]
          exact Chain.congr hc.2 fun j _ => hs j
        · rw [update_of_ne up]
          have child : ((s.set parent fun f => { f with child := (s.fec first).sibling }).fec p).child =
              (s.fec p).child := (congrArg child (if_neg up) :)
          rw [child]
          exact (hk.chain p hi).congr fun j _ => hs j
      · exact fun j ne => (congrArg child (if_neg ne) :)
      · intro j hx none
        simp only [Reasm.set]
        split
        · exact hk.alone j hx none
        · exact hk.alone j hx none
    · have hy : (s.fec first).key ≠ (s.fec head).key := fun eq => hh (hd first (.head _) eq)
      rw [if_neg hy]
      have hr := (mem_cons.mp hb).resolve_left (Ne.symm hh)
      obtain ⟨a, prev, b, split, hf⟩ := before_spec hd hr nd
      rw [hf]
      rw [split] at hc nd m ha ⊢
      have hx : prev ∈ a ++ prev :: head :: b := mem_append_right _ (.head _)
      obtain ⟨-, ho, he⟩ := hc.erase_next
      refine ⟨_, rfl, ⟨⟨_, rfl, fun j => ?_⟩, ?_, ?_, ?_⟩⟩
      · simp only
        split <;> rfl
      · intro p hi
        have child : ((s.set prev fun f => { f with sibling := (s.fec head).sibling }).fec p).child = (s.fec p).child := by
          simp only [Reasm.set]
          split <;> rfl
        rw [child]
        by_cases up : p = parent
        · subst up
          rw [update_self, he]
          refine hc.skip ?_ fun z ht => ?_
          · exact (congrArg sibling (if_pos rfl) :)
          · exact (congrArg sibling (if_neg (ho z ht)) :)
        · rw [update_of_ne up]
          refine (hk.chain p hi).congr fun j ht => ?_
          have ne : j ≠ prev := fun eq => ha p hi up prev hx (eq ▸ ht)
          exact (congrArg sibling (if_neg ne) :)
      · intro j _
        simp only [Reasm.set]
        split <;> rfl
      · intro j hm none
        have ne : j ≠ prev := by
          rintro rfl
          cases none.symm.trans (m j hx).2
        exact (congrArg sibling (if_neg ne) :).trans (hk.alone j hm none)

lemma Whole.unlinked (hw : Whole s kids t) (hd : t.detached = []) (live : parent ∈ s.live)
    (kid : head ∈ kids parent) (hre : Rewired s s' (update kids parent ((kids parent).erase head)) parent) :
    Whole s' (update kids parent ((kids parent).erase head))
        { t with detached := [head], stale := parent :: t.stale } ∧ Kept s s' := by
  obtain ⟨⟨f, rfl, core⟩, chain, child, alone⟩ := hre
  have hk := hw.links
  have hp := hw.places
  rw [hd] at hk hp
  have name : ∀ j, (f j).name = (s.fec j).name := fun j => (congrArg name (core j) :)
  have up : ∀ j, (f j).parent = (s.fec j).parent := fun j => (congrArg Fec.parent (core j) :)
  have cmr : ∀ j, (f j).cmr = (s.fec j).cmr := fun j => (congrArg cmr (core j) :)
  have key : ∀ j, (f j).key = (s.fec j).key := fun j => (congrArg key (core j) :)
  have ha := ((hk.kid parent live head).mp kid).2.1
  -- the element has left one list of children
  have hm : ∀ p ∈ s.live, ∀ c, c ∈ update kids parent ((kids parent).erase head) p ↔ c ∈ kids p ∧ c ≠ head := by
    intro p live' c
    by_cases hh : p = parent
    · subst hh
      rw [update_self, (hk.chain p live').nodup.mem_erase_iff, and_comm]
    · rw [update_of_ne hh]
      refine (and_iff_left_of_imp fun hg => ?_).symm
      rintro rfl
      exact hh (some.inj (((hk.kid p live' c).mp hg).2.1.symm.trans ha))
  refine ⟨⟨hw.pool.refec name, ⟨chain, ?_, ?_, ?_, ?_⟩, ⟨?_, ?_, ?_, ?_, ?_, hp.subtreel⟩,
    hw.outs.refec fun j => (congrArg inOut (core j) :), ?_, ?_⟩, ?_⟩
  · intro p live' c
    rw [hm p live' c, hk.kid p live' c]
    rw [up c, mem_singleton]
    exact ⟨fun both => ⟨both.1.1, both.1.2.1, both.2⟩, fun all => ⟨⟨all.1, all.2.1, not_mem_nil⟩, all.2.2⟩⟩
  · intro c live' none
    exact alone c live' ((up c).symm.trans none)
  · intro c live' p some
    rcases hk.up c live' p ((up c).symm.trans some) with higher | no | he
    · exact .inl higher
    · cases no
    · exact .inr (.inr he)
  · intro c live' p live'' some
    obtain ⟨eq, hv⟩ := hk.valid c live' p live'' ((up c).symm.trans some)
    exact ⟨(cmr c).trans (eq.trans (key p).symm), (validate_name (name p) (name c)).trans hv⟩
  · intro p live' hr c hg
    exact hp.same p live' hr c ((hm p live' c).mp hg).1
  · intro p waits
    obtain ⟨front, hb⟩ := hp.waiting p waits
    exact ⟨front, fun c hg => hb c ((hm p (frontier_live p front) c).mp hg).1⟩
  · intro c conn
    rcases hp.tops c conn with ⟨p, live', hg⟩ | top | no
    · by_cases hh : c = head
      · exact .inr (.inr (hh ▸ mem_singleton_self _))
      · exact .inl ⟨p, live', (hm p live' c).mpr ⟨hg, hh⟩⟩
    · exact .inr (.inl top)
    · cases no
  · intro j conn hf
    have ne : j ≠ parent := fun eq => hf (eq ▸ .head _)
    have hs : (f j).child = (s.fec j).child := child j ne
    rw [hs]
    exact hp.leaf j conn fun stale => hf (.tail _ stale)
  · intro j live' orphan
    rw [up j]
    exact hp.orphan j live' orphan
  · exact hw.xids.congr rfl (fun j _ => (congrArg listing (core j) :)) fun _ => .rfl
  · exact fun j hf => (congrArg xidNext (core j) :).trans (hw.unlisted j hf)
  · exact {
      fecMax := rfl
      xidMax := rfl
      root := rfl
      live := fun _ m => m
      ident := fun j => (congrArg ident (core j) :)
      child := fun j hn => child j fun eq => hn (eq ▸ live)
      parent := fun c _ p some => .inl ((up c).symm.trans some)
      queue := fun hq => hq.keep (fun j => (congrArg ident (core j) :)) (fun _ ht => ht)
        (fun j _ p some => (up j).symm.trans some) rfl }

lemma removeChain_ok (hw : Whole s kids { t with detached := [head] }) (hm : Line kids head rest tail)
    (hq : kids tail = []) (he : ∀ j ∈ head :: rest, s.Conn j) (nd : (head :: rest).Nodup)
    (hr : t.pending = []) (hd : t.fresh = none) (hj : rest.length < n) :
    ∃ s', removeChain n (some head) s = .ok s' ∧
      Whole s' kids { t with detached := [], spare := (head :: rest).reverse ++ t.spare } ∧ Shrinks s s' ∧
      ∀ j, j ∈ s'.live ↔ j ∈ s.live ∧ j ∉ head :: rest := by
  induction n generalizing s head rest t with
  | zero => exact absurd hj (Nat.not_lt_zero _)
  | succ n ih =>
    have hh := he head (.head _)
    have hl := hh.live
    have hp := hw.pool
    have hf : (s.find s.ancestry (s.fec head).key).or (s.find s.frontier (s.fec head).key) = some head := by
      by_cases a : head ∈ s.ancestry
      · rw [hp.find_mem ancestry_live a]
        rfl
      · rw [hp.find_not_mem ancestry_live hl a, hp.find_mem frontier_live (hh.resolve_left a)]
        rfl
    have hz : head ∉ t.pending := by
      rw [hr]
      exact not_mem_nil
    have hk : t.fresh ≠ some head := by
      rw [hd]
      exact nofun
    have ht : removeChain (n + 1) (some head) s =
        ((s.drop head).clearXid head >>= fun s' => removeChain n (s.fec head).child s') := by
      rw [← drop_child s head head, ← hw.leave hl, ← hw.leaveTree hh]
      conv_lhs => unfold removeChain
      dsimp only
      rw [hf]
    rw [ht]
    have hi : ∀ p ∈ s.live, head ∉ kids p :=
      fun p hv kid => ((hw.links.kid p hv head).mp kid).2.2 (mem_singleton_self _)
    have ha : Handed s kids head [head] (kids head) t.keep t.top :=
      ⟨fun c _ ne m => absurd (mem_singleton.mp m) ne, fun c m => .inl m,
        fun c m => .inr m⟩
    obtain ⟨s₁, h, ho, hs, mem⟩ := hw.clear hl hi hz hk ha
    rw [h]
    have hb := (hw.links.chain head hl).first_eq
    cases rest with
    | nil =>
      cases hm
      rw [hq] at hb ho
      refine ⟨s₁, ?_, ho, hs, fun j => ?_⟩
      · refine bind_ok.mpr ⟨s₁, rfl, ?_⟩
        rw [hb]
        cases n <;> rfl
      · rw [mem j, mem_singleton]
    | cons next more =>
      obtain ⟨only, hu⟩ := hm
      obtain ⟨hx, nd⟩ := nodup_cons.mp nd
      rw [only] at hb ho
      have hc : ∀ j ∈ next :: more, s₁.Conn j := by
        intro j m
        have he := he j (.tail _ m)
        have ne : j ≠ head := fun eq => hx (eq ▸ m)
        exact (hs.conn j ((mem j).mpr ⟨he.live, ne⟩)).mpr he
      obtain ⟨s', run, hg, hn, hy⟩ := ih (t := { t with spare := head :: t.spare }) ho hu hc nd
        hr hd (Nat.lt_of_succ_lt_succ hj)
      refine ⟨s', ?_, ?_, hs.trans hn, fun j => ?_⟩
      · refine bind_ok.mpr ⟨s₁, rfl, ?_⟩
        rw [hb]
        exact run
      · rw [reverse_cons, append_assoc]
        exact hg
      · rw [hy j, mem j, and_assoc, mem_cons (a := j) (b := head), not_or]

lemma Whole.retreat (hw : Whole s kids t) (hi : parent ∈ s.ancestry) (hr : t.pending = [])
    (rest : ∀ j ∈ t.stale, j = parent ∨ ¬s.Conn j) :
    ∃ s', s.retreat parent = .ok s' ∧ Whole s' kids { t with stale := [] } ∧ Moved s s' ∧ s'.out = s.out ∧
      ∀ j, s'.Conn j ↔ s.Conn j := by
  have pool := hw.pool
  have hp := hw.places
  obtain ⟨hn, -, -, -, ha, -⟩ := pool.disjoint
  have hs : ∀ j, s.Conn j → j ≠ parent → j ∉ t.stale := by
    intro j conn ne hl
    rcases rest j hl with eq | hg
    · exact ne eq
    · exact hg conn
  unfold Reasm.retreat
  by_cases leaf : (s.fec parent).child = none
  · rw [if_pos leaf, pool.find_mem ancestry_live hi]
    have conn : ∀ j, Conn { s with ancestry := s.ancestry.erase parent, frontier := parent :: s.frontier } j ↔
        s.Conn j := by
      intro j
      unfold Conn
      rw [hn.mem_erase_iff, mem_cons]
      by_cases hh : j = parent
      · simp [hh, hi]
      · simp [hh]
    have hm : Moved s { s with ancestry := s.ancestry.erase parent, frontier := parent :: s.frontier } := by
      refine ⟨rfl, rfl, rfl, rfl, rfl, fun _ => rfl, ?_⟩
      unfold live
      refine List.Perm.append_right _ (List.Perm.append_right _ ?_)
      refine perm_middle.trans ?_
      exact (perm_cons_erase hi).symm.append_right _
    have live := fun j => hm.perm.mem_iff (a := j)
    refine ⟨_, rfl, ⟨hm.pool pool, hm.links hw.links, ?_, ?_, hm.xids hw.xids, hw.unlisted⟩,
      hm, rfl, conn⟩
    · refine ⟨?_, ?_, ?_, ?_, ?_, hp.subtreel⟩
      · intro p hx hb c hk
        rw [conn, conn]
        exact hp.same p ((live p).mp hx) hb c hk
      · intro p hb
        obtain ⟨hf, below⟩ := hp.waiting p hb
        exact ⟨.tail _ hf, below⟩
      · intro c ht
        rcases hp.tops c ((conn c).mp ht) with ⟨p, hx, hk⟩ | ho
        · exact .inl ⟨p, (live p).mpr hx, hk⟩
        · exact .inr ho
      · intro j ht _
        by_cases hh : j = parent
        · subst hh
          exact ⟨fun _ => .inl leaf, fun _ => .head _⟩
        · have ht := (conn j).mp ht
          rw [← hp.leaf j ht (hs j ht hh), mem_cons]
          exact or_iff_right hh
      · intro j hx orphan
        exact hp.orphan j ((live j).mp hx) fun ht => orphan ((conn j).mpr ht)
    · refine ⟨hw.outs.nodup, fun j hx => (conn j).mpr (hw.outs.conn j hx), ?_⟩
      exact fun j hx => hw.outs.flag j ((live j).mp hx)
  · rw [if_neg leaf]
    have hm : Moved s s := ⟨rfl, rfl, rfl, rfl, rfl, fun _ => rfl, .refl _⟩
    refine ⟨s, rfl, ⟨pool, hw.links, ?_, hw.outs, hw.xids, hw.unlisted⟩, hm, rfl, fun _ => .rfl⟩
    refine ⟨hp.same, hp.waiting, hp.tops, ?_, hp.orphan, hp.subtreel⟩
    intro j conn _
    by_cases hh : j = parent
    · subst hh
      refine ⟨fun hf => absurd hf (ha j hi), ?_⟩
      rintro (none | hb)
      · exact absurd none leaf
      · rw [hr] at hb
        cases hb
    · exact hp.leaf j conn (hs j conn hh)

/-- The state without the link from the removed element to its first child. The loop does not read
the link again, and resets it when it is done. -/
def Reasm.hide (s : Reasm) (tail : Idx) : Reasm := s.set tail fun f => { f with child := none }

lemma hide_fec (s : Reasm) (tail j : Idx) : { (s.hide tail).fec j with child := none } = { s.fec j with child := none } := by
  simp only [Reasm.hide, Reasm.set]
  split <;> rfl

lemma hide_of_ne (ne : j ≠ tail) : (s.hide tail).fec j = s.fec j := if_neg ne

lemma hide_children (ne : i ≠ tail) : (s.hide tail).children i = s.children i := by
  unfold children
  have hn : (fun j => ((s.hide tail).fec j).sibling) = fun j => (s.fec j).sibling :=
    funext fun j => (congrArg sibling (hide_fec s tail j) :)
  rw [hn, hide_of_ne ne]
  rfl

lemma hide_find (map : List Idx) (key : Hash) : (s.hide tail).find map key = s.find map key := by
  unfold find
  have hk : ∀ j, ((s.hide tail).fec j).key = (s.fec j).key := fun j => (congrArg Fec.key (hide_fec s tail j) :)
  simp only [hk]

lemma set_comm (s : Reasm) (i : Idx) {f : Fec → Fec} (hc : ∀ g, f { g with child := none } = { f g with child := none }) :
    (s.hide tail).set i f = (s.set i f).hide tail := by
  simp only [Reasm.hide, Reasm.set]
  congr 1
  funext j
  split <;> split <;> simp [hc]

lemma hide_leaveTree (s : Reasm) (i : Idx) : (s.hide tail).leaveTree i = (s.leaveTree i).hide tail := by
  have key : ((s.hide tail).fec i).key = (s.fec i).key := (congrArg key (hide_fec s tail i) :)
  unfold leaveTree
  rw [hide_find, hide_find, key, show (s.hide tail).ancestry = s.ancestry from rfl,
    show (s.hide tail).frontier = s.frontier from rfl]
  cases s.find s.ancestry (s.fec i).key with
  | some k => rfl
  | none => cases s.find s.frontier (s.fec i).key <;> rfl

lemma hide_leaveOut (s : Reasm) (i : Idx) : (s.hide tail).leaveOut i = (s.leaveOut i).hide tail := by
  have hf : ((s.hide tail).fec i).inOut = (s.fec i).inOut := (congrArg inOut (hide_fec s tail i) :)
  unfold leaveOut
  rw [hf]
  split
  · rw [set_comm s i fun _ => rfl]
    rfl
  · rfl

lemma hide_orphan (s : Reasm) (i : Idx) : (s.hide tail).orphan tail i = (s.orphan tail i).hide tail := by
  unfold orphan
  dsimp only
  rw [hide_leaveTree, hide_leaveOut]
  generalize (s.leaveTree i).leaveOut i = u
  have parent : ((u.hide tail).fec i).parent = (u.fec i).parent := (congrArg parent (hide_fec u tail i) :)
  rw [parent]
  split
  · rw [set_comm u i fun _ => rfl]
    rfl
  · rfl

/-- The queue holds what is still in the tree, and what is above it has left the tree. -/
structure Orphaning (s : Reasm) (kids : Idx → List Idx) (spare queue : List Idx) (tail : Idx) (top : Option Idx) : Prop where
  pool : Pool s spare
  links : ∃ detached, Links s kids detached none ∧ ∀ c, c ∈ detached ↔ c ∈ queue ∧ (s.fec c).parent = some tail
  outs : Outs s
  xids : Xids s fun j => j ∈ s.live ∧ (none : Option Idx) ≠ some j
  nodup : queue.Nodup
  low : ∀ c ∈ queue, (s.fec tail).rank < (s.fec c).rank
  same : ∀ p ∈ s.live, ∀ c ∈ kids p, c ∉ queue → (s.Conn c ↔ s.Conn p)
  conn : ∀ c ∈ queue, s.Conn c
  above : ∀ c ∈ queue, (s.fec c).parent ≠ none ∧ ∀ p ∈ s.live, c ∈ kids p → ¬s.Conn p
  tops : ∀ c, s.Conn c → (∃ p ∈ s.live, s.Conn p ∧ c ∈ kids p) ∨ top = some c ∨ c ∈ queue
  leaf : ∀ j, s.Conn j → j ≠ tail → (j ∈ s.frontier ↔ (s.fec j).child = none)
  orphan : ∀ j ∈ s.live, ¬s.Conn j → (j ∈ s.subtrees ↔ (s.fec j).parent = none)
  subtreel : Lists s.subtreel fun j => j ∈ s.subtrees

structure Above (s s' : Reasm) (tail : Idx) : Prop where
  kept : Kept s s'
  ancestry : ∀ j, (s.fec j).rank ≤ (s.fec tail).rank → (j ∈ s'.ancestry ↔ j ∈ s.ancestry)
  frontier : ∀ j, (s.fec j).rank ≤ (s.fec tail).rank → (j ∈ s'.frontier ↔ j ∈ s.frontier)
  parent_eq : ∀ j, (s.fec j).rank ≤ (s.fec tail).rank → (s'.fec j).parent = (s.fec j).parent

lemma Kept.rank (hk : Kept s s') (j : Idx) : (s'.fec j).rank = (s.fec j).rank :=
  (congrArg Fec.rank (hk.ident j) :)

lemma Above.refl (s : Reasm) (tail : Idx) : Above s s tail :=
  ⟨.refl s, fun _ _ => .rfl, fun _ _ => .rfl, fun _ _ => rfl⟩

lemma Above.trans {s'' : Reasm} (hf : Above s s' tail) (hs : Above s' s'' tail) : Above s s'' tail := by
  have hr : ∀ j, (s.fec j).rank ≤ (s.fec tail).rank → (s'.fec j).rank ≤ (s'.fec tail).rank := by
    intro j hl
    rw [hf.kept.rank, hf.kept.rank]
    exact hl
  refine ⟨hf.kept.trans hs.kept, ?_, ?_, ?_⟩
  · exact fun j hl => (hs.ancestry j (hr j hl)).trans (hf.ancestry j hl)
  · exact fun j hl => (hs.frontier j (hr j hl)).trans (hf.frontier j hl)
  · exact fun j hl => (hs.parent_eq j (hr j hl)).trans (hf.parent_eq j hl)

lemma Pool.leaveTree (hp : Pool s spare) (hc : s.Conn i) :
    s.leaveTree i = { s with ancestry := s.ancestry.erase i, frontier := s.frontier.erase i } := by
  unfold Reasm.leaveTree
  by_cases a : i ∈ s.ancestry
  · rw [hp.find_mem ancestry_live a]
    rw [erase_of_not_mem (hp.disjoint.2.2.2.2.1 i a)]
  · rw [hp.find_not_mem ancestry_live hc.live a, hp.find_mem frontier_live (hc.resolve_left a),
      erase_of_not_mem a]

def Reasm.cut (s : Reasm) (i : Idx) : Reasm :=
  { s.set i fun f => { f with inOut := false } with
    ancestry := s.ancestry.erase i, frontier := s.frontier.erase i, out := s.out.erase i }

lemma Pool.orphan_eq (hp : Pool s spare) (ho : Outs s) (hc : s.Conn i) : s.orphan tail i =
    if (s.fec i).parent = some tail then
      Reasm.uproot { s.cut i with subtrees := i :: s.subtrees, subtreel := s.subtreel ++ [i] } i
    else { s.cut i with orphaned := i :: s.orphaned } := by
  have cut : (s.leaveTree i).leaveOut i = s.cut i := by
    rw [hp.leaveTree hc, leaveOut_eq]
    · rfl
    · exact ho.flag i hc.live
  unfold orphan
  dsimp only
  rw [cut]
  have parent : ((s.cut i).fec i).parent = (s.fec i).parent := (congrArg parent (if_pos rfl) :)
  rw [parent]
  rfl

lemma Pool.cut_perm (hp : Pool s spare) (hc : s.Conn i) :
    (i :: ((s.cut i).ancestry ++ (s.cut i).frontier)).Perm (s.ancestry ++ s.frontier) := by
  rcases hc with a | f
  · have hn := hp.disjoint.2.2.2.2.1 i a
    have hs : (s.cut i).frontier = s.frontier := erase_of_not_mem hn
    rw [hs]
    exact (perm_cons_erase a).symm.append_right _
  · have hn : i ∉ s.ancestry := fun a => hp.disjoint.2.2.2.2.1 i a f
    have hs : (s.cut i).ancestry = s.ancestry := erase_of_not_mem hn
    rw [hs]
    exact perm_middle.symm.trans ((perm_cons_erase f).symm.append_left _)

lemma Pool.cut_mem (hp : Pool s spare) (j : Idx) :
    (j ∈ (s.cut i).ancestry ↔ j ≠ i ∧ j ∈ s.ancestry) ∧ (j ∈ (s.cut i).frontier ↔ j ≠ i ∧ j ∈ s.frontier) := by
  obtain ⟨ha, hf, -⟩ := hp.disjoint
  exact ⟨ha.mem_erase_iff, hf.mem_erase_iff⟩

structure Outcast (s s' : Reasm) (i : Idx) : Prop where
  fecMax : s'.fecMax = s.fecMax
  xidMax : s'.xidMax = s.xidMax
  root : s'.root = s.root
  free : s'.free = s.free
  xid : s'.xid = s.xid
  out : s'.out = s.out.erase i
  perm : s'.live.Perm s.live
  ancestry : ∀ j, j ∈ s'.ancestry ↔ j ≠ i ∧ j ∈ s.ancestry
  frontier : ∀ j, j ∈ s'.frontier ↔ j ≠ i ∧ j ∈ s.frontier
  others : ∀ j, j ≠ i → s'.fec j = s.fec j
  self : { s'.fec i with inOut := false, parent := none, sibling := none } =
    { s.fec i with inOut := false, parent := none, sibling := none }
  parent : (s'.fec i).parent = (s.fec i).parent ∨ (s'.fec i).parent = none

section
variable (ho : Outcast s s' i)
include ho

lemma Outcast.fec (j : Idx) : { s'.fec j with inOut := false, parent := none, sibling := none } =
    { s.fec j with inOut := false, parent := none, sibling := none } := by
  by_cases hh : j = i
  · rw [hh]
    exact ho.self
  · rw [ho.others j hh]

lemma Outcast.conn (j : Idx) : s'.Conn j ↔ s.Conn j ∧ j ≠ i := by
  unfold Conn
  rw [ho.ancestry, ho.frontier, ← and_or_left]
  exact and_comm

lemma Outcast.pool (pool : Pool s spare) : Pool s' spare :=
  .congr (fun j => (congrArg name (ho.fec j) :)) pool ho.perm ho.free ho.fecMax

lemma Outcast.outs (outs : Outs s) (hf : (s'.fec i).inOut = false) : Outs s' := by
  refine ⟨ho.out ▸ outs.nodup.erase i, ?_, ?_⟩
  · intro j hm
    rw [ho.out, outs.nodup.mem_erase_iff] at hm
    exact (ho.conn j).mpr ⟨outs.conn j hm.2, hm.1⟩
  · intro j hm
    rw [ho.out, outs.nodup.mem_erase_iff]
    by_cases hh : j = i
    · subst hh
      rw [hf]
      exact ⟨nofun, fun no => absurd rfl no.1⟩
    · rw [ho.others j hh, outs.flag j (ho.perm.mem_iff.mp hm)]
      exact (and_iff_right hh).symm

lemma Outcast.above (hu : Outs s) (hl : (s.fec tail).rank < (s.fec i).rank) : Above s s' tail := by
  have ne : ∀ j, (s.fec j).rank ≤ (s.fec tail).rank → j ≠ i := by
    rintro j hi rfl
    omega
  have parent : ∀ j, (s'.fec j).parent = (s.fec j).parent ∨ (s'.fec j).parent = none := by
    intro j
    by_cases hh : j = i
    · rw [hh]
      exact ho.parent
    · exact .inl (congrArg Fec.parent (ho.others j hh))
  refine ⟨?_, ?_, ?_, ?_⟩
  · exact {
      fecMax := ho.fecMax
      xidMax := ho.xidMax
      root := ho.root
      live := fun j hm => ho.perm.mem_iff.mp hm
      ident := fun j => (congrArg ident (ho.fec j) :)
      child := fun j _ => (congrArg child (ho.fec j) :)
      parent := by
        intro c _ p hs
        rcases parent c with eq | none
        · exact .inl (eq.symm.trans hs)
        · cases none.symm.trans hs
      queue := by
        refine fun hq => hq.erase (fun j => (congrArg ident (ho.fec j) :))
          (fun j hc => (ho.conn j).mp hc) (fun j _ p hs => ?_) hu.nodup ho.out
        rcases parent j with eq | none
        · exact eq.symm.trans hs
        · cases none.symm.trans hs }
  · exact fun j hi => (ho.ancestry j).trans (and_iff_right (ne j hi))
  · exact fun j hi => (ho.frontier j).trans (and_iff_right (ne j hi))
  · exact fun j hi => congrArg Fec.parent (ho.others j (ne j hi))

end

lemma Pool.tree_nodup (hp : Pool s spare) : (s.ancestry ++ s.frontier).Nodup := by
  have all := hp.live_nodup
  unfold live at all
  exact (nodup_append.mp (nodup_append.mp all).1).1

lemma Outcast.tree_perm (ho : Outcast s s' i) (hl : Pool s spare) (hp : Pool s' spare) (hh : s.Conn i) :
    (i :: (s'.ancestry ++ s'.frontier)).Perm (s.ancestry ++ s.frontier) := by
  refine (perm_ext_iff_of_nodup (nodup_cons.mpr ⟨fun ha => ?_, hp.tree_nodup⟩) hl.tree_nodup).mpr fun j => ?_
  · exact ((ho.conn i).mp (mem_append.mp ha)).2 rfl
  · have hc := ho.conn j
    unfold Conn at hc hh
    rw [mem_cons, mem_append, mem_append, hc]
    by_cases hf : j = i
    · rw [hf]
      exact ⟨fun _ => hh, fun _ => .inl rfl⟩
    · simp [hf]

section
variable (o : Orphaning s kids spare (i :: rest) tail top)
include o

lemma Orphaning.advance (ho : Outcast s s' i) (hd : (s'.fec i).inOut = false)
    (links : ∃ detached, Links s' kids detached none ∧
      ∀ c, c ∈ detached ↔ c ∈ rest ++ kids i ∧ (s'.fec c).parent = some tail)
    (orphan : i ∈ s'.subtrees ↔ (s'.fec i).parent = none) (hs : ∀ j, j ≠ i → (j ∈ s'.subtrees ↔ j ∈ s.subtrees))
    (subtreel : Lists s'.subtreel fun j => j ∈ s'.subtrees) : Orphaning s' kids spare (rest ++ kids i) tail top := by
  have hl : ∀ j, j ∈ s'.live ↔ j ∈ s.live := fun j => ho.perm.mem_iff
  have rank : ∀ j, (s'.fec j).rank = (s.fec j).rank := fun j => (congrArg rank (ho.fec j) :)
  have child : ∀ j, (s'.fec j).child = (s.fec j).child := fun j => (congrArg child (ho.fec j) :)
  have hh := o.conn i (.head _)
  have low := o.low i (.head _)
  obtain ⟨hc, nodup⟩ := nodup_cons.mp o.nodup
  obtain ⟨detached, hb, -⟩ := o.links
  -- the children are in the tree, and their only parent is not any more
  have he : ∀ c ∈ kids i, c ∉ i :: rest ∧ s.Conn c ∧ c ≠ i ∧ (s.fec c).parent = some i := by
    intro c hk
    have ht : c ∉ i :: rest := fun hq => (o.above c hq).2 i hh.live hk hh
    have hu := hb.rank o.pool hh.live hk
    refine ⟨ht, (o.same i hh.live c hk ht).mpr hh, ?_, ((hb.kid i hh.live c).mp hk).2.1⟩
    rintro rfl
    omega
  refine {
    pool := ho.pool o.pool
    links := links
    outs := ho.outs o.outs hd
    xids := ?_
    nodup := ?_
    low := ?_
    same := ?_
    conn := ?_
    above := ?_
    tops := ?_
    leaf := ?_
    orphan := ?_
    subtreel := subtreel }
  · exact o.xids.congr ho.xid (fun j _ => (congrArg listing (ho.fec j) :)) fun j => and_congr_left fun _ => hl j
  · refine nodup_append.mpr ⟨nodup, (hb.chain i hh.live).nodup, ?_⟩
    intro a hq b hk eq
    exact (he b hk).1 (eq ▸ .tail _ hq)
  · intro c hm
    rw [rank, rank]
    rcases mem_append.mp hm with hq | hk
    · exact o.low c (.tail _ hq)
    · exact low.trans (hb.rank o.pool hh.live hk)
  · intro p hm c hk ht
    have hm := (hl p).mp hm
    rw [ho.conn, ho.conn]
    by_cases first : c = i
    · subst first
      have hg := (o.above c (.head _)).2 p hm hk
      exact ⟨fun no => absurd rfl no.2, fun no => absurd no.1 hg⟩
    · have ne : p ≠ i := by
        rintro rfl
        exact ht (mem_append_right _ hk)
      have hf : c ∉ i :: rest := by
        intro hq
        exact ht (mem_append_left _ ((mem_cons.mp hq).resolve_left first))
      rw [o.same p hm c hk hf]
      simp [first, ne]
  · intro c hm
    rw [ho.conn]
    rcases mem_append.mp hm with hq | hk
    · exact ⟨o.conn c (.tail _ hq), fun eq => hc (eq ▸ hq)⟩
    · exact ⟨(he c hk).2.1, (he c hk).2.2.1⟩
  · intro c hm
    rcases mem_append.mp hm with hq | hk
    · have ne : c ≠ i := fun eq => hc (eq ▸ hq)
      obtain ⟨some, hg⟩ := o.above c (.tail _ hq)
      rw [ho.others c ne]
      refine ⟨some, fun p hm hk conn => ?_⟩
      exact hg p ((hl p).mp hm) hk ((ho.conn p).mp conn).1
    · obtain ⟨-, -, ne, parent⟩ := he c hk
      rw [ho.others c ne, parent]
      refine ⟨nofun, fun p hm hn conn => ?_⟩
      have eq := ((hb.kid p ((hl p).mp hm) c).mp hn).2.1
      exact ((ho.conn p).mp conn).2 (some.inj (eq.symm.trans parent))
  · intro c conn
    obtain ⟨conn, ne⟩ := (ho.conn c).mp conn
    rcases o.tops c conn with ⟨p, hm, up, hk⟩ | top | hq
    · by_cases first : p = i
      · subst first
        exact .inr (.inr (mem_append_right _ hk))
      · exact .inl ⟨p, (hl p).mpr hm, (ho.conn p).mpr ⟨up, first⟩, hk⟩
    · exact .inr (.inl top)
    · exact .inr (.inr (mem_append_left _ ((mem_cons.mp hq).resolve_left ne)))
  · intro j conn ha
    obtain ⟨conn, ne⟩ := (ho.conn j).mp conn
    rw [ho.frontier, child, ← o.leaf j conn ha]
    exact and_iff_right ne
  · intro j hm hg
    by_cases first : j = i
    · rw [first]
      exact orphan
    · rw [hs j first, ho.others j first]
      exact o.orphan j ((hl j).mp hm) fun conn => hg ((ho.conn j).mpr ⟨conn, first⟩)

lemma Orphaning.step :
    Orphaning (s.orphan tail i) kids spare (rest ++ kids i) tail top ∧ Outcast s (s.orphan tail i) i := by
  have hh := o.conn i (.head _)
  have hb := o.pool
  obtain ⟨-, hx, -⟩ := hb.disjoint
  obtain ⟨hn, hf⟩ := hb.disjoint.2.2.2.2.2.1 i hh
  obtain ⟨detached, hk, he⟩ := o.links
  have hs : ∀ c ∈ kids i, (s.fec c).parent = some i := fun c hj => ((hk.kid i hh.live c).mp hj).2.1
  have ha : ∀ c ∈ rest, c ≠ i := fun c hq eq => (nodup_cons.mp o.nodup).1 (eq ▸ hq)
  have hd : i ≠ tail := by
    rintro rfl
    exact lt_irrefl _ (o.low i (.head _))
  have hl : ∀ orphaned subtrees : List Idx, (i :: (s.orphaned ++ s.subtrees)).Perm (orphaned ++ subtrees) →
      ((s.cut i).ancestry ++ (s.cut i).frontier ++ orphaned ++ subtrees).Perm s.live := by
    intro orphaned subtrees hp
    unfold live
    rw [append_assoc, append_assoc (s.ancestry ++ s.frontier)]
    refine (hp.symm.append_left _).trans ?_
    refine perm_middle.trans ?_
    exact (hb.cut_perm hh).append_right _
  have hc : ∀ j, j ≠ i → (s.cut i).fec j = s.fec j := fun j ne => if_neg ne
  have hu : (s.cut i).fec i = { s.fec i with inOut := false } := if_pos rfl
  have hw : ∀ j, ({ (s.cut i).fec j with inOut := false } : Fec) = { s.fec j with inOut := false } := by
    intro j
    by_cases hv : j = i
    · subst hv
      rw [hu]
    · rw [hc j hv]
  rw [hb.orphan_eq o.outs hh]
  by_cases hr : (s.fec i).parent = some tail
  · rw [if_pos hr]
    let m : Reasm := { s.cut i with subtrees := i :: s.subtrees, subtreel := s.subtreel ++ [i] }
    have hm : Moved s m := ⟨rfl, rfl, rfl, rfl, rfl, hw, hl _ _ perm_middle.symm⟩
    have hg : (m.uproot i).fec i = { s.fec i with inOut := false, parent := none, sibling := none } := by
      rw [uproot_self]
      exact congrArg (fun f : Fec => { f with parent := none, sibling := none }) hu
    have ht : Outcast s (m.uproot i) i := by
      refine ⟨rfl, rfl, rfl, rfl, rfl, rfl, hm.perm, fun j => (hb.cut_mem j).1, fun j => (hb.cut_mem j).2,
        fun j ne => (uproot_of_ne ne).trans (hc j ne), ?_, ?_⟩
      · rw [hg]
      · rw [hg]
        exact .inr rfl
    refine ⟨o.advance ht ?_ ⟨rest.filter fun c => decide ((s.fec c).parent = some tail), ?_, ?_⟩ ?_ ?_ ?_, ht⟩
    · rw [hg]
    · have ho : ∀ p ∈ m.live, i ∉ kids p := by
        intro p hy hj
        have hj := (hk.kid p (hm.perm.mem_iff.mp hy) i).mp hj
        exact hj.2.2 ((he i).mpr ⟨.head _, hr⟩)
      refine (hm.links hk).uproot ho ?_ ?_ nofun
      · intro c hy
        obtain ⟨hq, parent⟩ := mem_filter.mp hy
        exact (he c).mpr ⟨.tail _ hq, of_decide_eq_true parent⟩
      · intro c hy ne
        obtain ⟨hq, parent⟩ := (he c).mp hy
        exact mem_filter.mpr ⟨(mem_cons.mp hq).resolve_left ne, decide_eq_true parent⟩
    · intro c
      rw [mem_filter, decide_eq_true_iff, mem_append]
      constructor
      · rintro ⟨hq, parent⟩
        rw [ht.others c (ha c hq)]
        exact ⟨.inl hq, parent⟩
      · rintro ⟨hq | hj, parent⟩
        · rw [ht.others c (ha c hq)] at parent
          exact ⟨hq, parent⟩
        · have ne : c ≠ i := by
            rintro rfl
            rw [hg] at parent
            cases parent
          rw [ht.others c ne, hs c hj] at parent
          exact absurd (some.inj parent) hd
    · rw [hg]
      exact ⟨fun _ => rfl, fun _ => .head _⟩
    · intro j ne
      exact mem_cons.trans (or_iff_right ne)
    · refine (o.subtreel.concat hf).congr fun j => ?_
      exact mem_cons.symm
  · rw [if_neg hr]
    let m : Reasm := { s.cut i with orphaned := i :: s.orphaned }
    have hm : Moved s m := ⟨rfl, rfl, rfl, rfl, rfl, hw, hl _ _ (.refl _)⟩
    have ht : Outcast s m i := by
      refine ⟨rfl, rfl, rfl, rfl, rfl, rfl, hm.perm, fun j => (hb.cut_mem j).1, fun j => (hb.cut_mem j).2,
        fun j ne => hc j ne, ?_, .inl ?_⟩
      · exact congrArg (fun f : Fec => { f with inOut := false, parent := none, sibling := none }) hu
      · exact hm.parent i
    refine ⟨o.advance ht ?_ ⟨detached, hm.links hk, fun c => ?_⟩ ?_ ?_ o.subtreel, ht⟩
    · exact congrArg inOut hu
    · rw [he c, hm.parent c, mem_append]
      constructor
      · rintro ⟨hq, parent⟩
        refine ⟨.inl ((mem_cons.mp hq).resolve_left ?_), parent⟩
        rintro rfl
        exact hr parent
      · rintro ⟨hq | hj, parent⟩
        · exact ⟨.tail _ hq, parent⟩
        · exact absurd (some.inj ((hs c hj).symm.trans parent)) hd
    · rw [hm.parent i]
      exact ⟨fun hi => absurd hi hf, fun none => absurd none (o.above i (.head _)).1⟩
    · exact fun j _ => .rfl

end

lemma orphanLoop_ok (o : Orphaning (s.hide tail) kids spare queue tail top)
    (hu : (s.ancestry ++ s.frontier).length ≤ n) :
    ∃ s', orphanLoop tail n queue s = .ok s' ∧ Orphaning (s'.hide tail) kids spare [] tail top ∧
      Above (s.hide tail) (s'.hide tail) tail := by
  induction n generalizing s queue with
  | zero =>
    cases queue with
    | nil => exact ⟨s, rfl, o, .refl _ _⟩
    | cons i rest =>
      have hh : i ∈ s.ancestry ++ s.frontier := mem_append.mpr (o.conn i (.head _))
      rw [length_eq_zero_iff.mp (Nat.le_zero.mp hu)] at hh
      cases hh
  | succ n ih =>
    cases queue with
    | nil => exact ⟨s, rfl, o, .refl _ _⟩
    | cons i rest =>
      have hh := o.conn i (.head _)
      have hw := o.low i (.head _)
      have hd : i ≠ tail := by
        rintro rfl
        exact lt_irrefl _ hw
      obtain ⟨detached, hk, -⟩ := o.links
      have hi : s.children i = kids i := by
        rw [← hide_children hd]
        exact hk.children o.pool hh.live
      obtain ⟨hn, ho⟩ := o.step
      have ha := ho.above o.outs hw
      rw [hide_orphan] at hn ha ho
      have hf : (i :: ((s.orphan tail i).ancestry ++ (s.orphan tail i).frontier)).length =
          (s.ancestry ++ s.frontier).length := (ho.tree_perm o.pool hn.pool hh).length_eq
      rw [length_cons] at hf
      obtain ⟨s', hr, hl, hb⟩ := ih hn (by omega)
      refine ⟨s', ?_, hl, ha.trans hb⟩
      unfold orphanLoop
      rw [if_neg hd, hi]
      exact hr

lemma hide_eq (none : (s.fec tail).child = none) : s.hide tail = s := by
  have hs : (s.hide tail).fec = s.fec := by
    funext j
    by_cases hh : j = tail
    · subst hh
      have he : (s.hide j).fec j = { s.fec j with child := Option.none } := if_pos rfl
      rw [he, ← none]
    · exact hide_of_ne hh
  exact congrArg (fun f => { s with fec := f }) hs

lemma hide_self (s : Reasm) (tail : Idx) : ((s.hide tail).fec tail).child = none := (congrArg child (if_pos rfl) :)

lemma Whole.orphaning (hw : Whole s kids { t with detached := [], pending := [], stale := [], keep := none, fresh := none })
    (conn : s.Conn tail) : Orphaning (s.hide tail) (update kids tail []) t.spare (kids tail) tail t.top := by
  have links := hw.links
  have hp := hw.places
  have name : ∀ j, ((s.hide tail).fec j).name = (s.fec j).name := fun j => (congrArg name (hide_fec s tail j) :)
  have up : ∀ j, ((s.hide tail).fec j).parent = (s.fec j).parent := fun j => (congrArg parent (hide_fec s tail j) :)
  have sibling : ∀ j, ((s.hide tail).fec j).sibling = (s.fec j).sibling :=
    fun j => (congrArg sibling (hide_fec s tail j) :)
  have rank : ∀ j, ((s.hide tail).fec j).rank = (s.fec j).rank := fun j => (congrArg rank (hide_fec s tail j) :)
  have hb : ∀ c, c ∈ kids tail ↔ c ∈ s.live ∧ (s.fec c).parent = some tail := by
    intro c
    rw [links.kid tail conn.live c]
    exact and_congr_right fun _ => and_iff_left not_mem_nil
  have kid : ∀ p ∈ s.live, ∀ c, c ∈ update kids tail [] p ↔ c ∈ kids p ∧ p ≠ tail := by
    intro p _ c
    by_cases hh : p = tail
    · subst hh
      rw [update_self]
      exact ⟨nofun, fun no => absurd rfl no.2⟩
    · rw [update_of_ne hh]
      exact (and_iff_left hh).symm
  refine {
    pool := hw.pool.refec name
    links := ⟨kids tail, ⟨?_, ?_, ?_, ?_, ?_⟩, ?_⟩
    outs := hw.outs.refec fun j => (congrArg inOut (hide_fec s tail j) :)
    xids := ?_
    nodup := (links.chain tail conn.live).nodup
    low := ?_
    same := ?_
    conn := ?_
    above := ?_
    tops := ?_
    leaf := ?_
    orphan := ?_
    subtreel := hp.subtreel }
  · intro p hl
    by_cases hh : p = tail
    · subst hh
      rw [update_self]
      exact hide_self s p
    · rw [update_of_ne hh, hide_of_ne hh]
      exact (links.chain p hl).congr fun j _ => sibling j
  · intro p hl c
    rw [kid p hl c, links.kid p hl c, up c, hb c]
    constructor
    · rintro ⟨⟨hm, parent, -⟩, ne⟩
      exact ⟨hm, parent, fun both => ne (some.inj (parent.symm.trans both.2))⟩
    · rintro ⟨hm, parent, ho⟩
      refine ⟨⟨hm, parent, not_mem_nil⟩, ?_⟩
      rintro rfl
      exact ho ⟨hm, parent⟩
  · intro c hl none
    rw [sibling]
    exact links.alone c hl ((up c).symm.trans none)
  · intro c hl p some
    exact .inl (links.parent_mem hl ((up c).symm.trans some)).1
  · intro c hl p live' some
    obtain ⟨cmr, hv⟩ := links.valid c hl p live' ((up c).symm.trans some)
    have cmr' : ((s.hide tail).fec c).cmr = (s.fec c).cmr := (congrArg Fec.cmr (hide_fec s tail c) :)
    have key : ((s.hide tail).fec p).key = (s.fec p).key := (congrArg key (hide_fec s tail p) :)
    exact ⟨cmr'.trans (cmr.trans key.symm), (validate_name (name p) (name c)).trans hv⟩
  · intro c
    rw [up c]
    exact ⟨fun hm => ⟨hm, ((hb c).mp hm).2⟩, fun both => both.1⟩
  · exact hw.xids.congr rfl (fun j _ => (congrArg listing (hide_fec s tail j) :)) fun _ => .rfl
  · intro c hm
    rw [rank, rank]
    exact links.rank hw.pool conn.live hm
  · intro p hl c hm _
    exact hp.same p hl not_mem_nil c ((kid p hl c).mp hm).1
  · exact fun c hm => (hp.same tail conn.live not_mem_nil c hm).mpr conn
  · intro c hm
    have parent := ((hb c).mp hm).2
    rw [up c, parent]
    refine ⟨nofun, fun p hl ha => ?_⟩
    obtain ⟨ha, ne⟩ := (kid p hl c).mp ha
    exact absurd (some.inj (((links.kid p hl c).mp ha).2.1.symm.trans parent)) ne
  · intro c ht
    rcases hp.tops c ht with ⟨p, hl, hm⟩ | top | no
    · by_cases hh : p = tail
      · subst hh
        exact .inr (.inr hm)
      · exact .inl ⟨p, hl, (hp.same p hl not_mem_nil c hm).mp ht, (kid p hl c).mpr ⟨hm, hh⟩⟩
    · exact .inr (.inl top)
    · cases no
  · intro j ht ne
    rw [hide_of_ne ne]
    exact (hp.leaf j ht not_mem_nil).trans (or_iff_left not_mem_nil)
  · intro j hl hg
    rw [up j]
    exact hp.orphan j hl hg

lemma Orphaning.whole (o : Orphaning s kids spare [] tail top) : Whole s kids ⟨spare, [], [], [tail], none, top, none⟩ := by
  obtain ⟨detached, hk, ho⟩ := o.links
  have he : detached = [] := eq_nil_iff_forall_not_mem.mpr fun c hm => nomatch ((ho c).mp hm).1
  subst he
  refine ⟨o.pool, hk, ⟨?_, ?_, ?_, ?_, o.orphan, o.subtreel⟩, o.outs, o.xids, nofun⟩
  · exact fun p hl _ c hi => o.same p hl c hi not_mem_nil
  · exact nofun
  · intro c hc
    rcases o.tops c hc with ⟨p, hl, -, hi⟩ | top | no
    · exact .inl ⟨p, hl, hi⟩
    · exact .inr (.inl top)
    · cases no
  · intro j hc hf
    rw [o.leaf j hc fun eq => hf (eq ▸ mem_singleton_self _)]
    exact (or_iff_left not_mem_nil).symm

lemma Whole.orphanBelow
    (hw : Whole s kids { t with detached := [], pending := [], stale := [], keep := none, fresh := none })
    (hc : s.Conn tail) : ∃ s', s.orphanBelow tail = .ok s' ∧
      Whole s' (update kids tail []) ⟨t.spare, [], [], [tail], none, t.top, none⟩ ∧ Above (s.hide tail) s' tail ∧
      ((s.fec tail).child = none → s' = s) := by
  have o := hw.orphaning hc
  unfold Reasm.orphanBelow
  by_cases hl : (s.fec tail).child = none
  · rw [if_pos hl]
    have none : kids tail = [] := (hw.links.child_none hc.live).mp hl
    have hs := hide_eq hl
    rw [none, hs] at o
    exact ⟨s, rfl, o.whole, hs.symm ▸ .refl _ _, fun _ => rfl⟩
  · rw [if_neg hl]
    have he : (s.ancestry ++ s.frontier).length ≤ s.fecMax := by
      refine @length_le_range _ 0 s.fecMax hw.pool.tree_nodup fun j hm => ⟨Nat.zero_le j, hw.pool.lt ?_⟩
      exact Conn.live (mem_append.mp hm)
    obtain ⟨s', hr, hf, ha⟩ := orphanLoop_ok o he
    refine ⟨s'.hide tail, ?_, hf.whole, ha, fun none => absurd none hl⟩
    refine bind_ok.mpr ⟨s', ?_, rfl⟩
    unfold orphanLoop
    rw [if_pos rfl, hw.links.children hw.pool hc.live]
    exact hr

lemma hide_kept (s : Reasm) (live : tail ∈ s.live) : Kept s (s.hide tail) where
  fecMax := rfl
  xidMax := rfl
  root := rfl
  live := fun _ hm => hm
  ident := fun j => (congrArg ident (hide_fec s tail j) :)
  child := fun _ hn => congrArg child (hide_of_ne fun eq => hn (eq ▸ live))
  parent := fun c _ _ some => .inl ((congrArg parent (hide_fec s tail c) :).symm.trans some)
  queue := fun hq => hq.keep (fun j => (congrArg ident (hide_fec s tail j) :)) (fun _ ht => ht)
    (fun j _ _ some => (congrArg parent (hide_fec s tail j) :).symm.trans some) rfl

lemma Line.chain {detached : List Idx} {keep : Option Idx} (hi : Line kids head rest tail)
    (hk : Links s kids detached keep) (he : kids tail = []) (hl : ∀ j ∈ head :: rest, j ∈ s.live) :
    Chain (fun j => (s.fec j).child) (some head) (head :: rest) := by
  induction rest generalizing head with
  | nil =>
    cases hi
    refine ⟨rfl, ?_⟩
    exact (hk.child_none (hl _ (.head _))).mpr he
  | cons next more ih =>
    obtain ⟨only, hf⟩ := hi
    have hc := (hk.chain head (hl head (.head _))).first_eq
    rw [only] at hc
    refine ⟨rfl, ?_⟩
    dsimp only
    rw [hc]
    exact ih hf fun j hm => hl j (.tail _ hm)

structure Removes (s s' : Reasm) (kids : Idx → List Idx) (r head : Idx) (l : List Idx) : Prop where
  rooted : Rooted s' kids r l
  chain : Chain (fun j => (s'.fec j).child) (some head) l
  kept : Kept s s'

section
variable (hro : Rooted s kids r [])
include hro

lemma Rooted.settle (hw : Whole s' kids' { Todo.done (some r) with spare := l }) (hk : Kept s s')
    (ht : s'.Conn r) (hc : Chain (fun j => (s'.fec j).child) (some head) l) : Removes s s' kids' r head l := by
  refine ⟨⟨hw, hk.root.trans hro.root, ht, ?_, ?_, ?_⟩, hc, hk⟩
  · cases hp : (s'.fec r).parent with
    | none => rfl
    | some p =>
      -- a parent in the tree would be below the top
      obtain ⟨hl, hi⟩ := hw.links.parent_mem ht.live hp
      have up := (hw.places.same p hl not_mem_nil r hi).mp ht
      have ho := hw.top_rank rfl rfl rfl up
      have hh := hw.links.rank hw.pool hl hi
      omega
  · have hs : (s'.fec r).slotComplete = (s.fec r).slotComplete := (congrArg slotComplete (hk.ident r) :)
    exact hs.trans hro.complete
  · rw [hk.fecMax, hk.xidMax]
    exact hro.room

lemma Rooted.removeOrphan (hl : tail ∈ s.live) (hn : ¬s.Conn tail) (hu : (s.fec tail).child = none) :
    ∃ s' kids', s.remove tail = .ok (s', tail) ∧ Removes s s' kids' r tail [tail] ∧
      ∀ j, (s'.fec j).parent = (s.fec j).parent := by
  have hw := hro.whole
  have hpo := hw.pool
  have hk := hw.links
  have hb : kids tail = [] := (hk.child_none hl).mp hu
  have hf : (s.find s.orphaned (s.fec tail).key).or (s.find s.subtrees (s.fec tail).key) ≠ none := by
    rcases orphan_cases hl hn with o | t
    · rw [hpo.find_mem orphaned_live o]
      exact nofun
    · rw [hpo.find_not_mem orphaned_live hl fun o => hpo.disjoint.2.2.2.2.2.2 tail o t, hpo.find_mem subtrees_live t]
      exact nofun
  have ht : s.orphanBelow tail = .ok s := if_pos hu
  have ha : r ≠ tail := fun eq => hn (eq ▸ hro.conn)
  unfold remove
  rw [if_pos hf, check_of _ hu]
  cases hr : (s.fec tail).parent with
  | none =>
    have top : tail ∈ s.subtrees := (hw.places.orphan tail hl hn).mpr hr
    have hi : ∀ p ∈ s.live, tail ∉ kids p := fun p hv hx =>
      nomatch hr.symm.trans ((hk.kid p hv tail).mp hx).2.1
    have hd : Handed s kids tail [] [] none (some r) := by
      refine ⟨nofun, fun c hm => ?_, nofun⟩
      rw [hb] at hm
      cases hm
    obtain ⟨s', h, hj, hs, mem⟩ := hw.clear hl hi not_mem_nil nofun hd
    rw [hw.drop_subtrees top] at h
    have hh := (hs.conn r ((mem r).mpr ⟨hro.conn.live, ha⟩)).mpr hro.conn
    refine ⟨s', kids, ?_, hro.settle hj hs.kept hh ?_, hs.parent⟩
    · refine bind_ok.mpr ⟨tail, rfl, bind_ok.mpr ⟨s, ht, ?_⟩⟩
      rw [hr]
      exact bind_ok.mpr ⟨s', h, rfl⟩
    · exact ⟨rfl, (hs.child tail).trans hu⟩
  | some p =>
    obtain ⟨hv, hx⟩ := hk.parent_mem hl hr
    have hap : tail ≠ p := by
      rintro rfl
      exact lt_irrefl _ (hk.rank hpo hv hx)
    have ho : ¬s.Conn p := fun hc => hn ((hw.places.same p hv not_mem_nil tail hx).mpr hc)
    obtain ⟨s₁, cut, he⟩ := hw.unlink_ok hv hx
    obtain ⟨hq, hz⟩ := hw.unlinked rfl hv hx he
    obtain ⟨⟨f, rfl, hco⟩, -, hch, -⟩ := he
    have m : tail ∈ s.orphaned := by
      refine (orphan_cases hl hn).resolve_right fun t => ?_
      exact nomatch hr.symm.trans ((hw.places.orphan tail hl hn).mp t)
    have hi : ∀ q ∈ s.live, tail ∉ update kids p ((kids p).erase tail) q := fun q hy hx =>
      ((hq.links.kid q hy tail).mp hx).2.2 (mem_singleton_self _)
    have hd : Handed { s with fec := f } (update kids p ((kids p).erase tail)) tail [tail] [] none (some r) := by
      refine ⟨fun c _ ne hm => absurd (mem_singleton.mp hm) ne, fun c hm => ?_, nofun⟩
      rw [update_of_ne hap, hb] at hm
      cases hm
    obtain ⟨s', h, hj, hs, mem⟩ := hq.clear hl hi not_mem_nil nofun hd
    have key : ((f tail).key) = (s.fec tail).key := (congrArg key (hco tail) :)
    have hfi : Whole s' (update kids p ((kids p).erase tail)) { Todo.done (some r) with spare := [tail] } := by
      refine ⟨hj.pool, hj.links, ?_, hj.outs, hj.xids, hj.unlisted⟩
      have hp := hj.places
      refine ⟨hp.same, hp.waiting, hp.tops, fun j hc _ => hp.leaf j hc ?_, hp.orphan, hp.subtreel⟩
      intro old
      rw [mem_singleton.mp old] at hc
      exact ho ((hs.conn p hc.live).mp hc)
    have hh : s'.Conn r := (hs.conn r ((mem r).mpr ⟨hro.conn.live, ha⟩)).mpr hro.conn
    have hpa : ∀ j, (s'.fec j).parent = (s.fec j).parent := fun j =>
      (hs.parent j).trans (congrArg Fec.parent (hco j) :)
    refine ⟨s', _, ?_, hro.settle hfi (hz.trans hs.kept) hh ?_, hpa⟩
    · refine bind_ok.mpr ⟨tail, rfl, bind_ok.mpr ⟨s, ht, ?_⟩⟩
      rw [hr]
      refine bind_ok.mpr ⟨_, cut, ?_⟩
      have hg := hq.pool.find_mem orphaned_live (show tail ∈ orphaned { s with fec := f } from m)
      rw [hg]
      rw [hq.drop_orphaned m] at h
      exact bind_ok.mpr ⟨s', h, rfl⟩
    · exact ⟨rfl, (hs.child tail).trans ((hch tail hap).trans hu)⟩

lemma Rooted.removeTree (hc : s.Conn tail) (ne : tail ≠ r) :
    ∃ s' kids' head l, s.remove tail = .ok (s', head) ∧ Removes s s' kids' r head l ∧
      ((s.fec tail).child = none → ∀ j, (s'.fec j).parent = (s.fec j).parent) := by
  have hw := hro.whole
  have pool := hw.pool
  have hl := hw.links
  have he : Line kids tail [] tail := rfl
  have hi : ∀ j ∈ [tail], s.Conn j := fun j m => mem_singleton.mp m ▸ hc
  have full : s.fecMax + 1 + ([] : List Idx).length = s.fecMax + 1 := rfl
  obtain ⟨head, rest, start, line, hx, inner, hd⟩ :=
    hro.bankStart he hi ne (pairwise_singleton _ _) full
  have nd : (head :: rest).Nodup := hd.imp fun less eq => absurd (eq ▸ less) (lt_irrefl _)
  have hhi := line.rank_le hd
  have hlo : ∀ j ∈ head :: rest, (s.fec head).rank ≤ (s.fec j).rank := by
    intro j m
    rcases mem_cons.mp m with rfl | m
    · exact le_refl _
    · exact le_of_lt ((pairwise_cons.mp hd).1 j m)
  have hh := hx head (.head _)
  -- the parent stays, above all that goes
  obtain ⟨p, branch, parent, kid⟩ := hro.above hh inner
  have up : s.Conn p := .inl branch
  have hr := hl.rank pool up.live kid
  have last := hhi head (.head _)
  have ho : p ∉ head :: rest := fun m => not_lt.mpr (hlo p m) hr
  have hp : p ≠ tail := by
    rintro rfl
    omega
  -- what is below becomes orphans
  obtain ⟨s₁, hb, whole₁, ha, hs⟩ := hw.orphanBelow (t := Todo.done (some r)) hc
  have rank : ∀ j, ((s.hide tail).fec j).rank = (s.fec j).rank := (hide_kept s hc.live).rank
  have high : ∀ j, (s.fec j).rank ≤ (s.fec tail).rank → ((s.hide tail).fec j).rank ≤ ((s.hide tail).fec tail).rank := by
    intro j le
    rw [rank, rank]
    exact le
  have htr : ∀ j, (s.fec j).rank ≤ (s.fec tail).rank → s.Conn j → s₁.Conn j := by
    intro j le ht
    exact ht.imp (ha.ancestry j (high j le)).mpr (ha.frontier j (high j le)).mpr
  have hpa : (s₁.fec head).parent = some p :=
    (ha.parent_eq head (high head last)).trans ((congrArg Fec.parent (hide_fec s tail head) :).trans parent)
  have hli : p ∈ s₁.live := (htr p (by omega) up).live
  have kid₁ : head ∈ update kids tail [] p := by
    rw [update_of_ne hp]
    exact kid
  -- the line is loose
  obtain ⟨s₂, cut, rewired⟩ := whole₁.unlink_ok hli kid₁
  obtain ⟨hu, kept₂⟩ := whole₁.unlinked rfl hli kid₁ rewired
  obtain ⟨⟨f, rfl, core⟩, -, -, -⟩ := rewired
  generalize hv : update (update kids tail []) p ((update kids tail [] p).erase head) = kids₂ at hu
  have line₂ : Line kids₂ head rest tail := by
    refine line.congr nd fun j m ne => ?_
    have hbe : j ≠ p := fun eq => ho (eq ▸ m)
    rw [← hv, update_of_ne hbe, update_of_ne ne]
  have ends : kids₂ tail = [] := by
    rw [← hv, update_of_ne hp.symm, update_self]
  have hz : ∀ j ∈ head :: rest, s₁.Conn j := fun j m => htr j (hhi j m) (hx j m)
  have few : rest.length < s₁.fecMax + 1 := by
    have few := pool.length_le nd fun j m => (hx j m).live
    have max : s₁.fecMax = s.fecMax := ha.kept.fecMax
    rw [length_cons] at few
    omega
  obtain ⟨s₃, run, whole₃, hj, mem⟩ :=
    removeChain_ok (t := ⟨[], [], [], [p, tail], none, some r, none⟩) hu line₂ ends hz nd rfl rfl few
  have live₃ : p ∈ s₃.live := (mem p).mpr ⟨hli, ho⟩
  have hbr : p ∈ s₃.ancestry := by
    have ht : s₃.Conn p := (hj.conn p live₃).mpr (htr p (by omega) up)
    refine ht.resolve_right fun hf => ?_
    have hf := (ha.frontier p (high p (by omega))).mp ((hj.frontier p live₃).mp hf)
    exact pool.disjoint.2.2.2.2.1 p branch hf
  have hg : ∀ j ∈ [p, tail], j = p ∨ ¬s₃.Conn j := by
    intro j m
    rcases mem_cons.mp m with eq | m
    · exact .inl eq
    · refine .inr fun ht => ?_
      rw [mem_singleton.mp m] at ht
      exact ((mem tail).mp ht.live).2 line.tail_mem
  obtain ⟨s₄, h, whole₄, hm, out, conn₄⟩ := whole₃.retreat hbr rfl hg
  have hfi : Whole s₄ kids₂ { Todo.done (some r) with spare := head :: rest } := by
    refine whole₄.refree (List.Perm.append_left _ ?_)
    rw [append_nil]
    exact (reverse_perm _).symm
  have hk : Kept s s₄ := by
    refine (((hide_kept s hc.live).trans ha.kept).trans (kept₂.trans hj.kept)).trans (hm.kept ?_)
    exact fun hq => hq.keep (fun j => (congrArg ident (hm.fec j) :)) (fun j ht => (conn₄ j).mp ht)
      (fun j _ p some => (hm.parent j).symm.trans some) out
  have hy : r ∉ head :: rest := by
    intro m
    have hle := hw.top_rank rfl rfl rfl hh
    rcases mem_cons.mp m with eq | m
    · exact inner eq.symm
    · exact not_lt.mpr hle ((pairwise_cons.mp hd).1 r m)
  have root : s₄.Conn r := by
    have hle := hw.top_rank rfl rfl rfl hc
    have ht := htr r hle hro.conn
    exact (conn₄ r).mpr ((hj.conn r ((mem r).mpr ⟨ht.live, hy⟩)).mpr ht)
  refine ⟨s₄, kids₂, head, head :: rest, ?_, hro.settle hfi hk root ?_, ?_⟩
  · obtain ⟨o, t⟩ := pool.disjoint.2.2.2.2.2.1 tail hc
    have hn : ¬((s.find s.orphaned (s.fec tail).key).or (s.find s.subtrees (s.fec tail).key) ≠ none) := by
      rw [pool.find_not_mem orphaned_live hc.live o, pool.find_not_mem subtrees_live hc.live t]
      exact fun no => no rfl
    have hy := (hu.pool.disjoint.2.2.2.2.2.1 head (hz head (.head _))).1
    have absent' := hu.pool.find_not_mem orphaned_live (hz head (.head _)).live hy
    unfold remove
    rw [if_neg hn]
    refine bind_ok.mpr ⟨head, start, bind_ok.mpr ⟨s₁, hb, ?_⟩⟩
    rw [hpa]
    refine bind_ok.mpr ⟨_, cut, ?_⟩
    rw [absent']
    exact bind_ok.mpr ⟨s₃, run, bind_ok.mpr ⟨s₄, h, rfl⟩⟩
  · refine (line₂.chain hu.links ends fun j m => (hz j m).live).congr fun j _ => ?_
    exact (hm.child j).trans (hj.child j)
  · intro leaf j
    have eq := hs leaf
    subst eq
    exact (hm.parent j).trans ((hj.parent j).trans (congrArg Fec.parent (core j) :))

end

section
variable (hr : Rooted s kids r l) (hc : Chain (fun j => (s.fec j).child) (some head) l)
include hr hc

lemma Rooted.release_eq : s.release head = { s with free := l ++ s.free } := by
  have hp := hr.whole.pool
  have hs : l.Nodup := (nodup_append.mp hp.nodup).2.1
  have hf : l.length ≤ s.fecMax :=
    @length_le_range _ 0 s.fecMax hs fun j hm => ⟨Nat.zero_le j, (hp.all j).mpr (mem_append_right _ hm)⟩
  unfold release
  rw [hc.follow hf]

lemma Rooted.release : Rooted (s.release head) kids r [] := by
  rw [hr.release_eq hc]
  refine ⟨?_, hr.root, hr.conn, hr.parent, hr.complete, hr.room⟩
  refine hr.whole.refree ?_
  rw [append_nil]
  exact perm_append_comm

end

lemma Removes.release (hr : Removes s s' kids r head l) :
    Rooted (s'.release head) kids r [] ∧ Kept s (s'.release head) :=
  ⟨hr.rooted.release hr.chain, hr.kept.refree _⟩

end Firebam.Reassembly
