import Firebam.Reasm.Shape

/-! The lists of elements with the same slot and FEC set index. -/
namespace Firebam.Reassembly
open Lib List Reasm Fec

variable {s s' s'' : Reasm} {spare detached pending stale all : List Idx} {kids : Idx → List Idx}
  {keep top : Option Idx} {listed listed' : Idx → Prop} {i : Idx} {key k : Nat} {x y : Xid}

def Fec.unlisted (f : Fec) : Fec := { f with xidNext := none }

def Fec.body (f : Fec) : Fec := { f with xidNext := none, eqvoc := false, confirmed := false, popped := false }

def Fec.listing (f : Fec) : Option Idx × Nat := (f.xidNext, f.xidKey)

def Relisted (s s' : Reasm) : Prop :=
  ∃ f x, s' = { s with fec := f, xid := x } ∧ ∀ j, (f j).unlisted = (s.fec j).unlisted

def Still (s s' : Reasm) : Prop :=
  ∃ f x, s' = { s with fec := f, xid := x } ∧ ∀ j, (f j).body = (s.fec j).body

lemma Relisted.still (hr : Relisted s s') : Still s s' := by
  obtain ⟨f, x, rfl, hs⟩ := hr
  exact ⟨f, x, rfl, fun j => (congrArg body (hs j) :)⟩

section
variable (ht : Still s s')
include ht

lemma Still.pool (pool : Pool s spare) : Pool s' spare := by
  obtain ⟨f, x, rfl, hs⟩ := ht
  exact .congr (fun j => (congrArg name (hs j) :)) pool .rfl rfl rfl

lemma Still.links (links : Links s kids detached keep) : Links s' kids detached keep := by
  obtain ⟨f, x, rfl, hs⟩ := ht
  refine .congr ?_ links (fun _ => .rfl) ?_ ?_ ?_
  · exact fun j => (congrArg name (hs j) :)
  · exact fun j => (congrArg parent (hs j) :)
  · exact fun j => (congrArg child (hs j) :)
  · exact fun j => (congrArg sibling (hs j) :)

lemma Still.places (places : Places s kids detached pending stale top) : Places s' kids detached pending stale top := by
  obtain ⟨f, x, rfl, hs⟩ := ht
  have parent : ∀ j, (f j).parent = (s.fec j).parent := fun j => (congrArg parent (hs j) :)
  have child : ∀ j, (f j).child = (s.fec j).child := fun j => (congrArg child (hs j) :)
  refine ⟨places.same, places.waiting, places.tops, ?_, ?_, places.subtreel⟩
  · intro i conn hf
    rw [child i]
    exact places.leaf i conn hf
  · intro i hl orphan
    rw [parent i]
    exact places.orphan i hl orphan

lemma Still.outs (outs : Outs s) : Outs s' := by
  obtain ⟨f, x, rfl, hs⟩ := ht
  refine ⟨outs.nodup, outs.conn, ?_⟩
  intro i hl
  have hf : (f i).inOut = (s.fec i).inOut := (congrArg inOut (hs i) :)
  rw [hf]
  exact outs.flag i hl

end

lemma Xids.congr (hx : Xids s listed) (hi : s'.xid = s.xid)
    (hl : ∀ j, listed j → (s'.fec j).listing = (s.fec j).listing) (hs : ∀ j, listed' j ↔ listed j) :
    Xids s' listed' := by
  have hq : ∀ k, s'.xidQuery k = s.xidQuery k := fun k => by rw [xidQuery, xidQuery, hi]
  have he : ∀ j, listed j → (s'.fec j).xidKey = (s.fec j).xidKey := fun j hk => congrArg Prod.snd (hl j hk)
  refine ⟨hi ▸ hx.distinct, ?_, ?_⟩
  · intro k x hf
    obtain ⟨l, hc, hn, hm⟩ := hx.entry k x ((hq k).symm.trans hf)
    refine ⟨l, hc.congr fun j m => congrArg Prod.fst (hl j ((hm j).mp m).1), hn, ?_⟩
    intro i
    rw [hm i, hs i]
    exact and_congr_right fun hk => by rw [he i hk]
  · intro i hk
    have hk := (hs i).mp hk
    obtain ⟨x, hf⟩ := hx.present i hk
    exact ⟨x, by rw [hq, he i hk]; exact hf⟩

lemma xidQuery_set (hp : s.xidQuery key = some x) (k : Nat)
    (eq : s'.xid = s.xid.map fun e => if e.1 = key then (key, y) else e) :
    s'.xidQuery k = if k = key then some y else s.xidQuery k := by
  have hs : (s.xid.find? fun e => decide (e.1 = key)).isSome := by
    have hf := congrArg Option.isSome hp
    rwa [xidQuery, Option.isSome_map] at hf
  unfold xidQuery
  rw [eq, find_replace (a := (key, y)) rfl hs k]
  split <;> rfl

lemma keys_set (s : Reasm) (key : Nat) (y : Xid) :
    (s.xid.map fun e => if e.1 = key then (key, y) else e).map Prod.fst = s.xid.map Prod.fst :=
  keys_replace key (key, y) rfl

lemma Xids.spec (hx : Xids s listed) (hk : listed i) : ∃ x l, s.xidQuery (s.fec i).xidKey = some x ∧
    Chain (fun j => (s.fec j).xidNext) (some x.idx) l ∧ x.cnt = l.length ∧ i ∈ l ∧
    ∀ j, j ∈ l ↔ listed j ∧ (s.fec j).xidKey = (s.fec i).xidKey := by
  obtain ⟨x, hf⟩ := hx.present i hk
  obtain ⟨l, hc, hn, hm⟩ := hx.entry _ x hf
  exact ⟨x, l, hf, hc, hn, (hm i).mpr ⟨hk, rfl⟩, hm⟩

lemma Xids.replace (hx : Xids s listed) {f : Idx → Fec} {l : List Idx} (hf : s.xidQuery key = some x)
    (hs : ∀ j, (f j).unlisted = (s.fec j).unlisted)
    (ho : ∀ j, listed j → (s.fec j).xidKey ≠ key → (f j).xidNext = (s.fec j).xidNext)
    (hc : Chain (fun j => (f j).xidNext) (some y.idx) l) (hb : y.cnt = l.length)
    (hy : ∀ j, j ∈ l ↔ listed' j ∧ (s.fec j).xidKey = key) (hr : ∀ j, (s.fec j).xidKey ≠ key → (listed' j ↔ listed j)) :
    Xids { s with fec := f, xid := s.xid.map fun e => if e.1 = key then (key, y) else e } listed' := by
  have he : ∀ j, (f j).xidKey = (s.fec j).xidKey := fun j => (congrArg Fec.xidKey (hs j) :)
  have hq : ∀ k, xidQuery { s with fec := f, xid := s.xid.map fun e => if e.1 = key then (key, y) else e } k =
      if k = key then some y else s.xidQuery k := fun k => xidQuery_set hf k rfl
  refine ⟨(keys_set s key y).symm ▸ hx.distinct, ?_, ?_⟩
  · intro k z ht
    rw [hq] at ht
    split at ht
    · rename_i hh
      cases ht
      exact ⟨l, hc, hb, fun j => by rw [he j, hh]; exact hy j⟩
    · rename_i ne
      obtain ⟨l', ha, hn, hm⟩ := hx.entry k z ht
      refine ⟨l', ha.congr fun j m => ?_, hn, ?_⟩
      · obtain ⟨hk, eq⟩ := (hm j).mp m
        exact ho j hk (eq ▸ ne)
      · intro j
        rw [hm j, he j]
        exact and_congr_left fun eq => (hr j (eq ▸ ne)).symm
  · intro j hk
    rw [he j, hq]
    split_ifs with ne
    · exact ⟨y, rfl⟩
    · exact hx.present j ((hr j ne).mp hk)

lemma xidQuery_filter (s : Reasm) (key k : Nat) :
    xidQuery { s with xid := s.xid.filter fun e => decide (e.1 ≠ key) } k = if k = key then none else s.xidQuery k := by
  unfold xidQuery
  have hc := find_filter Prod.fst s.xid (fun n => decide (n ≠ key)) k
  rw [hc]
  by_cases hh : k = key
  · simp [hh]
  · simp [hh]

lemma Xids.last (hx : Xids s listed) (hi : ∀ j, listed j → (s.fec j).xidKey = key → j = i)
    (hh : (s.fec i).xidKey = key) :
    Xids { s with xid := s.xid.filter fun e => decide (e.1 ≠ key) } fun j => listed j ∧ j ≠ i := by
  refine ⟨keys_filter hx.distinct, ?_, ?_⟩
  · intro k z hf
    rw [xidQuery_filter] at hf
    split at hf
    · cases hf
    · rename_i ne
      obtain ⟨l, hc, hn, hm⟩ := hx.entry k z hf
      refine ⟨l, hc, hn, fun j => ?_⟩
      rw [hm j]
      constructor
      · rintro ⟨hk, eq⟩
        exact ⟨⟨hk, fun hs => ne (eq.symm.trans (hs ▸ hh))⟩, eq⟩
      · exact fun ⟨⟨hk, _⟩, eq⟩ => ⟨hk, eq⟩
  · rintro j ⟨hk, ne⟩
    rw [xidQuery_filter]
    split
    · rename_i eq
      exact absurd (hi j hk eq) ne
    · exact hx.present j hk

lemma set_unlisted (s : Reasm) (i : Idx) (next : Option Idx) (j : Idx) :
    ((s.set i fun f => { f with xidNext := next }).fec j).unlisted = (s.fec j).unlisted := by
  simp only [Reasm.set]
  split <;> rfl

lemma clearXid_ok (hx : Xids s listed) (hk : listed i) (hb : ∀ j, listed j → j < s.fecMax) :
    ∃ s', s.clearXid i = .ok s' ∧ Relisted s s' ∧ (∀ j, ¬listed j → (s'.fec j).xidNext = (s.fec j).xidNext) ∧
      Xids s' fun j => listed j ∧ j ≠ i := by
  obtain ⟨x, l, hf, hc, hn, m, hy⟩ := hx.spec hk
  unfold clearXid
  dsimp only
  rw [hf]
  dsimp only
  cases l with
  | nil => cases m
  | cons first rest =>
    obtain rfl : x.idx = first := Option.some.inj hc.1
    by_cases ha : x.cnt = 1
    · rw [if_pos ha]
      have he : rest = [] := by
        rw [ha] at hn
        exact length_eq_zero_iff.mp (by simpa using hn.symm)
      subst he
      have hh : i = x.idx := mem_singleton.mp m
      refine ⟨_, rfl, ⟨s.fec, _, rfl, fun _ => rfl⟩, fun _ _ => rfl, ?_⟩
      refine hx.last ?_ rfl
      intro j hk eq
      exact (mem_singleton.mp ((hy j).mpr ⟨hk, eq⟩)).trans hh.symm
    · rw [if_neg ha]
      have nd := hc.nodup
      by_cases hd : x.idx = i
      · rw [if_pos hd]
        cases rest with
        | nil => exact absurd (by simpa using hn) ha
        | cons next rest =>
          have hp : (s.fec i).xidNext = some next := hd ▸ hc.2.1
          rw [hp]
          refine ⟨_, rfl, ⟨s.fec, _, rfl, fun _ => rfl⟩, fun _ _ => rfl, ?_⟩
          refine hx.replace (l := next :: rest) hf (fun _ => rfl) (fun _ _ _ => rfl) ⟨rfl, hc.2.2⟩ ?_ ?_ ?_
          · dsimp only
            rw [hn, length_cons, Nat.add_sub_cancel]
          · intro j
            rw [and_assoc, and_comm (a := j ≠ i), ← and_assoc, ← hy j, and_comm, ← nd.mem_erase_iff, hd,
              erase_cons_head]
          · intro j ne
            exact ⟨fun hq => hq.1, fun hk => ⟨hk, fun eq => ne (eq ▸ rfl)⟩⟩
      · rw [if_neg hd]
        have hl : i ∈ rest := (mem_cons.mp m).resolve_left (Ne.symm hd)
        have hg : (x.idx :: rest).length ≤ s.fecMax := by
          exact @length_le_range _ 0 s.fecMax nd fun j hm => ⟨Nat.zero_le j, hb j ((hy j).mp hm).1⟩
        rw [hc.follow hg]
        cases hj : (x.idx :: rest).find? fun j => decide ((s.fec j).xidNext = some i) with
        | none =>
          obtain ⟨prev, hm, hp⟩ := hc.before hl
          have no := find?_eq_none.mp hj prev hm
          exact absurd hp (by simpa using no)
        | some prev =>
          have hp : (s.fec prev).xidNext = some i := by simpa using find?_some hj
          have hm := mem_of_find?_eq_some hj
          obtain ⟨a, b, hs⟩ := append_of_mem hm
          rw [hs] at hc nd hy hn
          obtain ⟨tail, rfl⟩ := hc.after hp
          have hi := ((hy prev).mp (mem_append_right _ (.head _))).1
          refine ⟨_, rfl, ⟨_, _, rfl, set_unlisted s prev _⟩, fun j hu => ?_, ?_⟩
          · have ne : j ≠ prev := fun eq => hu (eq ▸ hi)
            exact (congrArg xidNext (if_neg ne) :)
          obtain ⟨-, ho, hr⟩ := hc.erase_next
          refine hx.replace (l := a ++ prev :: tail) hf (set_unlisted s prev _) ?_ ?_ ?_ ?_ ?_
          · intro j hk ne
            refine congrArg xidNext (if_neg ?_)
            rintro rfl
            exact ne ((hy j).mp (mem_append_right _ (.head _))).2
          · refine hc.skip ?_ ?_
            · exact (congrArg xidNext (if_pos rfl) :)
            · exact fun z ht => congrArg xidNext (if_neg (ho z ht))
          · dsimp only
            rw [hn]
            simp only [length_append, length_cons]
            omega
          · intro j
            rw [and_assoc, and_comm (a := j ≠ i), ← and_assoc, ← hy j]
            rw [← hr, nd.mem_erase_iff, and_comm]
          · intro j ne
            exact ⟨fun hq => hq.1, fun hk => ⟨hk, fun eq => ne (eq ▸ rfl)⟩⟩

lemma Xids.length_le (hx : Xids s listed) (ho : ∀ j, listed j → j ∈ all) : s.xid.length ≤ all.length := by
  have hw : ∀ e ∈ s.xid, listed e.2.idx ∧ (s.fec e.2.idx).xidKey = e.1 := by
    intro e hm
    have hf : s.xidQuery e.1 = some e.2 := by
      rw [xidQuery, find_eq_of_mem hx.distinct hm]
      rfl
    obtain ⟨l, hh, -, hy⟩ := hx.entry e.1 e.2 hf
    refine (hy _).mp ?_
    cases l with
    | nil => cases hh
    | cons first rest =>
      cases hh.1
      exact .head _
  have hk : s.xid.map Prod.fst = (s.xid.map fun e => e.2.idx).map fun j => (s.fec j).xidKey := by
    rw [map_map]
    refine map_congr_left fun e hm => ?_
    rw [Function.comp_apply, (hw e hm).2]
  have hd := hx.distinct
  rw [hk] at hd
  have hd := List.Nodup.of_map _ hd
  have hc : (s.xid.map fun e => e.2.idx) ⊆ all := by
    intro j hm
    obtain ⟨e, m, rfl⟩ := mem_map.mp hm
    exact ho _ (hw e m).1
  simpa using (subperm_of_subset hd hc).length_le

lemma xidQuery_cons (hn : s.xidQuery key = none) (y : Xid) (k : Nat) :
    xidQuery { s with xid := (key, y) :: s.xid } k = if k = key then some y else s.xidQuery k := by
  unfold xidQuery
  rw [find?_cons]
  by_cases hh : k = key
  · subst hh
    simp
  · simp [hh, Ne.symm hh]

lemma xidUpdate_ok (hx : Xids s listed) (hr : ¬listed i) (hs : (s.fec i).xidNext = none) (hv : ∀ j, listed j → j ∈ all) (hm : all.length < s.xidMax) :
    ∃ s', s.xidUpdate i = .ok s' ∧ Relisted s s' ∧ Xids s' fun j => listed j ∨ j = i := by
  unfold xidUpdate
  dsimp only
  cases hf : s.xidQuery (s.fec i).xidKey with
  | some x =>
    obtain ⟨l, hc, hb, hy⟩ := hx.entry _ x hf
    have ho : i ∉ l := fun m => hr ((hy i).mp m).1
    refine ⟨_, rfl, ⟨_, _, rfl, set_unlisted s i _⟩, ?_⟩
    refine hx.replace (l := i :: l) hf (set_unlisted s i _) ?_ ?_ ?_ ?_ ?_
    · intro j hk _
      refine congrArg xidNext (if_neg ?_)
      rintro rfl
      exact hr hk
    · refine ⟨rfl, ?_⟩
      have hp : ((s.set i fun f => { f with xidNext := some x.idx }).fec i).xidNext = some x.idx :=
        (congrArg xidNext (if_pos rfl) :)
      dsimp only
      rw [hp]
      refine hc.congr fun j m => ?_
      have ne : j ≠ i := fun eq => ho (eq ▸ m)
      exact (congrArg xidNext (if_neg ne) :)
    · exact congrArg (· + 1) hb
    · intro j
      rw [mem_cons, hy j]
      constructor
      · rintro (rfl | ⟨hk, eq⟩)
        · exact ⟨.inr rfl, rfl⟩
        · exact ⟨.inl hk, eq⟩
      · rintro ⟨hk | rfl, eq⟩
        · exact .inr ⟨hk, eq⟩
        · exact .inl rfl
    · intro j ne
      refine ⟨fun he => he.resolve_right fun eq => ne (eq ▸ rfl), .inl⟩
  | none =>
    have hw : s.xid.length < s.xidMax := lt_of_le_of_lt (hx.length_le hv) hm
    refine ⟨_, check_of _ hw _, ⟨s.fec, _, rfl, fun _ => rfl⟩, ?_⟩
    have hn : (s.fec i).xidKey ∉ s.xid.map Prod.fst := by
      refine find_none_fresh ?_
      exact Option.map_eq_none_iff.mp hf
    have hq := xidQuery_cons hf ⟨i, 1⟩
    refine ⟨nodup_cons.mpr ⟨hn, hx.distinct⟩, ?_, ?_⟩
    · intro k z ha
      rw [hq] at ha
      split at ha
      · rename_i hh
        cases ha
        refine ⟨[i], ⟨rfl, hs⟩, rfl, fun j => ?_⟩
        rw [mem_singleton]
        constructor
        · rintro rfl
          exact ⟨.inr rfl, hh.symm⟩
        · rintro ⟨hk | rfl, eq⟩
          · obtain ⟨x, ht⟩ := hx.present j hk
            rw [eq, hh, hf] at ht
            cases ht
          · rfl
      · rename_i ne
        obtain ⟨l, hc, hb, hy⟩ := hx.entry k z ha
        refine ⟨l, hc, hb, fun j => ?_⟩
        rw [hy j]
        constructor
        · exact fun ⟨hk, eq⟩ => ⟨.inl hk, eq⟩
        · rintro ⟨hk | rfl, eq⟩
          · exact ⟨hk, eq⟩
          · exact absurd eq.symm ne
    · rintro j (hk | rfl)
      · rw [hq]
        split
        · exact ⟨_, rfl⟩
        · exact hx.present j hk
      · rw [hq, if_pos rfl]
        exact ⟨_, rfl⟩

end Firebam.Reassembly
