import Firebam.Ghost.Shape

/-! The validity flags: what fd_ghost_confirm, fd_ghost_eqvoc and fd_ghost_best do with them,
and when the three agree with each other along a run. -/
namespace Firebam.Ghost
open Lib List Ghost.Tree Option

variable {g g' g'' : Tree} {id x : Hash} {b d : Blk} {stake slot n : Nat} {R : Tree → Tree → Prop} {rank : Hash → Nat}
  {best : Option Blk} {voteAcc : Pubkey} {r : CountResult}

def Tree.validAt (g : Tree) (id : Hash) : Bool := ((g.query id).map Blk.valid).getD true

def ValidOnly (g g' : Tree) : Prop :=
  ∃ f : Blk → Bool, g' = { g with blks := g.blks.map fun b => { b with valid := f b } }

namespace ValidOnly

lemma refl (g : Tree) : ValidOnly g g := ⟨Blk.valid, by simp⟩

lemma trans (hf : ValidOnly g g') (hs : ValidOnly g' g'') : ValidOnly g g'' := by
  obtain ⟨f, rfl⟩ := hf
  obtain ⟨f', rfl⟩ := hs
  refine ⟨fun b => f' { b with valid := f b }, ?_⟩
  simp [Function.comp_def]

lemma setBlk (g : Tree) (id : Hash) (v : Bool) : ValidOnly g (g.setBlk id fun b => { b with valid := v }) := by
  refine ⟨fun b => if b.id = id then v else b.valid, ?_⟩
  simp only [Tree.setBlk, Tree.mk.injEq, true_and, and_true]
  refine map_congr_left ?_
  intro b _
  by_cases hh : b.id = id <;> simp [hh]

lemma shape (ho : ValidOnly g g') : g'.shape = g.shape := by
  obtain ⟨f, rfl⟩ := ho
  simp [shape, Function.comp_def, Blk.link]

lemma vtrs (ho : ValidOnly g g') : g'.vtrs = g.vtrs := by
  obtain ⟨f, rfl⟩ := ho
  rfl

lemma wf (ho : ValidOnly g g') (ht : g.Wf) : g'.Wf := by
  have hp := ho.shape
  obtain ⟨f, rfl⟩ := ho
  exact ht.congr hp rfl

end ValidOnly

lemma validAt_setBlk (v : Bool) (hm : id ∈ nodes g.shape) :
    (g.setBlk id fun b => { b with valid := v }).validAt x = if x = id then v else g.validAt x := by
  rw [validAt, query_setBlk (f := fun b => { b with valid := v }) fun _ => rfl]
  by_cases hh : x = id
  · subst hh
    obtain ⟨b, hf⟩ := isSome_iff_exists.mp (query_isSome.mpr hm)
    simp [hf]
  · simp [hh, validAt]

lemma markInvalids (n : Nat) (cs : List Hash) (under : Hash → Hash → Prop)
    (he : ∀ g', ValidOnly g g' → ∀ c ∈ cs, ValidOnly g' (markInvalid n g' c) ∧
      ∀ x ∈ nodes g.shape, ((markInvalid n g' c).validAt x = true ↔ g'.validAt x = true ∧ ¬ under c x)) :
    ValidOnly g (cs.foldl (markInvalid n) g) ∧ ∀ x ∈ nodes g.shape, ((cs.foldl (markInvalid n) g).validAt x = true ↔
        g.validAt x = true ∧ ∀ c ∈ cs, ¬ under c x) := by
  induction cs generalizing g with
  | nil => exact ⟨.refl g, by simp⟩
  | cons c rest ih =>
    obtain ⟨ho, ha⟩ := he g (.refl g) c (.head _)
    have hl := ih (g := markInvalid n g c) fun g' hy d hm => by
      have := he g' (ho.trans hy) d (mem_cons_of_mem c hm)
      rwa [← ho.shape] at this
    obtain ⟨hn, hf⟩ := hl
    refine ⟨ho.trans hn, ?_⟩
    intro x m
    rw [foldl_cons, hf x (ho.shape ▸ m), ha x m]
    simp [and_assoc]

lemma markInvalid_spec (hg : Grown g.shape) (hm : ∀ b p, parOf g.shape b = some p → rank p < rank b)
    (hu : ∀ x ∈ nodes g.shape, rank x < rank id + n) (hx : id ∈ nodes g.shape) :
    ValidOnly g (markInvalid n g id) ∧ ∀ x ∈ nodes g.shape,
      ((markInvalid n g id).validAt x = true ↔ g.validAt x = true ∧ ¬ Below (parOf g.shape) id x) := by
  induction n generalizing g id with
  | zero =>
    have := hu id hx
    omega
  | succ n ih =>
    have hf : ValidOnly g (g.setBlk id fun b => { b with valid := false }) := .setBlk g id false
    have hs := hf.shape
    have hq := markInvalids (g := g.setBlk id fun b => { b with valid := false })
      n (kids g.shape id) (Below (parOf g.shape)) ?_
    · obtain ⟨hn, ht⟩ := hq
      rw [markInvalid]
      refine ⟨hf.trans hn, ?_⟩
      intro x hk
      rw [ht x (hs ▸ hk), validAt_setBlk false hx]
      constructor
      · rintro ⟨hj, ha⟩
        by_cases hh : x = id
        · simp [hh] at hj
        · refine ⟨by simpa [hh] using hj, ?_⟩
          intro hb
          rcases hb.cases_child with eq | ⟨c, hd, hl⟩
          · exact hh eq.symm
          · exact ha c (hg.mem_kids.mpr hd) hl
      · rintro ⟨hj, hr⟩
        have ne : x ≠ id := fun eq => hr (eq ▸ .refl)
        refine ⟨by simpa [ne] using hj, ?_⟩
        intro c hd hl
        exact hr (.trans (.step (hg.mem_kids.mp hd) .refl) hl)
    · intro g' ho c hd
      have hp : g'.shape = g.shape := ho.shape.trans hs
      have hi := hg.mem_kids.mp hd
      have hl := hm c id hi
      have he : ∀ x ∈ nodes g'.shape, rank x < rank c + n := by
        intro x hk
        have := hu x (hp ▸ hk)
        omega
      have hc := ih (hp ▸ hg) (hp ▸ hm) he (hp ▸ (hg.mem_of_parOf hi).1)
      rw [hp] at hc
      rw [hs]
      exact hc

lemma eqvoc_spec (wf : g.Wf) (id : Hash) : ValidOnly g (g.eqvoc id) ∧ ∀ x ∈ nodes g.shape,
    ((g.eqvoc id).validAt x = true ↔ g.validAt x = true ∧ ¬ (id ∈ nodes g.shape ∧ Below (parOf g.shape) id x)) := by
  unfold eqvoc
  split
  · rename_i hn
    have ho := query_none.mp hn
    exact ⟨.refl g, by simp [ho]⟩
  · rename_i b hf
    have hm : id ∈ nodes g.shape := query_isSome.mp (by simp [hf])
    obtain ⟨rank, hs, hd⟩ := wf.grown.exists_rank
    have he : ∀ x ∈ nodes g.shape, rank x < rank id + g.blks.length := by
      intro x hi
      have := hs x hi
      rw [g.length_shape] at this
      omega
    simpa [hm] using markInvalid_spec wf.grown hd he hm

lemma markValid_only (ids : List Hash) (g : Tree) : ValidOnly g (markValid ids g) := by
  induction ids generalizing g with
  | nil => exact .refl g
  | cons id rest ih =>
    rw [markValid]
    split
    · exact .refl g
    · exact (ValidOnly.setBlk g id true).trans (ih _)

def Tree.UpTo (g : Tree) (id : Hash) : Prop :=
  ∀ b q, Below (parOf g.shape) b id → parOf g.shape b = some q → g.validAt b = true → g.validAt q = true

lemma UpTo.above (up : g.UpTo id) (hf : g.validAt id = true) (above : Below (parOf g.shape) x id) :
    g.validAt x = true := by
  induction above with
  | refl => exact hf
  | step hl _ ih =>
    exact ih (fun b q hb => up b q (.step hl hb)) (up _ _ .refl hl hf)

lemma markValid_spec (hg : Grown g.shape) (hd : ∀ b p, parOf g.shape b = some p → rank p < rank b)
    (hq : rank id < n) (hx : id ∈ nodes g.shape) (up : g.UpTo id) (x : Hash) :
    (markValid (lineage (parOf g.shape) n id) g).validAt x = true ↔
      g.validAt x = true ∨ Below (parOf g.shape) x id := by
  induction n generalizing g id with
  | zero => omega
  | succ n ih =>
    rw [lineage, markValid]
    split
    · rename_i hj
      refine ⟨.inl, ?_⟩
      rintro (valid | ha)
      · exact valid
      · exact UpTo.above up hj ha
    rename_i hj
    have hp : (g.setBlk id fun b => { b with valid := true }).shape = g.shape :=
      (ValidOnly.setBlk g id true).shape
    have hf := fun x => validAt_setBlk (x := x) true hx
    cases hk : parOf g.shape id with
    | none =>
      simp only [markValid]
      rw [hf]
      by_cases hh : x = id
      · subst hh
        simp [Below.refl]
      · simp only [hh, if_false]
        refine ⟨.inl, ?_⟩
        rintro (valid | ha)
        · exact valid
        · rcases ha.cases_parent with eq | ⟨p, hc, _⟩
          · exact absurd eq hh
          · simp [hk] at hc
    | some p =>
      have ho := hd id p hk
      have hi := (hg.mem_of_parOf hk).2
      have hu : (g.setBlk id fun b => { b with valid := true }).UpTo p := by
        intro b q hb hn valid
        rw [hp] at hb hn
        have hr := hb.rank_le hd
        have hs := hd b q hn
        have ht : b ≠ id := by rintro rfl; omega
        have hm : q ≠ id := by rintro rfl; omega
        rw [hf, if_neg ht] at valid
        rw [hf, if_neg hm]
        exact up b q (.step hk hb) hn valid
      have hl := ih (hp ▸ hg) (hp ▸ hd) (by omega) (hp ▸ hi) hu
      rw [hp] at hl
      rw [hl, hf]
      by_cases hh : x = id
      · subst hh
        simp [Below.refl]
      · simp only [hh, if_false]
        refine or_congr_right ⟨fun ha => .step hk ha, ?_⟩
        intro ha
        rcases ha.cases_parent with eq | ⟨p', hc, he⟩
        · exact absurd eq hh
        · rw [hk] at hc
          cases hc
          exact he

lemma confirm_only (g : Tree) (id : Hash) : ValidOnly g (g.confirm id) := by
  unfold confirm
  split
  · exact .refl g
  · exact markValid_only _ g

lemma confirm_spec (wf : g.Wf) (hm : id ∈ nodes g.shape) (up : g.UpTo id) (x : Hash) :
    (g.confirm id).validAt x = true ↔ g.validAt x = true ∨ Below (parOf g.shape) x id := by
  obtain ⟨b, hf⟩ := isSome_iff_exists.mp (query_isSome.mpr hm)
  obtain ⟨rank, hs, hd⟩ := wf.grown.exists_rank
  have hp := markValid_spec wf.grown hd (g.length_shape ▸ hs id hm) hm up x
  simpa [confirm, hf, ancestors, g.parent_eq] using hp

lemma confirm_valid (hm : id ∈ nodes g.shape) (hl : g.validAt id = true) : g.confirm id = g := by
  obtain ⟨b, hf⟩ := isSome_iff_exists.mp (query_isSome.mpr hm)
  have hn : 0 < g.blks.length := by
    have := length_pos_of_mem hm
    simpa [nodes] using this
  obtain ⟨n, he⟩ : ∃ n, g.blks.length = n + 1 := ⟨g.blks.length - 1, by omega⟩
  have hs : (((g.query id).map Blk.valid).getD true) = true := hl
  simp only [confirm, hf, ancestors, he, lineage, markValid]
  rw [hf] at hs
  rw [if_pos hs]

lemma heavier_mem {c : Blk} (hp : heavier best c = some d) : best = some d ∨ d = c ∧ c.valid = true := by
  unfold heavier at hp
  split at hp
  · rename_i hv
    split at hp
    · cases hp
      exact .inr ⟨rfl, hv⟩
    · rename_i b
      by_cases hw : if c.stake = b.stake then c.slot < b.slot else b.stake < c.stake
      · rw [if_pos hw] at hp
        exact .inr ⟨(some.inj hp).symm, hv⟩
      · rw [if_neg hw] at hp
        exact .inl hp
  · exact .inl hp

lemma foldl_heavier_mem {cs : List Blk}
    (hp : cs.foldl heavier best = some d) : best = some d ∨ d ∈ cs ∧ d.valid = true := by
  induction cs generalizing best with
  | nil => exact .inl hp
  | cons c rest ih =>
    rcases ih hp with he | ⟨hm, hv⟩
    · rcases heavier_mem he with ho | ⟨rfl, hv⟩
      · exact .inl ho
      · exact .inr ⟨.head _, hv⟩
    · exact .inr ⟨mem_cons_of_mem c hm, hv⟩

lemma bestFrom_spec (wf : g.Wf) (hm : b ∈ g.blks) :
    g.bestFrom n b ∈ g.blks ∧ Below (parOf g.shape) b.id (g.bestFrom n b).id ∧
      ∀ x, Below (parOf g.shape) b.id x → Below (parOf g.shape) x (g.bestFrom n b).id → x ≠ b.id →
        g.validAt x = true := by
  obtain ⟨rank, _, hd⟩ := wf.grown.exists_rank
  induction n generalizing b with
  | zero =>
    refine ⟨hm, .refl, ?_⟩
    intro x ho up ne
    exact absurd (up.antisymm hd ho) ne
  | succ n ih =>
    rw [bestFrom]
    split
    · refine ⟨hm, .refl, ?_⟩
      intro x ho up ne
      exact absurd (up.antisymm hd ho) ne
    · rename_i c hp
      obtain ⟨hc, hv⟩ := (foldl_heavier_mem hp).resolve_left (by simp)
      obtain ⟨hg, hi⟩ := mem_filter.mp hc
      have hk : c.id ∈ kids g.shape b.id := by
        rw [← g.children_ids]
        exact mem_map_of_mem hc
      have hl := wf.grown.mem_kids.mp hk
      obtain ⟨hj, hw, hb⟩ := ih hg
      refine ⟨hj, .trans (.step hl .refl) hw, ?_⟩
      intro x ho up ne
      have hf : g.validAt c.id = true := by
        rw [validAt, query_of_mem wf.grown.nodup hg]
        simpa using hv
      rcases Below.total up hw with hh | he
      · rcases hh.cases_parent with rfl | ⟨p, hn, ha⟩
        · exact hf
        · rw [hl] at hn
          cases hn
          exact absurd (ha.antisymm hd ho) ne
      · by_cases hs : x = c.id
        · exact hs ▸ hf
        · exact hb x he up hs

structure SameFlags (g g' : Tree) : Prop where
  shape : g'.shape = g.shape
  root : g'.root = g.root
  flags : ∀ x, g'.validAt x = g.validAt x

lemma SameFlags.refl (g : Tree) : SameFlags g g := ⟨rfl, rfl, fun _ => rfl⟩

lemma SameFlags.trans (hf : SameFlags g g') (hs : SameFlags g' g'') : SameFlags g g'' :=
  ⟨hs.shape.trans hf.shape, hs.root.trans hf.root, fun x => (hs.flags x).trans (hf.flags x)⟩

lemma SameFlags.setBlk {f : Blk → Blk} (hk : ∀ b, (f b).link = b.link ∧ (f b).valid = b.valid) :
    SameFlags g (g.setBlk id f) := by
  refine ⟨shape_setBlk fun b => (hk b).1, rfl, ?_⟩
  intro x
  have hs : ∀ b, (f b).id = b.id := fun b => congrArg Prod.fst (hk b).1
  rw [validAt, query_setBlk hs, validAt]
  split
  · cases g.query x with
    | none => rfl
    | some b => simp [(hk b).2]
  · rfl

lemma SameFlags.vtrs (g : Tree) (vtrs : List Vtr) : SameFlags g { g with vtrs := vtrs } :=
  ⟨rfl, rfl, fun _ => rfl⟩

def Blk.place (b : Blk) : Hash × Nat × Option Hash := (b.id, b.slot, b.parent)

structure VoteFrame (R : Tree → Tree → Prop) : Prop where
  refl : ∀ g, R g g
  trans : ∀ g g' g'', R g g' → R g' g'' → R g g''
  setBlk : ∀ g id (f : Blk → Blk), (∀ b, (f b).place = b.place ∧ (f b).valid = b.valid) → R g (g.setBlk id f)
  vtrs : ∀ (g : Tree) (vtrs : List Vtr), R g { g with vtrs := vtrs }

lemma VoteFrame.moveOff {v : Vtr} (hf : VoteFrame R) (h : g.moveOff v = .ok g') : R g g' := by
  unfold Tree.moveOff at h
  split at h
  · cases h
    exact hf.refl _
  · rename_i prev _
    refine foldlM_preserves (I := R g) ?_ ?_ h
    · intro a y _ c hs hu
      obtain ⟨_, hu⟩ := check_ok.mp hu
      cases hu
      exact hf.trans _ _ _ hs (hf.setBlk _ _ _ fun b => ⟨rfl, rfl⟩)
    · exact hf.setBlk _ _ _ fun b => ⟨rfl, rfl⟩

lemma VoteFrame.moveOn {addr : Pubkey} (hr : VoteFrame R) (h : g.moveOn id addr stake slot = .ok g') : R g g' := by
  obtain ⟨mid, ha, h⟩ := bind_ok.mp h
  cases h
  have hf : R g mid := by
    refine foldlM_preserves (I := R g) ?_ ?_ ha
    · intro a y _ c hs hd
      obtain ⟨_, hd⟩ := check_ok.mp hd
      cases hd
      exact hr.trans _ _ _ hs (hr.setBlk _ _ _ fun b => ⟨rfl, rfl⟩)
    · exact hr.setBlk _ _ _ fun b => ⟨rfl, rfl⟩
  exact hr.trans _ _ _ hf (hr.vtrs mid _)

lemma VoteFrame.countVote (hf : VoteFrame R) (h : g.countVote id voteAcc stake slot = .ok (r, g')) : R g g' := by
  unfold Tree.countVote at h
  split at h
  · cases h
    exact hf.refl _
  split at h
  · cases h
    exact hf.refl _
  split at h
  · obtain ⟨_, h⟩ := check_ok.mp h
    obtain ⟨last, hm, hs⟩ := map_ok.mp h
    cases hs
    exact hf.trans _ _ _ (hf.vtrs g _) (hf.moveOn hm)
  · split at h
    · cases h
      exact hf.refl _
    · obtain ⟨mid, ho, h⟩ := bind_ok.mp h
      obtain ⟨last, hm, hs⟩ := map_ok.mp h
      cases hs
      exact hf.trans _ _ _ (hf.moveOff ho) (hf.moveOn hm)

lemma sameFlags_frame : VoteFrame SameFlags where
  refl := .refl
  trans _ _ _ hf second := hf.trans second
  setBlk g id f keeps := by
    refine .setBlk fun b => ⟨?_, (keeps b).2⟩
    have hp := (keeps b).1
    simp only [Blk.place, Prod.mk.injEq] at hp
    simp only [Blk.link, hp]
  vtrs := .vtrs

lemma countVote_sameFlags (h : g.countVote id voteAcc stake slot = .ok (r, g')) : SameFlags g g' :=
  sameFlags_frame.countVote h

end Firebam.Ghost
