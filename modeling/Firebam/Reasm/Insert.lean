import Firebam.Reasm.Marks

/-! Insertion of an element, for which another one may be evicted. -/
namespace Firebam.Reassembly
open Lib List Reasm Fec Option

variable {s s' s'' s₀ s₁ s₂ s₃ : Reasm} {kids : Idx → List Idx} {i r j head tail : Idx} {spare free rest : List Idx}
  {top parent new : Option Idx} {a : Arrival} {f : Fec → Fec} {t : Todo}

def Twins (s : Reasm) (known : Idx → Prop) : Prop :=
  ∀ a ∈ s.live, ∀ b ∈ s.live, known a → known b → a ≠ b → (s.fec a).xidKey = (s.fec b).xidKey → (s.fec a).eqvoc = true

def Fec.unmarked (f : Fec) : Fec := { f with eqvoc := false, xidNext := none }

structure Checks (s s' : Reasm) : Prop where
  fecMax : s'.fecMax = s.fecMax
  xidMax : s'.xidMax = s.xidMax
  root : s'.root = s.root
  out : s'.out = s.out
  live : s'.live = s.live
  conn : ∀ j, s'.Conn j ↔ s.Conn j
  fec : ∀ j, (s'.fec j).unmarked = (s.fec j).unmarked
  eqvoc : ∀ j, (s.fec j).eqvoc = true → (s'.fec j).eqvoc = true

lemma Checks.trans (hf : Checks s s') (hs : Checks s' s'') : Checks s s'' where
  fecMax := hs.fecMax.trans hf.fecMax
  xidMax := hs.xidMax.trans hf.xidMax
  root := hs.root.trans hf.root
  out := hs.out.trans hf.out
  live := hs.live.trans hf.live
  conn := fun j => (hs.conn j).trans (hf.conn j)
  fec := fun j => (hs.fec j).trans (hf.fec j)
  eqvoc := fun j on => hs.eqvoc j (hf.eqvoc j on)

lemma Flags.checks (hf : Flags s s') (confirmed : ∀ j, (s'.fec j).confirmed = (s.fec j).confirmed) : Checks s s' := by
  have hp := hf.plain
  have he := hf.eqvoc
  have popped := hf.popped
  obtain ⟨⟨f, rfl, -⟩, -⟩ := hf
  refine ⟨rfl, rfl, rfl, rfl, rfl, fun _ => .rfl, fun j => ?_, he⟩
  have hs : { (f j).plain.unmarked with confirmed := (f j).confirmed, popped := (f j).popped } =
      { (s.fec j).plain.unmarked with confirmed := (s.fec j).confirmed, popped := (s.fec j).popped } := by
    rw [hp j, show (f j).confirmed = _ from confirmed j, show (f j).popped = _ from popped j]
  exact hs

lemma Relisted.checks (hr : Relisted s s') : Checks s s' := by
  obtain ⟨f, x, rfl, hs⟩ := hr
  refine ⟨rfl, rfl, rfl, rfl, rfl, fun _ => .rfl, fun j => (congrArg unmarked (hs j) :), fun j on => ?_⟩
  exact (congrArg eqvoc (hs j) :).trans on

lemma Checks.queue (hc : Checks s s') (hq : Queued s) : Queued s' := by
  have popped : ∀ j, (s'.fec j).popped = (s.fec j).popped := fun j => (congrArg popped (hc.fec j) :)
  have parent : ∀ j, (s'.fec j).parent = (s.fec j).parent := fun j => (congrArg parent (hc.fec j) :)
  refine ⟨fun j ht => ?_, fun j hm p up ha => ?_⟩
  · rw [popped, hc.out]
    exact fun unseen hn => hc.eqvoc j (hq.fresh j ((hc.conn j).mp ht) unseen hn)
  · rw [hc.out] at hm ⊢
    rw [popped]
    rw [parent] at ha
    exact (hq.order j hm p ((hc.conn p).mp up) ha).imp_right (Or.imp_left (hc.eqvoc p))

lemma Whole.enlist (hw : Whole s kids ⟨spare, [], [], [], none, top, some i⟩) (hl : i ∈ s.live)
    (hr : s.fecMax ≤ s.xidMax) :
    ∃ s', s.xidUpdate i = .ok s' ∧ Relisted s s' ∧ Whole s' kids ⟨spare, [], [], [], none, top, none⟩ := by
  have hc : ∀ j, (j ∈ s.live ∧ some i ≠ some j) → j ∈ s.live.erase i := fun j hk =>
    hw.pool.live_nodup.mem_erase_iff.mpr ⟨fun eq => hk.2 (congrArg some eq.symm), hk.1⟩
  have hf : (s.live.erase i).length < s.xidMax := by
    have ha := hw.pool.few
    have ho := length_erase_add_one hl
    omega
  obtain ⟨s', h, he, hx⟩ :=
    xidUpdate_ok hw.xids (fun hk => hk.2 rfl) (hw.unlisted i rfl) hc hf
  have ht := he.still
  refine ⟨s', h, he, ht.pool hw.pool, ht.links hw.links, ht.places hw.places,
    ht.outs hw.outs, ?_, nofun⟩
  have hs : s'.live = s.live := he.checks.live
  refine hx.congr rfl (fun _ _ => rfl) fun j => ?_
  rw [hs]
  constructor
  · rintro ⟨hm, -⟩
    by_cases hh : j = i
    · exact .inr hh
    · exact .inl ⟨hm, fun eq => hh (some.inj eq).symm⟩
  · rintro (⟨hm, -⟩ | rfl)
    · exact ⟨hm, nofun⟩
    · exact ⟨hl, nofun⟩

def Reasm.markTwins (s : Reasm) (i : Idx) : Except Fault Reasm :=
  match s.xidQuery (s.fec i).xidKey with
  | none => .ok s
  | some x => do
    let s ← s.markEqvoc i
    s.markEqvoc x.idx

def Reasm.markBelow (s : Reasm) (i : Idx) : Option Idx → Except Fault Reasm
  | none => .ok s
  | some p => if (s.fec p).eqvoc && !(s.fec p).confirmed then s.markEqvoc i else .ok s

lemma checkEqvoc_eq (s : Reasm) (i : Idx) (parent : Option Idx) :
    s.checkEqvoc i parent = (do
      let s ← s.markTwins i
      let s ← s.xidUpdate i
      s.markBelow i parent) := by
  unfold checkEqvoc markTwins
  cases s.xidQuery (s.fec i).xidKey with
  | none => cases parent <;> rfl
  | some x =>
    cases hf : s.markEqvoc i with
    | error e => rfl
    | ok u =>
      cases hs : u.markEqvoc x.idx with
      | error e =>
        dsimp only [bind, Except.bind]
        rw [hs]
      | ok v =>
        dsimp only [bind, Except.bind]
        rw [hs]
        cases parent <;> rfl

lemma Whole.markTwins (hw : Whole s kids ⟨spare, [], [], [], none, top, some i⟩) (hl : i ∈ s.live) :
    ∃ s', s.markTwins i = .ok s' ∧ Flags s s' ∧ (∀ j, (s'.fec j).confirmed = (s.fec j).confirmed) ∧
      (Spreads s (· = i) → Spreads s' (· = i)) ∧
      ∀ x, s.xidQuery (s.fec i).xidKey = some x → (s'.fec i).eqvoc = true ∧ (s'.fec x.idx).eqvoc = true := by
  unfold Reasm.markTwins
  cases hf : s.xidQuery (s.fec i).xidKey with
  | none => exact ⟨s, rfl, .refl s, fun _ => rfl, id, nofun⟩
  | some x =>
    obtain ⟨l, hc, -, hx⟩ := hw.xids.entry _ x hf
    have m : x.idx ∈ s.live := ((hx x.idx).mp hc.head_mem).1.1
    obtain ⟨u, hi, ha, hs, on, hd⟩ := hw.markEqvoc rfl hl
    have hh := ha.whole hw
    have hb : x.idx ∈ u.live := (ha.checks hs).live.symm ▸ m
    obtain ⟨v, he, hg, hm, hn, hr⟩ := hh.markEqvoc rfl hb
    refine ⟨v, bind_ok.mpr ⟨u, hi, he⟩, ha.trans hg, fun j => (hm j).trans (hs j), fun hp => ?_,
      fun y eq => ?_⟩
    · have ho := hd (· = i) (hp.mono fun _ => .inr)
      exact hr (· = i) (ho.mono fun _ => .inr)
    · cases eq
      exact ⟨hg.eqvoc i on, hn⟩

lemma Whole.markBelow (hw : Whole s kids ⟨spare, [], [], [], none, top, none⟩) (hl : i ∈ s.live) (ha : (s.fec i).parent = parent) :
    ∃ s', s.markBelow i parent = .ok s' ∧ Flags s s' ∧ (∀ j, (s'.fec j).confirmed = (s.fec j).confirmed) ∧
      (Spreads s (· = i) → Spreads s' fun _ => False) := by
  cases parent with
  | none =>
    refine ⟨s, rfl, .refl s, fun _ => rfl, fun hp c hx p hm up on hb => ?_⟩
    refine (hp c hx p hm up on hb).imp_right fun hh => ?_
    rw [hh, ha] at up
    cases up
  | some p =>
    dsimp only [Reasm.markBelow]
    by_cases hc : ((s.fec p).eqvoc && !(s.fec p).confirmed) = true
    · rw [if_pos hc]
      obtain ⟨s', hr, hf, hs, -, hd⟩ := hw.markEqvoc rfl hl
      exact ⟨s', hr, hf, hs, fun hp => hd _ (hp.mono fun _ => .inl)⟩
    · rw [if_neg hc]
      refine ⟨s, rfl, .refl s, fun _ => rfl, fun hp c hx q hm up on hb => ?_⟩
      refine (hp c hx q hm up on hb).imp_right fun hh => ?_
      rw [hh, ha] at up
      cases up
      rw [on, hb] at hc
      exact hc rfl

lemma Whole.checkEqvoc (hw : Whole s kids ⟨spare, [], [], [], none, top, some i⟩) (hl : i ∈ s.live)
    (ho : s.fecMax ≤ s.xidMax) (ha : (s.fec i).parent = parent) :
    ∃ s', s.checkEqvoc i parent = .ok s' ∧ Whole s' kids ⟨spare, [], [], [], none, top, none⟩ ∧ Checks s s' ∧
      (Spreads s (· = i) → Spreads s' fun _ => False) ∧ (Twins s (· ≠ i) → Twins s' fun _ => True) := by
  obtain ⟨s₁, done₁, hg, same₁, hj, htn⟩ := hw.markTwins hl
  have hwh := hg.whole hw
  have hc := hg.checks same₁
  have hi : i ∈ s₁.live := hc.live.symm ▸ hl
  obtain ⟨s₂, done₂, he, hu⟩ := hwh.enlist hi (by rw [hc.fecMax, hc.xidMax]; exact ho)
  have hch := hc.trans he.checks
  have hli : i ∈ s₂.live := hch.live.symm ▸ hl
  have hb : (s₂.fec i).parent = parent := (congrArg Fec.parent (hch.fec i) :).trans ha
  obtain ⟨s₃, done₃, hq, hy, hv⟩ := hu.markBelow hli hb
  have hk := hq.checks hy
  have hz := hch.trans hk
  refine ⟨s₃, ?_, hq.whole hu, hz, fun hp => ?_, fun htw => ?_⟩
  · rw [checkEqvoc_eq]
    exact bind_ok.mpr ⟨s₁, done₁, bind_ok.mpr ⟨s₂, done₂, done₃⟩⟩
  · exact hv (he.shrinks.kept.spreads (hj hp))
  have key : ∀ j, (s₃.fec j).xidKey = (s.fec j).xidKey := fun j => (congrArg Fec.xidKey (hz.fec j) :)
  have hla : ∀ j, (s₁.fec j).eqvoc = true → (s₃.fec j).eqvoc = true := fun j on =>
    hk.eqvoc j (he.checks.eqvoc j on)
  intro a hm b hx _ _ ne hs
  rw [hz.live] at hm hx
  rw [key, key] at hs
  by_cases ht : a = i
  · subst ht
    obtain ⟨x, hf⟩ := hw.xids.present b ⟨hx, fun eq => ne (some.inj eq)⟩
    rw [← hs] at hf
    exact hla a (htn x hf).1
  by_cases hse : b = i
  · subst hse
    -- the entry names one of those that were there, which may be the other twin itself
    have hd : a ∈ s.live ∧ some b ≠ some a := ⟨hm, fun eq => ht (some.inj eq).symm⟩
    obtain ⟨x, hf⟩ := hw.xids.present a hd
    obtain ⟨l, hn, -, mem⟩ := hw.xids.entry _ x hf
    obtain ⟨⟨m, hr⟩, eq⟩ := (mem x.idx).mp hn.head_mem
    by_cases hh : a = x.idx
    · rw [hs] at hf
      rw [hh]
      exact hla _ (htn x hf).2
    · refine hz.eqvoc a (htw a hm x.idx m ht ?_ hh eq.symm)
      exact fun hs => hr (congrArg some hs.symm)
  · exact hz.eqvoc a (htw a hm b hx ht hse ne hs)

structure Inserts (s s' : Reasm) (i : Idx) (a : Arrival) : Prop where
  fecMax : s'.fecMax = s.fecMax
  xidMax : s'.xidMax = s.xidMax
  root : s'.root = s.root
  live : ∀ j ∈ s'.live, j = i ∨ j ∈ s.live
  child : ∀ j, j ∉ s.live → j ≠ i → (s'.fec j).child = (s.fec j).child
  new : i ∈ s'.live → (s'.fec i).ident.unmarked = a.fec.ident.unmarked
  ident : ∀ j, j ≠ i → (s'.fec j).ident.unmarked = (s.fec j).ident.unmarked
  queue : Queued s → Queued s'
  spreads : (Spreads s fun _ => False) → Spreads s' fun _ => False
  twins : (Twins s fun _ => True) → Twins s' fun _ => True

def Reasm.fill (s : Reasm) (i : Idx) (f : Fec → Fec) (free : List Idx) : Reasm := { s.set i f with free := free }

lemma fill_self : (s.fill i f free).fec i = f (s.fec i) := if_pos rfl

lemma fill_other (ne : j ≠ i) : (s.fill i f free).fec j = s.fec j := if_neg ne

lemma fill_live (hn : i ∉ s.live) (hl : j ∈ s.live) : (s.fill i f free).fec j = s.fec j :=
  fill_other fun eq => hn (eq ▸ hl)

lemma fill_inserts (ho : Outs s) (hn : i ∉ s.live) (a : Arrival) : Inserts s (s.fill i f free) i a := by
  have hs : ∀ j ∈ s.live, (s.fill i f free).fec j = s.fec j := fun j hl => fill_live hn hl
  refine ⟨rfl, rfl, rfl, fun j hl => .inr hl, fun j _ ne => ?_, fun hl => absurd hl hn,
    fun j ne => ?_, fun hq => ⟨?_, ?_⟩, fun hp c hl p hi up on hb => ?_,
    fun hw c hl b hi _ _ ha eq => ?_⟩
  · rw [fill_other ne]
  · rw [fill_other ne]
  · intro j ht
    rw [hs j ht.live]
    exact hq.fresh j ht
  · intro j hm p ht up
    rw [hs p ht.live]
    rw [hs j (ho.conn j hm).live] at up
    exact hq.order j hm p ht up
  · rw [hs c hl] at up ⊢
    rw [hs p hi] at on hb
    exact hp c hl p hi up on hb
  · rw [hs c hl] at eq ⊢
    rw [hs b hi] at eq
    exact hw c hl b hi trivial trivial ha eq

lemma fill_query (hn : i ∉ s.live) (key : Hash) : (s.fill i f free).query key = s.query key := by
  have find : ∀ map : List Idx, (∀ j ∈ map, j ∈ s.live) → (s.fill i f free).find map key = s.find map key := by
    intro map sub
    unfold find
    refine find?_congr fun j hm => ?_
    rw [fill_live hn (sub j hm)]
  unfold query
  rw [← find s.ancestry ancestry_live, ← find s.frontier frontier_live, ← find s.orphaned orphaned_live,
    ← find s.subtrees subtrees_live]
  rfl

lemma Rooted.fill (hr : Rooted s kids r spare) (ht : s.free = i :: rest) (f : Fec → Fec) :
    i ∉ s.live ∧ Rooted (s.fill i f rest) kids r (i :: spare) := by
  have hw := hr.whole
  have hn : i ∉ s.live := by
    intro hm
    obtain ⟨hb, -, -⟩ := nodup_append.mp hw.pool.nodup
    obtain ⟨-, -, ne⟩ := nodup_append.mp hb
    exact ne i hm i (ht ▸ .head _) rfl
  have he : r ≠ i := fun eq => hn (eq ▸ hr.conn.live)
  have hp : (rest ++ i :: spare).Perm (s.free ++ spare) := by
    rw [ht]
    exact perm_middle
  refine ⟨hn, (hw.refree hp).overwrite hn nofun f, hr.root, hr.conn, ?_, ?_, hr.room⟩
  · rw [fill_other he]
    exact hr.parent
  · rw [fill_other he]
    exact hr.complete

lemma Grown.spreads (hg : Grown s s₁ i parent) (hc : (s.fec i).eqvoc = false)
    (spreads : Spreads s fun _ => False) : Spreads s₁ (· = i) := by
  have eqvoc : ∀ j, (s₁.fec j).eqvoc = (s.fec j).eqvoc := fun j => (congrArg eqvoc (hg.ident j) :)
  have confirmed : ∀ j, (s₁.fec j).confirmed = (s.fec j).confirmed := fun j => (congrArg confirmed (hg.ident j) :)
  intro c hl p live' up on bare
  by_cases hh : c = i
  · exact .inr hh
  · rw [eqvoc] at on ⊢
    rw [confirmed] at bare
    rw [hg.parents c hh] at up
    have hk : p ∈ s.live := ((hg.live p).mp live').resolve_left fun eq => by
      rw [eq, hc] at on
      cases on
    exact .inl ((spreads c (((hg.live c).mp hl).resolve_left hh) p hk up on bare).resolve_right fun no => no)

lemma Grown.twins (hg : Grown s s₁ i parent) (twins : Twins s fun _ => True) : Twins s₁ (· ≠ i) := by
  intro c hl b hi hh he ne eq
  have hk : ∀ j, (s₁.fec j).xidKey = (s.fec j).xidKey := fun j => (congrArg Fec.xidKey (hg.ident j) :)
  rw [hk, hk] at eq
  have on := twins c (((hg.live c).mp hl).resolve_left hh) b (((hg.live b).mp hi).resolve_left he)
    trivial trivial ne eq
  exact (congrArg eqvoc (hg.ident c) :).trans on

lemma Kept.twins {known : Idx → Prop} (hk : Kept s s') (twins : Twins s known) : Twins s' known := by
  intro c hl b hi hh he ne eq
  have hy : ∀ j, (s'.fec j).xidKey = (s.fec j).xidKey := fun j => (congrArg Fec.xidKey (hk.ident j) :)
  rw [hy, hy] at eq
  have on := twins c (hk.live c hl) b (hk.live b hi) hh he ne eq
  exact (congrArg eqvoc (hk.ident c) :).trans on

lemma Inserts.finish (hf : Inserts s s₀ i a) (hj : s₀.fec i = a.fec) (hg : Grown s₀ s₁ i parent)
    (hk : Kept s₁ s₂) (hs : Checks s₂ s₃) (hp : Spreads s₂ (· = i) → Spreads s₃ fun _ => False)
    (ht : Twins s₂ (· ≠ i) → Twins s₃ fun _ => True) : Inserts s s₃ i a := by
  have hi : ∀ j, (s₃.fec j).ident.unmarked = (s₀.fec j).ident.unmarked := by
    intro j
    have ha : (s₃.fec j).ident.unmarked = (s₂.fec j).ident.unmarked := (congrArg Fec.ident (hs.fec j) :)
    rw [ha, hk.ident, hg.ident]
  have hc : (s₀.fec i).eqvoc = false := hj ▸ rfl
  refine ⟨?_, ?_, ?_, fun j hl => ?_, fun j hm ne => ?_, fun _ => hj ▸ hi i,
    fun j ne => (hi j).trans (hf.ident j ne),
    fun hq => hs.queue (hk.queue (hg.queue (hf.queue hq))),
    fun hb => hp (hk.spreads (hg.spreads hc (hf.spreads hb))),
    fun hb => ht (hk.twins (hg.twins (hf.twins hb)))⟩
  · rw [hs.fecMax, hk.fecMax, hg.fecMax, hf.fecMax]
  · rw [hs.xidMax, hk.xidMax, hg.xidMax, hf.xidMax]
  · rw [hs.root, hk.root, hg.root, hf.root]
  · rw [hs.live] at hl
    rcases (hg.live j).mp (hk.live j hl) with hh | hb
    · exact .inl hh
    · exact hf.live j hb
  · have hd : j ∉ s₀.live := fun hl => hm ((hf.live j hl).resolve_left ne)
    have he : j ∉ s₁.live := fun hl => hd (((hg.live j).mp hl).resolve_left ne)
    have ha : (s₃.fec j).child = (s₂.fec j).child := (congrArg Fec.child (hs.fec j) :)
    rw [ha, hk.child j he, hg.child j hd, hf.child j hm ne]

@[mk_iff]
structure Arrival.Fits (a : Arrival) (s : Reasm) : Prop where
  fresh : s.query a.merkleRoot = none
  sane : a.fec.Sane
  other : a.chainedMerkleRoot ≠ a.merkleRoot
  acyclic : ∀ j ∈ follow (fun j => (s.fec j).parent) s.fecMax (s.query a.chainedMerkleRoot), (s.fec j).cmr ≠ a.merkleRoot

def Reasm.rejects (s : Reasm) (i : Idx) : Bool :=
  match s.query (s.fec i).cmr with
  | none => false
  | some p => !validateChainedBlockId (s.fec p) (s.fec i)

def Reasm.insertPlaced (s : Reasm) (i : Idx) : Except Fault (Reasm × Option Idx) := do
  let t ← (s.placed i).subtreel.foldlM (fun s child => s.adopt i child) (s.placed i)
  let t ← t.advance i
  let t ← t.checkEqvoc i (s.place i).2
  return (t, some i)

lemma insertAt_eq (s : Reasm) (i : Idx) :
    s.insertAt i = if s.rejects i then .ok ({ s with free := i :: s.free }, none) else s.insertPlaced i := by
  unfold insertPlaced placed
  rfl

lemma insertAt_accepted (hv : ∀ p, s.query (s.fec i).cmr = some p →
    validateChainedBlockId (s.fec p) (s.fec i) = true) : s.insertAt i = s.insertPlaced i := by
  have ha : ¬s.rejects i = true := by
    unfold rejects
    cases hf : s.query (s.fec i).cmr with
    | none => exact Bool.false_ne_true
    | some p =>
      dsimp only
      rw [hv p hf]
      exact Bool.false_ne_true
  rw [insertAt_eq, if_neg ha]

lemma insertAt_rejected {p : Idx} (hf : s.query (s.fec i).cmr = some p)
    (hb : validateChainedBlockId (s.fec p) (s.fec i) = false) :
    s.insertAt i = .ok ({ s with free := i :: s.free }, none) := by
  have hr : s.rejects i = true := by
    unfold rejects
    rw [hf]
    dsimp only
    rw [hb]
    rfl
  rw [insertAt_eq, if_pos hr]

lemma Whole.top_parent (hw : Whole s kids t) (ht : t.detached = []) (hr : t.pending = [])
    (hp : t.keep = none) (hb : t.top = some r) (hc : s.Conn r) : (s.fec r).parent = none := by
  cases ha : (s.fec r).parent with
  | none => rfl
  | some p =>
    exfalso
    have hl : p ∈ s.live := by
      rcases hw.links.up r hc.live p ha with hl | he | hk
      · exact hl
      · rw [ht] at he
        cases he
      · rw [hp] at hk
        cases hk
    have hi : r ∈ kids p := (hw.links.kid p hl r).mpr ⟨hc.live, ha, by rw [ht]; exact not_mem_nil⟩
    have hs : p ∉ t.pending := by
      rw [hr]
      exact not_mem_nil
    have up := (hw.places.same p hl hs r hi).mp hc
    have ho := hw.links.rank hw.pool hl hi
    exact absurd (hw.top_rank ht hr hb up) (not_le.mpr ho)

lemma Whole.follow_parent {key : Hash} (hw : Whole s kids t) (ha : t.detached = [])
    (hk : t.keep = none) (hs : ∀ j ∈ s.live, (s₀.fec j).parent = (s.fec j).parent) :
    follow (fun j => (s₀.fec j).parent) s.fecMax (s.query key) = follow (fun j => (s.fec j).parent) s.fecMax (s.query key) ∧
      ∀ j ∈ follow (fun j => (s.fec j).parent) s.fecMax (s.query key), j ∈ s.live := by
  cases hf : s.query key with
  | none =>
    have he : ∀ next, follow next s.fecMax (none : Option Idx) = [] := fun next =>
      Chain.follow (l := []) rfl (Nat.zero_le _)
    rw [he, he]
    exact ⟨rfl, nofun⟩
  | some p =>
    obtain ⟨l, hc, m, hb⟩ := hw.lineage ha hk (query_some hf).1
    have hm : Chain (fun j => (s₀.fec j).parent) (some p) l := hc.congr fun j hx => hs j (m j hx)
    rw [hc.follow hb, hm.follow hb]
    exact ⟨rfl, m⟩

lemma Whole.adopting {pending : List Idx} (hw : Whole s₁ kids ⟨spare, [], pending, [], none, some r, some i⟩)
    (hg : Grown s₀ s₁ i parent) (side : pending = [i] ∧ s₁.Conn i ∨ pending = [] ∧ ¬s₁.Conn i)
    (clean : (s₀.fec i).eqvoc = false) (ne : (s₀.fec i).cmr ≠ (s₀.fec i).key)
    (hac : ∀ j ∈ follow (fun j => (s₀.fec j).parent) s₀.fecMax parent, (s₀.fec j).cmr ≠ (s₀.fec i).key) :
    ∃ A, Adopting s₁ kids spare pending (some r) i A s₁.subtreel := by
  have hl : i ∈ s₁.live := (hg.live i).mpr (.inl rfl)
  obtain ⟨l, hc, m, few⟩ := hw.lineage rfl rfl hl
  have key : ∀ j, (s₁.fec j).key = (s₀.fec j).key := fun j => (congrArg key (hg.ident j) :)
  have cmr : ∀ j, (s₁.fec j).cmr = (s₀.fec j).cmr := fun j => (congrArg cmr (hg.ident j) :)
  refine ⟨(· ∈ l), hw, hl, ?_, ?_, hc.head_mem, ?_, ?_, fun c => (hw.places.subtreel.mem c).mp,
    hw.places.subtreel.nodup⟩
  · rcases side with ⟨rfl, ht⟩ | ⟨rfl, hy⟩
    · exact ⟨fun _ => mem_singleton_self i, fun _ => ht⟩
    · exact ⟨fun ht => absurd ht hy, nofun⟩
  · exact (congrArg eqvoc (hg.ident i) :).trans clean
  · intro j hm p above
    obtain ⟨before, behind, rfl⟩ := append_of_mem hm
    obtain ⟨rest, rfl⟩ := hc.after above
    exact mem_append_right _ (.tail _ (.head _))
  · intro j hm
    rw [cmr, key]
    cases l with
    | nil => cases hm
    | cons first above =>
      cases hc.1
      have ha := (nodup_cons.mp hc.nodup).1
      rcases mem_cons.mp hm with rfl | hm
      · exact ne
      · -- the walk upwards from the parent, in the state before
        have hu : Chain (fun j => (s₀.fec j).parent) parent above := by
          have hi : Chain (fun j => (s₁.fec j).parent) (s₁.fec i).parent above := hc.2
          rw [hg.parent] at hi
          refine hi.congr fun x m => ?_
          have he : x ≠ i := fun eq => ha (eq ▸ m)
          exact (hg.parents x he).symm
        refine hac j ?_
        rw [hu.follow (Nat.le_of_succ_le (hg.fecMax ▸ few))]
        exact hm

lemma Whole.insertAt (hw : Whole s₀ kids ⟨i :: spare, [], [], [], none, some r, none⟩) (new : (s₀.fec i).New)
    (hu : ∀ j ∈ s₀.live, (s₀.fec j).key ≠ (s₀.fec i).key)
    (hv : ∀ p, s₀.query (s₀.fec i).cmr = some p → validateChainedBlockId (s₀.fec p) (s₀.fec i) = true)
    (ne : (s₀.fec i).cmr ≠ (s₀.fec i).key)
    (hy : ∀ j ∈ follow (fun j => (s₀.fec j).parent) s₀.fecMax (s₀.query (s₀.fec i).cmr), (s₀.fec j).cmr ≠ (s₀.fec i).key)
    (ho : s₀.fecMax ≤ s₀.xidMax) (base : Inserts s s₀ i a) (self : s₀.fec i = a.fec) :
    ∃ s' kids', s₀.insertAt i = .ok (s', some i) ∧ Whole s' kids' { Todo.done (some r) with spare := spare } ∧
      Inserts s s' i a ∧ ∀ j, s₀.Conn j → s'.Conn j := by
  obtain ⟨up, kids₁, pending, hq, hg, he⟩ := hw.place new hu hv
  obtain ⟨A, had⟩ := hq.adopting hg he new.eqvoc ne hy
  obtain ⟨s₂, kids₂, hj, hf, hb⟩ := had.run
  have hs : pending = [i] ∧ s₂.Conn i ∨ pending = [] ∧ ¬s₂.Conn i := by
    rw [hb.conn]
    exact he
  obtain ⟨s₃, hd, hx, hk, hp, hl, hn⟩ := hf.whole.advanced hf.live hs
  have ha : (s₃.fec i).parent = (s₀.place i).2 := by
    rw [hp, hb.parent i had.mine, hg.parent, up]
  have hm := hb.kept.trans hk
  have hr : s₃.fecMax ≤ s₃.xidMax := by
    rw [hm.fecMax, hm.xidMax, hg.fecMax, hg.xidMax]
    exact ho
  obtain ⟨s₄, hc, hz, hh, hsp, hi⟩ := hx.checkEqvoc ((hl i).mpr hf.live) hr ha
  refine ⟨s₄, kids₂, ?_, hz, base.finish self hg hm hh hsp hi, fun j ht => ?_⟩
  · rw [insertAt_accepted hv]
    exact bind_ok.mpr ⟨s₂, hj, bind_ok.mpr ⟨s₃, hd, bind_ok.mpr ⟨s₄, hc, rfl⟩⟩⟩
  · exact (hh.conn j).mpr (hn j ((hb.conn j).mpr ((hg.conn j).mpr (.inl ht))))

lemma Rooted.insertAt (ho : Rooted s kids r spare) (hk : s.free = i :: rest) (hs : a.Fits s) :
    ∃ s' kids' new, (s.fill i (fun _ => a.fec) rest).insertAt i = .ok (s', new) ∧ Rooted s' kids' r spare ∧
      Inserts s s' i a := by
  obtain ⟨hn, hd⟩ := ho.fill hk fun _ => a.fec
  have hg : (s.fill i (fun _ => a.fec) rest).fec i = a.fec := fill_self
  have hq : (s.fill i (fun _ => a.fec) rest).query a.chainedMerkleRoot = s.query a.chainedMerkleRoot := fill_query hn _
  have hb : Inserts s (s.fill i (fun _ => a.fec) rest) i a := fill_inserts ho.whole.outs hn a
  have hw := @Whole.follow_parent s (s.fill i (fun _ => a.fec) rest) kids _ a.chainedMerkleRoot ho.whole rfl rfl
    fun j hl => by rw [fill_live hn hl]
  have hu : ∀ j ∈ s.live, ((s.fill i (fun _ => a.fec) rest).fec j).key ≠ a.merkleRoot := by
    intro j hl
    rw [fill_live hn hl]
    exact query_none hs.fresh j hl
  have ha : ∀ j ∈ follow (fun j => ((s.fill i (fun _ => a.fec) rest).fec j).parent) s.fecMax (s.query a.chainedMerkleRoot),
      ((s.fill i (fun _ => a.fec) rest).fec j).cmr ≠ a.merkleRoot := by
    intro j hm
    rw [hw.1] at hm
    rw [fill_live hn (hw.2 j hm)]
    exact hs.acyclic j hm
  by_cases hr : ∃ p, s.query a.chainedMerkleRoot = some p ∧
      validateChainedBlockId ((s.fill i (fun _ => a.fec) rest).fec p) ((s.fill i (fun _ => a.fec) rest).fec i) = false
  · obtain ⟨p, hf, hj⟩ := hr
    refine ⟨s.fill i (fun _ => a.fec) (i :: rest), kids, none, insertAt_rejected (hg.symm ▸ hq.trans hf) hj,
      ⟨?_, hd.root, hd.conn, hd.parent, hd.complete, hd.room⟩,
      fill_inserts ho.whole.outs hn a⟩
    exact hd.whole.refree (perm_middle.symm : ((i :: rest) ++ spare).Perm (rest ++ i :: spare))
  · have new : a.fec.New := ⟨hs.sane, rfl, rfl, rfl, rfl, rfl, rfl⟩
    have hv : ∀ p, (s.fill i (fun _ => a.fec) rest).query a.chainedMerkleRoot = some p →
        validateChainedBlockId ((s.fill i (fun _ => a.fec) rest).fec p) ((s.fill i (fun _ => a.fec) rest).fec i) = true :=
      fun p hf => Bool.eq_true_of_not_eq_false fun hj => hr ⟨p, hq.symm.trans hf, hj⟩
    rw [← hq] at ha
    obtain ⟨s', kids', h, hh, hi, hc⟩ := hd.whole.insertAt (hg.symm ▸ new) (hg.symm ▸ hu)
      (hg.symm ▸ hv) (hg.symm ▸ hs.other) (hg.symm ▸ ha) ho.room hb hg
    have ht := hc r hd.conn
    have he : r ≠ i := fun eq => hn (eq ▸ ho.conn.live)
    refine ⟨s', kids', some i, h, ⟨hh, hi.root.trans ho.root, ht, ?_, ?_, ?_⟩, hi⟩
    · exact hh.top_parent rfl rfl rfl rfl ht
    · exact (congrArg slotComplete (hi.ident r he) :).trans ho.complete
    · rw [hi.fecMax, hi.xidMax]
      exact ho.room

lemma Pool.count (ho : Pool s spare) : s.live.length + s.free.length + spare.length = s.fecMax := by
  have hp : (s.live ++ s.free ++ spare).Perm (List.range s.fecMax) :=
    (perm_ext_iff_of_nodup ho.nodup nodup_range).mpr fun j => (ho.all j).symm.trans mem_range.symm
  have hc := hp.length_eq
  rwa [length_append, length_append, length_range] at hc

lemma clearXid_free (h : s.clearXid i = .ok s') : s'.free = s.free := by
  unfold clearXid at h
  grind [Reasm.set]

lemma leaveOut_free (s : Reasm) (i : Idx) : (s.leaveOut i).free = s.free := by
  unfold leaveOut
  grind [Reasm.set]

lemma leaveTree_free (s : Reasm) (i : Idx) : (s.leaveTree i).free = s.free := by
  unfold leaveTree
  grind

lemma unlink_free (h : s.unlink i head = .ok s') : s'.free = s.free := by
  unfold unlink at h
  grind [Reasm.set]

lemma removeChain_free {n : Nat} {first : Option Idx} (h : removeChain n first s = .ok s') : s'.free = s.free := by
  fun_induction removeChain n first s with
  | case1 => cases h; rfl
  | case2 => cases h
  | case3 => cases h
  | case4 s n i key removed hf u next ih =>
    obtain ⟨v, hc, hr⟩ := bind_ok.mp h
    rw [ih v hr, clearXid_free hc]
    exact (leaveOut_free _ _).trans (leaveTree_free _ _)

lemma retreat_free (h : s.retreat i = .ok s') : s'.free = s.free := by
  unfold retreat at h
  grind

def Reasm.removeFrom (s : Reasm) (tail head : Idx) : Except Fault (Reasm × Idx) := do
  let s ← s.orphanBelow tail
  match (s.fec head).parent with
  | some parent =>
    let s ← s.unlink parent head
    match s.find s.orphaned (s.fec head).key with
    | some i =>
      let s ← { s with orphaned := s.orphaned.erase i }.clearXid head
      return (s, head)
    | none =>
      let s ← removeChain (s.fecMax + 1) (some head) s
      let s ← s.retreat parent
      return (s, head)
  | none =>
    let s ← { s with subtrees := s.subtrees.erase head, subtreel := s.subtreel.erase head }.clearXid head
    return (s, head)

lemma removeFrom_free {first : Idx} (hl : (s.fec tail).child = none)
    (h : s.removeFrom tail first = .ok (s', head)) : s'.free = s.free := by
  unfold removeFrom at h
  obtain ⟨u, hk, h⟩ := bind_ok.mp h
  rw [orphanBelow, if_pos hl] at hk
  cases hk
  split at h
  · obtain ⟨v, hu, h⟩ := bind_ok.mp h
    split at h
    · obtain ⟨w, hc, h⟩ := bind_ok.mp h
      cases h
      have hb : v.free = s.free := unlink_free hu
      have hs := clearXid_free hc
      exact hs.trans hb
    · obtain ⟨w, he, h⟩ := bind_ok.mp h
      obtain ⟨x, hr, h⟩ := bind_ok.mp h
      cases h
      rw [retreat_free hr, removeChain_free he, unlink_free hu]
  · obtain ⟨w, hc, h⟩ := bind_ok.mp h
    cases h
    exact (clearXid_free hc :)

lemma remove_free (hl : (s.fec tail).child = none) (h : s.remove tail = .ok (s', head)) : s'.free = s.free := by
  unfold remove at h
  dsimp only at h
  split at h
  · obtain ⟨-, -, h⟩ := bind_ok.mp h
    exact removeFrom_free hl h
  · obtain ⟨first, -, h⟩ := bind_ok.mp h
    exact removeFrom_free hl h

lemma Arrival.Fits.kept (hi : a.Fits s) (pool : Pool s spare) (kept : Kept s s')
    (hp : ∀ j, (s'.fec j).parent = (s.fec j).parent) : a.Fits s' := by
  have key : ∀ j, (s'.fec j).key = (s.fec j).key := fun j => (congrArg key (kept.ident j) :)
  have cmr : ∀ j, (s'.fec j).cmr = (s.fec j).cmr := fun j => (congrArg cmr (kept.ident j) :)
  refine ⟨?_, hi.sane, hi.other, fun j hm => ?_⟩
  · cases hf : s'.query a.merkleRoot with
    | none => rfl
    | some p =>
      obtain ⟨hl, eq⟩ := query_some hf
      rw [key] at eq
      exact absurd eq (query_none hi.fresh p (kept.live p hl))
  · rw [cmr]
    have hs : (fun j => (s'.fec j).parent) = fun j => (s.fec j).parent := funext hp
    rw [hs, kept.fecMax] at hm
    cases hf : s'.query a.chainedMerkleRoot with
    | none =>
      rw [hf, Chain.follow (l := []) rfl (Nat.zero_le _)] at hm
      cases hm
    | some p =>
      obtain ⟨hl, eq⟩ := query_some hf
      rw [key] at eq
      have hb : s.query a.chainedMerkleRoot = some p := by
        cases ne : s.query a.chainedMerkleRoot with
        | none => exact absurd eq (query_none ne p (kept.live p hl))
        | some q =>
          obtain ⟨live', eq'⟩ := query_some ne
          rw [pool.keys p (kept.live p hl) q live' (eq.trans eq'.symm)]
      rw [hf, ← hb] at hm
      exact hi.acyclic j hm

lemma Kept.inserts (hk : Kept s s') (inserts : Inserts s' s'' i a) : Inserts s s'' i a where
  fecMax := inserts.fecMax.trans hk.fecMax
  xidMax := inserts.xidMax.trans hk.xidMax
  root := inserts.root.trans hk.root
  live := fun j live => (inserts.live j live).imp_right (hk.live j)
  child := fun j hd ne => (inserts.child j (fun live => hd (hk.live j live)) ne).trans (hk.child j hd)
  new := inserts.new
  ident := fun j ne => (inserts.ident j ne).trans (congrArg unmarked (hk.ident j))
  queue := fun hq => inserts.queue (hk.queue hq)
  spreads := fun spreads => inserts.spreads (hk.spreads spreads)
  twins := fun twins => inserts.twins (hk.twins twins)

lemma Inserts.refree (hi : Inserts s s' i a) (free : List Idx) : Inserts s { s' with free := free } i a :=
  ⟨hi.fecMax, hi.xidMax, hi.root, hi.live, hi.child, hi.new, hi.ident,
    fun hq => ⟨(hi.queue hq).fresh, (hi.queue hq).order⟩, hi.spreads, hi.twins⟩

lemma acquire_eq (ht : s.free = i :: rest) (f : Fec → Fec) : s.acquire f = .ok (s.fill i f rest, i) := by
  unfold acquire
  rw [ht]
  rfl

lemma step_insert (h : s.insert a = .ok (s', new, none)) : s.step (.insert a) = .ok (s', none) := by
  dsimp only [step]
  rw [h]
  rfl

lemma step_evict (h : s.insert a = .ok (s', new, some head)) : s.step (.insert a) = .ok (s'.release head, none) := by
  dsimp only [step]
  rw [h]
  rfl

variable (hd : Rooted s kids r [])
include hd

lemma Rooted.removeLeaf (hl : tail ∈ s.live) (ne : tail ≠ r) (he : (s.fec tail).child = none) :
    ∃ s' kids' head l, s.remove tail = .ok (s', head) ∧ Removes s s' kids' r head l ∧
      ∀ j, (s'.fec j).parent = (s.fec j).parent := by
  by_cases hc : s.Conn tail
  · obtain ⟨s', kids', head, l, h, hr, hp⟩ := hd.removeTree hc ne
    exact ⟨s', kids', head, l, h, hr, hp he⟩
  · obtain ⟨s', kids', h, hr, hp⟩ := hd.removeOrphan hl hc he
    exact ⟨s', kids', tail, [tail], h, hr, hp⟩

lemma Rooted.insertFree (hk : s.free = i :: rest) (ho : rest ≠ []) (hf : a.Fits s) :
    ∃ s' kids', s.step (.insert a) = .ok (s', none) ∧ Rooted s' kids' r [] ∧ s'.free ≠ [] ∧ Inserts s s' i a := by
  obtain ⟨s', kids', new, h, hr, hi⟩ := hd.insertAt hk hf
  have hm : s.free.length ≠ 1 := by
    rw [hk, length_cons]
    exact fun hc => ho (eq_nil_of_length_eq_zero (Nat.succ.inj hc))
  have hn : s.insert a = .ok (s', new, none) := by
    unfold Reasm.insert
    rw [check_of _ hf.fresh, if_neg hm, acquire_eq hk]
    exact bind_ok.mpr ⟨_, rfl, bind_ok.mpr ⟨_, h, rfl⟩⟩
  refine ⟨s', kids', step_insert hn, hr, fun he => ?_, hi⟩
  have hb := hd.whole.pool.count
  have ha := hr.whole.pool.count
  have hg : s'.live.length ≤ (i :: s.live).length :=
    List.Subperm.length_le (hr.whole.pool.live_nodup.subperm fun j hl => mem_cons.mpr (hi.live j hl))
  rw [hk] at hb
  rw [he, hi.fecMax] at ha
  have ht := length_pos_iff.mpr ho
  simp only [length_cons, length_nil] at hb ha hg
  omega

def Arrival.sketch (a : Arrival) (f : Fec) : Fec :=
  { f with
    key := a.merkleRoot, cmr := a.chainedMerkleRoot, parent := none, child := none, slot := a.slot
    parentOff := a.parentOff, fecSetIdx := a.fecSetIdx }

lemma Rooted.insertNone (ht : s.free = [i]) (hf : a.Fits s)
    (ho : s.evictee a.orphans a.leaves a.chainedMerkleRoot = .ok none) :
    ∃ s', s.step (.insert a) = .ok (s', none) ∧ Rooted s' kids r [] ∧ s'.free ≠ [] ∧ Inserts s s' i a := by
  have he : s.free.length = 1 := by
    rw [ht]
    rfl
  have set : s.root ≠ none := hd.root ▸ some_ne_none r
  obtain ⟨hn, hr⟩ := hd.fill ht a.sketch
  have hc : Chain (fun j => ((s.fill i a.sketch []).fec j).child) (some i) [i] := ⟨rfl, (congrArg child fill_self :)⟩
  have hi : s.insert a = .ok (s.fill i a.sketch [], none, some i) := by
    unfold Reasm.insert
    rw [check_of _ hf.fresh, if_pos he, check_of _ set, ho]
    refine bind_ok.mpr ⟨none, rfl, ?_⟩
    rw [acquire_eq ht]
    rfl
  refine ⟨_, step_evict hi, hr.release hc, ?_, (fill_inserts hd.whole.outs hn a).refree _⟩
  rw [hr.release_eq hc]
  exact cons_ne_nil _ _

lemma Rooted.insertLeaf (ha : s.free = [i]) (hs : a.Fits s)
    (hf : s.evictee a.orphans a.leaves a.chainedMerkleRoot = .ok (some tail)) (hl : tail ∈ s.live) (ne : tail ≠ r)
    (hb : (s.fec tail).child = none) :
    ∃ s' kids', s.step (.insert a) = .ok (s', none) ∧ Rooted s' kids' r [] ∧ s'.free ≠ [] ∧ Inserts s s' i a := by
  have hg : s.free.length = 1 := by
    rw [ha]
    rfl
  have set : s.root ≠ none := hd.root ▸ some_ne_none r
  obtain ⟨s₁, kids₁, head, l, he, hr, hp⟩ := hd.removeLeaf hl ne hb
  have ht : s₁.free = [i] := (remove_free hb he).trans ha
  obtain ⟨s₂, kids₂, new, h, ho, hi⟩ :=
    hr.rooted.insertAt ht (hs.kept hd.whole.pool hr.kept hp)
  have hc : Chain (fun j => (s₂.fec j).child) (some head) l := by
    refine hr.chain.congr fun j hm => hi.child j (fun hl => ?_) fun eq => ?_
    · exact (nodup_append.mp hr.rooted.whole.pool.nodup).2.2 j (mem_append_left _ hl) j hm rfl
    · have hh : j ∈ s₁.free := ht ▸ mem_singleton.mpr eq
      exact (nodup_append.mp hr.rooted.whole.pool.nodup).2.2 j (mem_append_right _ hh) j hm rfl
  have hn : s.insert a = .ok (s₂, new, some head) := by
    unfold Reasm.insert
    rw [check_of _ hs.fresh, if_pos hg, check_of _ set, hf]
    refine bind_ok.mpr ⟨some tail, rfl, ?_⟩
    dsimp only
    rw [he]
    refine bind_ok.mpr ⟨_, rfl, ?_⟩
    rw [acquire_eq ht]
    exact bind_ok.mpr ⟨_, rfl, bind_ok.mpr ⟨_, h, rfl⟩⟩
  refine ⟨_, kids₂, step_evict hn, ho.release hc, ?_, hr.kept.inserts (hi.refree _)⟩
  rw [ho.release_eq hc]
  exact append_ne_nil_of_left_ne_nil (ne_nil_of_mem hc.head_mem) _

lemma Rooted.insert (hr : s.free ≠ []) (hc : a.Fits s)
    (ho : a.orphans.Perm s.orphaned) (hv : a.leaves.Perm s.frontier) :
    ∃ s' kids' i, s.step (.insert a) = .ok (s', none) ∧ Rooted s' kids' r [] ∧ s'.free ≠ [] ∧ i ∉ s.live ∧
      Inserts s s' i a := by
  obtain ⟨i, rest, ht⟩ := exists_cons_of_ne_nil hr
  have hn := (hd.fill ht id).1
  by_cases hm : rest = []
  · rw [hm] at ht
    obtain ⟨e, hf, hs⟩ := hd.evictee a.chainedMerkleRoot ho hv
    cases e with
    | none =>
      obtain ⟨s', h, hb, he, hi⟩ := hd.insertNone ht hc hf
      exact ⟨s', kids, i, h, hb, he, hn, hi⟩
    | some tail =>
      obtain ⟨hl, ne, ha⟩ := hs tail rfl
      obtain ⟨s', kids', h, hb, he, hi⟩ := hd.insertLeaf ht hc hf hl ne ha
      exact ⟨s', kids', i, h, hb, he, hn, hi⟩
  · obtain ⟨s', kids', h, hb, he, hi⟩ := hd.insertFree ht hm hc
    exact ⟨s', kids', i, h, hb, he, hn, hi⟩

end Firebam.Reassembly
