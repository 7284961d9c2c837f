import Firebam.VoteStakes.Agree

/-! Which accounts the set of a new epoch admits, and the ranks of those that are admitted. -/
namespace Firebam.VoteStakes
open List Lib

variable {s : Stakes} {id : ForkId} {vs l set : List Vacc} {v : Vacc} {w m width : Nat} {α κ : Type} {f : Vacc → Nat}
  {a : Vacc × Bool} {rest rank : List (Vacc × Bool)} {g : α → κ}

section Admission

def above (vs : List Vacc) (w : Nat) : List Vacc := vs.filter fun v => w < v.stake

structure IsCut (vs : List Vacc) (w : Nat) : Prop where
  few : (above vs w).length ≤ vatMax
  least : ∀ u < w, vatMax < (above vs u).length

/-- The heap and the set after some insertions. Only a full heap turns accounts away unnoticed. -/
structure Admits (s : Stakes) (width : Nat) (vs : List Vacc) (w : Nat) : Prop where
  cut : IsCut vs w
  heap : s.heap.Perm (above vs w)
  set : s.t1 width = s.heap
  mark : s.minStakeWmark ≤ w
  full : s.heap.length < vatMax → s.minStakeWmark = w

lemma above_cons_of_lt (hl : w < v.stake) : above (v :: vs) w = v :: above vs w :=
  filter_cons_of_pos (decide_eq_true hl)

lemma above_cons_of_le (le : v.stake ≤ w) : above (v :: vs) w = above vs w :=
  filter_cons_of_neg (by simpa using le)

lemma length_above_le (v : Vacc) (vs : List Vacc) (w : Nat) : (above vs w).length ≤ (above (v :: vs) w).length :=
  ((sublist_cons_self v vs).filter _).length_le

lemma IsCut.cons_of_le (hc : IsCut vs w) (le : v.stake ≤ w) : IsCut (v :: vs) w :=
  ⟨(above_cons_of_le le).symm ▸ hc.few, fun u hl => (hc.least u hl).trans_le (length_above_le ..)⟩

lemma above_above (le : w ≤ m) : above (above vs w) m = above vs m := by
  unfold above
  rw [filter_filter]
  refine filter_congr fun v _ => ?_
  simp only [Bool.and_eq_decide, decide_eq_true_iff, decide_eq_decide]
  omega

lemma above_eq {u : Nat} (ho : ∀ x ∈ above vs w, m ≤ x.stake) (ge : w ≤ u) (hl : u < m) : above vs u = above vs w := by
  rw [← above_above ge]
  refine filter_eq_self.mpr fun x hm => ?_
  exact decide_eq_true (hl.trans_le (ho x hm))

lemma IsCut.raise (hc : IsCut vs w) (hf : (above vs w).length = vatMax)
    (ho : ∀ x ∈ above vs w, m ≤ x.stake) (he : (above (v :: vs) m).length ≤ vatMax) (le : m ≤ v.stake) :
    IsCut (v :: vs) m := by
  refine ⟨he, fun u hl => ?_⟩
  by_cases hb : u < w
  · exact (hc.least u hb).trans_le (length_above_le ..)
  · rw [above_cons_of_lt (by omega), above_eq ho (Nat.le_of_not_lt hb) hl, length_cons, hf]
    exact Nat.lt_succ_self _

lemma evict_heap {x : Vacc} (hh : s.heap.Perm (above vs w)) (hm : x ∈ above vs w)
    (hl : ∀ y ∈ above vs w, x.stake ≤ y.stake) :
    (s.heap.filter (·.stake ≠ x.stake)).Perm (above vs x.stake) ∧
      (above vs x.stake).length < (above vs w).length := by
  have le : w ≤ x.stake := (of_decide_eq_true (mem_filter.mp hm).2).le
  have eq : (above vs w).filter (·.stake ≠ x.stake) = above vs x.stake := by
    rw [← above_above le]
    refine filter_congr fun y hm => ?_
    have := hl y hm
    rw [decide_eq_decide]
    omega
  rw [← eq]
  refine ⟨hh.filter _, length_filter_lt_length_iff_exists.mpr ⟨x, hm, by simp⟩⟩

lemma evict_set {min : Nat} (set : s.t1 width = s.heap) (hn : (s.heap.map Vacc.pubkey).Nodup) :
    (s.evict width min).t1 width = (s.evict width min).heap := by
  unfold Stakes.evict
  dsimp only
  rw [update_here, set]
  refine filter_congr fun v hx => ?_
  rw [decide_eq_decide, any_eq_true, not_iff_not]
  constructor
  · rintro ⟨x, hm, eq⟩
    obtain ⟨hs, hk⟩ := of_decide_eq_true eq
    rwa [← inj_on_of_nodup_map hn hm hx hk]
  · exact fun eq => ⟨v, hx, decide_eq_true ⟨eq, rfl⟩⟩

lemma accept_set (set : s.t1 width = s.heap) : (s.accept width v).t1 width = (s.accept width v).heap :=
  (update_here ..).trans (congrArg (v :: ·) set)

lemma Admits.insert (ha : Admits s width vs w) (eq : forkIdWidthId id = width)
    (hn : (vs.map Vacc.pubkey).Nodup) : ∃ u, Admits (s.insert id v) width (v :: vs) u := by
  subst eq
  unfold Stakes.insert
  dsimp only
  have hc := ha.heap.length_eq
  split
  · rename_i hw
    have le : v.stake ≤ w := hw.elim (fun hz => hz ▸ Nat.zero_le w) fun hw => hw.trans ha.mark
    exact ⟨w, ha.cut.cons_of_le le, (above_cons_of_le le).symm ▸ ha.heap, ha.set, ha.mark, ha.full⟩
  rename_i hi
  have hk : (s.heap.map Vacc.pubkey).Nodup := (ha.heap.map _).nodup_iff.mpr (hn.sublist (filter_sublist.map _))
  split
  · rename_i hu
    cases ho : (s.heap.map Vacc.stake).min? with
    | none =>
      rw [min?_eq_none_iff, map_eq_nil_iff] at ho
      rw [ho] at hu
      cases hu
    | some min =>
      obtain ⟨ht, hw⟩ := min?_eq_some_iff.mp ho
      obtain ⟨x, mem, rfl⟩ := mem_map.mp ht
      have hw : ∀ y ∈ above vs w, x.stake ≤ y.stake := fun y mem => hw _ (mem_map_of_mem (ha.heap.mem_iff.mpr mem))
      have hf := hc.symm.trans hu
      obtain ⟨hh, hl⟩ := evict_heap ha.heap (ha.heap.mem_iff.mp mem) hw
      have hb (hd : (above (v :: vs) x.stake).length ≤ vatMax) (le : x.stake ≤ v.stake) := ha.cut.raise hf hw hd le
      dsimp only
      split
      · rename_i hm
        by_cases le : v.stake ≤ w
        · exact ⟨w, ha.cut.cons_of_le le, (above_cons_of_le le).symm ▸ ha.heap, ha.set, ha.mark, ha.full⟩
        · have le : w ≤ v.stake := Nat.le_of_not_le le
          have hs : above (v :: vs) v.stake = above vs w := (above_cons_of_le le_rfl).trans (above_eq hw le hm)
          refine ⟨v.stake, ha.cut.raise hf (fun y mem => hm.le.trans (hw y mem)) (hs ▸ hf.le) le_rfl,
            hs ▸ ha.heap, ha.set, ha.mark.trans le, fun hr => absurd hr (hu ▸ lt_irrefl _)⟩
      · split
        · rename_i eq
          have hs : above (v :: vs) x.stake = above vs x.stake := above_cons_of_le eq.le
          exact ⟨x.stake, hb (hs ▸ (hl.trans_eq hf).le) eq.ge, hs ▸ hh, evict_set ha.set hk, le_rfl,
            fun _ => rfl⟩
        · have he : x.stake < v.stake := by omega
          have hs : above (v :: vs) x.stake = v :: above vs x.stake := above_cons_of_lt he
          exact ⟨x.stake, hb (hs ▸ hl.trans_eq hf) he.le, hs ▸ hh.cons v,
            accept_set (evict_set ha.set hk), le_rfl, fun _ => rfl⟩
  · rename_i hr
    have hr : s.heap.length < vatMax := lt_of_le_of_ne (hc ▸ ha.cut.few) hr
    have hl : w < v.stake := by
      rw [← ha.full hr]
      omega
    refine ⟨w, ⟨?_, fun u le => (ha.cut.least u le).trans_le (length_above_le ..)⟩, ?_, ?_, ha.mark, ?_⟩
    · rw [above_cons_of_lt hl, length_cons, ← hc]
      exact hr
    · rw [above_cons_of_lt hl]
      exact ha.heap.cons v
    · exact accept_set ha.set
    · exact fun _ => ha.full hr

def Stakes.insertAll (s : Stakes) (id : ForkId) : List Vacc → Stakes
  | [] => s
  | v :: vs => (s.insertAll id vs).insert id v

lemma insertAll_admits (hh : s.heap = []) (hm : s.minStakeWmark = 0) (set : s.t1 (forkIdWidthId id) = [])
    (hn : (vs.map Vacc.pubkey).Nodup) : ∃ w, Admits (s.insertAll id vs) (forkIdWidthId id) vs w := by
  induction vs with
  | nil => exact ⟨0, ⟨Nat.zero_le _, nofun⟩, Perm.of_eq hh, set.trans hh.symm, hm.le, fun _ => hm⟩
  | cons v vs ih =>
    obtain ⟨w, ha⟩ := ih (nodup_cons.mp hn).2
    exact ha.insert rfl (nodup_cons.mp hn).2

lemma newFork_crossing {order : List Vacc → List Vacc} {parent : ForkId} {epoch : Nat} {t : Stakes}
    (hw : ∀ width ∈ s.freeForks, width < 2 ^ 16) (hc : epoch ≠ forkIdEpoch parent)
    (hd : s.newFork order parent epoch = .ok (t, id)) :
    t.heap = [] ∧ t.minStakeWmark = 0 ∧ t.t1 (forkIdWidthId id) = [] := by
  obtain ⟨-, hd⟩ := check_ok.mp hd
  split at hd
  · cases hd
  · rw [if_neg hc, Stakes.enter] at hd
    have hf : ∀ {s : Stakes} {width epoch : Nat}, (s.rotate order width epoch).freeForks = s.freeForks := by
      intros
      unfold Stakes.rotate
      split <;> rfl
    split at hd
    · cases hd
    · rename_i width _ hr
      cases hd
      rw [hf] at hr
      have hm : width ∈ s.freeForks := by
        rw [show s.freeForks = _ from hr]
        exact mem_cons_self
      rw [widthId_forkId (hw width hm)]
      exact ⟨rfl, rfl, update_here ..⟩

end Admission

section Ranks
variable (valid : Nat → Bool) (blsKey : Vacc → Nat)

def sortBy {α κ : Type} [LinearOrder κ] (key : α → κ) (l : List α) : List α := l.insertionSort fun a b => key a ≤ key b

def dropTwins (key : Vacc → Nat) (a : Vacc × Bool) : List (Vacc × Bool) → List (Vacc × Bool)
  | [] => [a]
  | b :: rest =>
    if key a.1 = key b.1 then (a.1, true) :: dropTwins key (b.1, true) rest else a :: dropTwins key b rest

def dropShared (key : Vacc → Nat) (rank : List (Vacc × Bool)) : List (Vacc × Bool) :=
  match sortBy (fun r => key r.1) rank with
  | [] => []
  | a :: rest => dropTwins key a rest

def candidates (set : List Vacc) : List Vacc := set.filter fun v => v.stake ≠ 0 && valid (blsKey v)

def rankKey (v : Vacc) : Natᵒᵈ ×ₗ Nat := toLex (.toDual v.stake, blsKey v)

def survivors (set : List Vacc) : List Vacc :=
  let rank := (candidates valid blsKey set).map (·, false)
  let rank := dropShared Vacc.nodeAccount (dropShared blsKey rank)
  sortBy (rankKey blsKey) ((rank.filter fun r => !r.2).map Prod.fst)

def Stakes.finalize (s : Stakes) (epoch : Nat) (ranks : Nat → Vacc → Option Nat) : Nat → Vacc → Option Nat :=
  if s.t2Epoch (epoch % 2) ≠ some epoch then ranks
  else update ranks (epoch % 2) fun v =>
    let rank := survivors valid blsKey (s.t2 (epoch % 2))
    if v ∈ rank then some (rank.idxOf v) else none

end Ranks

section
variable [LinearOrder κ]

lemma sortBy_perm (l : List α) : (sortBy g l).Perm l := perm_insertionSort _ l

lemma sortBy_pairwise (l : List α) : (sortBy g l).Pairwise fun a b => g a ≤ g b := by
  have : Std.Total fun a b => g a ≤ g b := ⟨fun a b => le_total (g a) (g b)⟩
  have : IsTrans α fun a b => g a ≤ g b := ⟨fun _ _ _ => le_trans⟩
  exact pairwise_insertionSort _ l

lemma dropTwins_fst : (dropTwins f a rest).map Prod.fst = (a :: rest).map Prod.fst := by
  induction rest generalizing a with
  | nil => rfl
  | cons b rest ih =>
    unfold dropTwins
    split <;> simp [ih]

lemma dropTwins_kept (ho : (a :: rest).Pairwise fun a b => f a.1 ≤ f b.1) (hn : ((a :: rest).map Prod.fst).Nodup) :
    (v, false) ∈ dropTwins f a rest ↔ (v, false) ∈ a :: rest ∧ ∀ b ∈ a :: rest, f b.1 = f v → b.1 = v := by
  induction rest generalizing a with
  | nil =>
    simp only [dropTwins, mem_singleton, forall_eq, iff_self_and]
    rintro rfl
    exact fun _ => rfl
  | cons b rest ih =>
    obtain ⟨hb, ht⟩ := pairwise_cons.mp ho
    obtain ⟨hh, hn⟩ := nodup_cons.mp hn
    have hp : ∀ d ∈ b :: rest, a.1 ≠ d.1 := fun d hx eq => hh (eq ▸ mem_map_of_mem hx)
    unfold dropTwins
    split
    · rename_i hm
      have hs : ((b.1, true) :: rest).Pairwise fun a b => f a.1 ≤ f b.1 := pairwise_cons.mpr (pairwise_cons.mp ht)
      have hw : ∀ d ∈ rest, b.1 ≠ d.1 := fun d hx eq => (nodup_cons.mp hn).1 (eq ▸ mem_map_of_mem hx)
      rw [mem_cons, ih hs hn]
      -- whatever is kept has another key than the two
      constructor
      · rintro (no | ⟨hx, ha⟩)
        · cases no
        · have hx : (v, false) ∈ rest := (mem_cons.mp hx).resolve_left fun no => by cases no
          have hc : f b.1 ≠ f v := fun eq => hw _ hx (ha (b.1, true) mem_cons_self eq)
          grind
      · rintro ⟨hx, ha⟩
        have hc : f b.1 ≠ f v := fun eq =>
          hp b mem_cons_self ((ha a mem_cons_self (hm.trans eq)).trans (ha b (by simp) eq).symm)
        grind
    · rename_i hd
      have hv : ∀ d ∈ b :: rest, f a.1 < f d.1 := by
        have le := (pairwise_cons.mp ht).1
        have hf := hb b mem_cons_self
        grind
      rw [mem_cons, ih ht hn]
      grind

lemma dropShared_fst (rank : List (Vacc × Bool)) : ((dropShared f rank).map Prod.fst).Perm (rank.map Prod.fst) := by
  have hp := (sortBy_perm (g := fun r : Vacc × Bool => f r.1) rank).map Prod.fst
  unfold dropShared
  split
  · rename_i eq
    rwa [eq] at hp
  · rename_i eq
    rwa [dropTwins_fst, ← eq]

lemma dropShared_kept (hn : (rank.map Prod.fst).Nodup) :
    (v, false) ∈ dropShared f rank ↔ (v, false) ∈ rank ∧ ∀ w ∈ rank.map Prod.fst, f w = f v → w = v := by
  have hp := sortBy_perm (g := fun r : Vacc × Bool => f r.1) rank
  have hs := sortBy_pairwise (g := fun r : Vacc × Bool => f r.1) rank
  simp only [forall_mem_map, ← hp.mem_iff]
  unfold dropShared
  split
  · rename_i eq
    simp [eq]
  · rename_i eq
    rw [eq] at hp hs ⊢
    exact dropTwins_kept hs ((hp.map _).nodup_iff.mpr hn)

variable {valid : Nat → Bool} {blsKey : Vacc → Nat}

def Alone (f : Vacc → Nat) (l : List Vacc) (v : Vacc) : Prop := ∀ w ∈ l, f w = f v → w = v

lemma candidates_nodup (hn : set.Nodup) : (((candidates valid blsKey set).map (·, false)).map Prod.fst).Nodup := by
  have all : (candidates valid blsKey set).Nodup := hn.filter _
  simpa [Function.comp_def] using all

lemma mem_survivors (hn : set.Nodup) : v ∈ survivors valid blsKey set ↔ v ∈ candidates valid blsKey set ∧
    Alone blsKey (candidates valid blsKey set) v ∧ Alone Vacc.nodeAccount (candidates valid blsKey set) v := by
  have hn : (((candidates valid blsKey set).map (·, false)).map Prod.fst).Nodup := candidates_nodup hn
  have hp := dropShared_fst (f := blsKey) ((candidates valid blsKey set).map (·, false))
  have hk : v ∈ survivors valid blsKey set ↔
      (v, false) ∈ dropShared Vacc.nodeAccount (dropShared blsKey ((candidates valid blsKey set).map (·, false))) := by
    rw [survivors, (sortBy_perm _).mem_iff]
    simp
  rw [hk, dropShared_kept (hp.nodup_iff.mpr hn), dropShared_kept hn, and_assoc]
  simp only [hp.mem_iff]
  simp [Alone]

lemma survivors_nodup (hn : set.Nodup) : (survivors valid blsKey set).Nodup := by
  have hp := (dropShared_fst (f := Vacc.nodeAccount) _).trans
    (dropShared_fst (f := blsKey) ((candidates valid blsKey set).map (·, false)))
  have all := hp.nodup_iff.mpr (candidates_nodup hn)
  exact (sortBy_perm _).nodup_iff.mpr (all.sublist (filter_sublist.map _))

lemma survivors_sorted (hn : set.Nodup) : (survivors valid blsKey set).Pairwise fun a b =>
    b.stake < a.stake ∨ a.stake = b.stake ∧ blsKey a < blsKey b := by
  have hs := sortBy_pairwise (g := rankKey blsKey)
    (((dropShared Vacc.nodeAccount (dropShared blsKey ((candidates valid blsKey set).map (·, false)))).filter fun r => !r.2).map
      Prod.fst)
  refine (hs.and (survivors_nodup hn)).imp_of_mem fun {a b} hf he le => ?_
  have ho : blsKey a ≠ blsKey b := fun eq =>
    le.2 (((mem_survivors hn).mp he).2.1 a ((mem_survivors hn).mp hf).1 eq)
  rcases Prod.Lex.toLex_le_toLex.mp le.1 with hm | ⟨ha, hk⟩
  · exact .inl hm
  · exact .inr ⟨ha, lt_of_le_of_ne hk ho⟩

end

/-- The set of a new epoch has exactly the accounts above the least stake that at most the maximal
number of accounts exceed, whatever the order of the insertions. The ranks of a set go to the
candidates that share neither key nor identity, by decreasing stake and then by key. -/
theorem admission_by_stake (order : List Vacc → List Vacc) (s : Stakes) (parent : ForkId) (epoch : Nat) (t : Stakes)
    (id : ForkId) (widths : ∀ width ∈ s.freeForks, width < 2 ^ 16) (crossing : epoch ≠ forkIdEpoch parent)
    (done : s.newFork order parent epoch = .ok (t, id)) :
    (∀ vs, (vs.map Vacc.pubkey).Nodup →
      ∃ w, IsCut vs w ∧ ((t.insertAll id vs).t1 (forkIdWidthId id)).Perm (above vs w)) ∧
    ∀ (u : Stakes) (e : Nat) (valid : Nat → Bool) (blsKey : Vacc → Nat) (ranks : Nat → Vacc → Option Nat),
      u.t2Epoch (e % 2) = some e → ((u.t2 (e % 2)).map Vacc.pubkey).Nodup →
      let l := candidates valid blsKey (u.t2 (e % 2))
      ∃ rank : List Vacc, (∀ v i, u.finalize valid blsKey e ranks (e % 2) v = some i ↔ rank[i]? = some v) ∧
        (∀ v, v ∈ rank ↔ v ∈ l ∧ Alone blsKey l v ∧ Alone Vacc.nodeAccount l v) ∧
        rank.Pairwise fun a b => b.stake < a.stake ∨ a.stake = b.stake ∧ blsKey a < blsKey b := by
  obtain ⟨heap, mark, set⟩ := newFork_crossing widths crossing done
  refine ⟨fun vs nodup => ?_, fun u e valid blsKey ranks there keys => ?_⟩
  · obtain ⟨w, admits⟩ := insertAll_admits heap mark set nodup
    exact ⟨w, admits.cut, admits.set ▸ admits.heap⟩
  · have nodup := keys.of_map
    refine ⟨survivors valid blsKey (u.t2 (e % 2)), fun v i => ?_, fun v => mem_survivors nodup, survivors_sorted nodup⟩
    rw [Stakes.finalize, if_neg (not_not.mpr there), update_here]
    dsimp only
    constructor
    · intro eq
      split at eq
      · rename_i mem
        cases eq
        exact getElem?_idxOf mem
      · cases eq
    · intro eq
      obtain ⟨less, rfl⟩ := List.getElem?_eq_some_iff.mp eq
      rw [if_pos (getElem_mem less), (survivors_nodup nodup).idxOf_getElem]

lemma IsCut.eq_of {w' : Nat} (hc : IsCut vs w) (few : (above vs w').length ≤ vatMax)
    (many : ∀ u < w', vatMax < (above vs u).length) : w = w' := by
  refine Nat.le_antisymm (Nat.le_of_not_gt fun gt => ?_) (Nat.le_of_not_gt fun lt => ?_)
  · exact absurd (hc.least w' gt) (Nat.not_lt.mpr few)
  · exact absurd (many w lt) (Nat.not_lt.mpr hc.few)

def crowd : List Vacc := (range (vatMax + 1)).map fun i => ⟨i, i, max 1 i, 0⟩

def rivals : List Vacc := [⟨1, 10, 50, 0⟩, ⟨2, 20, 50, 0⟩, ⟨3, 30, 70, 0⟩, ⟨4, 30, 60, 0⟩, ⟨5, 50, 90, 0⟩, ⟨6, 60, 80, 0⟩,
  ⟨7, 70, 95, 0⟩]

def rivalKey (v : Vacc) : Nat := [0, 9, 8, 7, 6, 5, 5, 4].getD v.pubkey 0

def rivalStakes : Stakes := { Stakes.empty 4 3 with t2Epoch := fun _ => some 1, t2 := fun _ => rivals }

theorem crowd_cut_and_rivals_ranked : ∃ t id, (Stakes.empty 4 3).newFork (fun l => l) (forkId 0 0 0) 1 = .ok (t, id) ∧
    ((t.insertAll id crowd).t1 (forkIdWidthId id)).Perm (above crowd 1) ∧
    ((t.insertAll id crowd.reverse).t1 (forkIdWidthId id)).Perm (above crowd 1) ∧ (above crowd 1).length + 2 = crowd.length ∧
    (∃ rank : List Vacc,
      (∀ v i, rivalStakes.finalize (· ≠ 0) rivalKey 1 (fun _ _ => none) 1 v = some i ↔ rank[i]? = some v) ∧
      (∀ v, v ∈ rank ↔ v ∈ rivals ∧ Alone rivalKey rivals v ∧ Alone Vacc.nodeAccount rivals v) ∧
      rank.Pairwise fun a b => b.stake < a.stake ∨ a.stake = b.stake ∧ rivalKey a < rivalKey b) ∧
    rivals.map (rivalStakes.finalize (· ≠ 0) rivalKey 1 (fun _ _ => none) 1) =
      [some 2, some 1, none, none, none, none, some 0] := by
  have keys : crowd.map Vacc.pubkey = range (vatMax + 1) := by simp [crowd, Function.comp_def]
  have len (u : Nat) : (above crowd.reverse u).length = (above crowd u).length := by
    rw [above, filter_reverse, length_reverse, above]
  have few : (above crowd 1).length ≤ vatMax := by decide +kernel
  have many : ∀ u < 1, vatMax < (above crowd u).length := by decide +kernel
  obtain ⟨admitted, ranked⟩ := admission_by_stake _ (Stakes.empty 4 3) (forkId 0 0 0) 1 _ _ (by decide) (by decide) rfl
  refine ⟨_, _, rfl, ?_, ?_, by decide +kernel, ranked rivalStakes 1 (· ≠ 0) rivalKey (fun _ _ => none) rfl (by decide),
    by decide +kernel⟩
  · obtain ⟨w, cut, set⟩ := admitted crowd (by rw [keys]; exact nodup_range)
    rwa [cut.eq_of few many] at set
  · obtain ⟨w, cut, set⟩ := admitted crowd.reverse (by rw [map_reverse, keys]; exact nodup_reverse.mpr nodup_range)
    rw [cut.eq_of ((len 1).le.trans few) fun u lt => (many u lt).trans_eq (len u).symm] at set
    exact set.trans ((reverse_perm crowd).filter _)

end Firebam.VoteStakes
