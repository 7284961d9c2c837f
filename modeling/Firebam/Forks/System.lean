import Firebam.Forks.Advance
import Firebam.Forks.Grow

namespace Firebam.Forks
open List Lib

structure System where
  banks : Banks
  past : Past

inductive Op where
  | newBank (parent : Idx) (isLeader : Bool)
  | cloneFromParent (i : Idx)
  | markBankFrozen (i : Idx)
  | markBankDead (i : Idx)
  | refer (i : Idx)
  | release (i : Idx)
  | getEvictableBank (guarded : Option Idx)
  | pruneOneBank
  | advance (target : Idx)

def setRefcnt (refcnt : Nat → Nat) (b : Bank) : Bank := { b with refcnt := refcnt b.refcnt }

def step (s : System) : Op → Except Fault System
  | .newBank p isLeader => (s.banks.newBank p isLeader).map fun t => { s with banks := t }
  | .cloneFromParent i => (s.banks.cloneFromParent i).map fun t => ⟨t, s.past.clone (s.banks.entry i)⟩
  | .markBankFrozen i => (s.banks.markBankFrozen i).map fun t => ⟨t, s.past.freeze (s.banks.entry i)⟩
  | .markBankDead i => (s.banks.markBankDead i).map fun t => { s with banks := t.1 }
  | .refer i => .ok { s with banks := s.banks.modify i (setRefcnt (· + 1)) }
  | .release i => .ok { s with banks := s.banks.modify i (setRefcnt (· - 1)) }
  | .getEvictableBank guarded => (s.banks.getEvictableBank guarded).map fun t => { s with banks := t.1 }
  | .pruneOneBank => s.banks.pruneOneBank.map fun t => { s with banks := t.1 }
  | .advance target => (s.banks.advance target).map fun t => { s with banks := t }

/-- What the caller has to see to. -/
def Contract (s : System) : Op → Prop
  | .newBank p _ => s.banks.free ≠ [] ∧ (s.banks.bank p).state ≠ .inactive ∧ (s.banks.bank p).state ≠ .dead ∧
      (s.banks.bank p).state ≠ .prunable
  | .cloneFromParent i => (s.banks.bank i).state = .init ∧
      (s.banks.parentState i = some .frozen ∨ s.banks.parentState i = some .prunable) ∧ s.banks.costTrackers ≠ []
  | .markBankFrozen i => (s.banks.bank i).state = .replayable
  | .markBankDead i => (s.banks.bank i).state ≠ .inactive ∧ i ≠ s.banks.root
  | .refer i => (s.banks.bank i).state ≠ .inactive
  | .release i => (s.banks.bank i).state ≠ .inactive ∧ (s.banks.bank i).refcnt ≠ 0
  | .getEvictableBank _ => True
  | .pruneOneBank => True
  | .advance target => (s.banks.bank target).state = .frozen

def Fresh (s : System) : Op → Prop
  | .markBankDead i => (s.banks.bank i).state = .dead ∨ (∀ j ∈ s.banks.subtree i, (s.banks.bank j).state ≠ .dead) ∧
      s.banks.dead.length + (s.banks.subtree i).length ≤ deadMax
  | _ => True

instance decidableContract (s : System) : DecidablePred (Contract s) := fun op => by
  cases op <;> unfold Contract <;> infer_instance

instance decidableFresh (s : System) : DecidablePred (Fresh s) := fun op => by
  cases op <;> unfold Fresh <;> infer_instance

def start (maxTotalBanks maxForkWidth seed : Nat) : System := ⟨initBank maxTotalBanks maxForkWidth seed, ⟨[], []⟩⟩

variable {s t : System}

lemma start_sound {n w seed : Nat} (hi : 0 < n) : Sound (initBank n w seed) ⟨[], []⟩ := by
  have hs : ∀ i, ((initBank n w seed).bank i).state = if i = 0 then .frozen else .inactive := by
    intro i
    unfold initBank
    by_cases eq : i = 0 <;> simp [eq, Bank.empty]
  have hb : ∀ i, ((initBank n w seed).bank i).parent = none ∧ ((initBank n w seed).bank i).child = none ∧
      ((initBank n w seed).bank i).sibling = none ∧ ((initBank n w seed).bank i).costTracker = none := by
    intro i
    unfold initBank
    by_cases eq : i = 0 <;> simp [eq, Bank.empty]
  have hl : ∀ i, (initBank n w seed).Live i ↔ i = 0 := by
    intro i
    unfold Banks.Live
    rw [hs]
    by_cases eq : i = 0 <;> simp [eq]
  have hj : Pool (initBank n w seed) := by
    obtain ⟨k, rfl⟩ := Nat.exists_eq_succ_of_ne_zero (ne_of_gt hi)
    have hr : (initBank (k + 1) w seed).free = (List.range k).map (· + 1) := by
      unfold initBank
      rw [range_succ_eq_map]
      rfl
    refine ⟨?_, ?_, ?_⟩
    · exact nodup_range.tail
    · intro i
      rw [hl, Nat.succ_eq_add_one, hr]
      change _ ↔ i < k + 1 ∧ _
      cases i with
      | zero => simp
      | succ i => simp
    · intro i hh
      rw [(hl i).mp hh]
      exact hi
  have hw : ∀ i k, k ≠ .frozen → k ≠ .inactive → ((initBank n w seed).bank i).state ≠ k := by
    intro i k hf hd
    rw [hs]
    by_cases eq : i = 0
    · rw [if_pos eq]
      exact hf.symm
    · rw [if_neg eq]
      exact hd.symm
  refine ⟨⟨hj, ⟨?_, ?_⟩, ⟨?_, nodup_nil, ?_, nofun, ?_⟩, ?_⟩, ?_, ⟨?_, ?_, ?_⟩, ?_⟩
  · exact fun i => iff_of_false (hw i _ nofun nofun) nofun
  · exact fun i _ => (hb i).2.1
  · exact fun i => iff_of_false (hw i _ nofun nofun) not_mem_nil
  · exact fun i p _ _ hg => absurd hg (hw p _ nofun nofun)
  · intro i hh
    rw [(hl i).mp hh]
    exact Nat.lt_succ_self 1
  · refine ⟨⟨nodup_range, ?_, ?_⟩, fun i _ => (hb i).2.2.2, ?_, ?_, ?_, nofun, nofun⟩
    · intro i k hc
      rw [(hb i).2.2.2] at hc
      cases hc
    · intro i j k hc
      rw [(hb i).2.2.2] at hc
      cases hc
    · exact fun i _ => iff_of_false (fun he => he (hb i).2.2.2) fun ht => not_mem_nil ht.1
    · exact fun i _ => not_mem_nil
    · exact fun i hu => absurd hu (hw i _ nofun nofun)
  · refine Links.of hj (fun _ => []) ((hl 0).mpr rfl) (hb 0).1 (hb 0).2.2.1 (fun i _ => (hb i).2.1) ?_ ?_
    · intro i _ c
      refine iff_of_false not_mem_nil fun ht => ?_
      rw [(hb c).1] at ht
      cases ht.2
    · exact fun i hh ne => absurd ((hl i).mp hh) ne
  · exact hs 0
  · intro i p _ hp
    rw [(hb i).1] at hp
    cases hp
  · intro i p _ hp
    rw [(hb i).1] at hp
    cases hp
  · have ho : (initBank n w seed).live.Perm [0] :=
      hj.live_perm (nodup_singleton 0) fun i => by rw [hl, mem_singleton]
    have ha : (initBank n w seed).leaf 0 = true := decide_eq_true (hb 0).2.1
    rw [ho.countP_eq, countP_cons_of_pos ha]
    rfl

lemma step_sound {op : Op} (hs : Sound s.banks s.past) (hm : Contract s op) (hf : Fresh s op) :
    ∃ t, step s op = .ok t ∧ Sound t.banks t.past := by
  have hi : ∀ {α : Type} {x : Except Fault α} {f : α → System},
      (∃ t, x = .ok t ∧ Sound (f t).banks (f t).past) → ∃ t, x.map f = .ok t ∧ Sound t.banks t.past := by
    rintro α x f ⟨t, rfl, hs⟩
    exact ⟨f t, rfl, hs⟩
  cases op with
  | newBank p isLeader =>
    obtain ⟨ho, hl, ha, hk⟩ := hm
    exact hi (hs.newBank ho hl ha hk isLeader)
  | cloneFromParent i =>
    obtain ⟨ht, hr, ho⟩ := hm
    exact hi (hs.cloneFromParent ht hr ho)
  | markBankFrozen i => exact hi (hs.markBankFrozen hm)
  | markBankDead i =>
    obtain ⟨hl, ne⟩ := hm
    exact hi (hs.markBankDead hl ne fun ha => hf.resolve_left ha)
  | refer i => exact ⟨_, rfl, hs.touch fun _ => rfl⟩
  | release i => exact ⟨_, rfl, hs.touch fun _ => rfl⟩
  | getEvictableBank guarded => exact hi (hs.getEvictableBank guarded)
  | pruneOneBank => exact hi hs.pruneOneBank
  | advance target =>
    have hl : s.banks.Live target := by
      unfold Banks.Live
      rw [show (s.banks.bank target).state = .frozen from hm]
      decide
    exact hi (hs.advance hl hm)

structure Kept (s : System) : Prop where
  links : Links s.banks
  acquired : ∀ i, s.banks.Live i ↔ i < s.banks.maxTotalBanks ∧ i ∉ s.banks.free
  reached : ∀ i, s.banks.Live i → Reaches s.banks.children s.banks.root i
  width : s.banks.currForkWidth = s.banks.live.countP s.banks.leaf
  prunable : ∀ i, (s.banks.bank i).state = .prunable ↔ s.banks.prunable = some i
  prunable_leaf : ∀ i, (s.banks.bank i).state = .prunable → (s.banks.bank i).child = none
  dead : ∀ i j, (s.banks.bank i).state = .dead → Reaches s.banks.children i j → (s.banks.bank j).state = .dead
  entry : ∀ i, (s.banks.bank i).state = .dead → s.banks.entry i ∈ s.banks.dead
  tracker : ∀ i, (s.banks.bank i).costTracker ≠ none ↔
    s.banks.Live i ∧ s.banks.entry i ∈ s.past.cloned ∧ s.banks.entry i ∉ s.past.frozen
  unshared : ∀ i j k, (s.banks.bank i).costTracker = some k → (s.banks.bank j).costTracker = some k → i = j

lemma Sound.kept (hs : Sound s.banks s.past) : Kept s where
  links := hs.links
  acquired := fun i => by
    rw [hs.pool.mem_free, not_and, not_not]
    exact ⟨fun hl => ⟨hs.pool.bounded i hl, fun _ => hl⟩, fun ht => ht.2 ht.1⟩
  reached := fun i => hs.links.below_root
  width := hs.width
  prunable := hs.pending.iff
  prunable_leaf := hs.pending.leaf
  dead := fun i j hg hb => by
    induction hb with
    | refl => exact hg
    | @tail p c _ hk ih =>
      have up : s.banks.Live p := by
        unfold Banks.Live
        rw [ih]
        decide
      obtain ⟨hl, hp⟩ := (hs.links.mem_children p up c).mp hk
      exact hs.states.dead c p hl hp ih
  entry := fun i hg => by
    obtain ⟨e, hm, rfl⟩ := mem_map.mp ((hs.marks.iff i).mp hg)
    obtain ⟨hm, ho⟩ := mem_filter.mp hm
    have he : (s.banks.bank e.idx).seq = e.seq := by
      simp only [Banks.stale, Bool.not_eq_true', decide_eq_false_iff_not, not_or, not_not] at ho
      exact ho.2
    unfold Banks.entry
    rw [he]
    exact hm
  tracker := fun i => by
    by_cases hl : s.banks.Live i
    · rw [hs.trackers.held i hl, and_iff_right hl]
    · exact iff_of_false (fun hh => hh (hs.trackers.inactive i hl)) fun all => hl all.1
  unshared := hs.trackers.unique

/-- As long as no bank is marked dead after a bank below it, no operation stops the program, and the
tree, the counts and the deque are kept. -/
theorem forks_kept {maxTotalBanks maxForkWidth seed : Nat} {ops : List Op} (sized : 0 < maxTotalBanks)
    (contract : Allowed step Contract (start maxTotalBanks maxForkWidth seed) ops)
    (fresh : Allowed step Fresh (start maxTotalBanks maxForkWidth seed) ops) :
    ∃ t, run step (start maxTotalBanks maxForkWidth seed) ops = .ok t ∧ Kept t := by
  obtain ⟨t, done, sound⟩ := run_allowed step (fun s op => Contract s op ∧ Fresh s op)
    (fun s => Sound s.banks s.past) (fun s op sound both => step_sound sound both.1 both.2)
    (start_sound sized) (allowed_and contract fresh)
  exact ⟨t, done, sound.kept⟩

def sampleOps : List Op :=
  [.newBank 0 false, .cloneFromParent 1, .markBankFrozen 1, .newBank 0 false, .cloneFromParent 2, .newBank 2 true,
    .refer 3, .markBankDead 2, .markBankDead 3, .pruneOneBank, .release 3, .pruneOneBank, .newBank 1 false,
    .getEvictableBank none, .advance 1, .pruneOneBank, .pruneOneBank]

theorem sample_forks_kept : Allowed step Contract (start 5 2 0) sampleOps ∧
    ∃ t, run step (start 5 2 0) sampleOps = .ok t ∧ Kept t := by
  have contract : Allowed step Contract (start 5 2 0) sampleOps := by decide +kernel
  have fresh : Allowed step Fresh (start 5 2 0) sampleOps := by decide +kernel
  exact ⟨contract, forks_kept (by decide) contract fresh⟩

def childFirstOps : List Op := [.newBank 0 false, .newBank 1 false, .markBankDead 2, .markBankDead 1, .pruneOneBank]

/-- Pruning takes a bank that still has a child and stops the program. -/
theorem child_first_stops : Allowed step Contract (start 4 4 0) childFirstOps ∧
    faultOf (run step (start 4 4 0) childFirstOps) = some .notLeaf := by
  decide +kernel

end Firebam.Forks
