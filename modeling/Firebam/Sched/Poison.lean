import Mathlib

/-! The poison set of a block in the replay scheduler (discof/replay/fd_sched.c). -/
namespace Firebam.Sched
open List

def poisonMaxAcctPerSlot : Nat := 64

/-- The parts of a transaction that the parser of a block reads. `aluts` is what the lookup of
the address tables wrote; there is nothing when it is bypassed, the slot hashes cannot be read
or the lookup fails. -/
structure Txn (Acct : Type) where
  signatureCnt : Nat
  readonlySignedCnt : Nat
  readonlyUnsignedCnt : Nat
  imms : List Acct
  addrTableAdtlWritableCnt : Nat
  addrTableAdtlCnt : Nat
  aluts : Option (List Acct)

structure Block (Acct : Type) where
  poison : List Acct
  poisonSerialize : Bool
  bounded : poison.length ≤ poisonMaxAcctPerSlot

def Block.empty {Acct : Type} : Block Acct := ⟨[], false, Nat.zero_le _⟩

variable {Acct : Type}

namespace Txn

variable (t : Txn Acct)

def alts : Option (List Acct) := if t.addrTableAdtlCnt = 0 then none else t.aluts

def altUnresolvable : Bool := t.addrTableAdtlCnt ≠ 0 && t.alts.isNone

def getAcct (idx : Nat) : Option Acct :=
  if idx < t.imms.length then t.imms[idx]?
  else t.alts.bind fun alts => alts[idx - t.imms.length]?

def writableIdxs : List Nat :=
  range' 0 (t.signatureCnt - t.readonlySignedCnt)
    ++ range' t.signatureCnt (t.imms.length - t.readonlyUnsignedCnt - t.signatureCnt)
    ++ range' t.imms.length t.addrTableAdtlWritableCnt

def writable : List (Option Acct) := t.writableIdxs.map t.getAcct

def MayWrite (a : Acct) : Prop := some a ∈ t.writable ∨ none ∈ t.writable

variable [DecidableEq Acct]

def poisons (loader : Acct) : Bool :=
  loader ∈ t.imms || t.altUnresolvable || loader ∈ t.alts.getD []

end Txn

section

variable [DecidableEq Acct] (loader : Acct) (earlier : List (Txn Acct))

/-- A poisoning transaction among the earlier ones writes the account. -/
def Writes (a : Acct) : Prop := ∃ t ∈ earlier, t.poisons loader = true ∧ some a ∈ t.writable

/-- The earlier poisoning transactions write an account that could not be resolved, or more
accounts than the set has room for. -/
def Latched : Prop :=
  (∃ t ∈ earlier, t.poisons loader = true ∧ none ∈ t.writable) ∨
    ∃ l : List Acct, l.Nodup ∧ poisonMaxAcctPerSlot < l.length ∧ ∀ a ∈ l, Writes loader earlier a

end

variable {b : Block Acct} {t u : Txn Acct} {ts : List (Txn Acct)} {a : Acct} {s : Bool}
  {accts : List (Option Acct)} {i j : Nat}

/-- Every writable account is in the set, or everything is serialized from here on. -/
def Covers (b : Block Acct) (accts : List (Option Acct)) : Prop :=
  b.poisonSerialize = true ∨ ∀ acct ∈ accts, ∃ a ∈ b.poison, acct = some a

def Grows (b b' : Block Acct) : Prop :=
  (b.poisonSerialize = true → b'.poisonSerialize = true) ∧ b.poison ⊆ b'.poison

lemma Covers.mono {b' : Block Acct} (hc : Covers b accts) (hg : Grows b b') : Covers b' accts := by
  refine hc.imp hg.1 ?_
  intro all acct hm
  obtain ⟨a, m, hs⟩ := all acct hm
  exact ⟨a, hg.2 m, hs⟩

variable [DecidableEq Acct]

def blockPoisonHit (b : Block Acct) (t : Txn Acct) : Bool :=
  b.poison ≠ [] && t.writable.any fun
    | none => true
    | some acct => acct ∈ b.poison

def blockPoisonInsert (b : Block Acct) (acct : Acct) : Block Acct × Bool :=
  if acct ∈ b.poison then (b, false)
  else if room : b.poison.length < poisonMaxAcctPerSlot then
    (⟨b.poison ++ [acct], b.poisonSerialize, by rw [length_append]; exact room⟩, false)
  else ({ b with poisonSerialize := true }, true)

def poisonLoop (b : Block Acct) : List (Option Acct) → Block Acct
  | [] => b
  | none :: _ => { b with poisonSerialize := true }
  | some acct :: rest =>
    match blockPoisonInsert b acct with
    | (b, true) => b
    | (b, false) => poisonLoop b rest

section

variable (loader : Acct) (chkdup : List Acct → List Acct → Bool)

def blockPoisonAdd (b : Block Acct) (t : Txn Acct) : Block Acct :=
  if b.poisonSerialize then b
  else if t.poisons loader then poisonLoop b t.writable
  else b

def parseTxn (b : Block Acct) (t : Txn Acct) : Option (Block Acct × Bool) :=
  if chkdup t.imms (t.alts.getD []) then none
  else
    let serializing := t.altUnresolvable
    let serializing := serializing || (b.poisonSerialize || blockPoisonHit b t)
    some (blockPoisonAdd loader b t, serializing)

def parseTxns : Block Acct → List (Txn Acct) → List Bool
  | _, [] => []
  | b, t :: ts =>
    match parseTxn loader chkdup b t with
    | none => []
    | some (b, serializing) => serializing :: parseTxns b ts

end

lemma blockPoisonInsert_spec (b : Block Acct) (a : Acct) :
    Grows b (blockPoisonInsert b a).1 ∧ if (blockPoisonInsert b a).2 then (blockPoisonInsert b a).1.poisonSerialize = true
      else a ∈ (blockPoisonInsert b a).1.poison := by
  unfold blockPoisonInsert
  split
  · rename_i hf
    exact ⟨⟨id, Subset.refl _⟩, hf⟩
  · split
    · exact ⟨⟨id, subset_append_left _ _⟩, mem_append_right _ (.head _)⟩
    · exact ⟨⟨fun _ => rfl, Subset.refl _⟩, rfl⟩

lemma poisonLoop_spec (b : Block Acct) : Grows b (poisonLoop b accts) ∧ Covers (poisonLoop b accts) accts := by
  induction accts generalizing b with
  | nil => exact ⟨⟨id, Subset.refl _⟩, .inr nofun⟩
  | cons acct rest ih =>
    cases acct with
    | none => exact ⟨⟨fun _ => rfl, Subset.refl _⟩, .inl rfl⟩
    | some a =>
      have hi := blockPoisonInsert_spec b a
      unfold poisonLoop
      split <;> rename_i b' eq <;> rw [eq] at hi
      · exact ⟨hi.1, .inl hi.2⟩
      · have ⟨hg, hc⟩ := ih b'
        refine ⟨⟨fun hl => hg.1 (hi.1.1 hl), fun _ m => hg.2 (hi.1.2 m)⟩, ?_⟩
        refine hc.imp_right fun all => forall_mem_cons.mpr ⟨?_, all⟩
        exact ⟨a, hg.2 hi.2, rfl⟩

lemma blockPoisonAdd_spec (loader : Acct) (b : Block Acct) (t : Txn Acct) :
    Grows b (blockPoisonAdd loader b t) ∧
      (t.poisons loader = true → Covers (blockPoisonAdd loader b t) t.writable) := by
  unfold blockPoisonAdd
  split
  · rename_i hl
    exact ⟨⟨id, Subset.refl _⟩, fun _ => .inl hl⟩
  · split
    · exact ⟨(poisonLoop_spec b).1, fun _ => (poisonLoop_spec b).2⟩
    · exact ⟨⟨id, Subset.refl _⟩, fun hp => absurd hp ‹_›⟩

lemma Covers.hit (hc : Covers b t.writable) (hf : t.MayWrite a) (hs : u.MayWrite a) :
    (b.poisonSerialize || blockPoisonHit b u) = true := by
  rw [Bool.or_eq_true]
  refine hc.imp_right ?_
  intro all
  have m : a ∈ b.poison := by
    rcases hf with hm | hm
    · obtain ⟨_, m, ⟨⟩⟩ := all _ hm
      exact m
    · obtain ⟨_, _, ⟨⟩⟩ := all _ hm
  unfold blockPoisonHit
  rw [Bool.and_eq_true, decide_eq_true_iff, any_eq_true]
  refine ⟨ne_nil_of_mem m, ?_⟩
  rcases hs with hm | hm
  · exact ⟨_, hm, decide_eq_true m⟩
  · exact ⟨_, hm, rfl⟩

section

variable {loader : Acct} {chkdup : List Acct → List Acct → Bool}

lemma parseTxns_cons_getElem (ha : (parseTxns loader chkdup b (t :: ts))[j]? = some s) :
    (j = 0 ∧ s = (t.altUnresolvable || (b.poisonSerialize || blockPoisonHit b t))) ∨
      ∃ k, j = k + 1 ∧ (parseTxns loader chkdup (blockPoisonAdd loader b t) ts)[k]? = some s := by
  unfold parseTxns parseTxn at ha
  split at ha <;> rename_i hp <;> split at hp <;> cases hp
  · cases ha
  · cases j with
    | zero =>
      cases ha
      exact .inl ⟨rfl, rfl⟩
    | succ k => exact .inr ⟨k, rfl, ha⟩

lemma covered_serializing (hc : Covers b t.writable) (hf : t.MayWrite a) (hs : u.MayWrite a)
    (ha : (parseTxns loader chkdup b ts)[j]? = some s) (ht : ts[j]? = some u) : s = true := by
  induction ts generalizing b j with
  | nil => cases ht
  | cons v rest ih =>
    rcases parseTxns_cons_getElem ha with ⟨rfl, rfl⟩ | ⟨k, rfl, hl⟩
    · cases ht
      rw [hc.hit hf hs, Bool.or_true]
    · exact ih (hc.mono (blockPoisonAdd_spec loader b v).1) hl ht

lemma later_writer_serializing (hp : t.poisons loader = true) (hf : t.MayWrite a)
    (hs : u.MayWrite a) (ht : ts[i]? = some t) (hj : ts[j]? = some u) (hb : i < j)
    (ha : (parseTxns loader chkdup b ts)[j]? = some s) : s = true := by
  induction ts generalizing b i j with
  | nil => cases ht
  | cons v rest ih =>
    rcases parseTxns_cons_getElem ha with ⟨rfl, _⟩ | ⟨k, rfl, hl⟩
    · cases hb
    · cases i with
      | zero =>
        cases ht
        exact covered_serializing ((blockPoisonAdd_spec loader b t).2 hp) hf hs hl hj
      | succ i => exact ih ht hj (Nat.lt_of_succ_lt_succ hb) hl

structure Traced (loader : Acct) (earlier : List (Txn Acct)) (b : Block Acct) : Prop where
  nodup : b.poison.Nodup
  written : ∀ a ∈ b.poison, Writes loader earlier a
  latched : b.poisonSerialize = true → Latched loader earlier

lemma Traced.mono {more : List (Txn Acct)} (ht : Traced loader ts b) (hs : ts ⊆ more) : Traced loader more b := by
  have hw : ∀ a, Writes loader ts a → Writes loader more a := by
    rintro a ⟨t, m, hp⟩
    exact ⟨t, hs m, hp⟩
  refine ⟨ht.nodup, fun a m => hw a (ht.written a m), fun hl => ?_⟩
  rcases ht.latched hl with ⟨t, m, hp⟩ | ⟨l, hn, hl, all⟩
  · exact .inl ⟨t, hs m, hp⟩
  · exact .inr ⟨l, hn, hl, fun a m => hw a (all a m)⟩

lemma Traced.loop (ht : Traced loader ts b) (hm : t ∈ ts) (hp : t.poisons loader = true)
    (ha : accts ⊆ t.writable) : Traced loader ts (poisonLoop b accts) := by
  induction accts generalizing b with
  | nil => exact ht
  | cons acct rest ih =>
    obtain ⟨hh, hr⟩ := cons_subset.mp ha
    cases acct with
    | none => exact ⟨ht.nodup, ht.written, fun _ => .inl ⟨t, hm, hp, hh⟩⟩
    | some a =>
      have hw : Writes loader ts a := ⟨t, hm, hp, hh⟩
      unfold poisonLoop blockPoisonInsert
      split_ifs with hf room
      · exact ih ht hr
      · have hn : (b.poison ++ [a]).Nodup := by
          rw [nodup_append]
          exact ⟨ht.nodup, nodup_singleton a, fun x m y hy => by
            rintro rfl
            exact hf (mem_singleton.mp hy ▸ m)⟩
        refine ih ⟨hn, ?_, ht.latched⟩ hr
        intro x m
        rcases mem_append.mp m with m | m
        · exact ht.written x m
        · exact mem_singleton.mp m ▸ hw
      · -- the account would be one too many
        refine ⟨ht.nodup, ht.written, fun _ => .inr ⟨a :: b.poison, nodup_cons.mpr ⟨hf, ht.nodup⟩, ?_, ?_⟩⟩
        · rw [length_cons]
          omega
        · exact forall_mem_cons.mpr ⟨hw, ht.written⟩

lemma Traced.add (ht : Traced loader ts b) (t : Txn Acct) :
    Traced loader (ts ++ [t]) (blockPoisonAdd loader b t) := by
  have hg := ht.mono (subset_append_left ts [t])
  unfold blockPoisonAdd
  split_ifs with hl hp
  · exact hg
  · exact hg.loop (mem_append_right _ (.head _)) hp (Subset.refl _)
  · exact hg

lemma Traced.reason (ht : Traced loader ts b) (hs : (b.poisonSerialize || blockPoisonHit b u) = true) :
    Latched loader ts ∨ ∃ a, Writes loader ts a ∧ u.MayWrite a := by
  rcases Bool.or_eq_true _ _ ▸ hs with hl | hh
  · exact .inl (ht.latched hl)
  · right
    simp only [blockPoisonHit, Bool.and_eq_true, decide_eq_true_iff, any_eq_true] at hh
    obtain ⟨hn, acct, m, hh⟩ := hh
    cases acct with
    | none =>
      obtain ⟨a, ha⟩ := exists_mem_of_ne_nil _ hn
      exact ⟨a, ht.written a ha, .inr m⟩
    | some a => exact ⟨a, ht.written a (of_decide_eq_true hh), .inl m⟩

lemma serializing_reason {earlier : List (Txn Acct)} (ht : Traced loader earlier b) (hj : ts[j]? = some u)
    (ha : (parseTxns loader chkdup b ts)[j]? = some true) : u.altUnresolvable = true ∨
      Latched loader (earlier ++ ts.take j) ∨ ∃ a, Writes loader (earlier ++ ts.take j) a ∧ u.MayWrite a := by
  induction ts generalizing b j earlier with
  | nil => cases hj
  | cons v rest ih =>
    rcases parseTxns_cons_getElem ha with ⟨rfl, hs⟩ | ⟨k, rfl, hl⟩
    · cases hj
      rw [take_zero, append_nil]
      exact (Bool.or_eq_true _ _ ▸ hs.symm).imp_right ht.reason
    · have := ih (ht.add v) hj hl
      rwa [append_assoc] at this

/-- Poisoning is complete over a block: a transaction that may write an account of an earlier
poisoning one is serializing. Nothing else makes it so but its own failed lookup, and earlier ones
that write more accounts than the set holds or accounts that are not known. -/
theorem poisoning_complete (loader : Acct) (chkdup : List Acct → List Acct → Bool) (ts : List (Txn Acct)) (j : Nat)
    (u : Txn Acct) (s : Bool) (at_j : ts[j]? = some u) (added : (parseTxns loader chkdup .empty ts)[j]? = some s) :
    (∀ i t a, i < j → ts[i]? = some t → t.poisons loader = true → t.MayWrite a → u.MayWrite a → s = true) ∧
    (s = true → u.altUnresolvable = true ∨ Latched loader (ts.take j) ∨
      ∃ a, Writes loader (ts.take j) a ∧ u.MayWrite a) := by
  constructor
  · intro i t a before at_i poisons first second
    exact later_writer_serializing poisons first second at_i at_j before added
  · rintro rfl
    have traced : Traced loader [] (.empty : Block Acct) :=
      ⟨nodup_nil, fun _ m => absurd m not_mem_nil, fun hl => absurd hl Bool.false_ne_true⟩
    exact serializing_reason traced at_j added

def upgradeBlock : List (Txn Nat) :=
  [⟨1, 0, 1, [7, 8, 0], 0, 0, none⟩, ⟨1, 0, 0, [5, 6], 0, 0, none⟩, ⟨1, 0, 0, [9, 8], 0, 0, none⟩]

theorem poisoning_complete_upgrade : ∃ u s, upgradeBlock[2]? = some u ∧
    (parseTxns 0 (fun _ _ => false) .empty upgradeBlock)[2]? = some s ∧ s = true ∧
    (u.altUnresolvable = true ∨ Latched 0 (upgradeBlock.take 2) ∨
      ∃ a, Writes 0 (upgradeBlock.take 2) a ∧ u.MayWrite a) := by
  obtain ⟨later, reason⟩ := poisoning_complete 0 (fun _ _ => false) upgradeBlock 2 _ true rfl (by decide)
  have serial := later 0 _ 8 Nat.two_pos rfl (by decide) (.inl (by decide)) (.inl (by decide))
  exact ⟨_, true, rfl, by decide, serial, reason serial⟩

end

end Firebam.Sched
