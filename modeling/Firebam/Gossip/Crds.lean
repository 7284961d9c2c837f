import Mathlib

namespace Firebam.Gossip
open List

abbrev Bytes := List UInt8

/-- The number that the 32 bytes spell with the first one leading, which is how memcmp compares. -/
abbrev Hash := Nat

def hashPrefix (h : Hash) : Nat := h / 2 ^ 192

inductive Tag | vote | epochSlots | duplicateShred | contactInfo | other (n : Nat)
  deriving DecidableEq

structure Value where
  tag : Tag
  origin : Nat
  index : Nat
  outset : Nat
  wallclock : Nat

structure Key where
  tag : Tag
  pubkey : Nat
  index : Nat
  deriving DecidableEq

def Value.key (v : Value) : Key :=
  match v.tag with
  | .vote | .epochSlots | .duplicateShred => ⟨v.tag, v.origin, v.index⟩
  | _ => ⟨v.tag, v.origin, 0⟩

structure Entry where
  wallclock : Nat
  outset : Nat
  valueBytes : Bytes
  valueHash : Hash
  numDuplicates : Nat

structure Purged where
  max : Nat
  replaced : List Hash
  failedInserts : List Hash
  noContactInfo : List Hash
  evictedCnt : Nat

namespace Purged

def hashes (p : Purged) : List Hash := p.replaced ++ p.failedInserts ++ p.noContactInfo

def acquireEle (p : Purged) : Purged :=
  if p.hashes.length < p.max then p
  else
    match p.replaced, p.failedInserts with
    | _ :: rest, _ => { p with replaced := rest, evictedCnt := p.evictedCnt + 1 }
    | [], _ :: rest => { p with failedInserts := rest, evictedCnt := p.evictedCnt + 1 }
    | [], [] => { p with noContactInfo := p.noContactInfo.tail, evictedCnt := p.evictedCnt + 1 }

def query (p : Purged) (h : Hash) : Bool := p.hashes.any fun g => hashPrefix g = hashPrefix h

def insertReplaced (p : Purged) (h : Hash) : Purged :=
  if p.query h then p else { p.acquireEle with replaced := p.acquireEle.replaced ++ [h] }

def insertFailedInsert (p : Purged) (h : Hash) : Purged :=
  if p.query h then p else { p.acquireEle with failedInserts := p.acquireEle.failedInserts ++ [h] }

end Purged

structure Crds where
  entries : Key → Option Entry
  purged : Purged

inductive Op | insert (b : Bytes) | release (k : Key)

def toLong (n : Nat) : Int := if n < 2 ^ 63 then n else n - 2 ^ 64

structure Wire where
  sha256 : Bytes → Hash
  parse : Bytes → Value

def crdsCompare (incumbent : Entry) (candidate : Value) : Ordering :=
  (if candidate.tag = .contactInfo then compare incumbent.outset candidate.outset else .eq).then
    (compare incumbent.wallclock candidate.wallclock)

section
variable (w : Wire)

def Wire.key (b : Bytes) : Key := (w.parse b).key

def Wire.entry (b : Bytes) : Entry := ⟨(w.parse b).wallclock, (w.parse b).outset, b, w.sha256 b, 0⟩

namespace Crds
variable (s : Crds)

def set (k : Key) (e : Option Entry) : Crds := { s with entries := Function.update s.entries k e }

def duplicate (k : Key) (e : Entry) : Crds × Int :=
  let n := (e.numDuplicates + 1) % 2 ^ 64
  (s.set k (some { e with numDuplicates := n }), toLong n)

def insert (b : Bytes) : Crds × Int :=
  let k := w.key b
  match s.entries k with
  | none => (s.set k (some (w.entry b)), 0)
  | some e =>
    if e.valueBytes.take 8 = b.take 8 then s.duplicate k e
    else
      -- the hashes decide between values that compare equal
      match (crdsCompare e (w.parse b)).then (compare e.valueHash (w.sha256 b)) with
      | .eq => s.duplicate k e
      | .gt => ({ s with purged := s.purged.insertFailedInsert (w.sha256 b) }, -1)
      | .lt => ({ s with purged := s.purged.insertReplaced e.valueHash }.set k (some (w.entry b)), 0)

def release (k : Key) : Crds :=
  match s.entries k with
  | none => s
  | some e => { s with purged := s.purged.insertReplaced e.valueHash }.set k none

def step : Op → Crds
  | .insert b => (s.insert w b).1
  | .release k => s.release k

def run (ops : List Op) : Crds := ops.foldl (step w) s

def stored (k : Key) : Option Bytes := (s.entries k).map (·.valueBytes)

end Crds

/-- The values of one key that are inserted, in their order and with repetitions. -/
def offered (k : Key) (ops : List Op) : List Bytes :=
  ops.filterMap fun
    | .insert b => if w.key b = k then some b else none
    | .release _ => none

/-- The order that decides which value stays. -/
def Wire.rank (b : Bytes) : Nat ×ₗ (Nat ×ₗ Hash) :=
  toLex (if (w.parse b).tag = .contactInfo then (w.parse b).outset else 0, toLex ((w.parse b).wallclock, w.sha256 b))

/-- No two of the values share a hash or the first bytes of the signature. -/
def Separate (vs : List Bytes) : Prop :=
  ∀ a ∈ vs, ∀ b ∈ vs, (w.sha256 a = w.sha256 b → a = b) ∧ (a.take 8 = b.take 8 → a = b)

instance (vs : List Bytes) : Decidable (Separate w vs) := inferInstanceAs (Decidable (∀ a ∈ vs, ∀ b ∈ vs, _))

end

section
variable {p q r : Purged} {h : Hash}

structure Keeps (p q : Purged) : Prop where
  le : p.evictedCnt ≤ q.evictedCnt
  mem : q.evictedCnt = p.evictedCnt → p.hashes ⊆ q.hashes

def Recorded (p : Purged) (h : Hash) : Prop := ∃ g ∈ p.hashes, hashPrefix g = hashPrefix h

lemma Keeps.refl : Keeps p p := ⟨le_rfl, fun _ => Subset.refl _⟩

lemma Keeps.trans (hf : Keeps p q) (hs : Keeps q r) : Keeps p r := by
  refine ⟨hf.le.trans hs.le, fun eq => ?_⟩
  have ho := hf.le
  have ht := hs.le
  exact fun _ m => hs.mem (by omega) (hf.mem (by omega) m)

lemma Keeps.recorded (hk : Keeps p q) (eq : q.evictedCnt = p.evictedCnt) (hr : Recorded p h) : Recorded q h := by
  obtain ⟨g, hm, hs⟩ := hr
  exact ⟨g, hk.mem eq hm, hs⟩

lemma acquireEle_keeps (p : Purged) : Keeps p p.acquireEle := by
  unfold Purged.acquireEle
  split
  · exact .refl
  · split <;> exact ⟨Nat.le_succ _, fun eq => absurd eq (Nat.succ_ne_self _)⟩

lemma query_recorded (hf : p.query h = true) : Recorded p h := by
  obtain ⟨g, hm, eq⟩ := any_eq_true.mp hf
  exact ⟨g, hm, of_decide_eq_true eq⟩

lemma push_spec {f : Purged → Purged} (hc : ∀ p, (f p).evictedCnt = p.evictedCnt)
    (hm : ∀ p g, g ∈ (f p).hashes ↔ g ∈ p.hashes ∨ g = h) (p : Purged) :
    Keeps p (if p.query h then p else f p.acquireEle) ∧ Recorded (if p.query h then p else f p.acquireEle) h := by
  split_ifs with hf
  · exact ⟨.refl, query_recorded hf⟩
  · refine ⟨(acquireEle_keeps p).trans ⟨(hc _).ge, fun _ g ho => (hm _ g).mpr (.inl ho)⟩, h, ?_, rfl⟩
    exact (hm _ h).mpr (.inr rfl)

lemma insertReplaced_spec (p : Purged) (h : Hash) : Keeps p (p.insertReplaced h) ∧ Recorded (p.insertReplaced h) h :=
  push_spec (f := fun q => { q with replaced := q.replaced ++ [h] }) (fun _ => rfl)
    (fun _ _ => by simp only [Purged.hashes, mem_append, mem_singleton]; tauto) p

lemma insertFailedInsert_spec (p : Purged) (h : Hash) :
    Keeps p (p.insertFailedInsert h) ∧ Recorded (p.insertFailedInsert h) h :=
  push_spec (f := fun q => { q with failedInserts := q.failedInserts ++ [h] }) (fun _ => rfl)
    (fun _ _ => by simp only [Purged.hashes, mem_append, mem_singleton]; tauto) p

end

section
variable {w : Wire} {s t : Crds} {k : Key} {e : Entry} {vs : List Bytes} {b c : Bytes} {n m : Nat} {ops : List Op}

lemma key_tag (eq : w.key c = w.key b) : (w.parse c).tag = (w.parse b).tag := by
  have ht (v : Value) : v.key.tag = v.tag := by
    unfold Value.key
    split <;> rfl
  have := congrArg Key.tag eq
  rwa [Wire.key, Wire.key, ht, ht] at this

lemma compare_rank (hk : w.key c = w.key b) (n : Nat) :
    match (crdsCompare { w.entry c with numDuplicates := n } (w.parse b)).then (compare (w.sha256 c) (w.sha256 b)) with
    | .lt => w.rank c < w.rank b
    | .eq => w.sha256 c = w.sha256 b
    | .gt => w.rank b < w.rank c := by
  simp only [Wire.rank, Wire.entry, crdsCompare, key_tag hk, Prod.Lex.toLex_lt_toLex]
  split
  · rename_i lt
    simp only [Ordering.then_eq_lt, Ordering.then_eq_eq, Nat.compare_eq_lt, Nat.compare_eq_eq] at lt
    split_ifs at lt ⊢ <;> grind
  · rename_i eq
    simp only [Ordering.then_eq_eq, Nat.compare_eq_eq] at eq
    exact eq.2
  · rename_i gt
    simp only [Ordering.then_eq_gt, Ordering.then_eq_eq, Nat.compare_eq_gt, Nat.compare_eq_eq] at gt
    split_ifs at gt ⊢ <;> grind

structure Holds (w : Wire) (s : Crds) (k : Key) (vs : List Bytes) (n : Nat) (e : Entry) : Prop where
  eq : e = { w.entry e.valueBytes with numDuplicates := e.numDuplicates }
  key : w.key e.valueBytes = k
  count : e.numDuplicates < vs.length
  mem : e.valueBytes ∈ vs
  best : ∀ b ∈ vs, w.rank b ≤ w.rank e.valueBytes
  recorded : s.purged.evictedCnt = n → ∀ b ∈ vs, b ≠ e.valueBytes → Recorded s.purged (w.sha256 b)

structure Tracks (w : Wire) (s : Crds) (k : Key) (vs : List Bytes) (n : Nat) : Prop where
  grown : n ≤ s.purged.evictedCnt
  empty : s.entries k = none → vs = []
  held : ∀ e, s.entries k = some e → Holds w s k vs n e

lemma Tracks.recorded (ht : Tracks w s k vs n) (hf : s.entries k = some e) (hk : Keeps s.purged t.purged)
    (eq : t.purged.evictedCnt = n) (hm : b ∈ vs) (ne : b ≠ e.valueBytes) : Recorded t.purged (w.sha256 b) := by
  have le := hk.le
  have ge := ht.grown
  exact hk.recorded (by omega) ((ht.held e hf).recorded (by omega) b hm ne)

lemma Tracks.frame (ht : Tracks w s k vs n) (hs : t.entries k = s.entries k)
    (hk : Keeps s.purged t.purged) : Tracks w t k vs n := by
  refine ⟨ht.grown.trans hk.le, hs ▸ ht.empty, fun e hf => ?_⟩
  have hf : s.entries k = some e := hs ▸ hf
  exact { ht.held e hf with recorded := fun eq b hm ne => ht.recorded hf hk eq hm ne }

lemma insert_cases (ht : Tracks w s k vs n) (he : Separate w (vs ++ [b])) (hk : w.key b = k) :
    s.entries k = none ∧ s.insert w b = (s.set k (some (w.entry b)), 0) ∨
    ∃ e, s.entries k = some e ∧
      (e.valueBytes = b ∧ s.insert w b = s.duplicate k e ∨
      w.rank b < w.rank e.valueBytes ∧
        s.insert w b = ({ s with purged := s.purged.insertFailedInsert (w.sha256 b) }, -1) ∨
      w.rank e.valueBytes < w.rank b ∧ s.insert w b =
        ({ s with purged := s.purged.insertReplaced (w.sha256 e.valueBytes) }.set k (some (w.entry b)), 0)) := by
  subst hk
  unfold Crds.insert
  dsimp only
  cases hf : s.entries (w.key b) with
  | none => exact .inl ⟨rfl, rfl⟩
  | some e =>
    have hh := ht.held e hf
    have he := he e.valueBytes (mem_append_left _ hh.mem) b (mem_append_right _ mem_cons_self)
    have ha : e.valueHash = w.sha256 e.valueBytes := congrArg Entry.valueHash hh.eq
    refine .inr ⟨e, rfl, ?_⟩
    dsimp only
    split_ifs with hs
    · exact .inl ⟨he.2 hs, rfl⟩
    · have ho := compare_rank hh.key e.numDuplicates
      rw [← hh.eq, ← ha] at ho
      split at ho <;> rename_i eq <;> rw [eq]
      · exact .inr (.inr ⟨ho, by rw [ha]⟩)
      · exact .inl ⟨he.1 (ha ▸ ho), rfl⟩
      · exact .inr (.inl ⟨ho, rfl⟩)

@[simp] theorem set_self (s : Crds) (k : Key) (e : Option Entry) : (s.set k e).entries k = e := Function.update_self ..

lemma set_ne (s : Crds) {j : Key} (e : Option Entry) (ne : j ≠ k) : (s.set j e).entries k = s.entries k :=
  Function.update_of_ne ne.symm ..

lemma Tracks.next (ht : Tracks w s k vs n) (hf : s.entries k = some e) (hk : Keeps s.purged t.purged)
    (ho : t.entries k = some { w.entry c with numDuplicates := m }) (he : w.key c = k) (hc : m ≤ vs.length)
    (hm : c = b ∨ c = e.valueBytes) (hw : w.rank b ≤ w.rank c) (hd : w.rank e.valueBytes ≤ w.rank c)
    (hr : ∀ a, a = b ∨ a = e.valueBytes → a ≠ c → Recorded t.purged (w.sha256 a)) : Tracks w t k (vs ++ [b]) n := by
  have hh := ht.held e hf
  refine ⟨ht.grown.trans hk.le, fun hn => by simp [hn] at ho, fun e' eq => ?_⟩
  cases ho.symm.trans eq
  refine ⟨rfl, he, by simpa using Nat.lt_succ_of_le hc, ?_, ?_, ?_⟩
  · rcases hm with rfl | rfl
    · exact mem_append_right _ mem_cons_self
    · exact mem_append_left _ hh.mem
  · intro a hm
    rcases mem_append.mp hm with hm | hm
    · exact (hh.best a hm).trans hd
    · exact mem_singleton.mp hm ▸ hw
  · intro eq a hm ne
    by_cases hl : a = b ∨ a = e.valueBytes
    · exact hr a hl ne
    · have hm := (mem_append.mp hm).resolve_right fun hm => hl (.inl (mem_singleton.mp hm))
      exact ht.recorded hf hk eq hm fun eq => hl (.inr eq)

lemma Tracks.insert (ht : Tracks w s k vs n) (hs : Separate w (vs ++ [b])) (he : w.key b = k) :
    Tracks w (s.insert w b).1 k (vs ++ [b]) n := by
  rcases insert_cases ht hs he with ⟨hn, eq⟩ | ⟨e, hf, ⟨rfl, eq⟩ | ⟨hl, eq⟩ | ⟨hm, eq⟩⟩ <;> rw [eq]
  · refine ⟨ht.grown, by simp, fun e hf => ?_⟩
    rw [set_self] at hf
    cases hf
    rw [ht.empty hn]
    exact ⟨rfl, he, Nat.one_pos, mem_cons_self, by simp [Wire.entry], by simp [Wire.entry]⟩
  · have hh := ht.held e hf
    refine ht.next (m := (e.numDuplicates + 1) % 2 ^ 64) hf .refl ((set_self ..).trans ?_) he ?_ (.inl rfl) le_rfl
      le_rfl ?_
    · exact congrArg (fun d : Entry => some { d with numDuplicates := (e.numDuplicates + 1) % 2 ^ 64 }) hh.eq
    · exact (Nat.mod_le _ _).trans hh.count
    · rintro a (rfl | rfl) ne <;> exact absurd rfl ne
  · have hh := ht.held e hf
    obtain ⟨hk, hr⟩ := insertFailedInsert_spec s.purged (w.sha256 b)
    refine ht.next hf hk (hf.trans (congrArg some hh.eq)) hh.key hh.count.le (.inr rfl) hl.le
      le_rfl ?_
    rintro a (rfl | rfl) ne
    · exact hr
    · exact absurd rfl ne
  · obtain ⟨hk, hr⟩ := insertReplaced_spec s.purged (w.sha256 e.valueBytes)
    refine ht.next hf hk (set_self ..) he (Nat.zero_le _) (.inl rfl) le_rfl hm.le ?_
    rintro a (rfl | rfl) ne
    · exact absurd rfl ne
    · exact hr

lemma insert_frame (ne : w.key b ≠ k) :
    (s.insert w b).1.entries k = s.entries k ∧ Keeps s.purged (s.insert w b).1.purged := by
  unfold Crds.insert
  dsimp only
  split
  · exact ⟨set_ne _ _ ne, .refl⟩
  · split
    · exact ⟨set_ne _ _ ne, .refl⟩
    · split
      · exact ⟨set_ne _ _ ne, .refl⟩
      · exact ⟨rfl, (insertFailedInsert_spec ..).1⟩
      · exact ⟨set_ne _ _ ne, (insertReplaced_spec ..).1⟩

lemma release_frame {j : Key} (ne : j ≠ k) :
    (s.release j).entries k = s.entries k ∧ Keeps s.purged (s.release j).purged := by
  unfold Crds.release
  split
  · exact ⟨rfl, .refl⟩
  · exact ⟨set_ne _ _ ne, (insertReplaced_spec ..).1⟩

lemma Separate.left {rest : List Bytes} (he : Separate w (vs ++ rest)) : Separate w vs :=
  fun a hf b hs => he a (mem_append_left _ hf) b (mem_append_left _ hs)

lemma run_tracks (hn : s.entries k = none) (hk : .release k ∉ ops) (hs : Separate w (offered w k ops)) :
    Tracks w (s.run w ops) k (offered w k ops) s.purged.evictedCnt := by
  induction ops using List.reverseRecOn with
  | nil => exact ⟨le_rfl, fun _ => rfl, fun e hf => nomatch hn.symm.trans hf⟩
  | append_singleton ops op ih =>
    have he : .release k ∉ ops := fun hm => hk (mem_append_left _ hm)
    rw [Crds.run, foldl_append]
    cases op with
    | insert b =>
      by_cases hy : w.key b = k
      · have hl : offered w k (ops ++ [.insert b]) = offered w k ops ++ [b] := by simp [offered, hy]
        rw [hl] at hs ⊢
        exact (ih he hs.left).insert hs hy
      · have hl : offered w k (ops ++ [.insert b]) = offered w k ops := by simp [offered, hy]
        rw [hl] at hs ⊢
        exact (ih he hs).frame (insert_frame hy).1 (insert_frame hy).2
    | release j =>
      have ne : j ≠ k := fun eq => hk (eq ▸ mem_append_right _ mem_cons_self)
      have hl : offered w k (ops ++ [.release j]) = offered w k ops := by simp [offered]
      rw [hl] at hs ⊢
      exact (ih he hs).frame (release_frame ne).1 (release_frame ne).2

lemma insert_answer (ht : Tracks w s k vs n) (hs : Separate w (vs ++ [b])) (hk : w.key b = k)
    (he : vs.length < 2 ^ 63) :
    ((s.insert w b).2 = 0 ↔ (s.insert w b).1.stored k ≠ s.stored k) ∧
    (0 < (s.insert w b).2 ↔ s.stored k = some b) ∧
    ((s.insert w b).2 = 0 ∨ 0 < (s.insert w b).2 ∨ (s.insert w b).2 = -1) := by
  rcases insert_cases ht hs hk with ⟨hn, eq⟩ | ⟨e, hf, ⟨rfl, eq⟩ | ⟨hl, eq⟩ | ⟨hm, eq⟩⟩ <;> rw [eq]
  · simp [Crds.stored, hn]
  · have hc := (ht.held e hf).count
    have hp : 0 < toLong ((e.numDuplicates + 1) % 2 ^ 64) := by
      rw [Nat.mod_eq_of_lt (by omega), toLong, if_pos (by omega)]
      omega
    unfold Crds.duplicate
    dsimp only
    generalize toLong ((e.numDuplicates + 1) % 2 ^ 64) = r at hp
    simp [Crds.stored, hf, hp, hp.ne']
  · have ne : e.valueBytes ≠ b := fun eq => hl.ne (eq ▸ rfl)
    simp [Crds.stored, hf, ne]
  · have ne : e.valueBytes ≠ b := fun eq => hm.ne (eq ▸ rfl)
    simp [Crds.stored, hf, ne, Wire.entry, ne.symm]

lemma stored_iff (ht : Tracks w s k vs n) (hs : Separate w vs) (m : Bytes) :
    s.stored k = some m ↔ m ∈ vs ∧ ∀ b ∈ vs, w.rank b ≤ w.rank m := by
  unfold Crds.stored
  cases hf : s.entries k with
  | none => simp [ht.empty hf]
  | some e =>
    have hh := ht.held e hf
    constructor
    · rintro ⟨⟩
      exact ⟨hh.mem, hh.best⟩
    · rintro ⟨hm, hb⟩
      have eq : w.rank e.valueBytes = w.rank m := le_antisymm (hb _ hh.mem) (hh.best m hm)
      exact congrArg some ((hs _ hh.mem m hm).1 (congrArg (fun r => (ofLex (ofLex r).2).2) eq))

end

/-- The value that stays for a key that is never released is the greatest one that was offered, in
any order and with any repetitions. The answer of an insertion says what it did, and every other
value leaves a hash with its first eight bytes in the purged set. -/
theorem replicas_converge (w : Wire) (s : Crds) (k : Key) (ops : List Op) (new : s.entries k = none)
    (hk : .release k ∉ ops) (sep : Separate w (offered w k ops)) :
    ((s.run w ops).stored k = none → offered w k ops = []) ∧
    (∀ m, (s.run w ops).stored k = some m ↔
      m ∈ offered w k ops ∧ ∀ b ∈ offered w k ops, w.rank b ≤ w.rank m) ∧
    (∀ (s' : Crds) (ops' : List Op), s'.entries k = none → .release k ∉ ops' →
      (∀ b, b ∈ offered w k ops' ↔ b ∈ offered w k ops) → (s'.run w ops').stored k = (s.run w ops).stored k) ∧
    (∀ past b rest, ops = past ++ .insert b :: rest → w.key b = k → (offered w k ops).length ≤ 2 ^ 63 →
      let t := s.run w past
      let r := t.insert w b
      (r.2 = 0 ↔ r.1.stored k ≠ t.stored k) ∧ (0 < r.2 ↔ t.stored k = some b) ∧ (r.2 = 0 ∨ 0 < r.2 ∨ r.2 = -1)) ∧
    ((s.run w ops).purged.evictedCnt = s.purged.evictedCnt → ∀ b ∈ offered w k ops, (s.run w ops).stored k ≠ some b →
      ∃ h ∈ (s.run w ops).purged.hashes, hashPrefix h = hashPrefix (w.sha256 b)) := by
  have tracks := run_tracks new hk sep
  refine ⟨fun none => tracks.empty (Option.map_eq_none_iff.mp none), stored_iff tracks sep, ?_, ?_, ?_⟩
  · intro s' ops' new' kept' same
    have sep' : Separate w (offered w k ops') := fun a first b second => sep a ((same a).mp first) b ((same b).mp second)
    refine Option.ext fun m => ?_
    rw [stored_iff (run_tracks new' kept' sep') sep', stored_iff tracks sep]
    simp only [same]
  · rintro past b rest rfl key few
    have split : offered w k (past ++ .insert b :: rest) = offered w k past ++ [b] ++ offered w k rest := by
      simp [offered, key]
    rw [split] at sep few
    have past := run_tracks new (fun mem => hk (mem_append_left _ mem)) sep.left.left
    refine insert_answer past sep.left key ?_
    rw [length_append, length_append] at few
    exact Nat.lt_of_lt_of_le (Nat.lt_succ_self _) (Nat.le_trans (Nat.le_add_right ..) few)
  · intro calm b mem other
    cases found : (s.run w ops).entries k with
    | none => exact absurd (tracks.empty found ▸ mem) not_mem_nil
    | some e =>
      refine tracks.recorded found .refl calm mem fun eq => other ?_
      rw [eq, Crds.stored, found]
      rfl

def someWire : Wire := ⟨fun b => (b.headD 0).toNat, fun b => ⟨.other 2, 0, 0, 0, (b.headD 0).toNat⟩⟩

def emptyCrds : Crds := ⟨fun _ => none, ⟨9, [], [], [], 0⟩⟩

theorem second_value_stays :
    (emptyCrds.run someWire [.insert [1, 5], .insert [2, 0, 7], .insert [1, 5]]).stored ⟨.other 2, 0, 0⟩ = some [2, 0, 7] := by
  have all := replicas_converge someWire emptyCrds ⟨.other 2, 0, 0⟩
    [.insert [1, 5], .insert [2, 0, 7], .insert [1, 5]] rfl nofun
  rw [(all (by decide)).2.1]
  decide

lemma insert_repeated {s : Crds} {n : Nat}
    (held : s.entries ⟨.other 2, 0, 0⟩ = some { someWire.entry [1] with numDuplicates := n }) :
    s.insert someWire [1] = s.duplicate ⟨.other 2, 0, 0⟩ { someWire.entry [1] with numDuplicates := n } := by
  have key : someWire.key [1] = ⟨.other 2, 0, 0⟩ := rfl
  rw [Crds.insert, key]
  simp only [held]
  exact if_pos rfl

lemma run_repeated {n : Nat} (lt : n < 2 ^ 64) :
    (emptyCrds.run someWire (replicate (n + 1) (.insert [1]))).entries ⟨.other 2, 0, 0⟩ =
      some { someWire.entry [1] with numDuplicates := n } := by
  induction n with
  | zero => rfl
  | succ n ih =>
    have held := ih (Nat.lt_of_succ_lt lt)
    rw [Crds.run] at held
    rw [replicate_succ', Crds.run, foldl_append, foldl_cons, foldl_nil]
    rw [Crds.step, insert_repeated held, Crds.duplicate, Nat.mod_eq_of_lt lt]
    exact set_self ..

lemma answer_repeated {n : Nat} (lt : n < 2 ^ 64) : let t := emptyCrds.run someWire (replicate (n + 1) (.insert [1]))
    t.stored ⟨.other 2, 0, 0⟩ = some [1] ∧ (t.insert someWire [1]).2 = toLong ((n + 1) % 2 ^ 64) := by
  intro t
  have held := run_repeated lt
  refine ⟨?_, ?_⟩
  · rw [Crds.stored, held]
    rfl
  · rw [insert_repeated held]
    rfl

/-- The second of two values with the same first bytes of the hash is not recorded, and the number of
times that a value came again turns negative. -/
theorem hash_not_recorded : (let ops : List Op := [.insert [1], .insert [2], .insert [3]]
    let t := emptyCrds.run someWire ops
    Separate someWire (offered someWire ⟨.other 2, 0, 0⟩ ops) ∧ t.purged.evictedCnt = 0 ∧
    t.stored ⟨.other 2, 0, 0⟩ = some [3] ∧ t.purged.hashes = [1] ∧ someWire.sha256 [2] = 2) ∧
    ∃ n, let t := emptyCrds.run someWire (replicate n (.insert [1]))
      t.stored ⟨.other 2, 0, 0⟩ = some [1] ∧ (t.insert someWire [1]).2 < -1 := by
  obtain ⟨stored, answer⟩ := @answer_repeated (2 ^ 63 - 1) (by decide)
  exact ⟨by decide, _, stored, answer ▸ by decide⟩

end Firebam.Gossip
