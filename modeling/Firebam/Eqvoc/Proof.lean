import Firebam.Lib.Bytes

/-! Two shreds that cannot both be of one block: how they are noticed, and the proof of it that
is cut into chunks, sent to the peers and checked by them. -/
namespace Firebam.Equivocation
open Lib List Function

structure Shred where
  bytes : List UInt8
deriving DecidableEq

inductive Code
  | success | ignored
  | errSerde | errSlot | errVersion | errType | errMerkle | errSig
  | errChunkCnt | errChunkIdx | errChunkLen | errChunkFrom | errChunkSlot
deriving DecidableEq

namespace Shred
variable (s : Shred)

def mem : Mem := .ofList s.bytes
def variant : Nat := s.mem.byte 0x40
def slot : Nat := s.mem.load 0x41 8
def idx : Nat := s.mem.load 0x49 4
def version : Nat := s.mem.load 0x4d 2
def fecSetIdx : Nat := s.mem.load 0x4f 4
def parentOff : Nat := s.mem.load 0x53 2
def flags : Nat := s.mem.byte 0x55
def size : Nat := s.mem.load 0x56 2
def dataCnt : Nat := s.mem.load 0x53 2
def codeCnt : Nat := s.mem.load 0x55 2
def codeIdx : Nat := s.mem.load 0x57 2
def signature : List UInt8 := s.bytes.take 64

def type : Nat := s.variant &&& 0xf0
def isData : Bool := s.type &&& 0xC0 = 0x80
def isChained : Bool := s.type = 0x90 ∨ s.type = 0x60 ∨ s.type = 0xB0 ∨ s.type = 0x70
def isResigned : Bool := s.type = 0xB0 ∨ s.type = 0x70
def merkleCnt : Nat := if s.type = 0xA0 ∨ s.type = 0x50 then 0 else s.variant &&& 0xf
def sz : Nat := if s.type &&& 0x40 ≠ 0 then 1228 else if s.type = 0xA0 then s.size else 1203
def slotComplete : Bool := s.flags &&& 0x80 ≠ 0
def isLastShred : Bool := s.isData && s.slotComplete

def blkMax : Nat := 32768

/-- fd_shred_parse, with this bound on the indices. Only legacy data shreds may be shorter than 1203. -/
def parse : Bool :=
  let sz := s.bytes.length
  let trailerSz := 20 * s.merkleCnt + (if s.isResigned then 64 else 0) + (if s.isChained then 32 else 0)
  let effectiveSz := if s.type = 0xA0 then sz else 1203
  0x58 ≤ sz ∧ (s.type ∈ [0x80, 0x40, 0x90, 0x60, 0xB0, 0x70] ∨ s.variant = 0xa5 ∨ s.variant = 0x5a) ∧
  if s.type &&& 0x80 ≠ 0 then
    0x58 ≤ s.size ∧ effectiveSz ≤ sz ∧ s.size + trailerSz ≤ effectiveSz ∧ s.flags &&& 0xC0 ≠ 0x80 ∧
    s.parentOff ≤ s.slot ∧ ¬(s.slot ≠ 0 ∧ s.parentOff = 0) ∧ ¬(1 < s.slot ∧ s.parentOff = s.slot) ∧
    s.fecSetIdx ≤ s.idx ∧ s.idx < blkMax
  else
    s.type &&& 0x40 ≠ 0 ∧ 0x59 + trailerSz ≤ 1228 ∧ 1228 ≤ sz ∧ s.codeIdx < s.codeCnt ∧ s.codeIdx ≤ s.idx ∧
    s.dataCnt ≠ 0 ∧ s.codeCnt ≠ 0 ∧ s.codeCnt ≤ 256 ∧ s.dataCnt + s.codeCnt ≤ 256 ∧ s.idx < blkMax ∧
    s.fecSetIdx + s.dataCnt - 1 < blkMax ∧ s.idx - s.codeIdx + s.codeCnt - 1 < blkMax

end Shred

abbrev Hash := List UInt8

/-- What other components decide: the root that the Merkle proof of a shred leads to, the schedule of
the leaders (which may be missing) and their signatures. -/
structure Env (Pubkey : Type) where
  commitpInsertWithProof : Shred → Option Hash
  leaderSchedule : Option (Nat → Option Pubkey)
  verify : Hash → List UInt8 → Pubkey → Bool
  shredVersion : Nat

variable {Pubkey : Type} (env : Env Pubkey)

/-- fd_shred_merkle_root: the proof has six nodes. -/
def merkleRoot (shred : Shred) : Option Hash := if shred.merkleCnt ≠ 6 then none else env.commitpInsertWithProof shred

def sigverify (shred1 shred2 : Shred) (mr1 mr2 : Hash) : Bool :=
  match env.leaderSchedule with
  | none => true
  | some schedule =>
    match schedule shred1.slot with
    | none => false
    | some leader => env.verify mr1 shred1.signature leader && env.verify mr2 shred2.signature leader

/-- One of two data shreds is the last one of the slot, and the other one is behind it. -/
def lastConflict (shred1 shred2 : Shred) : Bool :=
  shred1.isData && shred2.isData &&
    (shred1.slotComplete && shred2.idx > shred1.idx || shred2.slotComplete && shred1.idx > shred2.idx)

def verifyProof (shred1 shred2 : Shred) : Code :=
  if shred1.slot ≠ shred2.slot then .errSlot
  else if shred1.version ≠ env.shredVersion then .errVersion
  else if shred2.version ≠ env.shredVersion then .errVersion
  else if !shred1.isChained then .errType
  else if !shred2.isChained then .errType
  else
    match merkleRoot env shred1, merkleRoot env shred2 with
    | some mr1, some mr2 =>
      if !sigverify env shred1 shred2 mr1 mr2 then .errSig
      else if lastConflict shred1 shred2 then .success
      else if shred1.fecSetIdx = shred2.fecSetIdx ∧ mr1 ≠ mr2 then .success
      else .ignored
    | _, _ => .errMerkle

structure Chunk where
  slot : Nat
  numChunks : Nat
  chunkIndex : Nat
  chunk : List UInt8

def chunkSz : Nat := 1054

def store (n : Nat) : List UInt8 := (range 8).map fun i => UInt8.ofNat (n / 256 ^ i)

def constructProof (shred1 shred2 : Shred) : Fin 3 → Chunk :=
  let shred1Rem := (shred1.bytes.take shred1.sz).drop (chunkSz - 8)
  let chunk1Rem := chunkSz - (shred1Rem.length + 8)
  fun
  | 0 => ⟨shred1.slot, 3, 0, store shred1.sz ++ shred1.bytes.take (chunkSz - 8)⟩
  | 1 => ⟨shred1.slot, 3, 1, shred1Rem ++ store shred2.sz ++ shred2.bytes.take chunk1Rem⟩
  | 2 => ⟨shred1.slot, 3, 2, (shred2.bytes.take shred2.sz).drop chunk1Rem⟩

structure Prf where
  slot : Nat
  part : Fin 3 → Option (List UInt8)

structure Eqvoc (Pubkey : Type) where
  dupMax : Nat
  fecMax : Nat
  perVtrMax : Nat
  dup : List Nat
  fec : List (Nat × Shred)
  vtr : Pubkey → Option (List Prf)

def key (slot fecSetIdx : Nat) : Nat := (slot <<< 32 ||| fecSetIdx) % 2 ^ 64

def slotKey : Nat := 2 ^ 32 - 1

namespace Eqvoc
variable (e : Eqvoc Pubkey)

def dupQuery (slot : Nat) : Bool × Eqvoc Pubkey :=
  if slot ∈ e.dup then (true, { e with dup := e.dup.erase slot ++ [slot] }) else (false, e)

def dupInsert (slot : Nat) : Eqvoc Pubkey :=
  { e with dup := (if e.dup.length < e.dupMax then e.dup else e.dup.tail) ++ [slot] }

def fecQuery (slot fecSetIdx : Nat) : Option Shred × Eqvoc Pubkey :=
  match e.fec.find? (·.1 = key slot fecSetIdx) with
  | some x => (some x.2, { e with fec := e.fec.filter (·.1 ≠ key slot fecSetIdx) ++ [x] })
  | none => (none, e)

def fecInsert (fecSetIdx : Nat) (shred : Shred) : Eqvoc Pubkey :=
  { e with
    fec := (if e.fec.length < e.fecMax then e.fec else e.fec.tail) ++ [(key shred.slot fecSetIdx, shred)] }

def sampleFec (shred : Shred) : Eqvoc Pubkey :=
  match e.fecQuery shred.slot shred.fecSetIdx with
  | (some _, e) => e
  | (none, e) => e.fecInsert shred.fecSetIdx shred

def resample (shred : Shred) : Eqvoc Pubkey :=
  { e with fec := e.fec.map fun x => if x.1 = key shred.slot slotKey then (x.1, shred) else x }

def shredInsert (shredHint : Bool) (shred : Shred) : Option (Shred × Shred) × Eqvoc Pubkey :=
  match e.dupQuery shred.slot with
  | (true, e) => (none, e)
  | (false, e) =>
    if shredHint then
      match e.fecQuery shred.slot shred.fecSetIdx with
      | (none, e) => (none, e)
      | (some sample, e) =>
        let e := e.dupInsert shred.slot
        (some (sample, shred), { e with fec := e.fec.filter (·.1 ≠ key shred.slot shred.fecSetIdx) })
    else
      match e.fecQuery shred.slot slotKey with
      | (none, e) => (none, (e.fecInsert slotKey shred).sampleFec shred)
      | (some last, e) =>
        if (shred.isLastShred ∧ shred.idx < last.idx) ∨ (last.isLastShred ∧ shred.idx > last.idx) then
          (some (shred, last), e.dupInsert shred.slot)
        else if shred.idx > last.idx then (none, (e.resample shred).sampleFec shred)
        else (none, e.sampleFec shred)

def insertAll : List Shred → Eqvoc Pubkey := foldl (fun e shred => (e.shredInsert false shred).2) e

end Eqvoc

def readProof (slot : Nat) (buf : List UInt8) : Code :=
  let shred1Sz := (Mem.ofList buf).load 0 8
  let shred1 : Shred := ⟨(buf.drop 8).take shred1Sz⟩
  let shred2Sz := (Mem.ofList buf).load (8 + shred1Sz) 8
  let shred2 : Shred := ⟨(buf.drop (16 + shred1Sz)).take shred2Sz⟩
  if buf.length < 8 ∨ buf.length - 8 < shred1Sz ∨ ¬shred1.parse ∨ shred1.sz ≠ shred1Sz ∨
      buf.length - (8 + shred1Sz) < 8 ∨ buf.length - (16 + shred1Sz) < shred2Sz ∨ ¬shred2.parse ∨
      shred2.sz ≠ shred2Sz ∨ 16 + shred1Sz + shred2Sz ≠ buf.length ∨ shred1.slot ≠ slot ∨ shred2.slot ≠ slot then
    .errSerde
  else verifyProof env shred1 shred2

def Chunk.lenOk (c : Chunk) : Bool :=
  if c.chunkIndex < 2 then c.chunk.length = chunkSz
  else c.chunk.length = 2 * 8 + 2 * 1228 - 2 * chunkSz ∨ c.chunk.length = 2 * 8 + 2 * 1203 - 2 * chunkSz ∨
    c.chunk.length = 2 * 8 + 1203 + 1228 - 2 * chunkSz

def otherPrfs (perVtrMax slot : Nat) (prfs : List Prf) : List Prf :=
  match prfs.find? (·.slot = slot) with
  | some _ => prfs.filter (·.slot ≠ slot)
  | none => if prfs.length = perVtrMax then prfs.tail else prfs

def Eqvoc.chunkInsert [DecidableEq Pubkey] (e : Eqvoc Pubkey) (root : Nat) (sender : Pubkey) (c : Chunk) : Code × Eqvoc Pubkey :=
  if c.slot ≤ root then (.errChunkSlot, e)
  else match e.vtr sender with
  | none => (.errChunkFrom, e)
  | some prfs =>
    if c.numChunks ≠ 3 then (.errChunkCnt, e)
    else if inside : c.chunkIndex < 3 then
      if !c.lenOk then (.errChunkLen, e)
      else match e.dupQuery c.slot with
      | (true, e) => (.ignored, e)
      | (false, e) =>
        let others := otherPrfs e.perVtrMax c.slot prfs
        let prf := (prfs.find? (·.slot = c.slot)).getD ⟨c.slot, fun _ => none⟩
        if (prf.part ⟨c.chunkIndex, inside⟩).isSome then
          (.ignored, { e with vtr := update e.vtr sender (some (others ++ [prf])) })
        else
          let part := update prf.part ⟨c.chunkIndex, inside⟩ (some c.chunk)
          match part 0, part 1, part 2 with
          | some a, some b, some d =>
            let err := readProof env c.slot (a ++ b ++ d)
            let e := if err = .success then e.dupInsert c.slot else e
            (err, { e with vtr := update e.vtr sender (some others) })
          | _, _, _ => (.ignored, { e with vtr := update e.vtr sender (some (others ++ [⟨c.slot, part⟩])) })
    else (.errChunkIdx, e)

/-- A shred that a peer can use: it parses, is chained, has a root and the signature of its leader, and
is of the version of the peer and a slot that its key has room for. -/
structure Fit (s : Shred) : Prop where
  parsed : s.parse = true
  whole : s.bytes.length = s.sz
  low : s.slot < 2 ^ 32
  version : s.version = env.shredVersion
  chained : s.isChained = true
  signed : ∃ mr, merkleRoot env s = some mr ∧ ∀ schedule, env.leaderSchedule = some schedule →
    ∃ leader, schedule s.slot = some leader ∧ env.verify mr s.signature leader = true

variable {env} {e e' : Eqvoc Pubkey} {s a b shred : Shred} {slot i : Nat} {p : Shred × Shred}

lemma Fit.sz (hf : Fit env s) (data : s.isData = true) : s.sz = 1203 := by
  have hd := of_decide_eq_true data
  rcases of_decide_eq_true hf.chained with ht | ht | ht | ht <;> rw [ht] at hd <;>
    simp_all [Shred.sz]

lemma Fit.length (hf : Fit env s) (data : s.isData = true) : s.bytes.length = 1203 := hf.whole.trans (hf.sz data)

lemma fecSetIdx_lt (s : Shred) : s.fecSetIdx < 2 ^ 32 :=
  Mem.load_lt _ _ 4

lemma key_div (hl : slot < 2 ^ 32) (hs : i < 2 ^ 32) : key slot i / 2 ^ 32 = slot := by
  rw [key, ← Nat.shiftLeft_add_eq_or_of_lt hs, Nat.shiftLeft_eq]
  omega

def Sampled (env : Env Pubkey) (e : Eqvoc Pubkey) : Prop := ∀ x ∈ e.fec, x.1 / 2 ^ 32 = x.2.slot ∧ Fit env x.2

namespace Sampled
variable (hd : Sampled env e)
include hd

lemma fecQuery : Sampled env (e.fecQuery slot i).2 := by
  unfold Eqvoc.fecQuery
  split
  · rename_i x hf
    intro y hm
    rcases mem_append.mp hm with m | hl
    · exact hd y (mem_filter.mp m).1
    · exact mem_singleton.mp hl ▸ hd x (mem_of_find?_eq_some hf)
  · exact hd

lemma sample (hl : slot < 2 ^ 32) (hh : i < 2 ^ 32) (hf : (e.fecQuery slot i).1 = some s) :
    s.slot = slot ∧ Fit env s := by
  unfold Eqvoc.fecQuery at hf
  split at hf
  · rename_i x hi
    cases hf
    obtain ⟨hn, ht⟩ := hd x (mem_of_find?_eq_some hi)
    have hs : x.1 = key slot i := by simpa using find?_some hi
    rw [hs, key_div hl hh] at hn
    exact ⟨hn.symm, ht⟩
  · cases hf

variable (fit : Fit env shred)
include fit

lemma fecInsert (hs : i < 2 ^ 32) : Sampled env (e.fecInsert i shred) := by
  intro y hm
  rcases mem_append.mp hm with m | hl
  · split at m
    · exact hd y m
    · exact hd y (mem_of_mem_tail m)
  · rw [mem_singleton.mp hl]
    exact ⟨key_div fit.low hs, fit⟩

lemma sampleFec : Sampled env (e.sampleFec shred) := by
  have hq : Sampled env (e.fecQuery shred.slot shred.fecSetIdx).2 := hd.fecQuery
  unfold Eqvoc.sampleFec
  split
  · rename_i eq
    rwa [eq] at hq
  · rename_i eq
    rw [eq] at hq
    exact hq.fecInsert fit (fecSetIdx_lt shred)

lemma resample : Sampled env (e.resample shred) := by
  intro y hm
  obtain ⟨x, m, rfl⟩ := mem_map.mp hm
  split_ifs with hs
  · exact ⟨(congrArg (· / 2 ^ 32) hs).trans (key_div fit.low (by decide)), fit⟩
  · exact hd x m

lemma shredInsert : Sampled env (e.shredInsert false shred).2 ∧ ∀ p, (e.shredInsert false shred).1 = some p →
    Fit env p.1 ∧ Fit env p.2 ∧ p.1.slot = p.2.slot ∧ lastConflict p.1 p.2 = (p.1.isData && p.2.isData) := by
  have ha : Sampled env (e.dupQuery shred.slot).2 := by
    unfold Eqvoc.dupQuery
    split <;> exact hd
  unfold Eqvoc.shredInsert
  split
  · rename_i eq
    rw [eq] at ha
    exact ⟨ha, nofun⟩
  · rename_i e₁ eq
    rw [eq] at ha
    have hq : Sampled env (e₁.fecQuery shred.slot slotKey).2 := ha.fecQuery
    have he := fun s => ha.sample (s := s) fit.low (i := slotKey) (by decide)
    rw [if_neg Bool.false_ne_true]
    split
    · rename_i e₂ eq
      rw [eq] at hq
      exact ⟨(hq.fecInsert fit (by decide)).sampleFec fit, nofun⟩
    · rename_i last e₂ eq
      rw [eq] at hq he
      obtain ⟨hs, hk⟩ := he last rfl
      split
      · rename_i hc
        refine ⟨hq, fun p hf => ?_⟩
        cases hf
        refine ⟨fit, hk, hs.symm, ?_⟩
        unfold lastConflict Shred.isLastShred at *
        cases first : shred.isData <;> cases second : last.isData <;> simp [first, second] at hc ⊢
        exact hc
      · split
        · exact ⟨(hq.resample fit).sampleFec fit, nofun⟩
        · exact ⟨hq.sampleFec fit, nofun⟩

omit fit in
lemma insertAll (seen : List Shred) (hf : ∀ s ∈ seen, Fit env s) : Sampled env (e.insertAll seen) := by
  induction seen generalizing e with
  | nil => exact hd
  | cons s rest ih =>
    exact ih (hd.shredInsert (hf s (.head _))).1 fun x hm => hf x (.tail _ hm)

end Sampled

section
variable (hr : Fit env a) (he : Fit env b) (da : a.isData = true) (db : b.isData = true)
include hr he da db

end

section
variable [DecidableEq Pubkey] {root : Nat} {sender : Pubkey} {part : Fin 3 → Option (List UInt8)} {c : Chunk}

/-- A peer knows the sender, and has these parts of the proof of the slot. -/
structure Awaits (e : Eqvoc Pubkey) (sender : Pubkey) (slot : Nat) (part : Fin 3 → Option (List UInt8)) : Prop where
  fresh : slot ∉ e.dup
  held : ∃ prfs, e.vtr sender = some prfs ∧ (prfs.find? (·.slot = slot)).getD ⟨slot, fun _ => none⟩ = ⟨slot, part⟩

lemma find_otherPrfs (perVtrMax slot : Nat) (prfs : List Prf) :
    (otherPrfs perVtrMax slot prfs).find? (·.slot = slot) = none := by
  rw [find?_eq_none]
  intro x hm
  unfold otherPrfs at hm
  split at hm
  · simpa using (mem_filter.mp hm).2
  · rename_i hn
    refine find?_eq_none.mp hn x ?_
    split at hm
    · exact mem_of_mem_tail hm
    · exact hm

lemma Awaits.chunk (env : Env Pubkey) (hw : Awaits e sender slot part) (ha : root < slot) (hb : c.slot = slot)
    (hc : c.numChunks = 3) {k : Fin 3} (hn : c.chunkIndex = k) (hf : c.lenOk = true) (hm : part k = none) :
    ((∃ m, update part k (some c.chunk) m = none) → ∃ e', e.chunkInsert env root sender c = (.ignored, e') ∧
      Awaits e' sender slot (update part k (some c.chunk))) ∧
    ∀ bytes : Fin 3 → List UInt8, (∀ m, update part k (some c.chunk) m = some (bytes m)) →
      (e.chunkInsert env root sender c).1 = readProof env slot (bytes 0 ++ bytes 1 ++ bytes 2) := by
  subst hb
  obtain ⟨prfs, hv, he⟩ := hw.held
  have hx : c.chunkIndex < 3 := hn ▸ k.isLt
  have hh : (⟨c.chunkIndex, hx⟩ : Fin 3) = k := Fin.ext hn
  unfold Eqvoc.chunkInsert Eqvoc.dupQuery
  simp only [Nat.not_le.mpr ha, hv, hc, hf, hw.fresh, hx, he, hh, hm, if_false, ne_eq,
    not_true, dif_pos, Bool.not_true, Bool.false_eq_true, Option.isSome_none]
  generalize update part k (some c.chunk) = part'
  constructor
  · rintro ⟨m, none⟩
    split
    · rename_i hi hs ht
      match m with
      | 0 => cases none.symm.trans hi
      | 1 => cases none.symm.trans hs
      | 2 => cases none.symm.trans ht
    · refine ⟨_, rfl, hw.fresh, _, update_self _ _ _, ?_⟩
      simp [find_otherPrfs]
  · intro bytes all
    simp only [all]

lemma packed : ∀ k, (constructProof a b k).slot = a.slot ∧ (constructProof a b k).numChunks = 3 ∧
    (constructProof a b k).chunkIndex = k
  | 0 | 1 | 2 => ⟨rfl, rfl, rfl⟩

end

end Firebam.Equivocation
