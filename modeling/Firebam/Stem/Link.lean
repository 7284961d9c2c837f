import Firebam.Lib.Check
import Firebam.Lib.Word

/-! A link between tiles. The timer and the order of the events, unreliable consumers and
fd_stem_advance are left out. -/
namespace Firebam.Stem
open Lib Function List

structure Frag where
  (sig chunk sz ctl tsorig tspub : Nat)
deriving DecidableEq

structure Meta where
  seq : Nat
  frag : Frag

def ulongMax : Nat := wordSize - 1

def shutdownSeq : Nat := ulongMax - 1

def seqDiff (a b : Nat) : Int := if wsub a b < 2 ^ 63 then wsub a b else wsub a b - wordSize

structure Link where
  lgDepth : Nat
  consCnt : Nat
  burst : Nat
  shallow : lgDepth < 32
  reliable : 0 < consCnt

variable (L : Link)

def Link.depth : Nat := 2 ^ L.lgDepth

def lineIdx (seq depth : Nat) : Nat := seq &&& (depth - 1)

inductive Phase
  | idle
  | found
  | copied (frag : Frag)

structure In where
  (seq mline fseq consSeq overruns : Nat)
  phase : Phase
  got : List (Option Frag)
  exited : Bool

inductive Writing
  | idle
  | marked (frag : Frag)
  | filled (frag : Frag)
deriving DecidableEq

/- `budget` is what the callbacks may still publish in this round of the loop, `sent` all that was published. -/
structure Sys where
  (seq crAvail minCrAvail budget : Nat)
  writing : Writing
  mcache : Nat → Meta
  ins : Nat → In
  sent : List Frag

inductive InEvent
  | poll | filter | retry | copy | test | update | exit

/- `elsewhere` is a frag for another link of the producer, and `others` the credits of those. -/
inductive Event
  | recvCredit (cons : Nat)
  | housekeeping (others : Nat)
  | credit
  | elsewhere (crAvail : Nat)
  | mark (frag : Frag)
  | fill | commit
  | consumer (cons : Nat) (e : InEvent)

inductive Fault
  | burstUnderprovisioned

def In.next (depth : Nat) (x : In) (entry : Option Frag) : In :=
  let seq := (x.seq + 1) % wordSize
  { x with seq := seq, mline := lineIdx seq depth, phase := .idle, got := x.got ++ [entry] }

def In.overrun (x : In) (seq : Nat) : In := { x with seq := seq, phase := .idle, overruns := x.overruns + 1 }

def In.step (depth : Nat) (mcache : Nat → Meta) (x : In) : InEvent → In
  | .poll => match x.phase with
    | .idle =>
      let found := (mcache x.mline).seq
      let diff := seqDiff x.seq found
      if diff = 0 then { x with phase := .found } else if diff < 0 then x.overrun found else x
    | _ => x
  | .filter => match x.phase with
    | .found => x.next depth none
    | _ => x
  | .retry => { x with phase := .idle }
  | .copy => match x.phase with
    | .found => { x with phase := .copied (mcache x.mline).frag }
    | _ => x
  | .test => match x.phase with
    | .copied frag =>
      let test := (mcache x.mline).seq
      if test ≠ x.seq then x.overrun test else x.next depth (some frag)
    | _ => x
  | .update => { x with fseq := x.seq }
  | .exit => { x with fseq := shutdownSeq, exited := true }

def cseq (seq : Nat) : Nat := if seq = ulongMax then 0 else seq

def consCrAvail (depth seq : Nat) (x : In) : Nat :=
  if x.consSeq = shutdownSeq then depth
  else (max ((depth : Int) - max (seqDiff seq (cseq x.consSeq)) 0) 0).toNat

def credits (s : Sys) : Nat → Nat
  | 0 => L.depth
  | i + 1 => min (credits s i) (consCrAvail L.depth s.seq (s.ins i))

def Sys.store (s : Sys) (f : Meta → Meta) : Nat → Meta :=
  update s.mcache (lineIdx s.seq L.depth) (f (s.mcache (lineIdx s.seq L.depth)))

def step (s : Sys) : Event → Except Fault Sys
  | .recvCredit i => .ok { s with ins := update s.ins i { s.ins i with consSeq := (s.ins i).fseq } }
  | .housekeeping others =>
    let cr := credits L s L.consCnt
    .ok { s with crAvail := cr, minCrAvail := min others cr, budget := 0 }
  | .credit => .ok { s with budget := if s.minCrAvail < L.burst then 0 else L.burst }
  | .elsewhere cr => .ok { s with minCrAvail := min cr s.minCrAvail, budget := s.budget - 1 }
  | .mark frag => .ok { s with mcache := s.store L ({ · with seq := wsub s.seq 1 }), writing := .marked frag }
  | .fill => match s.writing with
    | .marked frag => .ok { s with mcache := s.store L ({ · with frag := frag }), writing := .filled frag }
    | _ => .ok s
  | .commit => match s.writing with
    | .filled frag =>
      if s.crAvail < 1 then .error .burstUnderprovisioned
      else .ok { s with
        seq := (s.seq + 1) % wordSize
        crAvail := s.crAvail - 1
        minCrAvail := min (s.crAvail - 1) s.minCrAvail
        budget := s.budget - 1
        writing := .idle
        mcache := s.store L ({ · with seq := s.seq })
        sent := s.sent ++ [frag] }
    | _ => .ok s
  | .consumer i e => .ok { s with ins := update s.ins i ((s.ins i).step L.depth s.mcache e) }

def start (frag : Frag) : Sys where
  seq := 0
  crAvail := L.depth
  minCrAvail := 0
  budget := 0
  writing := .idle
  mcache l := ⟨wsub l 1, frag⟩
  ins _ := ⟨0, lineIdx 0 L.depth, ulongMax, ulongMax, 0, .idle, [], false⟩
  sent := []

/-- The producer does one thing after another, and publishes at most a burst after it has seen the credits.
At 2^64 - 2 frags the fseq of a consumer would read as its exit. -/
def May (s : Sys) : Event → Prop
  | .recvCredit i => i < L.consCnt
  | .housekeeping _ | .credit | .elsewhere _ => s.writing = .idle
  | .mark _ => s.writing = .idle ∧ 0 < s.budget ∧ s.seq + 3 < wordSize
  | .fill | .commit => True
  | .consumer i _ => i < L.consCnt ∧ (s.ins i).exited = false

instance (s : Sys) : (e : Event) → Decidable (May L s e)
  | .recvCredit _ => inferInstanceAs (Decidable (_ < _))
  | .housekeeping _ | .credit | .elsewhere _ => inferInstanceAs (Decidable (_ = _))
  | .fill | .commit => inferInstanceAs (Decidable True)
  | .mark _ | .consumer _ _ => inferInstanceAs (Decidable (_ ∧ _))

variable {L} {d k m j : Nat} {s : Sys} {x : In} {f : Meta → Meta} {frag : Frag}

structure InOk (d seq cr : Nat) (mcache : Nat → Meta) (sent : List Frag) (x : In) : Prop where
  clean : x.overruns = 0
  line : x.mline = x.seq % d
  le : x.seq ≤ seq
  given : Forall₂ (fun g f => g = none ∨ g = some f) x.got (sent.take x.seq)
  busy : x.phase ≠ .idle → x.seq < seq
  copied : ∀ f, x.phase = .copied f → sent[x.seq]? = some f
  live : x.exited = false → cseq x.consSeq ≤ cseq x.fseq ∧ cseq x.fseq ≤ x.seq ∧ seq + cr ≤ cseq x.consSeq + d
  gone : x.exited = true → x.fseq = shutdownSeq
  unread : x.exited = false → ∀ k, x.seq ≤ k → k < seq →
    (mcache (k % d)).seq = k ∧ sent[k]? = some (mcache (k % d)).frag

abbrev Sys.InOk (L : Link) (s : Sys) (x : In) : Prop := Stem.InOk L.depth s.seq s.crAvail s.mcache s.sent x

/-- Every line from the next one on lags behind. -/
structure Inv (L : Link) (s : Sys) : Prop where
  len : s.sent.length = s.seq
  low : s.seq + 2 < wordSize
  next : ∀ k, s.seq ≤ k → k < s.seq + L.depth → ∃ j, 0 < j ∧ j ≤ L.depth ∧ (s.mcache (k % L.depth)).seq = wsub k j
  ins : ∀ i < L.consCnt, s.InOk L (s.ins i)
  min : s.minCrAvail ≤ s.crAvail
  budget : s.budget ≤ s.crAvail
  writing : s.writing ≠ .idle → 0 < s.budget ∧ s.seq + 3 < wordSize ∧ (s.mcache (s.seq % L.depth)).seq = wsub s.seq 1
  filled : ∀ f, s.writing = .filled f → (s.mcache (s.seq % L.depth)).frag = f

lemma lineIdx_depth (k : Nat) : lineIdx k L.depth = k % L.depth := Nat.and_two_pow_sub_one_eq_mod ..

lemma depth_pos : 0 < L.depth := Nat.two_pow_pos _

lemma depth_lt : L.depth < 2 ^ 32 := Nat.pow_lt_pow_right (by decide) L.shallow

lemma mod_ne (hl : k < m) (hd : m < k + d) : k % d ≠ m % d := by
  intro eq
  have hm : (m - k) % d = 0 := Nat.sub_mod_eq_zero_of_mod_eq eq.symm
  rw [Nat.mod_eq_of_lt (by omega)] at hm
  omega

lemma seqDiff_self (k : Nat) : seqDiff k k = 0 := by simp [seqDiff, wsub]

lemma seqDiff_wsub (hk : k < wordSize) (hj : j < 2 ^ 32) : seqDiff k (wsub k j) = j := by
  have hs : wsub k (wsub k j) = j := by
    unfold wsub
    unfold wordSize at hk ⊢
    omega
  rw [seqDiff, hs, if_pos (by omega)]

lemma InOk.next {entry : Option Frag} (h : s.InOk L x) (hl : s.seq + 2 < wordSize) (lt : x.seq < s.seq)
    (hf : s.sent[x.seq]? = some frag) (he : entry = none ∨ entry = some frag) : s.InOk L (x.next L.depth entry) := by
  unfold In.next
  rw [Nat.mod_eq_of_lt (by omega)]
  refine ⟨h.clean, lineIdx_depth _, lt, ?_, fun no => absurd rfl no, fun f no => (by cases no), fun hx => ?_,
    h.gone, fun hx k le => h.unread hx k (Nat.le_of_succ_le le)⟩
  · dsimp only
    rw [take_add_one, hf]
    exact rel_append h.given (.cons he .nil)
  · obtain ⟨hc, hf, hr⟩ := h.live hx
    exact ⟨hc, hf.trans (Nat.le_succ _), hr⟩

lemma InOk.step (h : s.InOk L x) (hs : Inv L s) (hx : x.exited = false) (e : InEvent) :
    s.InOk L (x.step L.depth s.mcache e) := by
  obtain ⟨hc, hf, hr⟩ := h.live hx
  have hl := hs.low
  have hd := @depth_lt L
  have hold := h.unread hx x.seq (le_refl _)
  rw [← h.line] at hold
  cases e with
  | poll =>
    dsimp only [In.step]
    split
    · rcases Nat.lt_or_eq_of_le h.le with lt | eq
      · rw [(hold lt).1, if_pos (seqDiff_self _)]
        exact { h with busy := fun _ => lt, copied := fun f no => (by cases no) }
      · obtain ⟨j, hj, le, hm⟩ := hs.next x.seq eq.ge (by have := @depth_pos L; omega)
        rw [h.line, hm, seqDiff_wsub (by omega) (by omega), if_neg (by omega), if_neg (by omega)]
        exact h
    · exact h
  | filter =>
    dsimp only [In.step]
    split
    · rename_i eq
      have lt := h.busy (by rw [eq]; simp)
      exact h.next hl lt (hold lt).2 (.inl rfl)
    · exact h
  | retry => exact { h with busy := fun no => absurd rfl no, copied := fun f no => (by cases no) }
  | copy =>
    dsimp only [In.step]
    split
    · rename_i eq
      have lt := h.busy (by rw [eq]; simp)
      exact { h with busy := fun _ => lt, copied := fun f eq => Phase.copied.inj eq ▸ (hold lt).2 }
    · exact h
  | test =>
    dsimp only [In.step]
    split
    · rename_i frag eq
      have lt := h.busy (by rw [eq]; simp)
      rw [if_neg (not_not.mpr (hold lt).1)]
      exact h.next hl lt (h.copied frag eq) (.inr rfl)
    · exact h
  | update =>
    have hq : cseq x.seq = x.seq := if_neg (by have := h.le; unfold ulongMax; omega)
    refine { h with live := fun _ => ⟨hq.symm ▸ hc.trans hf, hq.le, hr⟩, gone := fun no => ?_ }
    cases hx.symm.trans no
  | exit => exact { h with live := fun no => (by cases no), gone := fun _ => rfl, unread := fun no => (by cases no) }

lemma consCrAvail_add (h : s.InOk L x) (hl : s.seq + 2 < wordSize) (hx : x.exited = false) :
    s.seq + consCrAvail L.depth s.seq x = cseq x.consSeq + L.depth := by
  obtain ⟨hc, hf, hr⟩ := h.live hx
  have le := h.le
  have hd := @depth_lt L
  have hn : x.consSeq ≠ shutdownSeq := by
    intro eq
    rw [cseq, if_neg] at hc <;> unfold shutdownSeq ulongMax at * <;> omega
  have hw : wsub s.seq (cseq x.consSeq) = s.seq - cseq x.consSeq := wsub_of_le (by omega) (by omega)
  rw [consCrAvail, if_neg hn, seqDiff, hw, if_pos (by omega)]
  omega

lemma credits_le (n : Nat) : ∀ i < n, credits L s n ≤ consCrAvail L.depth s.seq (s.ins i) := by
  induction n with
  | zero => exact fun i no => absurd no (Nat.not_lt_zero i)
  | succ n ih =>
    intro i lt
    rcases Nat.lt_succ_iff_lt_or_eq.mp lt with lt | rfl
    · exact (Nat.min_le_left ..).trans (ih i lt)
    · exact Nat.min_le_right ..

lemma Inv.setIn {i : Nat} (h : Inv L s) (hx : i < L.consCnt → s.InOk L x) :
    Inv L { s with ins := update s.ins i x } := by
  refine { h with ins := fun j hj => ?_ }
  dsimp only
  rw [update_apply]
  split_ifs with eq
  · exact hx (eq ▸ hj)
  · exact h.ins j hj

lemma store_of_ne (ne : k % L.depth ≠ s.seq % L.depth) : s.store L f (k % L.depth) = s.mcache (k % L.depth) := by
  rw [Sys.store, lineIdx_depth, update_of_ne ne]

lemma store_self : s.store L f (s.seq % L.depth) = f (s.mcache (s.seq % L.depth)) := by
  rw [Sys.store, lineIdx_depth, update_self]

lemma InOk.store (h : s.InOk L x) (hc : 0 < s.crAvail) (hx : x.exited = false)
    (le : x.seq ≤ k) (lt : k < s.seq) : s.store L f (k % L.depth) = s.mcache (k % L.depth) := by
  obtain ⟨hq, hf, hr⟩ := h.live hx
  exact store_of_ne (mod_ne lt (by omega))

lemma Inv.store {w : Writing} (h : Inv L s) (hb : 0 < s.budget) (hl : s.seq + 3 < wordSize)
    (hf : (f (s.mcache (s.seq % L.depth))).seq = wsub s.seq 1)
    (hw : ∀ g, w = .filled g → (f (s.mcache (s.seq % L.depth))).frag = g) :
    Inv L { s with mcache := s.store L f, writing := w } := by
  have hc := h.budget
  refine ⟨h.len, h.low, fun k le lt => ?_, fun i hi => ?_, h.min, h.budget, fun _ => ⟨hb, hl, ?_⟩, fun g eq => ?_⟩
    <;> dsimp only [Sys.InOk] at *
  · rcases Nat.eq_or_lt_of_le le with rfl | gt
    · exact ⟨1, Nat.one_pos, depth_pos, by rw [store_self, hf]⟩
    · rw [store_of_ne (mod_ne gt lt).symm]
      exact h.next k le lt
  · have hx := h.ins i hi
    refine { hx with unread := fun live k le lt => ?_ }
    rw [hx.store (by omega) live le lt]
    exact hx.unread live k le lt
  · rw [store_self, hf]
  · rw [store_self, hw g eq]

lemma getElem?_concat_of {α : Type} {l : List α} {a b : α} (h : l[k]? = some a) : (l ++ [b])[k]? = some a :=
  (getElem?_append_left (List.getElem?_eq_some_iff.mp h).1).trans h

lemma Inv.commit (h : Inv L s) (hw : s.writing = .filled frag) : ∃ t, step L s .commit = .ok t ∧ Inv L t := by
  have hc := h.budget
  obtain ⟨hb, hl, -⟩ := h.writing (by rw [hw]; simp)
  have hf := h.filled frag hw
  unfold step
  simp only [hw]
  rw [if_neg (by omega), Nat.mod_eq_of_lt (by omega)]
  refine ⟨_, rfl, by simp [h.len], by dsimp only; omega, fun k le lt => ?_, fun i hi => ?_, Nat.min_le_left ..,
    by dsimp only; omega, fun no => absurd rfl no, fun f no => (by cases no)⟩ <;> dsimp only [Sys.InOk] at *
  · rcases Nat.lt_or_ge k (s.seq + L.depth) with hk | hk
    · rw [store_of_ne (mod_ne le hk).symm]
      exact h.next k (Nat.le_of_succ_le le) hk
    · obtain rfl : k = s.seq + L.depth := by omega
      rw [Nat.add_mod_right, store_self]
      refine ⟨L.depth, depth_pos, le_refl _, ?_⟩
      rw [wsub, show s.seq + L.depth + wordSize - L.depth = s.seq + wordSize by omega, Nat.add_mod_right]
      exact (Nat.mod_eq_of_lt (Nat.lt_of_add_right_lt hl)).symm
  · have hx := h.ins i hi
    refine ⟨hx.clean, hx.line, hx.le.trans (Nat.le_succ _), ?_, fun ne => (hx.busy ne).trans (Nat.lt_succ_self _),
      fun f eq => getElem?_concat_of (hx.copied f eq), fun live => ?_, hx.gone, fun live k le lt => ?_⟩
    · rw [take_append_of_le_length (hx.le.trans_eq h.len.symm)]
      exact hx.given
    · obtain ⟨hq, hf, hr⟩ := hx.live live
      exact ⟨hq, hf, by omega⟩
    · rcases Nat.lt_succ_iff_lt_or_eq.mp lt with lt | rfl
      · rw [hx.store (by omega) live le lt]
        obtain ⟨hs, hg⟩ := hx.unread live k le lt
        exact ⟨hs, getElem?_concat_of hg⟩
      · rw [store_self]
        dsimp only
        exact ⟨rfl, by rw [hf, ← h.len, getElem?_concat_length]⟩

lemma Inv.step (s : Sys) (e : Event) (h : Inv L s) (may : May L s e) : ∃ t, step L s e = .ok t ∧ Inv L t := by
  have hm := h.min
  have hb := h.budget
  cases e with
  | recvCredit i =>
    refine ⟨_, rfl, h.setIn fun hi => ?_⟩
    have hx := h.ins i hi
    refine { hx with live := fun live => ?_ }
    obtain ⟨hq, hf, hr⟩ := hx.live live
    exact ⟨le_refl _, hf, hr.trans (Nat.add_le_add_right hq _)⟩
  | housekeeping others =>
    refine ⟨_, rfl, { h with
      ins := fun i hi => ?_
      min := Nat.min_le_right ..
      budget := Nat.zero_le _
      writing := fun no => absurd may no }⟩
    have hx := h.ins i hi
    refine { hx with live := fun live => ?_ }
    obtain ⟨hq, hf, hr⟩ := hx.live live
    have ha := consCrAvail_add hx h.low live
    have hc := @credits_le L s L.consCnt i hi
    exact ⟨hq, hf, by dsimp only; omega⟩
  | credit =>
    refine ⟨_, rfl, { h with budget := ?_, writing := fun no => absurd may no }⟩
    dsimp only
    split_ifs <;> omega
  | elsewhere cr =>
    exact ⟨_, rfl, { h with
      min := (Nat.min_le_right ..).trans hm
      budget := (Nat.sub_le ..).trans hb
      writing := fun no => absurd may no }⟩
  | mark frag => exact ⟨_, rfl, h.store may.2.1 may.2.2 rfl fun g no => (by cases no)⟩
  | fill =>
    unfold Stem.step
    dsimp only
    split
    · rename_i frag eq
      obtain ⟨hb, hl, hm⟩ := h.writing (by rw [eq]; simp)
      exact ⟨_, rfl, h.store hb hl hm fun g => Writing.filled.inj⟩
    · exact ⟨s, rfl, h⟩
  | commit =>
    cases eq : s.writing with
    | filled frag => exact h.commit eq
    | idle => exact ⟨s, by simp only [Stem.step, eq], h⟩
    | marked frag => exact ⟨s, by simp only [Stem.step, eq], h⟩
  | consumer i e => exact ⟨_, rfl, h.setIn fun hi => (h.ins i hi).step h may.2 e⟩

lemma start_inv (L : Link) (frag : Frag) : Inv L (start L frag) := by
  have hz : cseq ulongMax = 0 := if_pos rfl
  refine ⟨rfl, (by decide : 2 < wordSize), fun k _ lt => ?_, fun i _ => ?_, Nat.zero_le _, Nat.zero_le _,
    fun no => absurd rfl no, fun f no => (by cases no)⟩
  · rw [show (start L frag).seq = 0 from rfl, Nat.zero_add] at lt
    exact ⟨1, Nat.one_pos, depth_pos, by rw [Nat.mod_eq_of_lt lt]; rfl⟩
  · exact ⟨rfl, lineIdx_depth 0, le_refl _, .nil, fun no => absurd rfl no, fun f no => (by cases no),
      fun _ => ⟨le_refl _, hz.le, Nat.add_le_add_right (Nat.zero_le _) _⟩, fun no => (by cases no),
      fun _ k _ no => absurd no (Nat.not_lt_zero k)⟩

theorem reliable_consumers_never_overrun (L : Link) (frag : Frag) (es : List Event)
    (allowed : Allowed (step L) (May L) (start L frag) es) :
    ∃ r, run (step L) (start L frag) es = .ok r ∧ r.sent.length = r.seq ∧ ∀ i < L.consCnt,
      (r.ins i).overruns = 0 ∧ (r.ins i).seq ≤ r.seq ∧
      Forall₂ (fun g f => g = none ∨ g = some f) (r.ins i).got (r.sent.take (r.ins i).seq) := by
  obtain ⟨r, hr, h⟩ := run_allowed (step L) (May L) (Inv L) Inv.step (start_inv L frag) allowed
  refine ⟨r, hr, h.len, fun i hi => ?_⟩
  have hx := h.ins i hi
  exact ⟨hx.clean, hx.le, hx.given⟩

lemma sample_shallow : 1 < 32 := by decide

def sample : Link := ⟨1, 2, 1, sample_shallow, Nat.zero_lt_two⟩

def noFrag : Frag := ⟨0, 0, 0, 0, 0, 0⟩

def sampleEvents : List Event :=
  [.housekeeping 8, .credit, .mark ⟨1, 2, 3, 4, 5, 6⟩, .fill, .consumer 0 .poll, .commit, .consumer 0 .poll,
    .consumer 0 .copy, .consumer 0 .test, .consumer 0 .update, .recvCredit 0, .housekeeping 8]

lemma sample_allowed : Allowed (step sample) (May sample) (start sample noFrag) sampleEvents := by decide +kernel

theorem sample_not_overrun :
    ∃ r, run (step sample) (start sample noFrag) sampleEvents = .ok r ∧ (r.ins 1).overruns = 0 := by
  obtain ⟨r, hr, -, h⟩ := reliable_consumers_never_overrun sample noFrag sampleEvents sample_allowed
  exact ⟨r, hr, (h 1 Nat.one_lt_two).1⟩

/-- A step after which the same consumers are there. -/
def Goes (L : Link) (s t : Sys) : Prop := ∃ e, May L s e ∧ (∀ i, e ≠ .consumer i .exit) ∧ step L s e = .ok t

abbrev Leads (L : Link) : Sys → Sys → Prop := Relation.ReflTransGen (Goes L)

lemma Inv.leads {t : Sys} (h : Inv L s) (hl : Leads L s t) : Inv L t := by
  induction hl with
  | refl => exact h
  | tail _ hg ih =>
    obtain ⟨e, may, -, he⟩ := hg
    obtain ⟨u, hu, h⟩ := ih.step _ e may
    exact Except.ok.inj (hu.symm.trans he) ▸ h

lemma exited_step {e : InEvent} (mcache : Nat → Meta) (ne : e ≠ .exit) : (x.step d mcache e).exited = x.exited := by
  cases e <;> dsimp only [In.step] <;> repeat' split
  all_goals first | rfl | exact absurd rfl ne

section
variable {i : Nat} (hi : i < L.consCnt)
include hi

lemma leads_events (es : List InEvent) (hx : (s.ins i).exited = false) (he : .exit ∉ es) :
    Leads L s { s with ins := update s.ins i (es.foldl (In.step L.depth s.mcache) (s.ins i)) } := by
  induction es generalizing s with
  | nil =>
    rw [foldl_nil, update_eq_self]
  | cons e es ih =>
    rw [mem_cons, not_or] at he
    have hg : Goes L s { s with ins := update s.ins i ((s.ins i).step L.depth s.mcache e) } :=
      ⟨.consumer i e, ⟨hi, hx⟩, fun j no => he.1 (Event.consumer.inj no).2.symm, rfl⟩
    have hl := @ih { s with ins := update s.ins i ((s.ins i).step L.depth s.mcache e) } ?_ he.2
    · dsimp only at hl
      rw [update_self, update_idem] at hl
      exact .head hg hl
    · dsimp only
      rw [update_self, exited_step _ (Ne.symm he.1), hx]

lemma leads_drained (k : Nat) (h : Inv L s) (hx : (s.ins i).exited = false) (hk : (s.ins i).seq + k = s.seq) :
    ∃ y, Leads L s { s with ins := update s.ins i y } ∧ y.exited = false ∧ y.seq = s.seq := by
  induction k generalizing s with
  | zero =>
    refine ⟨s.ins i, ?_, hx, hk⟩
    rw [update_eq_self]
  | succ k ih =>
    have hold := (h.ins i hi).unread hx _ (le_refl _) (by omega)
    rw [← (h.ins i hi).line] at hold
    have hr := leads_events hi [.retry, .poll, .copy, .test] hx (by simp)
    have hn : (s.ins i).seq + 1 < wordSize := by have := h.low; omega
    simp only [foldl_cons, foldl_nil, In.step, hold.1, seqDiff_self, if_true, ne_eq, not_true_eq_false, if_false, In.next,
      Nat.mod_eq_of_lt hn] at hr
    obtain ⟨y, hl, hy⟩ := ih (h.leads hr) (by simpa using hx) (by simp only [update_self]; omega)
    dsimp only at hl hy
    rw [update_idem] at hl
    exact ⟨y, hr.trans hl, hy⟩

end

/-- The consumer does not hold the producer back, and has been given all if it is still there. -/
def Served (L : Link) (s : Sys) (x : In) : Prop :=
  consCrAvail L.depth s.seq x = L.depth ∧ (x.exited = false → x.seq = s.seq)

lemma leads_served {i : Nat} (hi : i < L.consCnt) (h : Inv L s) :
    ∃ y, Leads L s { s with ins := update s.ins i y } ∧ Served L s y := by
  have hc : ∀ s, Leads L s { s with ins := update s.ins i { s.ins i with consSeq := (s.ins i).fseq } } :=
    fun s => .single ⟨.recvCredit i, hi, by simp, rfl⟩
  cases hx : (s.ins i).exited with
  | true => exact ⟨_, hc s, if_pos ((h.ins i hi).gone hx), fun no => (by cases hx.symm.trans no)⟩
  | false =>
    obtain ⟨y, hl, hy, hs⟩ := leads_drained hi (s.seq - (s.ins i).seq) h hx (by have := (h.ins i hi).le; omega)
    have hu := @leads_events L { s with ins := update s.ins i y } i hi [.update] (by simpa using hy) (by simp)
    have hr := (hl.trans hu).trans (hc _)
    simp only [update_self, update_idem, foldl_cons, foldl_nil, In.step] at hr
    refine ⟨_, hr, ?_, fun _ => hs⟩
    have hk := (h.leads hr).ins i hi
    dsimp only at hk
    rw [update_self] at hk
    have ha := consCrAvail_add hk h.low hy
    have hq : cseq y.seq = y.seq := if_neg (by have := h.low; unfold ulongMax; omega)
    dsimp only at ha
    omega

lemma leads_all_served (n : Nat) (le : n ≤ L.consCnt) (h : Inv L s) :
    ∃ ins, Leads L s { s with ins := ins } ∧ ∀ i < n, Served L s (ins i) := by
  induction n with
  | zero => exact ⟨s.ins, .refl, fun i no => absurd no (Nat.not_lt_zero i)⟩
  | succ n ih =>
    obtain ⟨ins, hl, hs⟩ := ih (Nat.le_of_succ_le le)
    obtain ⟨y, hr, hy⟩ := leads_served le (h.leads hl)
    refine ⟨_, hl.trans hr, fun i lt => ?_⟩
    rcases Nat.lt_succ_iff_lt_or_eq.mp lt with lt | rfl
    · rw [update_of_ne lt.ne]
      exact hs i lt
    · rw [update_self]
      exact hy

lemma credits_served (n : Nat) (h : ∀ i < n, Served L s (s.ins i)) : credits L s n = L.depth := by
  induction n with
  | zero => rfl
  | succ n ih =>
    have lt := Nat.lt_succ_self n
    rw [credits, ih fun i hi => h i (hi.trans lt), (h n lt).1, Nat.min_self]

theorem backpressure_clears (L : Link) (frag : Frag) (es : List Event) (fits : L.burst ≤ L.depth)
    (allowed : Allowed (step L) (May L) (start L frag) es) :
    ∃ r, run (step L) (start L frag) es = .ok r ∧ (r.writing = .idle → ∃ t, Leads L r t ∧ t.budget = L.burst ∧
      t.sent = r.sent ∧ ∀ i < L.consCnt, (t.ins i).exited = false → (t.ins i).seq = t.seq) := by
  obtain ⟨r, hr, h⟩ := run_allowed (step L) (May L) (Inv L) Inv.step (start_inv L frag) allowed
  refine ⟨r, hr, fun idle => ?_⟩
  obtain ⟨ins, hl, hs⟩ := leads_all_served L.consCnt (le_refl _) h
  have hc := @credits_served L { r with ins := ins } L.consCnt hs
  refine ⟨_, (hl.tail ⟨.housekeeping L.burst, idle, by simp, rfl⟩).tail ⟨.credit, idle, by simp, rfl⟩, ?_, rfl,
    fun i hi => (hs i hi).2⟩
  dsimp only
  rw [hc, min_eq_left fits, if_neg (lt_irrefl _)]

theorem sample_clears : ∃ r, run (step sample) (start sample noFrag) sampleEvents = .ok r ∧
    ∃ t, Leads sample r t ∧ t.budget = 1 ∧ ∀ i < 2, (t.ins i).exited = false → (t.ins i).seq = t.seq := by
  obtain ⟨r, hr, h⟩ := backpressure_clears sample noFrag sampleEvents (by decide) sample_allowed
  have idle : (run (step sample) (start sample noFrag) sampleEvents).map (·.writing) = .ok .idle := rfl
  rw [hr] at idle
  obtain ⟨t, hl, hb, -, all⟩ := h (Except.ok.inj idle)
  exact ⟨r, hr, t, hl, hb, all⟩

end Firebam.Stem
