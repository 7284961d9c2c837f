import Firebam.Poh.Bank

/-! The order in which the PoH tile consumes the frags that pack numbered. -/
namespace Firebam.Poh
open Lib List Item PackFrag

variable {back front : List Item} {s : Sys} {it : Item}

def Event.isReplay : Event → Bool
  | .reset _ | .becameLeader _ => true
  | .mixin _ _ | .donePacking _ _ | .droppedExecle _ _ => false

def openStep (o : Option Nat) : Event → Option Nat
  | .becameLeader b => some b.slot
  | .donePacking sig _ => if o = some sig.slot then none else o
  | .mixin _ _ | .droppedExecle _ _ | .reset _ => o

section
variable (log : List Event)

def openSlot : Option Nat := log.foldl openStep none

lemma openSlot_append (e : Event) : openSlot (log ++ [e]) = openStep (openSlot log) e := by
  simp [openSlot]

/-- Nothing of replay is processed between the start of a leader slot and its done_packing. -/
def Bracketed : Prop :=
  ∀ (pre : List Event) (b : BecameLeader) (mid : List Event) (e : Event) (post : List Event),
    log = pre ++ .becameLeader b :: (mid ++ e :: post) → e.isReplay = true →
    ∃ sig d, Event.donePacking sig d ∈ mid ∧ sig.slot = b.slot

end

lemma closed_by_done (slot : Nat) (mid : List Event)
    (hn : ∀ b, Event.becameLeader b ∉ mid) (hc : mid.foldl openStep (some slot) = none) :
    ∃ sig d, Event.donePacking sig d ∈ mid ∧ sig.slot = slot := by
  induction mid with
  | nil => cases hc
  | cons e mid ih =>
    have hr : ∀ b, Event.becameLeader b ∉ mid :=
      fun b hm => hn b (.tail _ hm)
    have hk (hs : openStep (some slot) e = some slot) :
        ∃ sig d, Event.donePacking sig d ∈ e :: mid ∧ sig.slot = slot := by
      rw [foldl_cons, hs] at hc
      obtain ⟨sig, d, hm, eq⟩ := ih hr hc
      exact ⟨sig, d, .tail _ hm, eq⟩
    cases e with
    | becameLeader b => exact absurd (.head _) (hn b)
    | donePacking sig d =>
      by_cases hs : slot = sig.slot
      · exact ⟨sig, d, .head _, hs.symm⟩
      · exact hk (if_neg (by simpa using hs))
    | mixin e f => exact hk rfl
    | droppedExecle e f => exact hk rfl
    | reset r => exact hk rfl

lemma Bracketed.append {log : List Event} (hb : Bracketed log) (e : Event)
    (hc : e.isReplay = true → openSlot log = none) : Bracketed (log ++ [e]) := by
  intro pre b mid e' post hs hr
  rcases eq_nil_or_concat post with rfl | ⟨front, last, rfl⟩
  · -- The last event is the new one: the slot before it was closed in the old log.
    have hp : log ++ [e] = (pre ++ .becameLeader b :: mid) ++ [e'] := by simpa using hs
    obtain ⟨ho, hn⟩ := append_inj' hp rfl
    cases hn
    have none := hc hr
    rw [ho, openSlot, foldl_append, foldl_cons] at none
    by_cases hf : ∀ b', Event.becameLeader b' ∉ mid
    · exact closed_by_done b.slot mid hf none
    · -- A later leader slot began in between, and the old log already had a done_packing.
      push Not at hf
      obtain ⟨b', hm⟩ := hf
      obtain ⟨front, back, rfl⟩ := append_of_mem hm
      obtain ⟨sig, d, h, eq⟩ := hb pre b front (.becameLeader b') back
        (by simpa using ho) rfl
      exact ⟨sig, d, mem_append_left _ h, eq⟩
  · have hp : log ++ [e] = (pre ++ .becameLeader b :: (mid ++ e' :: front)) ++ [last] := by
      simpa using hs
    exact hb pre b mid e' front (append_inj' hp rfl).1 hr

def Item.sig : Item → ExecleSig
  | .microblock _ f => f.sig
  | .donePacking sig _ => sig

def Item.onExecle (e : Nat) : Item → Option ExecleFrag
  | .microblock e' f => if e' = e then some f else none
  | .donePacking _ _ => none

def Item.onPack : Item → Option PackFrag
  | .microblock _ _ => none
  | .donePacking sig d => some (.donePacking sig d)

def Item.isMicroblock : Item → Bool
  | .microblock _ _ => true
  | .donePacking _ _ => false

def PackFrag.isNumbered : PackFrag → Bool
  | .donePacking _ _ => true
  | .doneDraining | .reduceMbBound _ => false

def Sys.pending (s : Sys) : List Item := s.issued.drop s.consumed

structure Linked (s : Sys) : Prop where
  numbered : ∀ i it, s.issued[i]? = some it → it.sig.packIdx = serial i
  processed : s.log.filterMap Event.item = s.issued.take s.consumed
  consumed_le : s.consumed ≤ s.issued.length
  window : s.issued.length ≤ s.consumed + 2 ^ 31
  expect : s.tile.expectPackIdx = serial s.consumed
  execleLink : ∀ e, s.execleQ e = s.pending.filterMap (onExecle e)
  packLink : s.packQ.filter isNumbered = s.pending.filterMap onPack

variable (l : Linked s)
include l

lemma Linked.position (hs : s.pending = front ++ it :: back) :
    it.sig.packIdx = serial (s.consumed + front.length) ∧
      s.consumed + front.length < s.consumed + 2 ^ 31 := by
  have hg : s.issued[s.consumed + front.length]? = some it := by
    rw [← getElem?_drop]
    show s.pending[front.length]? = some it
    rw [hs]
    simp
  have hb : s.consumed + front.length < s.issued.length := by
    rw [List.getElem?_eq_some_iff] at hg
    exact hg.1
  have hw := l.window
  exact ⟨l.numbered _ _ hg, by omega⟩

lemma Linked.inOrder (hp : s.pending = front ++ it :: back) :
    0 ≤ serialDiff it.sig.packIdx s.tile.expectPackIdx ∧
      (it.sig.packIdx = s.tile.expectPackIdx → front = []) := by
  obtain ⟨hi, hw⟩ := l.position hp
  rw [hi, l.expect]
  have hd := serialDiff_of_window (Nat.le_add_right s.consumed front.length) hw
  refine ⟨by omega, fun hs => ?_⟩
  have eq := (serial_eq_of_window (Nat.le_add_right s.consumed front.length) hw).mp hs
  exact length_eq_zero_iff.mp (by omega)

lemma Linked.execleHead {e : Nat} {f : ExecleFrag} {rest : List ExecleFrag} (hh : s.execleQ e = f :: rest) :
    ∃ front back, s.pending = front ++ .microblock e f :: back ∧
      back.filterMap (onExecle e) = rest := by
  rw [l.execleLink e, filterMap_eq_cons_iff] at hh
  obtain ⟨front, it, back, split, _, on, ht⟩ := hh
  have hs : it = .microblock e f := by
    cases it with
    | microblock e' f' =>
      simp only [onExecle] at on
      split at on
      · rename_i eq
        cases on
        rw [eq]
      · cases on
    | donePacking sig d => cases on
  exact ⟨front, back, hs ▸ split, ht⟩

lemma Linked.packHead {sig : ExecleSig} {d : DonePacking}
    {rest : List PackFrag} (hh : s.packQ = .donePacking sig d :: rest) :
    ∃ front back, s.pending = front ++ .donePacking sig d :: back ∧
      back.filterMap onPack = rest.filter isNumbered := by
  have hl := l.packLink
  rw [hh, filter_cons_of_pos rfl] at hl
  obtain ⟨front, it, back, hp, _, on, ht⟩ := filterMap_eq_cons_iff.mp hl.symm
  have hs : it = .donePacking sig d := by
    cases it with
    | microblock e' f' => cases on
    | donePacking sig' d' => cases on; rfl
  exact ⟨front, back, hs ▸ hp, ht⟩

lemma Linked.issue (s' : Sys) (it : Item) (hf : it.sig.packIdx = serial s.issued.length)
    (hr : s.issued.length < s.consumed + 2 ^ 31) (hi : s'.issued = s.issued ++ [it]) (hc : s'.consumed = s.consumed)
    (ho : s'.log = s.log) (hx : s'.tile = s.tile) (hd : ∀ e, s'.execleQ e = s.execleQ e ++ [it].filterMap (onExecle e))
    (hk : s'.packQ.filter isNumbered = s.packQ.filter isNumbered ++ [it].filterMap onPack) :
    Linked s' ∧ s'.pending = s.pending ++ [it] := by
  have he : s'.pending = s.pending ++ [it] := by
    simp only [Sys.pending, hi, hc]
    exact drop_append_of_le_length l.consumed_le
  refine ⟨⟨?_, ?_, ?_, ?_, ?_, ?_, ?_⟩, he⟩
  · intro i found ha
    rw [hi, getElem?_append] at ha
    split_ifs at ha with hb
    · exact l.numbered i found ha
    · obtain ⟨hl, eq⟩ := List.getElem?_eq_some_iff.mp ha
      simp only [length_singleton] at hl
      have hp : i = s.issued.length := by omega
      subst hp
      simp only [Nat.sub_self, getElem_cons_zero] at eq
      rw [← eq, hf]
  · rw [ho, hi, hc, l.processed, take_append_of_le_length l.consumed_le]
  · simp only [hi, hc, length_append, length_singleton]
    exact Nat.le_succ_of_le l.consumed_le
  · simp only [hi, hc, length_append, length_singleton]
    omega
  · rw [hx, hc, l.expect]
  · intro e
    rw [hd e, he, filterMap_append, l.execleLink e]
  · rw [hk, he, filterMap_append, l.packLink]

lemma Linked.consume (s' : Sys) (ev : Event) (hh : s.pending = it :: back) (ht : ev.item = some it)
    (hi : s'.issued = s.issued) (hc : s'.consumed = s.consumed + 1) (hl : s'.log = s.log ++ [ev])
    (he : s'.tile.expectPackIdx = s.tile.expectPackIdx + 1) (hx : ∀ e, s'.execleQ e = back.filterMap (onExecle e))
    (hk : s'.packQ.filter isNumbered = back.filterMap onPack) : Linked s' ∧ s'.pending = back := by
  have hp : s'.pending = back := by
    simp only [Sys.pending, hi, hc]
    rw [← tail_drop]
    exact congrArg List.tail hh
  have hg : s.issued[s.consumed]? = some it := by
    have ha : (s.issued.drop s.consumed)[0]? = s.issued[s.consumed + 0]? := getElem?_drop
    rw [show s.issued.drop s.consumed = it :: back from hh] at ha
    exact ha.symm
  obtain ⟨hb, _⟩ := List.getElem?_eq_some_iff.mp hg
  refine ⟨⟨?_, ?_, ?_, ?_, ?_, ?_, ?_⟩, hp⟩
  · rw [hi]
    exact l.numbered
  · rw [hl, hi, hc, filterMap_append, l.processed, take_add_one, hg]
    simp [ht]
  · rw [hi, hc]
    exact hb
  · have hw := l.window
    rw [hi, hc]
    omega
  · rw [he, hc, l.expect, serial_succ]
  · intro e
    rw [hx e, hp]
  · rw [hk, hp]

lemma Linked.frame {s' : Sys} (hi : s'.issued = s.issued) (hc : s'.consumed = s.consumed)
    (hl : s'.log.filterMap Event.item = s.log.filterMap Event.item) (he : s'.tile.expectPackIdx = s.tile.expectPackIdx)
    (hx : s'.execleQ = s.execleQ) (ha : s'.packQ.filter isNumbered = s.packQ.filter isNumbered) : Linked s' := by
  have hp : s'.pending = s.pending := by simp only [Sys.pending, hi, hc]
  refine ⟨?_, ?_, ?_, ?_, ?_, ?_, ?_⟩
  · rw [hi]
    exact l.numbered
  · rw [hl, hi, hc]
    exact l.processed
  · rw [hi, hc]
    exact l.consumed_le
  · rw [hi, hc]
    exact l.window
  · rw [he, hc]
    exact l.expect
  · rw [hx, hp]
    exact l.execleLink
  · rw [ha, hp]
    exact l.packLink

end Firebam.Poh
