import Firebam.Txn.Parse

/-! The parser does not look behind the payload. -/
namespace Firebam.Txn
open Lib

variable {p q : Mem} {sz i n : Nat}

/-- What lies behind the size may differ. -/
def Agree (p q : Mem) (sz : Nat) : Prop := ∀ i < sz, p.byte i = q.byte i

lemma check_congr {α : Type} {c : Bool} {f g : Unit → Option α} (h : c = true → f () = g ()) :
    check c >>= f = check c >>= g := by
  cases c with
  | false => rfl
  | true => exact h rfl

lemma skip_congr {α : Type} {f g : Nat → Option α} (h : n ≤ sz - i → f (i + n) = g (i + n)) :
    skip sz i n >>= f = skip sz i n >>= g := by
  unfold skip
  rw [bind_assoc, bind_assoc]
  exact check_congr fun left => h (of_decide_eq_true left)

lemma load_congr (h : Agree p q sz) (le : i + n ≤ sz) : p.load i n = q.load i n := by
  induction n generalizing i with
  | zero => rfl
  | succ n ih => rw [Mem.load, Mem.load, h i (by omega), ih (by omega)]

lemma cu16_congr (h : Agree p q sz) : cu16DecSz p sz = cu16DecSz q sz ∧
    (cu16DecSz q sz ≠ 0 → cu16DecFixed p (cu16DecSz q sz) = cu16DecFixed q (cu16DecSz q sz)) := by
  have hb0 : 1 ≤ sz → p.byte 0 = q.byte 0 := h 0
  have hb1 : 2 ≤ sz → p.byte 1 = q.byte 1 := h 1
  have hb2 : 3 ≤ sz → p.byte 2 = q.byte 2 := h 2
  have hz : cu16DecSz p sz = cu16DecSz q sz := by
    unfold cu16DecSz
    split_ifs <;> omega
  have hl : cu16DecSz q sz ≤ sz ∧ cu16DecSz q sz ≤ 3 := by
    unfold cu16DecSz
    split_ifs <;> omega
  refine ⟨hz, fun ne => ?_⟩
  unfold cu16DecFixed
  split_ifs <;> omega

section
variable (h : Agree p q sz)
include h

lemma readByte_congr : readByte p sz = readByte q sz := by
  funext i
  refine check_congr fun left => ?_
  rw [h i (by have := of_decide_eq_true left; omega)]

lemma readCompactU16_congr : readCompactU16 p sz = readCompactU16 q sz := by
  funext i
  have hs : Agree (p.shift i) (q.shift i) (sz - i) := fun k lt => h _ (by omega)
  obtain ⟨hz, hv⟩ := cu16_congr hs
  unfold readCompactU16
  rw [hz]
  refine check_congr fun ne => ?_
  rw [hv (by simpa using ne)]

lemma parseV1Head_congr : parseV1Head p sz = parseV1Head q sz := by
  funext acctAddrCnt i
  unfold parseV1Head
  rw [readByte_congr h]
  refine bind_congr fun _ => bind_congr fun _ => bind_congr fun _ => check_congr fun left => ?_
  rw [load_congr h (by have := of_decide_eq_true left; omega)]

lemma parseV1Heads_congr (c n i : Nat) : parseV1Heads p sz c n i = parseV1Heads q sz c n i := by
  induction n generalizing i with
  | zero => rfl
  | succ n ih =>
    unfold parseV1Heads
    simp only [parseV1Head_congr h, ih]

lemma parseV1Payloads_congr (c : Nat) (l : List Instr) (i : Nat) :
    parseV1Payloads p sz c l i = parseV1Payloads q sz c l i := by
  induction l generalizing i with
  | nil => rfl
  | cons instr rest ih =>
    unfold parseV1Payloads
    refine check_congr fun left => ?_
    have hb : (List.range instr.acctCnt).all (fun k => p.byte (i + k) < c) =
        (List.range instr.acctCnt).all fun k => q.byte (i + k) < c := by
      refine Bool.eq_iff_iff.mpr ?_
      simp only [List.all_eq_true, List.mem_range, decide_eq_true_eq] at left ⊢
      exact forall₂_congr fun k lt => by rw [h _ (by omega)]
    simp only [hb, ih]

lemma checkHeap_congr {mask : Nat} (le : 4 * popcnt mask ≤ sz - i) : checkHeap p mask i = checkHeap q mask i := by
  unfold checkHeap
  split_ifs with bit
  · have hp : 0 < popcnt mask := by
      refine List.length_pos_of_mem (a := 4) (List.mem_filter.mpr ⟨by simp, ?_⟩)
      simp [Nat.testBit, Nat.shiftRight_eq_div_pow, bit]
    dsimp only
    rw [load_congr h (by omega)]
  · rfl

lemma parseV1_congr (n : Nat) (c : Bool) : parseV1 p sz n c = parseV1 q sz n c := by
  unfold parseV1
  simp only [readByte_congr h, parseV1Heads_congr h, parseV1Payloads_congr h]
  refine bind_congr fun _ => bind_congr fun _ => bind_congr fun _ => bind_congr fun _ => bind_congr fun _ =>
    bind_congr fun _ => bind_congr fun _ => check_congr fun left => ?_
  rw [load_congr h (by have := of_decide_eq_true left; omega)]
  refine bind_congr fun _ => bind_congr fun _ => bind_congr fun _ => bind_congr fun _ => bind_congr fun _ =>
    bind_congr fun _ => bind_congr fun _ => bind_congr fun _ => bind_congr fun _ => skip_congr fun le => ?_
  rw [checkHeap_congr h le]

lemma parseHead_congr : parseHead p sz = parseHead q sz := by
  simp only [parseHead, parseVersion, readByte_congr h, readCompactU16_congr h]

lemma maxAcct_congr (le : n ≤ sz - i) (seen : Nat) : maxAcct p i n seen = maxAcct q i n seen := by
  refine List.foldl_ext _ _ _ fun seen k hk => ?_
  rw [h _ (by have := List.mem_range.mp hk; omega)]

lemma parseInstr_congr : parseInstr p sz = parseInstr q sz := by
  funext acctAddrCnt seen i
  unfold parseInstr
  rw [readCompactU16_congr h]
  refine check_congr fun left => ?_
  rw [h i (by have := of_decide_eq_true left; omega)]
  refine bind_congr fun _ => bind_congr fun _ => skip_congr fun le => ?_
  rw [maxAcct_congr h le]

lemma parseInstrs_congr (c n seen i : Nat) : parseInstrs p sz c n seen i = parseInstrs q sz c n seen i := by
  induction n generalizing seen i with
  | zero => rfl
  | succ n ih =>
    unfold parseInstrs
    simp only [parseInstr_congr h, ih]

lemma parseTables_congr (c n i : Nat) : parseTables p sz c n i = parseTables q sz c n i := by
  induction n generalizing i with
  | zero => rfl
  | succ n ih =>
    unfold parseTables
    simp only [parseTable, readCompactU16_congr h, ih]

lemma parseLegacy_congr (n : Nat) (c : Bool) : parseLegacy p sz n c = parseLegacy q sz n c := by
  simp only [parseLegacy, parseLookups, parseHead_congr h, readCompactU16_congr h, parseInstrs_congr h,
    parseTables_congr h]

end

theorem parse_reads_payload_only (p q : Mem) (originalSz : Nat) (exact : Bool) (agree : Agree p q originalSz) :
    parseCore p originalSz exact = parseCore q originalSz exact := by
  have front {n : Nat} : Agree p q (min originalSz n) := fun i lt => agree i (lt.trans_le (Nat.min_le_left ..))
  unfold parseCore
  refine check_congr fun ne => ?_
  rw [agree 0 (Nat.pos_of_ne_zero (of_decide_eq_true ne)), parseV1_congr front, parseLegacy_congr front]

theorem two_instrs_in_any_buffer : parseCore (fun i => if i < 216 then twoInstrs i else 255) 216 true =
    parseCore twoInstrs 216 true :=
  parse_reads_payload_only _ _ 216 true fun i lt => by simp [Mem.byte, lt]

end Firebam.Txn
