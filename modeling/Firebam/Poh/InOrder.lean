import Firebam.Poh.Order
import Firebam.Poh.SlotCapacity

/-! Every microblock is mixed in once and in the order of its pack index. -/
namespace Firebam.Poh
open Lib List Except Item Sys PackFrag

variable {t : Tile} {v : Verdict} {s u : Sys} {p : Machine} {rest : List PackFrag} {sha : Sha256}
  {clock newMax e : Nat} {f : ExecleFrag} {sig : ExecleSig} {d : DonePacking} {r : Reset} {b : BecameLeader}

lemma afterCredit_cases {u : Tile} {replayStatus : Bool} (h : afterCredit sha t replayStatus clock = .ok u) :
    u.expectPackIdx = t.expectPackIdx ∧
      (u.poh = t.poh ∨ ∃ a, advance sha t.poh clock = .ok a ∧ u.poh = a.poh) := by
  unfold afterCredit at h
  split at h
  · dsimp only at h
    split at h
    · obtain ⟨a, ha, ho⟩ := bind_ok.mp h
      cases ho
      exact ⟨rfl, .inr ⟨a, ha, rfl⟩⟩
    · cases h
      exact ⟨rfl, .inl rfl⟩
  · cases h
    exact ⟨rfl, .inl rfl⟩

lemma bank_of_not_mustWait (hr : mustWait p = false) : haveLeaderBank p = true := by
  simp only [mustWait, Bool.or_eq_false_iff, Bool.not_eq_false'] at hr
  exact hr.1

lemma returnableExecle_cases (hl : t.poh.nextLeaderSlot ≤ f.sig.slot) (h : returnableExecle sha t f = .ok v) :
    v = .held ∨ haveLeaderBank t.poh = true ∧ f.sig.packIdx = t.expectPackIdx ∧
      ∃ p, mixin sha t.poh f.sig.slot f.hash f.txns = .ok p ∧
        v = .processed { t with poh := p, expectPackIdx := t.expectPackIdx + 1, idleCnt := 0 } := by
  unfold returnableExecle at h
  rw [if_neg (Nat.not_lt.mpr hl)] at h
  split at h
  · exact .inl (ok.inj h).symm
  · rename_i hr
    split at h
    · cases h
    · split at h
      · exact .inl (ok.inj h).symm
      · rename_i ht
        obtain ⟨p, hm, ho⟩ := bind_ok.mp h
        simp only [Bool.or_eq_true, not_or, Bool.not_eq_true] at hr
        exact .inr ⟨bank_of_not_mustWait hr.1, not_not.mp ht, p, hm,
          (ok.inj ho).symm⟩

lemma returnablePack_done_cases (h : returnablePack t (.donePacking sig d) = .ok v) :
    v = .held ∨ haveLeaderBank t.poh = true ∧ sig.packIdx = t.expectPackIdx ∧
      ∃ p, donePacking t.poh d = .ok p ∧
        v = .processed { t with poh := p, expectPackIdx := t.expectPackIdx + 1, idleCnt := 0 } := by
  simp only [returnablePack] at h
  split at h
  · exact .inl (ok.inj h).symm
  · rename_i hr
    split at h
    · cases h
    · split at h
      · exact .inl (ok.inj h).symm
      · rename_i ht
        obtain ⟨p, hp, ho⟩ := bind_ok.mp h
        exact .inr ⟨bank_of_not_mustWait (Bool.not_eq_true _ ▸ hr), not_not.mp ht, p, hp,
          (ok.inj ho).symm⟩

lemma returnablePack_reduce_cases (h : returnablePack t (.reduceMbBound newMax) = .ok v) :
    haveLeaderBank t.poh = false ∧ v = .dropped { t with idleCnt := 0 } ∨
      haveLeaderBank t.poh = true ∧ v = .processed { t with
        poh := { t.poh with maxMicroblocksPerSlot := (newMax + 1) % wordSize }, idleCnt := 0 } := by
  simp only [returnablePack] at h
  split_ifs at h with hb
  · obtain ⟨p, hl, ho⟩ := bind_ok.mp h
    rw [updateMaxMicroblocks_bank hl] at ho
    exact .inr ⟨hb, (ok.inj ho).symm⟩
  · exact .inl ⟨by simpa using hb, (ok.inj h).symm⟩

lemma returnableReplay_reset_cases (h : returnableReplay t (.reset r) = .ok v) :
    v = .held ∨ haveLeaderBank t.poh = false ∧ ∃ p, reset t.poh r = .ok p ∧
      v = .processed { t with poh := { p with wfsPaused := r.wfsPaused }, idleCnt := 0 } := by
  simp only [returnableReplay] at h
  split_ifs at h with hb
  · exact .inl (ok.inj h).symm
  · obtain ⟨p, ho, hr⟩ := bind_ok.mp h
    exact .inr ⟨by simpa using hb, p, ho, (ok.inj hr).symm⟩

lemma returnableReplay_begin_cases (h : returnableReplay t (.becameLeader b) = .ok v) :
    v = .held ∨ haveLeaderBank t.poh = false ∧ ∃ p, beginLeader t.poh b = .ok p ∧
      v = .processed { t with poh := p, idleCnt := 0 } := by
  simp only [returnableReplay] at h
  split_ifs at h with hb
  · exact .inl (ok.inj h).symm
  · obtain ⟨p, ho, hr⟩ := bind_ok.mp h
    exact .inr ⟨by simpa using hb, p, ho, (ok.inj hr).symm⟩

def ReplayFrag.begins : ReplayFrag → Option BecameLeader
  | .becameLeader b => some b
  | .reset _ | .wfsDone => none

def Sys.announced (s : Sys) : List BecameLeader := s.replayQ.filterMap ReplayFrag.begins

def ReplayFrag.Fits : ReplayFrag → Prop
  | .reset r => r.hashcntPerTick < wordSize ∧ r.ticksPerSlot * r.hashcntPerTick < wordSize
  | .becameLeader b => b.maxMicroblocksInSlot + 1 < wordSize ∧ b.hashcntPerTick < wordSize ∧
    b.ticksPerSlot * b.hashcntPerTick < wordSize
  | .wfsDone => True

structure Quiet (s : Sys) : Prop where
  consumed : s.pending = []
  drained : ∀ f ∈ s.packQ, f = .doneDraining
  closed : s.leader.closed = true
  announced : s.announced = []
  openSlot : openSlot s.log = none
  owner : haveLeaderBank s.tile.poh = true ∧ s.isLeader = true ∧
      s.slotsEnded = s.tile.poh.replayOut.length ∨
    haveLeaderBank s.tile.poh = false ∧
      (s.isLeader = false ∧ s.slotsEnded = s.tile.poh.replayOut.length ∨
        s.isLeader = true ∧ s.slotsEnded + 1 = s.tile.poh.replayOut.length)

structure Queued (s : Sys) : Prop where
  noBank : haveLeaderBank s.tile.poh = false
  openSlot : openSlot s.log = none
  announced : ∃ b, s.announced = [b] ∧ b.slot = s.leader.slot ∧
    s.leader.bound ≤ b.maxMicroblocksInSlot
  counted : s.pending.countP isMicroblock = s.leader.sent

structure Begun (s : Sys) : Prop where
  bank : haveLeaderBank s.tile.poh = true
  openSlot : openSlot s.log = some s.leader.slot
  announced : s.announced = []
  counted : s.tile.poh.microblocksLowerBound + s.pending.countP isMicroblock = s.leader.sent
  room : s.leader.bound < s.tile.poh.maxMicroblocksPerSlot
  word : s.tile.poh.maxMicroblocksPerSlot < wordSize

structure Working (s : Sys) : Prop where
  slots : ∀ it ∈ s.pending, it.sig.slot = s.leader.slot
  slot_lt : s.leader.slot < 2 ^ 32
  order : s.pending.Pairwise fun it _ => it.isMicroblock = true
  unclosed : s.leader.closed = false → ∀ it ∈ s.pending, it.isMicroblock = true
  packOrder : s.packQ.Pairwise fun f g => f.isNumbered = true → g = .doneDraining
  sent_le : s.leader.sent ≤ s.leader.bound
  word : s.leader.bound + 1 < wordSize
  lowered : ∀ n, .reduceMbBound n ∈ s.packQ → s.leader.bound ≤ n ∧ n + 1 < wordSize
  isLeader : s.isLeader = true
  slotsEnded : s.slotsEnded = s.tile.poh.replayOut.length
  tile : Queued s ∨ Begun s

structure OrderInv (s : Sys) : Prop where
  linked : Linked s
  fits : ∀ f ∈ s.replayQ, f.Fits
  ticks : WholeTicks s.tile.poh
  bracketed : Bracketed s.log
  phase : Quiet s ∨ Working s

lemma orderInv_init (inCnt : Nat) : OrderInv (init inCnt) := by
  constructor
  · constructor <;> simp [init, pending, serial]
  · simp [init]
  · simp [init, Machine.new, WholeTicks, wordSize, ulongMax]
  · intro pre b mid e post hs
    simp [init] at hs
  · left
    constructor <;> simp [init, pending, announced, Machine.new, openSlot, haveLeaderBank]

lemma Begun.remaining (g : Begun s) (hs : s.leader.sent ≤ s.leader.bound)
    (hl : s.tile.poh.state = .leader) : maxRemainingMicroblocks s.tile.poh ≠ 0 := by
  have hc := g.counted
  have hr := g.room
  rw [maxRemainingMicroblocks, if_pos hl, wsub_of_le (by omega) g.word]
  omega

lemma Working.unnumbered (w : Working s) (l : Linked s)
    (hu : s.leader.closed = false) : ∀ f ∈ s.packQ, f.isNumbered = false := by
  have hn : s.pending.filterMap onPack = [] := by
    rw [filterMap_eq_nil_iff]
    intro it hm
    have microblock := w.unclosed hu it hm
    cases it with
    | microblock e f => rfl
    | donePacking sig d => cases microblock
  rw [← l.packLink, filter_eq_nil_iff] at hn
  intro f hm
  simpa using hn f hm

section
variable (inv : OrderInv s)
include inv

namespace OrderInv

lemma publish {f : ReplayFrag} (fits : f.Fits)
    (hp : f.begins = none) : OrderInv { s with replayQ := s.replayQ ++ [f] } := by
  have announced : ({ s with replayQ := s.replayQ ++ [f] } : Sys).announced = s.announced := by
    simp [announced, hp]
  refine { inv with linked := inv.linked.frame rfl rfl rfl rfl rfl rfl, fits := ?_, phase := ?_ }
  · exact forall_mem_concat.mpr ⟨inv.fits, fits⟩
  · rcases inv.phase with hu | hw
    · exact .inl { hu with announced := announced.trans hu.announced }
    · refine .inr { hw with tile := ?_ }
      rcases hw.tile with hq | hb
      · exact .inl { hq with announced := announced.symm ▸ hq.announced }
      · exact .inr { hb with announced := announced.trans hb.announced }

lemma publishBecameLeader (ok : EnvOk s (.publishBecameLeader b)) : OrderInv (produce s (.publishBecameLeader b)) := by
  obtain ⟨hi, slot, hm, ht, hs⟩ := ok
  rcases inv.phase with quiet | hw
  · have hp : (produce s (.publishBecameLeader b)).pending = [] := quiet.consumed
    have announced : (produce s (.publishBecameLeader b)).announced = [b] := by
      have hb := quiet.announced
      simp only [announced] at hb
      simp [announced, produce, hb, ReplayFrag.begins]
    refine { inv with linked := inv.linked.frame rfl rfl rfl rfl rfl rfl, fits := ?_, phase := ?_ }
    · exact forall_mem_concat.mpr ⟨inv.fits, ⟨hm, ht, hs⟩⟩
    · have he : haveLeaderBank s.tile.poh = false ∧
          s.slotsEnded = s.tile.poh.replayOut.length := by
        rcases quiet.owner with ⟨_, hl, _⟩ | ⟨hn, ⟨_, he⟩ | ⟨hl, _⟩⟩
        · exact absurd (hi.symm.trans hl) (by decide)
        · exact ⟨hn, he⟩
        · exact absurd (hi.symm.trans hl) (by decide)
      right
      constructor
      · simp [hp]
      · exact slot
      · simp [hp]
      · simp [hp]
      · -- Only draining notices are left of the slot before.
        exact pairwise_of_forall_mem_list fun f _ g hx _ => quiet.drained g hx
      · exact Nat.zero_le _
      · exact hm
      · intro n hx
        cases quiet.drained _ hx
      · rfl
      · exact he.2
      · left
        exact ⟨he.1, quiet.openSlot, ⟨b, announced, rfl, Nat.le_refl _⟩, by rw [hp]; rfl⟩
  · exact absurd (hi.symm.trans hw.isLeader) (by decide)

lemma readSlotEnded (ok : EnvOk s .readSlotEnded) : OrderInv (produce s .readSlotEnded) := by
  have hb : s.slotsEnded < s.tile.poh.replayOut.length := ok
  refine { inv with linked := inv.linked.frame rfl rfl rfl rfl rfl rfl, phase := ?_ }
  rcases inv.phase with hq | hw
  · left
    refine { hq with owner := .inr ?_ }
    rcases hq.owner with ⟨_, _, he⟩ | ⟨hn, ⟨_, he⟩ | ⟨_, ho⟩⟩
    · omega
    · omega
    · exact ⟨hn, .inl ⟨rfl, ho⟩⟩
  · have he := hw.slotsEnded
    omega

lemma sendMicroblock {hash : Hash} {txns : List TxnP} (ok : EnvOk s (.sendMicroblock e hash txns)) :
    OrderInv (produce s (.sendMicroblock e hash txns)) := by
  obtain ⟨unclosed, hr, hi⟩ := ok
  rcases inv.phase with hu | hw
  · exact absurd (unclosed.symm.trans hu.closed) (by decide)
  · obtain ⟨linked, hp⟩ := inv.linked.issue
      (produce s (.sendMicroblock e hash txns)) (.microblock e ⟨s.nextSig, hash, txns⟩) rfl hi
      rfl rfl rfl rfl
      (fun e' => by
        by_cases hs : e = e'
        · subst hs
          simp [produce, onExecle]
        · simp [produce, onExecle, hs, Function.update_of_ne (Ne.symm hs)])
      (by simp [produce, onPack])
    refine { inv with linked := linked, phase := .inr { hw with
      slots := ?_, order := ?_, unclosed := ?_, sent_le := hr, tile := ?_ } }
    · rw [hp]
      exact forall_mem_concat.mpr ⟨hw.slots, Nat.mod_eq_of_lt hw.slot_lt⟩
    · rw [hp, pairwise_append]
      exact ⟨hw.order, pairwise_singleton _ _, fun it hm _ _ => hw.unclosed unclosed it hm⟩
    · rw [hp]
      exact fun _ => forall_mem_concat.mpr ⟨hw.unclosed unclosed, rfl⟩
    · have hc : (produce s (.sendMicroblock e hash txns)).pending.countP isMicroblock =
          s.pending.countP isMicroblock + 1 := by
        rw [hp, countP_append]
        rfl
      rcases hw.tile with hq | hb
      · exact .inl { hq with counted := hc.trans (congrArg (· + 1) hq.counted) }
      · refine .inr { hb with counted := ?_ }
        rw [hc, ← Nat.add_assoc]
        exact congrArg (· + 1) hb.counted

lemma sendDonePacking (ok : EnvOk s (.sendDonePacking d)) : OrderInv (produce s (.sendDonePacking d)) := by
  obtain ⟨unclosed, hi⟩ := ok
  rcases inv.phase with hu | hw
  · exact absurd (unclosed.symm.trans hu.closed) (by decide)
  · obtain ⟨linked, hp⟩ := inv.linked.issue (produce s (.sendDonePacking d))
      (.donePacking s.nextSig d) rfl hi rfl rfl rfl rfl
      (fun e' => by simp [produce, onExecle])
      (by simp [produce, onPack, isNumbered])
    refine { inv with linked := linked, phase := .inr { hw with
      slots := ?_, order := ?_, unclosed := ?_, packOrder := ?_, lowered := ?_, tile := ?_ } }
    · rw [hp]
      exact forall_mem_concat.mpr ⟨hw.slots, Nat.mod_eq_of_lt hw.slot_lt⟩
    · rw [hp, pairwise_append]
      exact ⟨hw.order, pairwise_singleton _ _, fun it hm _ _ => hw.unclosed unclosed it hm⟩
    · intro hr
      cases hr
    · refine pairwise_append.mpr ⟨hw.packOrder, pairwise_singleton _ _, ?_⟩
      intro f hm _ _ hn
      exact absurd (hn.symm.trans (hw.unnumbered inv.linked unclosed f hm)) (by decide)
    · exact fun n hm => hw.lowered n ((mem_concat_of_ne (by simp)).mp hm)
    · have hc : (produce s (.sendDonePacking d)).pending.countP isMicroblock =
          s.pending.countP isMicroblock := by
        rw [hp, countP_append]
        rfl
      rcases hw.tile with hq | hb
      · exact .inl { hq with counted := hc.trans hq.counted }
      · exact .inr { hb with counted := (congrArg _ hc).trans hb.counted }

lemma sendReduceMbBound
    (ok : EnvOk s (.sendReduceMbBound newMax)) : OrderInv (produce s (.sendReduceMbBound newMax)) := by
  obtain ⟨hd, hs, hl⟩ := ok
  have hn : (produce s (.sendReduceMbBound newMax)).packQ.filter isNumbered =
      s.packQ.filter isNumbered := by
    simp [produce, isNumbered]
  rcases inv.phase with hu | hw
  · exact absurd (hd.symm.trans hu.closed) (by decide)
  · have word := hw.word
    refine { inv with linked := inv.linked.frame rfl rfl rfl rfl rfl hn, phase := .inr ?_ }
    refine { hw with packOrder := ?_, sent_le := hs, word := ?_, lowered := ?_, tile := ?_ }
    · refine pairwise_append.mpr ⟨hw.packOrder, pairwise_singleton _ _, ?_⟩
      intro f hm _ _ isNumbered
      exact absurd (isNumbered.symm.trans (hw.unnumbered inv.linked hd f hm)) (by decide)
    · exact Nat.lt_of_le_of_lt (Nat.add_le_add_right hl 1) word
    · intro n hm
      rcases mem_concat.mp hm with ho | hc
      · obtain ⟨ha, hf⟩ := hw.lowered n ho
        exact ⟨Nat.le_trans hl ha, hf⟩
      · cases hc
        exact ⟨Nat.le_refl _, Nat.lt_of_le_of_lt (Nat.add_le_add_right hl 1) word⟩
    · rcases hw.tile with hq | he
      · obtain ⟨b, announced, ht, hb⟩ := hq.announced
        exact Or.inl { hq with announced := ⟨b, announced, ht, Nat.le_trans hl hb⟩ }
      · exact Or.inr { he with room := Nat.lt_of_le_of_lt hl he.room }

lemma sendDoneDraining : OrderInv (produce s .sendDoneDraining) := by
  have hn : (produce s .sendDoneDraining).packQ.filter isNumbered =
      s.packQ.filter isNumbered := by
    simp [produce, isNumbered]
  refine { inv with linked := inv.linked.frame rfl rfl rfl rfl rfl hn, phase := ?_ }
  rcases inv.phase with hu | hw
  · exact .inl { hu with drained := forall_mem_concat.mpr ⟨hu.drained, rfl⟩ }
  · refine .inr { hw with packOrder := ?_, lowered := ?_, tile := ?_ }
    · refine pairwise_append.mpr ⟨hw.packOrder, pairwise_singleton _ _, ?_⟩
      intro f _ g hm _
      exact mem_singleton.mp hm
    · exact fun n hm => hw.lowered n ((mem_concat_of_ne (by simp)).mp hm)
    · rcases hw.tile with hq | hb
      · exact .inl { hq with }
      · exact .inr { hb with }

end OrderInv

lemma OrderInv.afterAdvance {u : Tile} {a : Advanced} (ht : u.expectPackIdx = s.tile.expectPackIdx)
    (ha : advance sha s.tile.poh clock = .ok a) (hd : u.poh = a.poh) : OrderInv { s with tile := u } := by
  obtain ⟨he, _, hp, _, hx, ho, _⟩ := (advance_hashed ha).fields
  rw [← hd] at he hp hx ho
  refine { inv with linked := inv.linked.frame rfl rfl rfl ht rfl rfl
                    ticks := inv.ticks.of_same he hp, phase := ?_ }
  have hm := advance_bank ha
  rw [← hd] at hm
  rcases inv.phase with hu | hw
  · refine .inl { hu with owner := ?_ }
    rcases hm with ⟨bank, hc⟩ | ⟨hl, _, noBank, hc⟩
    · dsimp only
      rw [bank, hc]
      exact hu.owner
    · -- The slot ended: replay is told, and PoH follows.
      have hh := (haveLeaderBank_iff _).mpr (.inr hl)
      rcases hu.owner with ⟨_, hr, hv⟩ | ⟨hk, _⟩
      · exact .inr ⟨noBank, .inr ⟨hr, (congrArg (· + 1) hv).trans hc.symm⟩⟩
      · exact absurd (hh.symm.trans hk) (by decide)
  · rcases hm with ⟨bank, hc⟩ | ⟨hl, hn, _, _⟩
    · refine .inr { hw with slotsEnded := hw.slotsEnded.trans (congrArg _ hc.symm), tile := ?_ }
      rcases hw.tile with hq | hb
      · exact .inl { hq with noBank := bank.trans hq.noBank }
      · refine .inr { hb with bank := bank.trans hb.bank, counted := ?_, room := ?_, word := ?_ }
        · exact (congrArg (· + _) ho).trans hb.counted
        · exact hx.symm ▸ hb.room
        · exact hx.symm ▸ hb.word
    · have hh := (haveLeaderBank_iff _).mpr (.inr hl)
      rcases hw.tile with hq | hb
      · exact absurd (hh.symm.trans hq.noBank) (by decide)
      · exact absurd hn (hb.remaining hw.sent_le hl)

lemma OrderInv.samePoh {u : Tile} (he : u.expectPackIdx = s.tile.expectPackIdx) (hp : u.poh = s.tile.poh) :
    OrderInv { s with tile := u } := by
  obtain ⟨p, i, n, c, b⟩ := u
  cases he
  cases hp
  refine { inv with linked := inv.linked.frame rfl rfl rfl rfl rfl rfl, phase := ?_ }
  rcases inv.phase with hu | hw
  · exact .inl { hu with }
  · refine .inr { hw with tile := ?_ }
    rcases hw.tile with hq | hb
    · exact .inl { hq with }
    · exact .inr { hb with }

lemma OrderInv.mixin {rest : List ExecleFrag} (hh : s.execleQ e = f :: rest) (bank : haveLeaderBank s.tile.poh = true)
    (ht : f.sig.packIdx = s.tile.expectPackIdx) (hm : mixin sha s.tile.poh f.sig.slot f.hash f.txns = .ok p) :
    OrderInv (s.afterExecle e f rest (.processed
      { s.tile with poh := p, expectPackIdx := s.tile.expectPackIdx + 1, idleCnt := 0 })) := by
  obtain ⟨front, back, split, hb⟩ := inv.linked.execleHead hh
  have hf : front = [] := (inv.linked.inOrder split).2 ht
  subst hf
  obtain ⟨linked, pending⟩ := inv.linked.consume (s.afterExecle e f rest (.processed
      { s.tile with poh := p, expectPackIdx := s.tile.expectPackIdx + 1, idleCnt := 0 }))
    (.mixin e f) split rfl rfl rfl rfl rfl
    (fun e' => by
      by_cases hs : e' = e
      · subst hs
        simp [afterExecle, hb]
      · have link := inv.linked.execleLink e'
        simp only [split, nil_append, filterMap_cons, onExecle,
          if_neg (Ne.symm hs)] at link
        simp [afterExecle, Function.update_of_ne hs, link])
    (inv.linked.packLink.trans (by rw [split]; rfl))
  obtain ⟨_, hl, hu, hw, ha, ho⟩ := mixin_bank inv.ticks hm
  refine { inv with linked := linked, ticks := hw, phase := ?_
                    bracketed := inv.bracketed.append _ (by intro h; cases h) }
  rcases inv.phase with quiet | work
  · exact absurd (split.symm.trans quiet.consumed) (by simp)
  · have slots := work.slots
    have order := work.order
    have unclosed := work.unclosed
    simp only [split, nil_append] at slots order unclosed
    refine Or.inr { work with slots := ?_, order := ?_, unclosed := ?_, tile := ?_
                              slotsEnded := work.slotsEnded.trans (congrArg _ hu.symm) }
    · rw [pending]
      exact fun it hx => slots it (.tail _ hx)
    · rw [pending]
      exact (pairwise_cons.mp order).2
    · rw [pending]
      exact fun hp it hx => unclosed hp it (.tail _ hx)
    · rcases work.tile with hq | begun
      · exact absurd (bank.symm.trans hq.noBank) (by decide)
      · have counted := begun.counted
        have hi : (microblock e f).isMicroblock = true := rfl
        rw [split, nil_append, countP_cons_of_pos hi] at counted
        refine Or.inr { begun with bank := (haveLeaderBank_iff _).mpr (Or.inr hl)
                                   openSlot := ?_, counted := ?_, room := ?_, word := ?_ }
        · exact (openSlot_append _ _).trans begun.openSlot
        · rw [pending]
          dsimp only [afterExecle]
          omega
        · exact ha.symm ▸ begun.room
        · exact ha.symm ▸ begun.word

lemma OrderInv.donePacking (hh : s.packQ = .donePacking sig d :: rest) (bank : haveLeaderBank s.tile.poh = true)
    (ht : sig.packIdx = s.tile.expectPackIdx) (ha : donePacking s.tile.poh d = .ok p) :
    OrderInv (s.afterPack (.donePacking sig d) rest (.processed
      { s.tile with poh := p, expectPackIdx := s.tile.expectPackIdx + 1, idleCnt := 0 })) := by
  obtain ⟨front, back, split, hi⟩ := inv.linked.packHead hh
  have hf : front = [] := (inv.linked.inOrder split).2 ht
  subst hf
  obtain ⟨linked, pending⟩ := inv.linked.consume (s.afterPack (.donePacking sig d) rest (.processed
      { s.tile with poh := p, expectPackIdx := s.tile.expectPackIdx + 1, idleCnt := 0 }))
    (.donePacking sig d) split rfl rfl rfl rfl rfl
    (fun e => (inv.linked.execleLink e).trans (by rw [split]; rfl)) hi.symm
  obtain ⟨_, clock, he⟩ := donePacking_bank ha
  refine { inv with linked := linked, ticks := inv.ticks.of_same clock.1 clock.2.2.1, phase := ?_
                    bracketed := inv.bracketed.append _ nofun }
  rcases inv.phase with quiet | hw
  · exact absurd (split.symm.trans quiet.consumed) (by simp)
  · have hs := hw.slots
    have ho := hw.order
    have hp := hw.packOrder
    simp only [split, nil_append] at hs ho
    rw [hh] at hp
    have last : back = [] := by
      rw [eq_nil_iff_forall_not_mem]
      intro it hx
      have hm := (pairwise_cons.mp ho).1 it hx
      cases hm
    rcases hw.tile with hq | begun
    · exact absurd (bank.symm.trans hq.noBank) (by decide)
    · refine Or.inl { begun with consumed := pending.trans last, drained := ?_, closed := ?_
                                 openSlot := ?_, owner := ?_ }
      · exact fun f hx => (pairwise_cons.mp hp).1 f hx rfl
      · rw [← Bool.not_eq_false]
        intro hu
        have hm := hw.unclosed hu (.donePacking sig d) (by simp [split])
        cases hm
      · refine (openSlot_append _ _).trans ?_
        rw [begun.openSlot, ← hs (.donePacking sig d) mem_cons_self]
        exact if_pos rfl
      · rcases he with ⟨hl, hb⟩ | ⟨hn, hb⟩
        · exact .inl ⟨(haveLeaderBank_iff _).mpr (.inr hl), hw.isLeader,
            hw.slotsEnded.trans (congrArg _ hb.symm)⟩
        · exact .inr ⟨hn, .inr ⟨hw.isLeader,
            (congrArg (· + 1) hw.slotsEnded).trans hb.symm⟩⟩

end

lemma Working.popPack {f : PackFrag} (hw : Working s)
    (hh : s.packQ = f :: rest) : Working { s with packQ := rest } := by
  have packOrder := hw.packOrder
  rw [hh] at packOrder
  refine { hw with packOrder := (pairwise_cons.mp packOrder).2, lowered := ?_, tile := ?_ }
  · exact fun n hm => hw.lowered n (hh ▸ .tail _ hm)
  · rcases hw.tile with hq | hb
    · exact .inl { hq with }
    · exact .inr { hb with }

section
variable (inv : OrderInv s)
include inv

lemma OrderInv.popPack {f : PackFrag} (hh : s.packQ = f :: rest) (hp : f.isNumbered = false) :
    OrderInv { s with packQ := rest } := by
  have hn : rest.filter isNumbered = s.packQ.filter isNumbered := by
    rw [hh, filter_cons_of_neg (by simp [hp])]
  refine { inv with linked := inv.linked.frame rfl rfl rfl rfl rfl hn, phase := ?_ }
  rcases inv.phase with hq | hw
  · refine .inl { hq with drained := fun g hm => hq.drained g ?_ }
    exact hh ▸ .tail _ hm
  · exact .inr (hw.popPack hh)

lemma OrderInv.reduceMbBound (hh : s.packQ = .reduceMbBound newMax :: rest) (hk : haveLeaderBank s.tile.poh = true) :
    OrderInv { s with packQ := rest, tile := { s.tile with
      poh := { s.tile.poh with maxMicroblocksPerSlot := (newMax + 1) % wordSize }, idleCnt := 0 } } := by
  have hp := inv.popPack hh rfl
  refine { hp with linked := hp.linked.frame rfl rfl rfl rfl rfl rfl, phase := ?_ }
  have hm : .reduceMbBound newMax ∈ s.packQ := hh ▸ .head _
  rcases inv.phase with hu | hw
  · cases hu.drained _ hm
  · obtain ⟨ha, hf⟩ := hw.lowered newMax hm
    refine .inr { hw.popPack hh with tile := ?_ }
    rcases hw.tile with hq | hb
    · exact absurd (hk.symm.trans hq.noBank) (by decide)
    · refine .inr { hb with room := ?_, word := Nat.mod_lt _ (by decide) }
      rw [Nat.mod_eq_of_lt hf]
      exact Nat.lt_succ_of_le ha

lemma OrderInv.wfsDone {rest : List ReplayFrag} (hh : s.replayQ = .wfsDone :: rest) :
    OrderInv { s with replayQ := rest, tile := { s.tile with poh := wfsDone s.tile.poh, idleCnt := 0 } } := by
  have announced : s.announced = rest.filterMap ReplayFrag.begins := by
    rw [announced, hh]
    rfl
  refine { inv with linked := inv.linked.frame rfl rfl rfl rfl rfl rfl, phase := ?_
                    fits := fun f hm => inv.fits f (hh ▸ .tail _ hm) }
  rcases inv.phase with hu | hw
  · exact .inl { hu with announced := announced.symm.trans hu.announced }
  · refine .inr { hw with tile := ?_ }
    rcases hw.tile with hq | he
    · obtain ⟨b, ho, hs, hb⟩ := hq.announced
      exact .inl { hq with announced := ⟨b, announced.symm.trans ho, hs, hb⟩ }
    · exact .inr { he with announced := announced.symm.trans he.announced }

lemma OrderInv.reset {rest : List ReplayFrag} (hh : s.replayQ = .reset r :: rest)
    (noBank : haveLeaderBank s.tile.poh = false) (h : reset s.tile.poh r = .ok p) :
    OrderInv (s.afterReplay (.reset r) rest (.processed
      { s.tile with poh := { p with wfsPaused := r.wfsPaused }, idleCnt := 0 })) := by
  have announced : s.announced = rest.filterMap ReplayFrag.begins := by
    rw [announced, hh]
    rfl
  obtain ⟨still, hu, _⟩ := reset_noBank noBank h
  obtain ⟨ht, hs⟩ := inv.fits (.reset r) (hh ▸ .head _)
  have hc : openSlot s.log = none := by
    rcases inv.phase with quiet | work
    · exact quiet.openSlot
    · rcases work.tile with queued | hb
      · exact queued.openSlot
      · exact absurd (noBank.symm.trans hb.bank) (by decide)
  have hl : openSlot (s.log ++ [.reset r]) = none := (openSlot_append _ _).trans hc
  have hw : WholeTicks p := reset_wholeTicks inv.ticks hs ht h
  refine { linked := inv.linked.frame rfl rfl (by simp [afterReplay, Event.item]) rfl rfl rfl
           fits := fun f hm => inv.fits f (hh ▸ .tail _ hm)
           ticks := hw
           bracketed := inv.bracketed.append _ (fun _ => hc)
           phase := ?_ }
  rcases inv.phase with quiet | work
  · refine Or.inl { quiet with announced := announced.symm.trans quiet.announced
                               openSlot := hl, owner := ?_ }
    rcases quiet.owner with ⟨bank, _⟩ | ⟨_, hd⟩
    · exact absurd (noBank.symm.trans bank) (by decide)
    · refine .inr ⟨still, ?_⟩
      dsimp only [afterReplay]
      rw [hu]
      exact hd
  · refine Or.inr { work with slotsEnded := work.slotsEnded.trans (congrArg _ hu.symm), tile := ?_ }
    rcases work.tile with queued | hb
    · obtain ⟨b, only, slot, ho⟩ := queued.announced
      exact Or.inl { queued with noBank := still, openSlot := hl
                                 announced := ⟨b, announced.symm.trans only, slot, ho⟩ }
    · exact absurd (noBank.symm.trans hb.bank) (by decide)

lemma OrderInv.becameLeader {rest : List ReplayFrag} (hh : s.replayQ = .becameLeader b :: rest) (hg : beginLeader s.tile.poh b = .ok p) :
    OrderInv (s.afterReplay (.becameLeader b) rest (.processed
      { s.tile with poh := p, idleCnt := 0 })) := by
  have announced : s.announced = b :: rest.filterMap ReplayFrag.begins := by
    rw [announced, hh]
    rfl
  obtain ⟨bank, hd, _, hl, ha⟩ := beginLeader_bank hg
  obtain ⟨hm, ht, hs⟩ := inv.fits (.becameLeader b) (hh ▸ .head _)
  rcases inv.phase with hu | hw
  · exact absurd (announced.symm.trans hu.announced) (by simp)
  rcases hw.tile with hq | he
  · obtain ⟨b', ho, hc, hb⟩ := hq.announced
    obtain ⟨rfl, hn⟩ := List.cons.inj (announced.symm.trans ho)
    refine { linked := inv.linked.frame rfl rfl (by simp [afterReplay, Event.item]) rfl rfl rfl
             fits := fun f hx => inv.fits f (hh ▸ .tail _ hx)
             ticks := beginLeader_wholeTicks inv.ticks hs ht hg
             bracketed := inv.bracketed.append _ (fun _ => hq.openSlot)
             phase := .inr { hw with
               slotsEnded := hw.slotsEnded.trans (congrArg _ hd.symm), tile := .inr ?_ } }
    rw [Nat.mod_eq_of_lt hm] at ha
    refine { bank := bank, openSlot := ?_, announced := hn, counted := ?_, room := ?_, word := ?_ }
    · exact (openSlot_append _ _).trans (congrArg some hc)
    · exact (congrArg (· + _) hl).trans ((Nat.zero_add _).trans hq.counted)
    · exact ha.symm ▸ Nat.lt_succ_of_le hb
    · exact ha.symm ▸ hm
  · exact absurd (announced.symm.trans he.announced) (by simp)

lemma OrderInv.pollExecle (hl : LiveSlot s (.pollExecle e))
    (h : sysStep sha s (.pollExecle e) = .ok u) : OrderInv u := by
  simp only [sysStep] at h
  split at h
  · cases h
    exact inv
  · rename_i f rest hh
    obtain ⟨v, hr, rfl⟩ := map_ok.mp h
    have hs : s.tile.poh.nextLeaderSlot ≤ f.sig.slot := hl f (by rw [hh]; rfl)
    rcases returnableExecle_cases hs hr with rfl | ⟨hb, ht, p, hm, rfl⟩
    · exact inv
    · exact inv.mixin hh hb ht hm

lemma OrderInv.pollPack (h : sysStep sha s .pollPack = .ok u) : OrderInv u := by
  simp only [sysStep] at h
  split at h
  · cases h
    exact inv
  · rename_i f rest hh
    obtain ⟨v, hr, rfl⟩ := map_ok.mp h
    cases f with
    | doneDraining =>
      cases hr
      exact (inv.popPack hh rfl).samePoh rfl rfl
    | reduceMbBound newMax =>
      rcases returnablePack_reduce_cases hr with ⟨_, rfl⟩ | ⟨hb, rfl⟩
      · exact (inv.popPack hh rfl).samePoh rfl rfl
      · exact inv.reduceMbBound hh hb
    | donePacking sig d =>
      rcases returnablePack_done_cases hr with rfl | ⟨hb, ht, p, hp, rfl⟩
      · exact inv
      · exact inv.donePacking hh hb ht hp

lemma OrderInv.pollReplay (h : sysStep sha s .pollReplay = .ok u) : OrderInv u := by
  simp only [sysStep] at h
  split at h
  · cases h
    exact inv
  · rename_i f rest hh
    obtain ⟨v, hr, rfl⟩ := map_ok.mp h
    cases f with
    | wfsDone =>
      cases hr
      exact inv.wfsDone hh
    | reset r =>
      rcases returnableReplay_reset_cases hr with rfl | ⟨hn, p, ho, rfl⟩
      · exact inv
      · exact inv.reset hh hn ho
    | becameLeader b =>
      rcases returnableReplay_begin_cases hr with rfl | ⟨_, p, ho, rfl⟩
      · exact inv
      · exact inv.becameLeader hh ho

lemma OrderInv.step {a : Action} (ok : EnvOk s a ∧ LiveSlot s a) (h : sysStep sha s a = .ok u) : OrderInv u := by
  obtain ⟨ok, hl⟩ := ok
  cases a with
  | pollExecle e => exact inv.pollExecle hl h
  | pollPack => exact inv.pollPack h
  | pollReplay => exact inv.pollReplay h
  | afterCredit replayStatus clock =>
    obtain ⟨t, hc, rfl⟩ := map_ok.mp h
    obtain ⟨he, hs | ⟨a, ha, hp⟩⟩ := afterCredit_cases hc
    · exact inv.samePoh he hs
    · exact inv.afterAdvance he ha hp
  | publishReset r => cases h; exact inv.publish ok rfl
  | publishWfsDone => cases h; exact inv.publish trivial rfl
  | publishBecameLeader b => cases h; exact inv.publishBecameLeader ok
  | readSlotEnded => cases h; exact inv.readSlotEnded ok
  | sendMicroblock e hash txns => cases h; exact inv.sendMicroblock ok
  | sendDonePacking d => cases h; exact inv.sendDonePacking ok
  | sendReduceMbBound newMax => cases h; exact inv.sendReduceMbBound ok
  | sendDoneDraining => cases h; exact inv.sendDoneDraining

/-- What the tile has done so far: of the frags pack numbered consecutively it processed a
prefix, each once and in order, no frag that waits on a link was overtaken, and nothing of
replay came between the start of a leader slot and its done_packing. -/
structure InOrder (s : Sys) : Prop where
  numbered : ∀ i it, s.issued[i]? = some it → it.sig.packIdx = serial i
  processed : s.log.filterMap Event.item = s.issued.take s.consumed
  consumed_le : s.consumed ≤ s.issued.length
  execleTurn : ∀ e f, f ∈ s.execleQ e → 0 ≤ serialDiff f.sig.packIdx s.tile.expectPackIdx
  packTurn : ∀ sig d, .donePacking sig d ∈ s.packQ →
    0 ≤ serialDiff sig.packIdx s.tile.expectPackIdx
  bracketed : Bracketed s.log

lemma OrderInv.inOrder : InOrder s := by
  have hl := inv.linked
  refine ⟨hl.numbered, hl.processed, hl.consumed_le, ?_, ?_, inv.bracketed⟩
  · intro e f hm
    rw [hl.execleLink e, mem_filterMap] at hm
    obtain ⟨it, hp, on⟩ := hm
    obtain ⟨front, back, hs⟩ := append_of_mem hp
    have ht := (hl.inOrder hs).1
    cases it with
    | microblock e' f' =>
      simp only [onExecle, Option.ite_none_right_eq_some, Option.some.injEq] at on
      exact on.2 ▸ ht
    | donePacking sig d => cases on
  · intro sig d hm
    have hn : .donePacking sig d ∈ s.packQ.filter isNumbered :=
      mem_filter.mpr ⟨hm, rfl⟩
    rw [hl.packLink, mem_filterMap] at hn
    obtain ⟨it, hp, on⟩ := hn
    obtain ⟨front, back, hs⟩ := append_of_mem hp
    have ht := (hl.inOrder hs).1
    cases it with
    | microblock e f => cases on
    | donePacking sig' d' => cases on; exact ht

end

lemma OrderInv.stale (sha : Sha256) (hi : OrderInv s) (stale : ¬ LiveSlot s (.pollExecle e)) :
    ∃ t, sysStep sha s (.pollExecle e) = .ok t ∧ ¬ InOrder t := by
  obtain ⟨f, stale⟩ := not_forall.mp stale
  obtain ⟨hh, he⟩ := Classical.not_imp.mp stale
  obtain ⟨rest, hq⟩ : ∃ rest, s.execleQ e = f :: rest := by
    cases q : s.execleQ e with
    | nil => rw [q] at hh; cases hh
    | cons g rest => rw [q] at hh; cases hh; exact ⟨rest, rfl⟩
  have hd : ∃ t, returnableExecle sha s.tile f = .ok (.dropped t) := by
    rw [returnableExecle, if_pos (Nat.lt_of_not_le he)]
    exact ⟨_, rfl⟩
  obtain ⟨t, hd⟩ := hd
  refine ⟨s.afterExecle e f rest (.dropped t), by simp [sysStep, hq, hd, Except.map], ?_⟩
  intro ho
  have hb : s.consumed + 1 ≤ s.issued.length := ho.consumed_le
  have hp : s.log.filterMap Event.item = s.issued.take (s.consumed + 1) := by
    have hn : [Event.droppedExecle e f].filterMap Event.item = [] := rfl
    simpa [afterExecle, hn] using ho.processed
  rw [hi.linked.processed] at hp
  have hl := congrArg List.length hp
  rw [length_take, length_take] at hl
  omega

lemma OrderInv.live_of_inOrder {actions : List Action} (hi : OrderInv s)
    (he : Allowed (sysStep sha) EnvOk s actions)
    (ho : ∀ front back t, actions = front ++ back → run (sysStep sha) s front = .ok t →
      InOrder t) : Allowed (sysStep sha) LiveSlot s actions := by
  induction actions generalizing s with
  | nil => trivial
  | cons a rest ih =>
    have hl : LiveSlot s a := by
      by_contra ht
      cases a with
      | pollExecle e =>
        obtain ⟨t, hs, hd⟩ := hi.stale sha ht
        exact hd (ho [.pollExecle e] rest t rfl
          ((run_cons_ok _).mpr ⟨t, hs, rfl⟩))
      | _ => exact ht trivial
    refine ⟨hl, ?_⟩
    have ha := he.2
    cases hs : sysStep sha s a with
    | error fault => trivial
    | ok t =>
      rw [hs] at ha
      refine ih (hi.step ⟨he.1, hl⟩ hs) ha fun front back r hp h => ?_
      exact ho (a :: front) back r (congrArg (a :: ·) hp)
        ((run_cons_ok _).mpr ⟨t, hs, h⟩)

/-- In every run of the tile and its producers, what was done is in order after each step if
and only if no step takes the fast path for abandoned slots on a frag of the current one. -/
theorem in_order_iff_live (sha : Sha256) (inCnt : Nat) (actions : List Action)
    (env : Allowed (sysStep sha) EnvOk (init inCnt) actions) :
    (∀ front back t, actions = front ++ back → run (sysStep sha) (init inCnt) front = .ok t →
      InOrder t) ↔ Allowed (sysStep sha) LiveSlot (init inCnt) actions := by
  constructor
  · exact (orderInv_init inCnt).live_of_inOrder env
  · rintro live front back t rfl done
    have inv : OrderInv t := run_allowed_preserves _ _ OrderInv (fun _ _ _ inv ok stepped => inv.step ok stepped)
      (orderInv_init inCnt) (allowed_and (allowed_front env) (allowed_front live)) done
    exact inv.inOrder

instance decidableEnvOk (s : Sys) : ∀ a, Decidable (EnvOk s a) := fun a => by
  cases a <;> unfold EnvOk <;> infer_instance

instance decidableLiveSlot (s : Sys) : ∀ a, Decidable (LiveSlot s a) := fun a => by
  cases a <;> unfold LiveSlot <;> infer_instance

def forkReset : Reset :=
  { tightReset with completedSlot := 5, nextLeaderSlot := ulongMax, completedBlockId := 2 }

def overtakingRun : List Action :=
  [.publishReset forkReset, .pollReplay, .publishReset tightReset, .publishBecameLeader tightLeader,
    .sendMicroblock 0 5 landed, .pollExecle 0]

def onePacked : DonePacking := ⟨1, 0, 0, 0, 0, .microblock, 0, 0⟩

/-- A microblock of the announced slot reaches the tile before the announcement does. It is dropped as if it
were of an abandoned slot, and the slot's own done_packing stops the tile. -/
theorem live_microblock_dropped :
    Allowed (sysStep identitySha) EnvOk (init 3)
      (overtakingRun ++ [.pollReplay, .pollReplay, .sendDonePacking onePacked, .pollPack]) ∧
    (∃ t, run (sysStep identitySha) (init 3) overtakingRun = .ok t ∧ ¬ InOrder t) ∧
    run (sysStep identitySha) (init 3)
      (overtakingRun ++ [.pollReplay, .pollReplay, .sendDonePacking onePacked, .pollPack]) =
        .error .donePackingCount := by
  refine ⟨by decide, ⟨_, rfl, fun order => ?_⟩, rfl⟩
  have processed := order.processed
  cases processed

def orderlyRun : List Action :=
  [.publishReset tightReset, .pollReplay, .publishBecameLeader tightLeader, .sendMicroblock 0 5 landed,
    .sendDonePacking onePacked, .pollPack, .pollExecle 0, .pollReplay, .pollPack, .pollExecle 0,
    .pollPack]

theorem orderly_slot_in_order :
    Allowed (sysStep identitySha) LiveSlot (init 3) orderlyRun ∧
    ∃ t, run (sysStep identitySha) (init 3) orderlyRun = .ok t ∧ t.consumed = 2 ∧ InOrder t := by
  have live : Allowed (sysStep identitySha) LiveSlot (init 3) orderlyRun := by decide
  refine ⟨live, _, rfl, rfl, ?_⟩
  exact (in_order_iff_live identitySha 3 orderlyRun (by decide)).mpr live orderlyRun [] _ rfl rfl

end Firebam.Poh
