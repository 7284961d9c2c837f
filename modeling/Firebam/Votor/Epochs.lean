import Firebam.Votor.Frames

/-! Which ranking a slot is judged by. The tile owns two buffers and writes the ranking of every
third epoch over that of the first. -/
namespace Firebam.Votor
open Lib List

/- fd_epoch_info_msg_t: the first slot, the ranking of its stakes, and our own rank in it. The
ranking is missing if no validator survives. -/
structure EpochMsg where
  startSlot : Nat
  ranking : Option EpochInfo
  ownRank : Option Nat

structure Tile where
  pool : Pool
  currEpochInfo : Option Buffer
  nextEpochInfo : Option Buffer

inductive TileOp where
  | epoch
  | addVote (vote : Vote)
  | addCert (cert : Cert)
  | addBlock (block parent : BlockId)

def Tile.handleEpoch (t : Tile) (msg : EpochMsg) : Tile :=
  let info := match t.currEpochInfo, t.nextEpochInfo with
    | none, _ => .curr
    | some _, none => .next
    | some oldest, some _ => oldest
  let pool := { t.pool with buffer := match msg.ranking with
    | some ranking => fun b => if b = info then ranking else t.pool.buffer b
    | none => t.pool.buffer }
  { pool := pool.advanceEpoch info msg.ownRank msg.startSlot
    currEpochInfo := match t.currEpochInfo, t.nextEpochInfo with
      | none, _ => some info
      | some first, none => some first
      | some _, some second => some second
    nextEpochInfo := match t.currEpochInfo with
      | none => t.nextEpochInfo
      | some _ => some info }

structure Tile.Run where
  tile : Tile
  epochs : Nat

section

variable (msgs : Nat → EpochMsg)

/- One step; the epoch messages come in the order of the epochs. -/
def Tile.Run.step (r : Tile.Run) : TileOp → Except PoolFault Tile.Run
  | .epoch => .ok ⟨r.tile.handleEpoch (msgs r.epochs), r.epochs + 1⟩
  | .addVote vote => do
    let (_, pool) ← r.tile.pool.addVote vote
    .ok { r with tile := { r.tile with pool := pool } }
  | .addCert cert => do
    let (_, pool) ← r.tile.pool.addCert cert
    .ok { r with tile := { r.tile with pool := pool } }
  | .addBlock block parent => do
    let pool ← r.tile.pool.addBlock block parent
    .ok { r with tile := { r.tile with pool := pool } }

def Tile.Run.start (slotMax slot : Nat) (buffer : Buffer → EpochInfo) : Tile.Run :=
  ⟨⟨.init slotMax slot buffer, none, none⟩, 0⟩

def InEpoch (k slot : Nat) : Prop := (msgs k).startSlot ≤ slot ∧ slot < (msgs (k + 1)).startSlot

def Tile.Run.OwnEpoch (r : Tile.Run) : Prop :=
  ∀ x ∈ r.tile.pool.judged, ∃ k, InEpoch msgs k x.1 ∧ (msgs k).ranking = some x.2

def Live (epochs slot : Nat) : Prop :=
  ∃ k, k < epochs ∧ epochs ≤ k + 2 ∧ InEpoch msgs k slot

/- The condition: a vote, certificate or block is for a slot of the last two epochs, and when the
next epoch comes it has a ranking and nothing is held of the oldest. -/
def Tile.Run.Timely (r : Tile.Run) : TileOp → Prop
  | .epoch => (msgs r.epochs).ranking.isSome ∧ (∀ s ∈ r.tile.pool.slotStates, Live msgs (r.epochs + 1) s.slot) ∧
      ∀ x ∈ r.tile.pool.waiting, Live msgs (r.epochs + 1) x.2.slot
  | .addVote vote => Live msgs r.epochs vote.slot
  | .addCert cert => Live msgs r.epochs cert.slot
  | .addBlock block _ => Live msgs r.epochs block.slot

def RightFor (slot : Nat) (info : EpochInfo) : Prop := ∃ k, InEpoch msgs k slot ∧ (msgs k).ranking = some info

def bufferOf (k : Nat) : Buffer := if k % 2 = 0 then .curr else .next

def currOf : Nat → Option Buffer
  | 0 => none
  | 1 => some (bufferOf 0)
  | n + 2 => some (bufferOf n)

def nextOf : Nat → Option Buffer
  | 0 | 1 => none
  | n + 2 => some (bufferOf (n + 1))

def nextStart : Nat → Nat
  | 0 | 1 => wordSize - 1
  | n + 2 => (msgs (n + 1)).startSlot

def Points (epochs slot : Nat) (b : Buffer) : Prop :=
  ∃ k, k < epochs ∧ epochs ≤ k + 2 ∧ InEpoch msgs k slot ∧ b = bufferOf k

structure Pool.Right (epochs : Nat) (p : Pool) : Prop where
  curr : p.currEpochInfo = currOf epochs
  next : p.nextEpochInfo = nextOf epochs
  start : p.nextEpochSlot = nextStart msgs epochs
  rankings : ∀ k, k < epochs → epochs ≤ k + 2 → (msgs k).ranking = some (p.buffer (bufferOf k))
  states : ∀ s ∈ p.slotStates, Points msgs epochs s.slot s.epochInfo
  waiting : ∀ x ∈ p.waiting, Live msgs epochs x.2.slot
  judged : ∀ x ∈ p.judged, RightFor msgs x.1 x.2

end

section

variable {msgs : Nat → EpochMsg} {epochs slot : Nat} {p p' : Pool} {state state' : SlotState} {block parent : BlockId}
  {cert : Cert}

namespace Pool.Right

variable {result : PoolResult}

variable (hri : p.Right msgs epochs)
include hri

lemma congr (curr : p'.currEpochInfo = p.currEpochInfo) (next : p'.nextEpochInfo = p.nextEpochInfo)
    (start : p'.nextEpochSlot = p.nextEpochSlot) (hb : p'.buffer = p.buffer) (states : p'.slotStates ⊆ p.slotStates)
    (waiting : p'.waiting ⊆ p.waiting) (judged : p'.judged = p.judged) : p'.Right msgs epochs where
  curr := curr.trans hri.curr
  next := next.trans hri.next
  start := start.trans hri.start
  rankings := hb ▸ hri.rankings
  states s m := hri.states s (states m)
  waiting x m := hri.waiting x (waiting m)
  judged := judged ▸ hri.judged

lemma push (event : PoolEvent) : (p.push event).Right msgs epochs :=
  hri.congr rfl rfl rfl rfl (fun _ m => m) (fun _ m => m) rfl

lemma repair (block : BlockId) : (p.repair block).Right msgs epochs :=
  hri.congr rfl rfl rfl rfl (fun _ m => m) (fun _ m => m) rfl

lemma pushReady (ready : List ParentReady) : (p.pushReady ready).Right msgs epochs := by
  rw [pushReady_eq]
  exact hri.congr rfl rfl rfl rfl (fun _ m => m) (fun _ m => m) rfl

lemma trackers (finality : FinalityTracker) (ready : ReadyTracker) :
    Pool.Right msgs epochs { p with finalityTracker := finality, readyTracker := ready } :=
  hri.congr rfl rfl rfl rfl (fun _ m => m) (fun _ m => m) rfl

lemma select (hf : (msgs 1).startSlot < wordSize) (hl : Live msgs epochs slot) :
    ∃ b, p.selectInfo slot = some b ∧ Points msgs epochs slot b := by
  obtain ⟨k, hk, hr, hm⟩ := hl
  refine ⟨bufferOf k, ?_, k, hk, hr, hm, rfl⟩
  rw [selectInfo, hri.start, hri.curr, hri.next]
  match epochs, hk, hr with
  | 1, hk, _ =>
    obtain rfl : k = 0 := by omega
    have he : slot < (msgs 1).startSlot := hm.2
    rw [nextStart, if_neg (by omega), currOf]
  | n + 2, hk, hr =>
    rcases (by omega : k = n ∨ k = n + 1) with rfl | rfl
    · rw [nextStart, if_neg (by have := hm.2; omega), currOf]
    · rw [nextStart, if_pos hm.1, nextOf]

lemma rightFor {b : Buffer} (hp : Points msgs epochs slot b) : RightFor msgs slot (p.buffer b) := by
  obtain ⟨k, hk, hr, hm, rfl⟩ := hp
  exact ⟨k, hm, hri.rankings k hk hr⟩

lemma slotState (hf : (msgs 1).startSlot < wordSize) (hl : Live msgs epochs slot)
    (h : p.slotState slot = .ok (state, p')) : p'.Right msgs epochs := by
  obtain ⟨hn, _, hs | ⟨_, _, hc, hm⟩⟩ := slotState_cases h
  · exact hs ▸ hri
  · subst hm
    refine { hri with states := ?_ }
    intro s hx
    rcases mem_concat.mp hx with ho | rfl
    · exact hri.states s ho
    · obtain ⟨b, he, hg⟩ := hri.select hf hl
      cases Option.some.inj (hc.symm.trans he)
      exact hn ▸ hg

lemma setSlot (hh : state ∈ p.slotStates) (hs : state.Same { state' with certs := state.certs }) :
    (p.setSlot state').Right msgs epochs := by
  obtain ⟨hn, he, -⟩ := hs
  refine { hri with states := ?_ }
  intro s hm
  obtain ⟨old, hi, rfl⟩ := mem_map.mp hm
  split
  · dsimp only at hn he
    rw [hn, he]
    exact hri.states state hh
  · exact hri.states old hi

lemma judge {info : EpochInfo} (hg : RightFor msgs slot info) : (p.judge slot info).Right msgs epochs := by
  refine { hri with judged := ?_ }
  exact forall_mem_concat.mpr ⟨hri.judged, hg⟩

lemma announce {event : FinalizationEvent} (h : p.announce event = .ok p') : p'.Right msgs epochs := by
  obtain ⟨⟨tracker, ready⟩, _, h⟩ := bind_ok.mp h
  cases h
  exact (hri.trackers _ _).pushReady _

lemma mark {marked : Except TrackerFault (FinalityTracker × FinalizationEvent)}
    (h : p.mark marked = .ok p') : p'.Right msgs epochs := by
  obtain ⟨⟨tracker, event⟩, _, h⟩ := bind_ok.mp h
  obtain ⟨mid, ha, h⟩ := bind_ok.mp h
  have hf : mid.Right msgs epochs := (hri.trackers _ _).announce ha
  cases h
  exact hf.congr rfl rfl rfl rfl (fun _ m => (mem_filter.mp m).1) (fun _ m => m) rfl

section
variable (ht : (msgs 1).startSlot < wordSize)
include ht

lemma notifyCertified {output : SafeToNotar} (hl : Live msgs epochs block.slot)
    (h : p.notifyCertified block = .ok (output, p')) : p'.Right msgs epochs := by
  obtain ⟨⟨state, mid⟩, hf, h⟩ := bind_ok.mp h
  have hr := hri.slotState ht hl hf
  obtain ⟨hn, hh, _⟩ := slotState_cases hf
  have hg := hr.rightFor (hr.states state hh)
  obtain ⟨⟨status, next⟩, ho, h⟩ := bind_ok.mp h
  have hs := SlotState.notifyParentCertified_same (liftSlot_ok.mp ho)
  have hj : (mid.judge block.slot (mid.infoOf state)).Right msgs epochs := hr.judge (hn ▸ hg)
  have hw := hj.setSlot hh hs.uncertified
  cases status with
  | missingBlock =>
    cases h
    exact hw.repair block
  | awaitingVotes =>
    cases h
    exact hw
  | safeToNotar =>
    cases h
    exact hw.push _

lemma wakeChild (h : p.wakeChild block = .ok p') : p'.Right msgs epochs := by
  unfold Pool.wakeChild at h
  split at h
  · cases h
    exact hri
  · rename_i child hf
    obtain ⟨⟨output, last⟩, hn, rfl⟩ := map_ok.mp h
    have hl := hri.waiting _ (mem_of_find?_eq_some hf)
    refine notifyCertified ?_ ht hl hn
    exact hri.congr rfl rfl rfl rfl (fun _ m => m) (fun _ m => (mem_filter.mp m).1) rfl

lemma certifyBlock (h : p.certifyBlock block = .ok p') : p'.Right msgs epochs := by
  obtain ⟨mid, hw, h⟩ := bind_ok.mp h
  have hi := hri.wakeChild ht hw
  obtain ⟨⟨tracker, ready⟩, _, h⟩ := bind_ok.mp h
  cases h
  exact ((hi.trackers _ _).pushReady _).repair _

lemma addValidCert (hl : Live msgs epochs cert.slot) (h : p.addValidCert cert = .ok p') : p'.Right msgs epochs := by
  obtain ⟨⟨state, mid⟩, hf, h⟩ := bind_ok.mp h
  have hi := hri.slotState ht hl hf
  obtain ⟨_, hh, _⟩ := slotState_cases hf
  obtain ⟨next, ha, h⟩ := bind_ok.mp h
  have hs := hi.setSlot hh (SlotState.addCert_same (liftSlot_ok.mp ha))
  cases cert with
  | notar slot hash stake =>
    obtain ⟨first, hm, h⟩ := bind_ok.mp h
    obtain ⟨last, hc, h⟩ := bind_ok.mp h
    cases h
    exact ((hs.mark hm).certifyBlock ht hc).push _
  | notarFallback slot hash stake =>
    obtain ⟨last, hc, h⟩ := bind_ok.mp h
    cases h
    exact (hs.certifyBlock ht hc).push _
  | skip slot stake =>
    obtain ⟨⟨tracker, ready⟩, _, h⟩ := bind_ok.mp h
    cases h
    exact ((hs.trackers _ _).pushReady _).push _
  | fastFinal slot hash stake | final slot stake =>
    obtain ⟨last, hm, h⟩ := bind_ok.mp h
    cases h
    exact (hs.mark hm).push _

lemma addCert (hl : Live msgs epochs cert.slot) (h : p.addCert cert = .ok (result, p')) : p'.Right msgs epochs := by
  unfold Pool.addCert at h
  split at h
  · cases h
    exact hri
  · obtain ⟨⟨state, mid⟩, hf, h⟩ := bind_ok.mp h
    have hr := hri.slotState ht hl hf
    dsimp only at h
    split at h
    · cases h
      exact hr
    · obtain ⟨last, ha, h⟩ := bind_ok.mp h
      cases h
      exact hr.addValidCert ht hl ha

lemma addValidCerts {certs : List Cert}
    (hl : ∀ cert ∈ certs, Live msgs epochs cert.slot) (h : certs.foldlM Pool.addValidCert p = .ok p') :
    p'.Right msgs epochs := by
  refine foldlM_preserves (I := fun q : Pool => q.Right msgs epochs) ?_ hri h
  intro q cert hm q' hr ha
  exact hr.addValidCert ht (hl cert hm) ha

end

lemma pushes (events : List PoolEvent) : (events.foldl Pool.push p).Right msgs epochs := by
  induction events generalizing p with
  | nil => exact hri
  | cons event rest ih => exact ih (hri.push event)

lemma repairs (hashes : List BlockHash) : (hashes.foldl (fun p hash => p.repair ⟨slot, hash⟩) p).Right msgs epochs := by
  induction hashes generalizing p with
  | nil => exact hri
  | cons hash rest ih => exact ih (hri.repair _)

lemma recordVote {vote : Vote} {out : Outputs} (hi : (msgs 1).startSlot < wordSize)
    (hl : Live msgs epochs vote.slot) (h : p.recordVote vote = .ok (result, out, p')) :
    p'.Right msgs epochs ∧ ∀ cert ∈ out.certs, Live msgs epochs cert.slot := by
  unfold Pool.recordVote at h
  split at h
  · cases h
    exact ⟨hri, forall_mem_nil _⟩
  obtain ⟨b, ho, hg⟩ := hri.select hi hl
  simp only [ho] at h
  obtain ⟨⟨state, mid⟩, hf, h⟩ := bind_ok.mp h
  have hr := (hri.judge (hri.rightFor hg)).slotState hi hl hf
  obtain ⟨hn, hh, _⟩ := slotState_cases hf
  split at h
  · cases h
    exact ⟨hr, forall_mem_nil _⟩
  have hj : (mid.judge vote.slot (mid.infoOf state)).Right msgs epochs :=
    hr.judge (hn ▸ hr.rightFor (hr.states state hh))
  obtain ⟨⟨state', outputs⟩, hc, h⟩ := bind_ok.mp h
  have hc := liftSlot_ok.mp hc
  have hw := hj.setSlot hh (SlotState.addVote_same hc).uncertified
  cases h
  refine ⟨hw, fun cert hm => ?_⟩
  rw [(SlotState.addVote_certs hc cert hm).1, hn]
  exact hl

lemma addVote {vote : Vote} (hf : (msgs 1).startSlot < wordSize) (hl : Live msgs epochs vote.slot)
    (h : p.addVote vote = .ok (result, p')) : p'.Right msgs epochs := by
  obtain ⟨⟨judgement, out, mid⟩, he, h⟩ := bind_ok.mp h
  obtain ⟨hi, hc⟩ := hri.recordVote hf hl he
  obtain ⟨last, ha, h⟩ := bind_ok.mp h
  have hr := hi.addValidCerts hf hc ha
  cases h
  exact (hr.pushes _).repairs _

lemma awaitParent (hl : Live msgs epochs block.slot)
    (h : p.awaitParent block parent = .ok p') : p'.Right msgs epochs := by
  unfold Pool.awaitParent at h
  split at h
  · cases h
    refine { hri with waiting := fun x hm => ?_ }
    obtain ⟨old, hi, rfl⟩ := mem_map.mp hm
    split
    · exact hl
    · exact hri.waiting old hi
  · obtain ⟨_, h⟩ := check_ok.mp h
    cases h
    refine { hri with waiting := fun x hm => ?_ }
    rcases mem_concat.mp hm with old | hn
    · exact hri.waiting x old
    · rw [hn]
      exact hl

variable (hs : (msgs 1).startSlot < wordSize) (hl : Live msgs epochs block.slot)
include hs hl

lemma placeBlock (h : p.placeBlock block parent = .ok p') : p'.Right msgs epochs := by
  unfold Pool.placeBlock at h
  split at h
  · obtain ⟨⟨output, told⟩, hn, h⟩ := bind_ok.mp h
    have hr := hri.notifyCertified hs hl hn
    cases output with
    | missingBlock | safeToNotar =>
      cases h
      exact hr
    | awaitingVotes => exact hr.awaitParent hl h
  · exact hri.awaitParent hl h

lemma addBlock (h : p.addBlock block parent = .ok p') : p'.Right msgs epochs := by
  obtain ⟨⟨tracker, event⟩, _, h⟩ := bind_ok.mp h
  obtain ⟨announced, ht, h⟩ := bind_ok.mp h
  have hr : announced.Right msgs epochs := (hri.trackers _ _).announce ht
  obtain ⟨⟨state, mid⟩, hf, h⟩ := bind_ok.mp h
  have hi := hr.slotState hs hl hf
  obtain ⟨_, hh, _⟩ := slotState_cases hf
  obtain ⟨known, hn, h⟩ := bind_ok.mp h
  have hw := hi.setSlot hh (SlotState.notifyParentKnown_same (liftSlot_ok.mp hn)).1.uncertified
  exact hw.placeBlock hs hl h

end Pool.Right

structure Tile.Run.Right (msgs : Nat → EpochMsg) (r : Tile.Run) : Prop where
  pool : r.tile.pool.Right msgs r.epochs
  curr : r.tile.currEpochInfo = currOf r.epochs
  next : r.tile.nextEpochInfo = nextOf r.epochs

lemma start_right (slotMax slot : Nat) (buffer : Buffer → EpochInfo) :
    (Tile.Run.start slotMax slot buffer).Right msgs where
  pool := ⟨rfl, rfl, rfl, fun _ he _ => absurd he (Nat.not_lt_zero _), fun _ m => absurd m not_mem_nil,
    fun _ m => absurd m not_mem_nil, fun _ m => absurd m not_mem_nil⟩
  curr := rfl
  next := rfl

lemma bufferOf_ne (k : Nat) : bufferOf (k + 1) ≠ bufferOf k := by
  unfold bufferOf
  split <;> split <;> simp <;> omega

lemma bufferOf_two (k : Nat) : bufferOf (k + 2) = bufferOf k := by
  simp [bufferOf]

lemma Tile.handleEpoch_eq (r : Tile.Run) (right : r.Right msgs) {ranking : EpochInfo}
    (hg : (msgs r.epochs).ranking = some ranking) :
    (r.tile.handleEpoch (msgs r.epochs)).currEpochInfo = currOf (r.epochs + 1) ∧
      (r.tile.handleEpoch (msgs r.epochs)).nextEpochInfo = nextOf (r.epochs + 1) ∧
      (r.tile.handleEpoch (msgs r.epochs)).pool.currEpochInfo = currOf (r.epochs + 1) ∧
      (r.tile.handleEpoch (msgs r.epochs)).pool.nextEpochInfo = nextOf (r.epochs + 1) ∧
      (r.tile.handleEpoch (msgs r.epochs)).pool.nextEpochSlot = nextStart msgs (r.epochs + 1) ∧
      ∀ b, (r.tile.handleEpoch (msgs r.epochs)).pool.buffer b =
        if b = bufferOf r.epochs then ranking else r.tile.pool.buffer b := by
  obtain ⟨tile, epochs⟩ := r
  obtain ⟨hp, hc, hn⟩ := right
  dsimp only at hp hc hn hg ⊢
  simp only [Tile.handleEpoch, hg, hc, hn, Pool.advanceEpoch, hp.curr, hp.next]
  match epochs with
  | 0 => exact ⟨rfl, rfl, rfl, rfl, hp.start, fun _ => rfl⟩
  | 1 => exact ⟨rfl, rfl, rfl, rfl, rfl, fun _ => rfl⟩
  | n + 2 =>
    simp only [currOf, nextOf, nextStart, bufferOf_two, reduceCtorEq, if_false, true_and]
    exact fun _ => rfl

lemma Tile.handleEpoch_pool (t : Tile) (msg : EpochMsg) :
    (t.handleEpoch msg).pool.slotStates = t.pool.slotStates ∧ (t.handleEpoch msg).pool.waiting = t.pool.waiting ∧
      (t.handleEpoch msg).pool.judged = t.pool.judged := by
  simp only [Tile.handleEpoch, Pool.advanceEpoch]
  split
  · exact ⟨rfl, rfl, rfl⟩
  · split <;> exact ⟨rfl, rfl, rfl⟩

lemma Pool.Right.kept {n : Nat} {ranking : EpochInfo} (hr : p.Right msgs n)
    (hg : (msgs n).ranking = some ranking) {k : Nat} (hk : k < n + 1) (he : n + 1 ≤ k + 2) :
    (msgs k).ranking = some (if bufferOf k = bufferOf n then ranking else p.buffer (bufferOf k)) := by
  rcases (by omega : k = n ∨ k + 1 = n) with rfl | rfl
  · rw [if_pos rfl, hg]
  · rw [if_neg (bufferOf_ne k).symm]
    exact hr.rankings k (by omega) (by omega)

lemma InEpoch.unique (ho : Monotone fun k => (msgs k).startSlot) {j k : Nat} (hf : InEpoch msgs j slot)
    (he : InEpoch msgs k slot) : j = k := by
  rcases lt_trichotomy j k with hb | hs | ha
  · have : (msgs (j + 1)).startSlot ≤ (msgs k).startSlot := ho hb
    have := hf.2
    have := he.1
    omega
  · exact hs
  · have : (msgs (k + 1)).startSlot ≤ (msgs j).startSlot := ho ha
    have := he.2
    have := hf.1
    omega

lemma Points.later (ho : Monotone fun k => (msgs k).startSlot) {b : Buffer} (hp : Points msgs epochs slot b)
    (hl : Live msgs (epochs + 1) slot) : Points msgs (epochs + 1) slot b := by
  obtain ⟨k, hk, _, hm, hc⟩ := hp
  obtain ⟨j, _, hr, hi⟩ := hl
  obtain rfl := InEpoch.unique ho hi hm
  exact ⟨j, by omega, hr, hm, hc⟩

lemma Tile.Run.Right.step {r r' : Tile.Run} {op : TileOp} (hi : r.Right msgs)
    (ho : Monotone fun k => (msgs k).startSlot) (hf : (msgs 1).startSlot < wordSize)
    (hy : r.Timely msgs op) (h : r.step msgs op = .ok r') : r'.Right msgs := by
  cases op with
  | epoch =>
    cases h
    obtain ⟨hp, hl, hw⟩ := hy
    obtain ⟨ranking, hg⟩ := Option.isSome_iff_exists.mp hp
    obtain ⟨hc, hn, hr, ht, hj, hb⟩ := Tile.handleEpoch_eq r hi hg
    obtain ⟨hm, hs, hd⟩ := r.tile.handleEpoch_pool (msgs r.epochs)
    refine ⟨⟨hr, ht, hj, ?_, ?_, ?_, ?_⟩, hc, hn⟩
    · intro k hk he
      rw [hb]
      exact hi.pool.kept hg hk he
    · rw [hm]
      exact fun s hh => (hi.pool.states s hh).later ho (hl s hh)
    · rw [hs]
      exact hw
    · rw [hd]
      exact hi.pool.judged
  | addVote vote =>
    obtain ⟨⟨result, pool⟩, ha, h⟩ := bind_ok.mp h
    cases h
    exact ⟨hi.pool.addVote hf hy ha, hi.curr, hi.next⟩
  | addCert cert =>
    obtain ⟨⟨result, pool⟩, ha, h⟩ := bind_ok.mp h
    cases h
    exact ⟨hi.pool.addCert hf hy ha, hi.curr, hi.next⟩
  | addBlock block parent =>
    obtain ⟨pool, ha, h⟩ := bind_ok.mp h
    cases h
    exact ⟨hi.pool.addBlock hf hy ha, hi.curr, hi.next⟩

end

/-- In every run of the tile whose votes, certificates and blocks are for slots of the last two
epochs it was told about, and which holds nothing of the oldest epoch when its ranking is written
over, every slot is judged by the ranking of its own epoch. -/
theorem own_epoch (msgs : Nat → EpochMsg) (ordered : Monotone fun k => (msgs k).startSlot)
    (fits : (msgs 1).startSlot < wordSize) (slotMax slot : Nat) (buffer : Buffer → EpochInfo) (ops : List TileOp)
    {r : Tile.Run} (timely : Allowed (Tile.Run.step msgs) (Tile.Run.Timely msgs) (.start slotMax slot buffer) ops)
    (done : run (Tile.Run.step msgs) (.start slotMax slot buffer) ops = .ok r) : r.OwnEpoch msgs := by
  have right : r.Right msgs := by
    refine run_allowed_preserves (Tile.Run.step msgs) (Tile.Run.Timely msgs) (Tile.Run.Right msgs) ?_
      (start_right slotMax slot buffer) timely done
    intro r op r' right timely done
    exact right.step ordered fits timely done
  exact right.pool.judged

def tenSlots (k : Nat) : EpochMsg := ⟨10 * k, some ⟨[k + 1, 1]⟩, none⟩

/-- One vote in each of two epochs, and one in the third when nothing of the first is held. -/
theorem own_epoch_three :
    ∃ r, run (Tile.Run.step tenSlots) (.start 4 0 fun _ => ⟨[]⟩)
        [.epoch, .epoch, .addVote (.skip 15 1), .epoch, .addVote (.skip 25 1)] = .ok r ∧ r.OwnEpoch tenSlots := by
  have ordered : Monotone fun k => (tenSlots k).startSlot := fun j k le => Nat.mul_le_mul_left 10 le
  have allowed : Allowed (Tile.Run.step tenSlots) (Tile.Run.Timely tenSlots) (.start 4 0 fun _ => ⟨[]⟩)
      [.epoch, .epoch, .addVote (.skip 15 1), .epoch, .addVote (.skip 25 1)] := by
    have inSecond : Live tenSlots 2 15 := ⟨1, by decide, by decide, by decide, by decide⟩
    have stillLive : Live tenSlots 3 15 := ⟨1, by decide, by decide, by decide, by decide⟩
    have inThird : Live tenSlots 3 25 := ⟨2, by decide, by decide, by decide, by decide⟩
    refine ⟨⟨rfl, forall_mem_nil _, forall_mem_nil _⟩, ⟨rfl, forall_mem_nil _, forall_mem_nil _⟩,
      inSecond, ⟨rfl, ?_, forall_mem_nil _⟩, inThird, trivial⟩
    intro s m
    rw [mem_singleton.mp m]
    exact stillLive
  exact ⟨_, rfl, own_epoch tenSlots ordered (by decide) 4 0 _ _ allowed rfl⟩

/-- The third epoch message is written over the ranking of the first, which a slot of the first
epoch still points to. -/
theorem ranking_written_over :
    ∃ r, run (Tile.Run.step tenSlots) (.start 4 0 fun _ => ⟨[]⟩)
        [.epoch, .epoch, .addVote (.skip 5 0), .epoch, .addVote (.skip 5 1)] = .ok r ∧ ¬ r.OwnEpoch tenSlots := by
  refine ⟨_, rfl, fun own => ?_⟩
  obtain ⟨k, mem, given⟩ := own (5, ⟨[3, 1]⟩) (by decide)
  have start : 10 * k ≤ 5 := mem.1
  obtain rfl : k = 0 := by omega
  exact absurd given (by decide)

end Firebam.Votor
