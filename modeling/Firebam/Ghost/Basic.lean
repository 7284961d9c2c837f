import Firebam.Lib.Ancestry
import Firebam.Lib.Check
import Firebam.Lib.Word

/-! The fork choice tree of fd_ghost.c. The hash chains of the maps, total_stake and the traversals
that only print are left out. -/
namespace Firebam.Ghost
open Lib

abbrev Hash := BitVec 256
abbrev Pubkey := BitVec 256

structure Vtr where
  addr : Pubkey
  prevStake : Nat
  prevSlot : Nat
  prevBlockId : Hash
  deriving DecidableEq

structure Blk where
  id : Hash
  slot : Nat
  parent : Option Hash
  stake : Nat
  valid : Bool
  vtrs : List Pubkey
  bankSeq : Nat

structure Tree where
  blkMax : Nat
  vtrMax : Nat
  root : Hash
  blks : List Blk
  vtrs : List Vtr
  width : Nat

/-- The FD_TESTs and FD_LOG_CRITs, and a voter pool that has no element left. -/
inductive Fault where
  | duplicateInsert | ghostFull | noParent | vtrPoolEmpty | stakeUnderflow | stakeOverflow
  deriving DecidableEq

inductive CountResult where
  | success | notVoted | voteTooOld | alreadyVoted
  deriving DecidableEq

section

def Blk.link (b : Blk) : Hash × Option Hash := (b.id, b.parent)

variable (g : Tree)

namespace Tree

def shape : List (Hash × Option Hash) := g.blks.map Blk.link

def query (id : Hash) : Option Blk := g.blks.find? fun b => b.id = id

def parent (id : Hash) : Option Hash := (g.query id).bind Blk.parent

def ancestors (id : Hash) : List Hash := lineage g.parent g.blks.length id

def isAncestor (ancestor descendant : Hash) : Bool :=
  decide (ancestor ∈ g.ancestors descendant)

def children (id : Hash) : List Blk := g.blks.filter fun b => b.parent = some id

def invalidAncestor (descendant : Hash) : Bool :=
  (g.ancestors descendant).any fun id => ((g.query id).map fun b => !b.valid).getD false

def slotAncestor (descendant : Hash) (slot : Nat) : Option Hash :=
  (g.ancestors descendant).find? fun id => ((g.query id).map Blk.slot) = some slot

def deepest (root : Blk) : Blk :=
  ((bfs (kids g.shape) g.blks.length [root.id]).getLast?.bind g.query).getD root

def setBlk (id : Hash) (f : Blk → Blk) : Tree :=
  { g with blks := g.blks.map fun b => if b.id = id then f b else b }

def queryVtr (addr : Pubkey) : Option Vtr := g.vtrs.find? fun v => v.addr = addr

def rootSlot : Nat := ((g.query g.root).map Blk.slot).getD 0

end Tree

end

section

def heavier (best : Option Blk) (child : Blk) : Option Blk :=
  if child.valid then
    match best with
    | none => some child
    | some b =>
      if (if child.stake = b.stake then child.slot < b.slot else b.stake < child.stake) then some child
      else some b
  else best

def Tree.bestFrom (g : Tree) : Nat → Blk → Blk
  | 0, best => best
  | n + 1, best =>
    match (g.children best.id).foldl heavier none with
    | none => best
    | some child => g.bestFrom n child

def Tree.best (g : Tree) (root : Blk) : Blk := g.bestFrom g.blks.length root

end

section

def Tree.acquire (g : Tree) (bankSeq slot : Nat) (id : Hash) (parent : Option Hash) : Except Fault Tree := do
  require .duplicateInsert (g.query id = none)
  require .ghostFull (g.blks.length < g.blkMax)
  .ok { g with blks := g.blks ++ [⟨id, slot, parent, 0, true, [], bankSeq⟩] }

def Tree.init (blkMax vtrMax bankSeq slot : Nat) (id : Hash) : Except Fault Tree := do
  let g ← Tree.acquire ⟨blkMax, vtrMax, id, [], [], 0⟩ bankSeq slot id none
  .ok { g with width := 1 }

def Tree.insert (g : Tree) (bankSeq slot : Nat) (id parentId : Hash) : Except Fault Tree := do
  let new ← g.acquire bankSeq slot id (some parentId)
  require .noParent (new.query parentId ≠ none)
  .ok { new with width := if g.children parentId = [] then g.width else g.width + 1 }

end

section

def Tree.subStake (stake : Nat) (g : Tree) (id : Hash) : Except Fault Tree := do
  require .stakeUnderflow (stake ≤ ((g.query id).map Blk.stake).getD 0)
  .ok (g.setBlk id fun b => { b with stake := b.stake - stake })

def Tree.addStake (stake : Nat) (g : Tree) (id : Hash) : Except Fault Tree := do
  require .stakeOverflow (((g.query id).map Blk.stake).getD 0 + stake < wordSize)
  .ok (g.setBlk id fun b => { b with stake := b.stake + stake })

def Tree.moveOff (g : Tree) (v : Vtr) : Except Fault Tree :=
  match g.query v.prevBlockId with
  | none => .ok g
  | some prev =>
    let g := g.setBlk prev.id fun b => { b with vtrs := b.vtrs.erase v.addr }
    (g.ancestors prev.id).foldlM (Tree.subStake v.prevStake) g

def Tree.moveOn (g : Tree) (id : Hash) (addr : Pubkey) (stake slot : Nat) : Except Fault Tree := do
  let g := g.setBlk id fun b => { b with vtrs := b.vtrs ++ [addr] }
  let g ← (g.ancestors id).foldlM (Tree.addStake stake) g
  .ok { g with vtrs := g.vtrs.map fun v => if v.addr = addr then ⟨addr, stake, slot, id⟩ else v }

def Tree.countVote (g : Tree) (id : Hash) (voteAcc : Pubkey) (stake slot : Nat) : Except Fault (CountResult × Tree) :=
  if slot = wordSize - 1 then .ok (.notVoted, g)
  else if slot < g.rootSlot then .ok (.voteTooOld, g)
  else
    match g.queryVtr voteAcc with
    | none => do
      require .vtrPoolEmpty (g.vtrs.length < g.vtrMax)
      let g : Tree := { g with vtrs := g.vtrs ++ [⟨voteAcc, 0, 0, 0⟩] }
      (fun g => (.success, g)) <$> g.moveOn id voteAcc stake slot
    | some v =>
      if slot ≤ v.prevSlot then .ok (.alreadyVoted, g)
      else do
        let g ← g.moveOff v
        (fun g => (.success, g)) <$> g.moveOn id voteAcc stake slot

end

section

def Tree.pruned (g : Tree) (newr : Hash) : List Hash :=
  bfs (fun id => (kids g.shape id).filter fun c => c ≠ newr) g.blks.length [g.root]

def Tree.releaseBlk (tree g : Tree) (id : Hash) : Tree :=
  let parked := ((tree.query id).map Blk.vtrs).getD []
  { g with
    width := g.width - ((tree.children id).length - 1)
    vtrs := g.vtrs.filter fun v => v.addr ∉ parked
    blks := g.blks.filter fun b => b.id ≠ id }

def Tree.publish (g : Tree) (newr : Hash) : Tree :=
  if g.root = newr then g
  else
    let pruned := (g.pruned newr).foldl (Tree.releaseBlk g) g
    { pruned.setBlk newr (fun b => { b with parent := none }) with root := newr }

end

section

def Tree.markInvalid : Nat → Tree → Hash → Tree
  | 0, g, _ => g
  | n + 1, g, id =>
    (kids g.shape id).foldl (Tree.markInvalid n) (g.setBlk id fun b => { b with valid := false })

def Tree.markValid : List Hash → Tree → Tree
  | [], g => g
  | id :: rest, g =>
    if ((g.query id).map Blk.valid).getD true then g
    else Tree.markValid rest (g.setBlk id fun b => { b with valid := true })

def Tree.confirm (g : Tree) (id : Hash) : Tree :=
  match g.query id with
  | none => g
  | some _ => Tree.markValid (g.ancestors id) g

def Tree.eqvoc (g : Tree) (id : Hash) : Tree :=
  match g.query id with
  | none => g
  | some _ => Tree.markInvalid g.blks.length g id

end

inductive Op where
  | insert (bankSeq slot : Nat) (id parentId : Hash)
  | countVote (id : Hash) (voteAcc : Pubkey) (stake slot : Nat)
  | publish (newr : Hash)
  | confirm (id : Hash)
  | eqvoc (id : Hash)

def Tree.step (g : Tree) : Op → Except Fault Tree
  | .insert bankSeq slot id parentId => g.insert bankSeq slot id parentId
  | .countVote id voteAcc stake slot => Prod.snd <$> g.countVote id voteAcc stake slot
  | .publish newr => .ok (g.publish newr)
  | .confirm id => .ok (g.confirm id)
  | .eqvoc id => .ok (g.eqvoc id)

/-- What the callers promise: a block is not its own parent, the pointers they pass are to blocks
in the tree, and the stake of all recorded voters fits into a ulong. -/
def Tree.Promise (g : Tree) : Op → Prop
  | .insert _ _ id parentId => parentId ≠ id
  | .countVote id voteAcc stake _ => (g.query id).isSome = true ∧
      ((g.vtrs.filter fun v => v.addr ≠ voteAcc).map Vtr.prevStake).sum + stake < wordSize
  | .publish newr => (g.query newr).isSome = true
  | .confirm _ | .eqvoc _ => True

instance (g : Tree) : ∀ op, Decidable (g.Promise op) := fun op => by
  cases op <;> unfold Tree.Promise <;> infer_instance

end Firebam.Ghost
