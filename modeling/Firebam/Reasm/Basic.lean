import Firebam.Lib.Chain
import Firebam.Lib.Check
import Firebam.Lib.Word

/-! FEC set reassembly. The elements of a pool form a tree under the root and trees of orphans;
four maps say where an element is. -/
namespace Firebam.Reassembly
open Lib

section

abbrev Hash := BitVec 256
abbrev Idx := Nat

inductive Fault
  | test | crit | nullFec | nullXid | loop
  deriving DecidableEq

structure Fec where
  key : Hash
  cmr : Hash
  parent : Option Idx
  child : Option Idx
  sibling : Option Idx
  slot : Nat
  xidNext : Option Idx
  fecSetIdx : Nat
  parentOff : Nat
  slotComplete : Bool
  isLeader : Bool
  eqvoc : Bool
  confirmed : Bool
  popped : Bool
  inOut : Bool

structure Xid where
  idx : Idx
  cnt : Nat

structure Reasm where
  fecMax : Nat
  xidMax : Nat
  root : Option Idx
  fec : Idx → Fec
  free : List Idx
  ancestry : List Idx
  frontier : List Idx
  orphaned : List Idx
  subtrees : List Idx
  subtreel : List Idx
  out : List Idx
  xid : List (Nat × Xid)

def Fec.blank : Fec := ⟨0, 0, none, none, none, 0, none, 0, 0, false, false, false, false, false, false⟩

def fecBlkMax : Nat := 1024

def xidKeyMax (fecMax : Nat) : Nat := pow2Up (fecMax + max (fecMax / fecBlkMax) 1) - 1

def Reasm.new (fecMax : Nat) : Reasm :=
  ⟨fecMax, xidKeyMax fecMax, none, fun _ => .blank, List.range fecMax, [], [], [], [], [], [], []⟩

end

section
variable (s : Reasm)

def Reasm.set (i : Idx) (f : Fec → Fec) : Reasm :=
  { s with fec := fun j => if j = i then f (s.fec j) else s.fec j }

def Reasm.live : List Idx := s.ancestry ++ s.frontier ++ s.orphaned ++ s.subtrees

def Reasm.find (map : List Idx) (key : Hash) : Option Idx := map.find? fun i => decide ((s.fec i).key = key)

def Reasm.query (key : Hash) : Option Idx :=
  ((s.find s.ancestry key).or (s.find s.frontier key)).or ((s.find s.orphaned key).or (s.find s.subtrees key))

def Reasm.children (i : Idx) : List Idx := follow (fun j => (s.fec j).sibling) s.fecMax (s.fec i).child

def xidKey (slot fecSetIdx : Nat) : Nat := (slot * 2 ^ 32) % 2 ^ 64 ||| fecSetIdx

def Fec.xidKey (f : Fec) : Nat := Reassembly.xidKey f.slot f.fecSetIdx

def Reasm.xidQuery (key : Nat) : Option Xid := (s.xid.find? fun e => decide (e.1 = key)).map Prod.snd

def Reasm.deliverable (i : Idx) : Bool :=
  let f := s.fec i
  !f.popped && (!f.eqvoc || f.confirmed)

def Reasm.peek : Option Idx := s.out.find? s.deliverable

def popLoop : List Idx → Reasm → Reasm × Option Idx
  | [], s => ({ s with out := [] }, none)
  | i :: rest, s =>
    let s := s.set i fun f => { f with inOut := false }
    if s.deliverable i then ({ s.set i fun f => { f with popped := true } with out := rest }, some i)
    else popLoop rest s

def Reasm.pop : Reasm × Option Idx := popLoop s.out s

def Reasm.pushOut (i : Idx) : Reasm :=
  { s.set i fun f => { f with inOut := true } with out := s.out ++ [i] }

def Reasm.leaveOut (i : Idx) : Reasm :=
  if (s.fec i).inOut then { s.set i fun f => { f with inOut := false } with out := s.out.erase i } else s

def confirmUp : Nat → Option Idx → Reasm → Except Fault Reasm
  | _, none, s => .ok s
  | 0, some _, _ => .error .loop
  | n + 1, some i, s =>
    if (s.fec i).confirmed then .ok s
    else confirmUp n (s.fec i).parent (s.set i fun f => { f with confirmed := true })

def Reasm.confirm (blockId : Hash) : Except Fault Reasm :=
  match (s.find s.ancestry blockId).or (s.find s.frontier blockId) with
  | none => .ok s
  | some i =>
    let f := s.fec i
    let s := if !f.popped && !f.inOut && !f.confirmed then s.pushOut i else s
    confirmUp (s.fecMax + 1) (some i) s

end

section

/-- The whole subtree, but not below elements that are marked. -/
def eqvocLoop : Nat → List Idx → Reasm → Except Fault Reasm
  | _, [], s => .ok s
  | 0, _ :: _, _ => .error .loop
  | n + 1, i :: queue, s =>
    if (s.fec i).eqvoc then eqvocLoop n queue s
    else
      let s := s.set i fun f => { f with eqvoc := true }
      eqvocLoop n (queue ++ s.children i) s

def Reasm.markEqvoc (s : Reasm) (i : Idx) : Except Fault Reasm := eqvocLoop (s.fecMax + 1) [i] s

end

section
variable (s : Reasm)

def fecShredCnt : Nat := 32

def validateIntra (parent child : Fec) : Bool :=
  child.fecSetIdx = (parent.fecSetIdx + fecShredCnt) % 2 ^ 32 && child.parentOff = parent.parentOff && !parent.slotComplete

def validateInter (parent child : Fec) : Bool :=
  (child.slot + (2 ^ 64 - child.parentOff)) % 2 ^ 64 = parent.slot && child.fecSetIdx = 0 && parent.slotComplete

def validateChainedBlockId (parent child : Fec) : Bool :=
  if parent.slot = child.slot then validateIntra parent child else validateInter parent child

def Reasm.link (parent child : Idx) : Reasm :=
  let s := s.set child fun f => { f with parent := some parent }
  match (s.children parent).getLast? with
  | none => s.set parent fun f => { f with child := some child }
  | some last => s.set last fun f => { f with sibling := some child }

def Reasm.before (key : Hash) : List Idx → Option (Idx × Idx)
  | prev :: i :: rest => if (s.fec i).key = key then some (prev, i) else Reasm.before key (i :: rest)
  | _ => none

def Reasm.unlink (parent head : Idx) : Except Fault Reasm :=
  match s.children parent with
  | [] => .error .nullFec
  | first :: rest =>
    if (s.fec first).key = (s.fec head).key then
      .ok (s.set parent fun f => { f with child := (s.fec first).sibling })
    else
      match s.before (s.fec head).key (first :: rest) with
      | none => .error .nullFec
      | some (prev, i) => .ok (s.set prev fun f => { f with sibling := (s.fec i).sibling })

def Reasm.xidUpdate (i : Idx) : Except Fault Reasm :=
  let key := (s.fec i).xidKey
  match s.xidQuery key with
  | some x =>
    let s := s.set i fun f => { f with xidNext := some x.idx }
    .ok { s with xid := s.xid.map fun e => if e.1 = key then (key, ⟨i, x.cnt + 1⟩) else e }
  | none => do
    require .crit (s.xid.length < s.xidMax)
    return { s with xid := (key, ⟨i, 1⟩) :: s.xid }

def Reasm.clearXid (i : Idx) : Except Fault Reasm :=
  let key := (s.fec i).xidKey
  match s.xidQuery key with
  | none => .error .nullXid
  | some x =>
    if x.cnt = 1 then .ok { s with xid := s.xid.filter fun e => decide (e.1 ≠ key) }
    else if x.idx = i then
      match (s.fec i).xidNext with
      | none => .error .nullXid
      | some next => .ok { s with xid := s.xid.map fun e => if e.1 = key then (key, ⟨next, x.cnt - 1⟩) else e }
    else
      match (follow (fun j => (s.fec j).xidNext) s.fecMax (some x.idx)).find? fun j => decide ((s.fec j).xidNext = some i) with
      | none => .error .nullXid
      | some prev =>
        let s' := s.set prev fun f => { f with xidNext := (s.fec i).xidNext }
        .ok { s' with xid := s.xid.map fun e => if e.1 = key then (key, ⟨x.idx, x.cnt - 1⟩) else e }

end

section

def Reasm.dropOrphan (s : Reasm) (i : Idx) : Except Fault Reasm := do
  let key := (s.fec i).key
  let s ←
    if s.find s.subtrees key = some i then
      pure { s with subtrees := s.subtrees.erase i, subtreel := s.subtreel.erase i }
    else do
      require .test (s.find s.orphaned key = some i)
      pure { s with orphaned := s.orphaned.erase i }
  let s ← s.clearXid i
  return { s with free := i :: s.free }

def subtreesLoop : Nat → List Idx → Reasm → Except Fault Reasm
  | _, [], s => .ok s
  | 0, _ :: _, _ => .error .loop
  | n + 1, i :: queue, s => do
    let kids := s.children i
    let s ← s.dropOrphan i
    subtreesLoop n (queue ++ kids) s

def Reasm.subtreesRemove (s : Reasm) (root : Idx) : Except Fault Reasm := subtreesLoop (s.fecMax + 1) [root] s

end

section
variable (s : Reasm)

def Reasm.bankStart : Nat → Idx → Except Fault Idx
  | 0, _ => .error .loop
  | n + 1, head =>
    let f := s.fec head
    if f.fecSetIdx = 0 then .ok head
    else if f.sibling ≠ none then .ok head
    else
      match f.parent with
      | none => .error .nullFec
      | some parent => if (s.fec parent).child ≠ some head then .ok head else Reasm.bankStart n parent

def Reasm.leaveTree (i : Idx) : Reasm :=
  match s.find s.ancestry (s.fec i).key with
  | some j => { s with ancestry := s.ancestry.erase j }
  | none =>
    match s.find s.frontier (s.fec i).key with
    | some j => { s with frontier := s.frontier.erase j }
    | none => s

def Reasm.orphan (tail i : Idx) : Reasm :=
  let s := (s.leaveTree i).leaveOut i
  if (s.fec i).parent = some tail then
    let s := s.set i fun f => { f with parent := none, sibling := none }
    { s with subtrees := i :: s.subtrees, subtreel := s.subtreel ++ [i] }
  else { s with orphaned := i :: s.orphaned }

def orphanLoop (tail : Idx) : Nat → List Idx → Reasm → Except Fault Reasm
  | _, [], s => .ok s
  | 0, _ :: _, _ => .error .loop
  | n + 1, i :: queue, s =>
    let kids := s.children i
    orphanLoop tail n (queue ++ kids) (if i = tail then s else s.orphan tail i)

def Reasm.orphanBelow (tail : Idx) : Except Fault Reasm :=
  if (s.fec tail).child = none then .ok s
  else do
    let s ← orphanLoop tail (s.fecMax + 1) [tail] s
    return s.set tail fun f => { f with child := none }

def removeChain : Nat → Option Idx → Reasm → Except Fault Reasm
  | _, none, s => .ok s
  | 0, some _, _ => .error .loop
  | n + 1, some i, s =>
    let key := (s.fec i).key
    match (s.find s.ancestry key).or (s.find s.frontier key) with
    | none => .error .nullFec
    | some removed => do
      let s := (s.leaveTree i).leaveOut removed
      let next := (s.fec i).child
      let s ← s.clearXid removed
      removeChain n next s

def Reasm.retreat (parent : Idx) : Except Fault Reasm :=
  if (s.fec parent).child = none then
    match s.find s.ancestry (s.fec parent).key with
    | none => .error .test
    | some i => .ok { s with ancestry := s.ancestry.erase i, frontier := i :: s.frontier }
  else .ok s

def Reasm.remove (tail : Idx) : Except Fault (Reasm × Idx) := do
  let key := (s.fec tail).key
  let head ←
    if (s.find s.orphaned key).or (s.find s.subtrees key) ≠ none then do
      require .test ((s.fec tail).child = none)
      pure tail
    else s.bankStart (s.fecMax + 1) tail
  let s ← s.orphanBelow tail
  match (s.fec head).parent with
  | some parent =>
    let s ← s.unlink parent head
    match s.find s.orphaned (s.fec head).key with
    | some i =>
      let s ← { s with orphaned := s.orphaned.erase i }.clearXid head
      return (s, head)
    | none =>
      let s ← removeChain (s.fecMax + 1) (some head) s
      let s ← s.retreat parent
      return (s, head)
  | none =>
    let s ← { s with subtrees := s.subtrees.erase head, subtreel := s.subtreel.erase head }.clearXid head
    return (s, head)

def Reasm.release (head : Idx) : Reasm :=
  { s with free := follow (fun i => (s.fec i).child) s.fecMax (some head) ++ s.free }

def Reasm.highest (l : List Idx) : Option Idx :=
  l.foldl (fun best i => match best with
    | none => some i
    | some j => if (s.fec j).slot < (s.fec i).slot then some i else some j) none

def latestLoop : Nat → List Idx → Option Idx → Reasm → Except Fault (Option Idx)
  | _, [], latest, _ => .ok latest
  | 0, _ :: _, _, _ => .error .loop
  | n + 1, i :: queue, latest, s =>
    let f := s.fec i
    let better := match latest with
      | none => true
      | some j =>
        let g := s.fec j
        decide (g.slot < f.slot ∨ (g.slot = f.slot ∧ g.fecSetIdx < f.fecSetIdx))
    latestLoop n (queue ++ s.children i) (if f.confirmed && better then some i else latest) s

def Reasm.gca : Nat → Option Idx → Option Idx → Option Idx
  | 0, _, _ => none
  | n + 1, some a, some b =>
    if a = b then some a
    else
      let f := s.fec a
      let g := s.fec b
      if g.slot < f.slot ∨ (f.slot = g.slot ∧ g.fecSetIdx < f.fecSetIdx) then Reasm.gca n f.parent (some b)
      else Reasm.gca n (some a) g.parent
  | _ + 1, _, _ => none

def Reasm.treeRoot : Nat → Idx → Idx
  | 0, i => i
  | n + 1, i =>
    match (s.fec i).parent with
    | none => i
    | some p => Reasm.treeRoot n p

/-- A confirmed orphan goes only for an element that follows the last confirmed one of its tree. -/
def Reasm.worthwhile (parentRoot : Hash) : Except Fault Bool :=
  match s.query parentRoot, s.root with
  | none, _ => .ok true
  | some _, none => .error .test
  | some parent, some root => do
    let orphan := (s.find s.subtrees parentRoot).or (s.find s.orphaned parentRoot) ≠ none
    let top := if orphan then s.treeRoot s.fecMax parent else root
    let latest ← latestLoop (s.fecMax + 1) [top] none s
    match latest with
    | none => return true
    | some i => return s.gca (2 * s.fecMax + 1) (some i) (some parent) = some i

def Reasm.evictee (orphans leaves : List Idx) (parentRoot : Hash) : Except Fault (Option Idx) :=
  let spare := fun i => decide ((s.fec i).child = none ∧ (s.fec i).key ≠ parentRoot)
  let orphans := (s.subtreel ++ orphans).filter spare
  let unconfrmdOrphan := s.highest (orphans.filter fun i => !(s.fec i).confirmed)
  let confirmedOrphan := s.highest (orphans.filter fun i => (s.fec i).confirmed)
  let unconfrmdLeaf := s.highest (leaves.filter fun i =>
    let f := s.fec i
    decide (s.root ≠ some i ∧ f.key ≠ parentRoot) && !f.confirmed && !f.slotComplete && !f.isLeader)
  match unconfrmdOrphan.or unconfrmdLeaf with
  | some i => .ok (some i)
  | none =>
    match confirmedOrphan with
    | none => .ok none
    | some i => do
      let worth ← s.worthwhile parentRoot
      return if worth then some i else none

end

section

structure Arrival where
  merkleRoot : Hash
  chainedMerkleRoot : Hash
  slot : Nat
  fecSetIdx : Nat
  parentOff : Nat
  slotComplete : Bool
  isLeader : Bool
  orphans : List Idx
  leaves : List Idx

def Arrival.fec (a : Arrival) : Fec :=
  { Fec.blank with
    key := a.merkleRoot, cmr := a.chainedMerkleRoot, slot := a.slot, fecSetIdx := a.fecSetIdx
    parentOff := a.parentOff, slotComplete := a.slotComplete, isLeader := a.isLeader }

variable (s : Reasm)

def Reasm.place (i : Idx) : Reasm × Option Idx :=
  let cmr := (s.fec i).cmr
  match s.find s.ancestry cmr with
  | some p => ({ s with frontier := i :: s.frontier }.pushOut i, some p)
  | none =>
    match s.find s.frontier cmr with
    | some p => ({ s with ancestry := p :: s.ancestry, frontier := i :: s.frontier.erase p }.pushOut i, some p)
    | none =>
      match s.find s.orphaned cmr with
      | some p => ({ s with orphaned := i :: s.orphaned }, some p)
      | none =>
        match s.find s.subtrees cmr with
        | some p => ({ s with orphaned := i :: s.orphaned }, some p)
        | none => ({ s with subtrees := i :: s.subtrees, subtreel := s.subtreel ++ [i] }, none)

def Reasm.adopt (i child : Idx) : Except Fault Reasm :=
  if (s.fec i).key ≠ (s.fec child).cmr then .ok s
  else if validateChainedBlockId (s.fec i) (s.fec child) then
    let s := s.link i child
    .ok { s with subtrees := s.subtrees.erase child, subtreel := s.subtreel.erase child, orphaned := child :: s.orphaned }
  else s.subtreesRemove child

def Reasm.connect (child : Idx) : Except Fault Reasm := do
  require .test (s.find s.orphaned (s.fec child).key = some child)
  return { s with orphaned := s.orphaned.erase child, frontier := child :: s.frontier }.pushOut child

def advanceLoop : Nat → List Idx → Reasm → Except Fault Reasm
  | _, [], s => .ok s
  | 0, _ :: _, _ => .error .loop
  | n + 1, i :: queue, s => do
    let kids := s.children i
    let s := if kids = [] then s else { s with frontier := s.frontier.erase i, ancestry := i :: s.ancestry }
    let s ← kids.foldlM Reasm.connect s
    advanceLoop n (queue ++ kids) s

def Reasm.advance (i : Idx) : Except Fault Reasm :=
  match s.find s.frontier (s.fec i).key with
  | none => .ok s
  | some _ => advanceLoop (s.fecMax + 1) [i] s

def Reasm.checkEqvoc (i : Idx) (parent : Option Idx) : Except Fault Reasm := do
  let s ← match s.xidQuery (s.fec i).xidKey with
    | none => pure s
    | some x => do
      let s ← s.markEqvoc i
      s.markEqvoc x.idx
  let s ← s.xidUpdate i
  match parent with
  | none => return s
  | some p => if (s.fec p).eqvoc && !(s.fec p).confirmed then s.markEqvoc i else return s

def Reasm.insertAt (i : Idx) : Except Fault (Reasm × Option Idx) :=
  let rejected := match s.query (s.fec i).cmr with
    | none => false
    | some p => !validateChainedBlockId (s.fec p) (s.fec i)
  if rejected then .ok ({ s with free := i :: s.free }, none)
  else do
    let (placed, parent) := s.place i
    let s := match parent with
      | none => placed
      | some p => placed.link p i
    let s ← s.subtreel.foldlM (fun s child => s.adopt i child) s
    let s ← s.advance i
    let s ← s.checkEqvoc i parent
    return (s, some i)

def Reasm.acquire (f : Fec → Fec) : Except Fault (Reasm × Idx) :=
  match s.free with
  | [] => .error .test
  | i :: rest => .ok ({ s.set i f with free := rest }, i)

/-- The state, the new element and what was evicted for it. An element that finds no room is
evicted itself. -/
def Reasm.insert (a : Arrival) : Except Fault (Reasm × Option Idx × Option Idx) := do
  require .test (s.query a.merkleRoot = none)
  if s.free.length = 1 then do
    require .test (s.root ≠ none)
    match ← s.evictee a.orphans a.leaves a.chainedMerkleRoot with
    | none =>
      let (s, i) ← s.acquire fun f => { f with
        key := a.merkleRoot, cmr := a.chainedMerkleRoot, parent := none, child := none, slot := a.slot
        parentOff := a.parentOff, fecSetIdx := a.fecSetIdx }
      return (s, none, some i)
    | some leaf =>
      let (s, head) ← s.remove leaf
      let (s, i) ← s.acquire fun _ => a.fec
      let (s, new) ← s.insertAt i
      return (s, new, some head)
  else
    let (s, i) ← s.acquire fun _ => a.fec
    let (s, new) ← s.insertAt i
    return (s, new, none)

end

section

def Reasm.init (s : Reasm) (blockId : Hash) (slot : Nat) : Except Fault Reasm := do
  let (s, i) ← s.acquire fun f =>
    { Fec.blank with key := blockId, cmr := f.cmr, slot := slot, slotComplete := true, confirmed := true, popped := true }
  require .test (s.root = none)
  let s ← s.xidUpdate i
  return { s with root := some i, frontier := i :: s.frontier }

def Reasm.leaveMap (s : Reasm) (i : Idx) : Reasm :=
  let key := (s.fec i).key
  match s.find s.ancestry key with
  | some j => { s with ancestry := s.ancestry.erase j }
  | none =>
    match s.find s.frontier key with
    | some j => { s with frontier := s.frontier.erase j }
    | none =>
      match s.find s.orphaned key with
      | some j => { s with orphaned := s.orphaned.erase j }
      | none => { s with subtrees := s.subtrees.erase i, subtreel := s.subtreel.erase i }

def Reasm.prune (s : Reasm) (i : Idx) : Except Fault Reasm := do
  let s ← (s.leaveMap i).clearXid i
  let s := s.leaveOut i
  return { s with free := i :: s.free }

def publishLoop (newr : Idx) : Nat → List Idx → Reasm → Except Fault Reasm
  | _, [], s => .ok s
  | 0, _ :: _, _ => .error .loop
  | n + 1, i :: queue, s => do
    let kids := (s.children i).filter fun c => decide (c ≠ newr)
    let s ← s.prune i
    publishLoop newr n (queue ++ kids) s

def Reasm.publish (s : Reasm) (merkleRoot : Hash) : Except Fault Reasm :=
  match s.root, s.query merkleRoot with
  | some oldr, some newr => do
    let low := s.subtreel.filter fun i => decide ((s.fec i).slot < (s.fec newr).slot)
    let s ← publishLoop newr (s.fecMax + 1) (oldr :: low) s
    return { s.set newr fun f => { f with parent := none, sibling := none } with root := some newr }
  | _, _ => .ok s

end

inductive Op
  | init (blockId : Hash) (slot : Nat)
  | insert (arrival : Arrival)
  | confirm (blockId : Hash)
  | pop
  | remove (key : Hash)
  | publish (merkleRoot : Hash)

def Reasm.step (s : Reasm) : Op → Except Fault (Reasm × Option Idx)
  | .init blockId slot => do
    let s ← s.init blockId slot
    return (s, none)
  | .insert arrival => do
    let (s, _, evicted) ← s.insert arrival
    match evicted with
    | none => return (s, none)
    | some head => return (s.release head, none)
  | .confirm blockId => do
    let s ← s.confirm blockId
    return (s, none)
  | .pop => .ok s.pop
  | .remove key =>
    match s.query key with
    | none => .error .test
    | some i => do
      let (s, head) ← s.remove i
      return (s.release head, none)
  | .publish merkleRoot => do
    let s ← s.publish merkleRoot
    return (s, none)

end Firebam.Reassembly
