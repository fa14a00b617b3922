/-
The delete path (`btree/delete.rs`): removal from the leaf, and repair of an underfull leaf with one of its siblings.

The repair takes the sibling on the left, or the one on the right if there is none on the left, below the same parent.
If both leaves fit one page they are merged, otherwise their cells are divided anew and the parent gets another
separator. A parent that loses entries is not repaired in turn; only a root without entries is given up for its child.

Left out: a leaf's chains are part of the leaf here, so the check that a leaf is freed without chains is not made.
-/
import Mqlite.Btree.Insert

namespace Mqlite.Btree

open Lib Mvcc Storage List Option OrdMap Set InternalNode

/-! ## Parents -/

namespace InternalNode

def setChild (n : InternalNode) (childIdx newChild : ℕ) : InternalNode :=
  if childIdx < n.entries.length then { n with entries := n.entries.modify childIdx fun e => (e.1, newChild) }
  else { n with rightmostChild := newChild }

def setKey (n : InternalNode) (separatorIdx : ℕ) (key : Key) : InternalNode :=
  { n with entries := n.entries.modify separatorIdx fun e => (key, e.2) }

def removeEntry (n : InternalNode) (separatorIdx : ℕ) : InternalNode :=
  { n with entries := n.entries.eraseIdx separatorIdx }

end InternalNode

def redirectParentChildPointer (store : PageStore) (parentPage childIdx newChild : ℕ) : Except TreeError PageStore := do
  let parent ← readInternal store parentPage
  writeInternal store parentPage (parent.setChild childIdx newChild)

/-- a root without entries is given up -/
def removeFromParent (t : BTree) (parentPage separatorIdx : ℕ) : Except TreeError BTree := do
  let parent ← readInternal t.store parentPage
  let parent := parent.removeEntry separatorIdx
  if parent.entries = [] ∧ parentPage = t.rootPage then
    .ok ⟨freePage t.store parentPage, parent.rightmostChild, t.rootLevel - 1⟩
  else do
    let store ← writeInternal t.store parentPage parent
    .ok { t with store }

/-! ## Two leaves side by side -/

def canMergeLeaves (left right : LeafNode) : Bool :=
  left.usedBytes + right.usedBytes - LEAF_HEADER_SIZE ≤ PAGE_SIZE_LEAF

/-- chains of one leaf are put to those of another -/
def moveAllLeafChains (source target : OrdMap Key Chain) : OrdMap Key Chain :=
  source.entries.foldl (fun m e => m.insert e.1 e.2) target

/-- the leaf before gets a new right sibling -/
def relinkNext (store : PageStore) (page next : ℕ) : Except TreeError PageStore :=
  if page = 0 then .ok store
  else do
    let n ← readLeaf store page
    writeLeaf store page { n with nextLeafPage := next }

def mergeLeafIntoLeft (t : BTree) (parentPage childIdx leftPage : ℕ) (leftNode : LeafNode) (page : ℕ)
    (node : LeafNode) :
    Except TreeError BTree := do
  let store ← relinkPrev t.store node.nextLeafPage leftPage
  let store ← writeLeaf store leftPage ⟨.ofList (leftNode.cells.entries ++ node.cells.entries),
    moveAllLeafChains node.deltas leftNode.deltas, node.nextLeafPage, leftNode.prevLeafPage⟩
  let store ← redirectParentChildPointer (freePage store page) parentPage childIdx leftPage
  removeFromParent { t with store } parentPage (childIdx - 1)

def mergeLeafIntoRight (t : BTree) (parentPage page : ℕ) (node : LeafNode) (rightPage : ℕ) (rightNode : LeafNode) :
    Except TreeError BTree := do
  let store ← relinkNext t.store node.prevLeafPage rightPage
  let store ← writeLeaf store rightPage ⟨.ofList (node.cells.entries ++ rightNode.cells.entries),
    moveAllLeafChains node.deltas rightNode.deltas, rightNode.nextLeafPage, node.prevLeafPage⟩
  removeFromParent { t with store := freePage store page } parentPage 0

/-- the key of the first cell on the right -/
def separatorAt (cells : List LeafCell) (splitAt : ℕ) : Key := ((cells.drop splitAt).head?.map Prod.fst).getD []

def redistributeLeafPair (t : BTree) (leftPage : ℕ) (leftNode : LeafNode) (rightPage : ℕ) (rightNode : LeafNode)
    (parentPage separatorIdx : ℕ) : Except TreeError BTree :=
  let combined := leftNode.cells.entries ++ rightNode.cells.entries
  match chooseLeafRedistributionSplit combined leftNode.cells.entries.length with
  | none => .error .noValidSplit
  | some splitAt => do
    let separatorKey := separatorAt combined splitAt
    let chains := moveAllLeafChains rightNode.deltas leftNode.deltas
    let leftEnc ← LeafNode.encode ⟨.ofList (combined.take splitAt), chains.filter fun k => k < separatorKey, rightPage,
      leftNode.prevLeafPage⟩
    let rightEnc ← LeafNode.encode ⟨.ofList (combined.drop splitAt), chains.filter fun k => ¬ k < separatorKey,
      rightNode.nextLeafPage, leftPage⟩
    let parent ← readInternal t.store parentPage
    let parentEnc ← (parent.setKey separatorIdx separatorKey).encode
    .ok { t with
      store := writePage (writePage (writePage t.store leftPage leftEnc) rightPage rightEnc) parentPage parentEnc }

def handleLeafUnderflow (t : BTree) (page : ℕ) (node : LeafNode) (parentPage childIdx : ℕ) : Except TreeError BTree :=
  do
  let parent ← readInternal t.store parentPage
  if childIdx > 0 then do
    let leftPage := parent.childAt (childIdx - 1)
    let leftNode ← readLeaf t.store leftPage
    if canMergeLeaves leftNode node then mergeLeafIntoLeft t parentPage childIdx leftPage leftNode page node
    else redistributeLeafPair t leftPage leftNode page node parentPage (childIdx - 1)
  else if childIdx < parent.entries.length then do
    let rightPage := parent.childAt (childIdx + 1)
    let rightNode ← readLeaf t.store rightPage
    if canMergeLeaves node rightNode then mergeLeafIntoRight t parentPage page node rightPage rightNode
    else redistributeLeafPair t page node rightPage rightNode parentPage childIdx
  else .error .noSiblings

/-! ## The path -/

/-- with the last step of the path, if there is one -/
def deleteFromLeaf (t : BTree) (page : ℕ) (key : Key) (path : Option (ℕ × ℕ)) : Except TreeError (BTree × Bool) := do
  let n ← readLeaf t.store page
  match n.cells.get? key with
  | none => .ok (t, false)
  | some removed => do
    let store ← freeValue t.store removed
    let node := { n with cells := n.cells.erase key }
    let store ← writeLeaf store page node
    match path with
    | none => .ok ({ t with store }, true)
    | some (parentPage, childIdx) =>
      if node.needsRebalance then do
        let t ← handleLeafUnderflow { t with store } page node parentPage childIdx
        .ok (t, true)
      else .ok ({ t with store }, true)

def deleteSubtree (t : BTree) (key : Key) : ℕ → ℕ → Option (ℕ × ℕ) → Except TreeError (BTree × Bool)
  | 0, page, path => deleteFromLeaf t page key path
  | level + 1, page, _ => do
    let node ← readInternal t.store page
    deleteSubtree t key level (node.childAt (node.findChildIdx key)) (some (page, node.findChildIdx key))

def BTree.delete (t : BTree) (key : Key) : Except TreeError (BTree × Bool) :=
  deleteSubtree t key t.rootLevel t.rootPage none

/-- the last step of the path to the leaf for a key: the page above it and the index in it -/
def lastStep (store : PageStore) (key : Key) : ℕ → ℕ → Option (ℕ × ℕ) → Option (ℕ × ℕ)
  | 0, _, path => path
  | level + 1, page, _ =>
    match store page with
    | some (.internal node) =>
      lastStep store key level (node.childAt (node.findChildIdx key)) (some (page, node.findChildIdx key))
    | _ => none

end Mqlite.Btree
