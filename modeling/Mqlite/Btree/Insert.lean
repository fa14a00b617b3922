/-
The insert path (`btree/insert.rs`): down to the leaf, leaf splits, and promotions on the way up.

A leaf that cannot take the cell is split into two leaves, or into several; every new leaf is promoted with its first
key. A promotion goes into the node above, which may be cut in two in turn; further promotions go to the half that their
keys belong to. Promotions that are left at the root give the tree a new root.

When pages are read and written, bytes are left out: what is written is what is read (`encode`).
-/
import Mqlite.Btree.Growth
import Mqlite.Btree.Overflow
import Mqlite.Btree.Spans

namespace Mqlite.Btree

open Lib Mvcc Storage List OrdMap Nat Set InternalNode

/-! ## Leaf -/

/-- the group that a chain goes to: the last one whose separator is not above the key -/
def chainGroup (separators : List Key) (key : Key) : ℕ := separators.findIdx fun sep => key < sep

/-- each group to its page, linked one after the other -/
def writeGroups (separators : List Key) (deltas : OrdMap Key Chain) (oldNext : ℕ) :
    ℕ → ℕ → List ℕ → List (List LeafCell) → PageStore → Except TreeError PageStore
  | i, prev, page :: pages, cells :: groups, store => do
    let store ← writeLeaf store page ⟨.ofList cells, deltas.filter fun k => chainGroup separators k = i,
      pages.headD oldNext, prev⟩
    writeGroups separators deltas oldNext (i + 1) page pages groups store
  | _, _, _, _, store => .ok store

/-- the leaf behind gets a new left sibling -/
def relinkPrev (store : PageStore) (page prev : ℕ) : Except TreeError PageStore :=
  if page = 0 then .ok store
  else do
    let n ← readLeaf store page
    writeLeaf store page { n with prevLeafPage := prev }

def splitLeaf (a : Allocator) (store : PageStore) (leftPage : ℕ) (leftNode : LeafNode) (newCell : LeafCell) :
    Except TreeError (PageStore × Items) := do
  let groups ← splitGroups (leftNode.cells.insert newCell.1 newCell.2).entries
  let (store, newPages) ← allocPages a (groups.length - 1) store
  let store ← relinkPrev store leftNode.nextLeafPage (newPages.getLastD leftPage)
  let store ← writeGroups (separatorsOf groups) leftNode.deltas leftNode.nextLeafPage 0 leftNode.prevLeafPage
    (leftPage :: newPages) groups store
  .ok (store, (separatorsOf groups).zip newPages)

def insertLeaf (a : Allocator) (store : PageStore) (page : ℕ) (key : Key) (value : VersionData) :
    Except TreeError (PageStore × Items) := do
  let n ← readLeaf store page
  if (n.cells.get? key).isSome then .error .duplicateKey
  else if n.canInsert (LeafCell.encodedSize (key, value)) then do
    let store ← writeLeaf store page { n with cells := n.cells.insert key value }
    .ok (store, [])
  else splitLeaf a store page n (key, value)

/-! ## Internal nodes -/

def insertIntoInternal (a : Allocator) (store : PageStore) (page : ℕ) (promotedKey : Key) (rightChild : ℕ) :
    Except TreeError (PageStore × Option (Key × ℕ)) := do
  let node ← readInternal store page
  if node.canInsert promotedKey.length then do
    let store ← writeInternal store page (node.withPromotion promotedKey rightChild)
    .ok (store, none)
  else
    match (node.withPromotion promotedKey rightChild).splitMid with
    | none => .error .badPage
    | some (left, key, right) => do
      let (store, rightPage) ← allocPage a store
      let leftEnc ← left.encode
      let rightEnc ← right.encode
      .ok (writePage (writePage store page leftEnc) rightPage rightEnc, some (key, rightPage))

/-- the node at this level that covers the key: `out` has the nodes that the page has been split into -/
def promotionTarget (page : ℕ) (out : Items) (key : Key) : ℕ :=
  match out.findIdx fun s => key < s.1 with
  | 0 => page
  | idx + 1 => (out[idx]?.map Prod.snd).getD page

def insertPromotions (a : Allocator) (page : ℕ) : Items → PageStore → Items → Except TreeError (PageStore × Items)
  | [], store, out => .ok (store, out)
  | (key, right) :: promotions, store, out => do
    let (store, split) ← insertIntoInternal a store (promotionTarget page out key) key right
    insertPromotions a page promotions store (match split with
      | none => out
      | some s => out.insertIdx (out.findIdx fun s => key < s.1) s)

def insertSubtree (a : Allocator) (key : Key) (value : VersionData) :
    ℕ → ℕ → PageStore → Except TreeError (PageStore × Items)
  | 0, page, store => insertLeaf a store page key value
  | level + 1, page, store => do
    let node ← readInternal store page
    let (store, childSplits) ← insertSubtree a key value level (findChild node.entries node.rightmostChild key) store
    if childSplits = [] then .ok (store, [])
    else insertPromotions a page childSplits store []

/-! ## Root -/

/-- a new root for the promotions that are left; a round uses up one of them. The level is kept in 8 bits. -/
def growRoot (a : Allocator) : ℕ → PageStore → ℕ → ℕ → Items → Except TreeError (PageStore × ℕ × ℕ)
  | _, store, rootPage, rootLevel, [] => .ok (store, rootPage, rootLevel)
  | 0, _, _, _, _ :: _ => .error .badPage
  | fuel + 1, store, rootPage, rootLevel, (promotedKey, rightPage) :: splits => do
    let (store, newRoot) ← allocPage a store
    let store ← writeInternal store newRoot ⟨[(promotedKey, rootPage)], rightPage⟩
    let (store, splits) ← insertPromotions a newRoot splits store []
    growRoot a fuel store newRoot ((rootLevel + 1) % 256) splits

/-- the insertion of a cell -/
def insertRoot (a : Allocator) (t : BTree) (key : Key) (value : VersionData) : Except TreeError BTree := do
  let (store, splits) ← insertSubtree a key value t.rootLevel t.rootPage t.store
  let (store, rootPage, rootLevel) ← growRoot a splits.length store t.rootPage t.rootLevel splits
  .ok ⟨store, rootPage, rootLevel⟩

/-- `false`: the key is there already. A chain that was written for the value stays behind then. -/
def BTree.insert (a : Allocator) (t : BTree) (key : Key) (value : Bytes) : Except TreeError (BTree × Bool) := do
  let (store, cell) ← storeValue a t.store value
  match insertRoot a { t with store } key cell with
  | .ok t => .ok (t, true)
  | .error .duplicateKey => .ok ({ t with store }, false)
  | .error e => .error e

end Mqlite.Btree
