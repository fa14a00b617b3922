/-
What an insertion does to separators, told without pages.

The keys that a leaf hands up (`leafPromotions`) go into the row of separators of the node above. A row that gets too
large for its page is cut at its middle key, whatever the sizes of the keys (`cutRow`); the two halves stay, the middle
key goes up. Promotions that are left at the root make new roots (`rootGrowth`).

`BTree.newLevels` is the number of levels that the tree grows by, `BTree.written` lists the halves and new roots that
are written. Both depend on sizes only, so they are the same for all cells of one size (`leafPromotions_congr`).
-/
import Mqlite.Btree.Node

namespace Mqlite.Btree

open Lib Mvcc Storage List LeafCell

/-! ## Leaves -/

/-- two groups around a cut that fits, or as many as it takes -/
def splitGroups (cells : List LeafCell) : Except TreeError (List (List LeafCell)) :=
  match chooseLeafRedistributionSplit cells (cells.length / 2) with
  | some splitAt => .ok [cells.take splitAt, cells.drop splitAt]
  | none => packCellsMultiway cells

/-- the first keys of all groups but the first -/
def separatorsOf (groups : List (List LeafCell)) : List Key :=
  (groups.drop 1).map fun g => (g.head?.map Prod.fst).getD []

/-- the keys that go up when the leaf gets the cell -/
def leafPromotions (n : LeafNode) (key : Key) (cell : VersionData) : List Key :=
  if n.canInsert (LeafCell.encodedSize (key, cell)) then []
  else match splitGroups (n.cells.insert key cell).entries with
    | .ok groups => separatorsOf groups
    | .error _ => []

/-! ## Rows of separators -/

def insertKey (key : Key) : List Key → List Key
  | [] => [key]
  | sep :: row => if key < sep then key :: sep :: row else sep :: insertKey key row

def keysSize (row : List Key) : ℕ := INTERNAL_HEADER_SIZE + (row.map fun k => internalEntrySize k.length).sum

/-- a node and the nodes that it has been split into, each with the key before it -/
abbrev KeyTier := List Key × List (Key × List Key)

/-- a row that is too large is cut at its middle key; the halves are returned as well -/
def cutRow (row : List Key) : KeyTier × List (List Key) :=
  if keysSize row ≤ PAGE_SIZE_INTERNAL then ((row, []), [])
  else match row.drop (row.length / 2) with
    | [] => ((row, []), [])
    | mid :: right => ((row.take (row.length / 2), [(mid, right)]), [row.take (row.length / 2), right])

/-- a promoted key, into the row that it belongs to -/
def promoteKey (key : Key) : List Key → List (Key × List Key) → KeyTier × List (List Key)
  | row, [] => cutRow (insertKey key row)
  | row, (sep, next) :: rest =>
    if key < sep then
      let (tier, halves) := cutRow (insertKey key row)
      ((tier.1, tier.2 ++ (sep, next) :: rest), halves)
    else
      let (tier, halves) := promoteKey key next rest
      ((row, (sep, tier.1) :: tier.2), halves)

def promoteKeys : List Key → KeyTier → KeyTier × List (List Key)
  | [], tier => (tier, [])
  | key :: keys, tier =>
    let (tier, halves) := promoteKey key tier.1 tier.2
    let (tier, halves') := promoteKeys keys tier
    (tier, halves ++ halves')

/-! ## The path -/

/-- the keys that go up from a page, and the halves that are written below -/
def pathPromotions (store : PageStore) (key : Key) (cell : VersionData) : ℕ → ℕ → List Key × List (List Key)
  | 0, page =>
    match store page with
    | some (.leaf n) => (leafPromotions n key cell, [])
    | _ => ([], [])
  | level + 1, page =>
    match store page with
    | some (.internal node) =>
      let (keys, halves) := pathPromotions store key cell level (findChild node.entries node.rightmostChild key)
      let (tier, halves') := promoteKeys keys (node.entries.map Prod.fst, [])
      (tier.2.map Prod.fst, halves ++ halves')
    | _ => ([], [])

/-- new roots, each with one key at first -/
def rootGrowth : ℕ → List Key → ℕ × List (List Key)
  | fuel + 1, key :: keys =>
    let (tier, halves) := promoteKeys keys ([key], [])
    let (grown, halves') := rootGrowth fuel (tier.2.map Prod.fst)
    (grown + 1, [key] :: halves ++ halves')
  | _, _ => (0, [])

/-- a cell for the value: where its chain is does not matter here -/
def cellFor (value : Bytes) : VersionData :=
  if value.length > OVERFLOW_THRESHOLD then .overflow 0 (value.length % 2 ^ 32) else .inline value

/-- the levels that the tree grows by when the cell is inserted, and the halves and new roots that are written -/
def BTree.growth (t : BTree) (key : Key) (cell : VersionData) : ℕ × List (List Key) :=
  let (keys, halves) := pathPromotions t.store key cell t.rootLevel t.rootPage
  let (grown, halves') := rootGrowth keys.length keys
  (grown, halves ++ halves')

def BTree.newLevels (t : BTree) (key : Key) (value : Bytes) : ℕ := (t.growth key (cellFor value)).1

def BTree.written (t : BTree) (key : Key) (value : Bytes) : List (List Key) := (t.growth key (cellFor value)).2

/-! ## Sizes -/

section Sizes

variable {first child : ℕ} {items : Items} {key : Key}

theorem map_fst_insertItem (key : Key) (child : ℕ) (items : Items) :
    (insertItem key child items).map Prod.fst = insertKey key (items.map Prod.fst) := by
  induction items with
  | nil => rfl
  | cons e items ih =>
    rw [insertItem, map_cons, insertKey]
    split_ifs
    · rfl
    · rw [map_cons, ih]

theorem encodedSize_eq_keysSize (node : InternalNode) : node.encodedSize = keysSize (node.entries.map Prod.fst) := by
  rw [keysSize, map_map]
  rfl

theorem keysSize_insertKey (key : Key) (row : List Key) :
    keysSize (insertKey key row) = keysSize row + internalEntrySize key.length := by
  have hsum : ((insertKey key row).map fun k => internalEntrySize k.length).sum =
      (row.map fun k => internalEntrySize k.length).sum + internalEntrySize key.length := by
    induction row with
    | nil => simp [insertKey]
    | cons sep row ih =>
      rw [insertKey]
      split_ifs
      · simp only [map_cons, sum_cons]
        omega
      · simp only [map_cons, sum_cons, ih]
        omega
  rw [keysSize, keysSize, hsum, Nat.add_assoc]

theorem canInsert_iff (node : InternalNode) (key : Key) :
    node.canInsert key.length = true ↔ keysSize (insertKey key (node.entries.map Prod.fst)) ≤ PAGE_SIZE_INTERNAL := by
  rw [InternalNode.canInsert, decide_eq_true_eq, keysSize_insertKey, ← encodedSize_eq_keysSize]

end Sizes

theorem length_cutRow (row : List Key) : (cutRow row).1.2.length ≤ 1 := by
  unfold cutRow
  split_ifs
  · exact Nat.zero_le _
  · split
    · exact Nat.zero_le _
    · exact le_rfl

theorem length_promoteKey (key : Key) (row : List Key) (rest : List (Key × List Key)) :
    (promoteKey key row rest).1.2.length ≤ rest.length + 1 := by
  induction rest generalizing row with
  | nil => exact length_cutRow _
  | cons e rest ih =>
    obtain ⟨sep, next⟩ := e
    rw [promoteKey]
    split_ifs
    · have := length_cutRow (insertKey key row)
      simp only [length_append, length_cons]
      omega
    · have := ih next
      simp only [length_cons]
      omega

/-- each promotion gives one new node at most -/
theorem length_promoteKeys (keys : List Key) (tier : KeyTier) :
    (promoteKeys keys tier).1.2.length ≤ tier.2.length + keys.length := by
  induction keys generalizing tier with
  | nil => exact le_rfl
  | cons key keys ih =>
    have h₁ := length_promoteKey key tier.1 tier.2
    have h₂ := ih (promoteKey key tier.1 tier.2).1
    change (promoteKeys keys (promoteKey key tier.1 tier.2).1).1.2.length ≤ _
    rw [length_cons]
    omega

/-! ## Cells of one size -/

section Congr

/-- what counts of a cell -/
def sized (c : LeafCell) : Key × ℕ := (c.1, c.encodedSize)

variable {l l' : List LeafCell}

theorem usedBytes_congr (h : l.map sized = l'.map sized) : usedBytesForCells l = usedBytesForCells l' := by
  have hlen : l.length = l'.length := by simpa using congrArg List.length h
  have hsum : l.map encodedSize = l'.map encodedSize := by
    have := congrArg (List.map Prod.snd) h
    rwa [map_map, map_map] at this
  rw [usedBytesForCells, usedBytesForCells, hlen, hsum]

theorem chooseLeafRedistributionSplit_congr (h : l.map sized = l'.map sized) (originalLeftLen : ℕ) :
    chooseLeafRedistributionSplit l originalLeftLen = chooseLeafRedistributionSplit l' originalLeftLen := by
  have hlen : l.length = l'.length := by simpa using congrArg List.length h
  have hscore : betterCut l originalLeftLen = betterCut l' originalLeftLen := by
    funext best splitAt
    have htake := @usedBytes_congr (l.take splitAt) (l'.take splitAt) (by rw [map_take, map_take, h])
    have hdrop := @usedBytes_congr (l.drop splitAt) (l'.drop splitAt) (by rw [map_drop, map_drop, h])
    unfold betterCut cutScore
    rw [htake, hdrop]
  rw [chooseLeafRedistributionSplit, chooseLeafRedistributionSplit, hlen, hscore]

/-- groups of cells that are the same up to payloads -/
def sameGroups : Except TreeError (List (List LeafCell)) → Except TreeError (List (List LeafCell)) → Prop
  | .ok g, .ok g' => g.map (List.map sized) = g'.map (List.map sized)
  | .error e, .error e' => e = e'
  | _, _ => False

theorem packLoop_congr {current current' : List LeafCell} (h : l.map sized = l'.map sized)
    (hcurrent : current.map sized = current'.map sized)
    (currentUsed : ℕ) : sameGroups (packLoop l current currentUsed) (packLoop l' current' currentUsed) := by
  have hnil : ∀ {c c' : List LeafCell}, c.map sized = c'.map sized → (c = [] ↔ c' = []) := by
    intro c c' hc
    rw [← map_eq_nil_iff (f := sized), hc, map_eq_nil_iff]
  induction l generalizing l' current current' currentUsed with
  | nil =>
    obtain rfl : l' = [] := (hnil h).1 rfl
    simp only [packLoop]
    by_cases hc : current = []
    · simp [hc, (hnil hcurrent).1 hc, sameGroups]
    · simp [hc, (hnil hcurrent).not.1 hc, sameGroups, hcurrent]
  | cons cell l ih =>
    cases l' with
    | nil => simp at h
    | cons cell' l' =>
      rw [map_cons, map_cons, List.cons.injEq] at h
      have hsize : cell.encodedSize = cell'.encodedSize := congrArg Prod.snd h.1
      rw [packLoop, packLoop, hsize]
      simp only [ne_eq, hnil hcurrent]
      split_ifs
      · rfl
      · have hrest := @ih l' [cell] [cell'] h.2 (by simp [h.1]) (LEAF_HEADER_SIZE + (cell'.encodedSize + 2))
        cases hp : packLoop l [cell] (LEAF_HEADER_SIZE + (cell'.encodedSize + 2)) with
        | error e =>
          cases hp' : packLoop l' [cell'] (LEAF_HEADER_SIZE + (cell'.encodedSize + 2)) with
          | error e' => rwa [hp, hp'] at hrest
          | ok g' => rw [hp, hp'] at hrest; exact hrest.elim
        | ok g =>
          cases hp' : packLoop l' [cell'] (LEAF_HEADER_SIZE + (cell'.encodedSize + 2)) with
          | error e' => rw [hp, hp'] at hrest; exact hrest.elim
          | ok g' =>
            rw [hp, hp'] at hrest
            simp only [sameGroups, bind, Except.bind, map_cons, hcurrent] at hrest ⊢
            rw [hrest]
      · rfl
      · exact ih h.2 (by simp [hcurrent, h.1]) _

theorem splitGroups_congr (h : l.map sized = l'.map sized) : sameGroups (splitGroups l) (splitGroups l') := by
  have hlen : l.length = l'.length := by simpa using congrArg List.length h
  unfold splitGroups
  rw [chooseLeafRedistributionSplit_congr h, hlen]
  cases chooseLeafRedistributionSplit l' (l'.length / 2) with
  | none => exact packLoop_congr h rfl _
  | some splitAt => simp [sameGroups, map_take, map_drop, h]

theorem separatorsOf_congr {g g' : List (List LeafCell)} (h : g.map (List.map sized) = g'.map (List.map sized)) :
    separatorsOf g = separatorsOf g' := by
  have heq : ∀ g : List (List LeafCell), separatorsOf g =
      ((g.map (List.map sized)).drop 1).map fun s => (s.head?.map Prod.fst).getD [] := by
    intro g
    rw [← map_drop, map_map]
    refine map_congr_left fun s _ => ?_
    cases s <;> rfl
  rw [heq, heq, h]

variable {cell cell' : VersionData}

theorem map_sized_insert (m : OrdMap Key VersionData) (key : Key)
    (h : encodedSize (key, cell) = encodedSize (key, cell')) :
    (m.insert key cell).entries.map sized = (m.insert key cell').entries.map sized := by
  obtain ⟨entries, hsorted⟩ := m
  simp only [OrdMap.insert]
  clear hsorted
  induction entries with
  | nil => simp [OrdMap.insertEntry, sized, h]
  | cons p l ih =>
    rw [OrdMap.insertEntry, OrdMap.insertEntry]
    split_ifs
    · simp [sized, h]
    · simp [sized, h]
    · simp [ih]

/-- **Only the size of the cell counts.** -/
theorem leafPromotions_congr (n : LeafNode) (key : Key) (h : encodedSize (key, cell) = encodedSize (key, cell')) :
    leafPromotions n key cell = leafPromotions n key cell' := by
  have hgroups := splitGroups_congr (map_sized_insert n.cells key h)
  unfold leafPromotions
  rw [h]
  split_ifs
  · rfl
  · cases hg : splitGroups (n.cells.insert key cell).entries with
    | error e =>
      cases hg' : splitGroups (n.cells.insert key cell').entries with
      | error e' => rfl
      | ok g' => rw [hg, hg'] at hgroups; exact hgroups.elim
    | ok g =>
      cases hg' : splitGroups (n.cells.insert key cell').entries with
      | error e' => rw [hg, hg'] at hgroups; exact hgroups.elim
      | ok g' =>
        rw [hg, hg'] at hgroups
        exact separatorsOf_congr hgroups

theorem pathPromotions_congr (store : PageStore) (key : Key) (h : encodedSize (key, cell) = encodedSize (key, cell'))
    (level page : ℕ) :
    pathPromotions store key cell level page = pathPromotions store key cell' level page := by
  induction level generalizing page with
  | zero =>
    rw [pathPromotions, pathPromotions]
    simp only [leafPromotions_congr _ key h]
  | succ level ih =>
    rw [pathPromotions, pathPromotions]
    simp only [ih]

end Congr

end Mqlite.Btree
