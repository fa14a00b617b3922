/-
Nodes of the B+ tree: their sizes in bytes, and how a node that is too large is cut (`btree/leaf_node.rs`,
`btree/internal_node.rs`, and the choosers in `btree/insert.rs` and `btree/delete.rs`).

A leaf is cut where both parts fit a page and are balanced best; where there is no such place its cells are packed into
as many leaves as it takes (`chooseLeafRedistributionSplit_some`, `packCellsMultiway_ok`). An internal node is cut at
the middle entry, whatever the entries' sizes.

An internal page stores each child with the separator on its right. Inserting a separator and cutting the node are
simple when each child goes with the separator on its LEFT: a first child, then (separator, child) items. `ofRow`
translates; what the operations do to items is in `withPromotion_ofRow` and `splitMid_ofRow`.
-/
import Mqlite.Btree.Tree
import Mqlite.Storage.Synth

namespace Mqlite.Btree

open Lib Mvcc Storage List InternalNode

inductive TreeError where
  | duplicateKey
  | alloc
  | badPage
  | leafTooLarge
  | internalTooLarge
  | cellTooLarge
  | noSiblings
  | noValidSplit
  | overflowChainTooLong
  | overflowPageTooLarge
deriving DecidableEq, Repr

/-! ## Leaves in bytes -/

def PAGE_SIZE_LEAF : ℕ := 32768

def LEAF_HEADER_SIZE : ℕ := 20

def MIN_LEAF_CELLS : ℕ := 4

def MIN_LEAF_BYTES : ℕ := PAGE_SIZE_LEAF / 2

/-- a cell has the same two shapes as a version's payload -/
abbrev LeafCell := Key × VersionData

def LeafCell.encodedSize (c : LeafCell) : ℕ := cellEncodedSize c.1 c.2

/-- each cell has a pointer of two bytes -/
def usedBytesForCells (cells : List LeafCell) : ℕ :=
  LEAF_HEADER_SIZE + cells.length * 2 + (cells.map LeafCell.encodedSize).sum

namespace LeafNode

def usedBytes (n : LeafNode) : ℕ := usedBytesForCells n.cells.entries

def canInsert (n : LeafNode) (cellSize : ℕ) : Bool := n.usedBytes + (cellSize + 2) ≤ PAGE_SIZE_LEAF

def needsRebalance (n : LeafNode) : Bool := n.cells.entries.length < MIN_LEAF_CELLS ∨ n.usedBytes < MIN_LEAF_BYTES

/-- the node as it is read back -/
def encode (n : LeafNode) : Except TreeError Page :=
  if n.usedBytes > PAGE_SIZE_LEAF then .error .leafTooLarge else .ok (.leaf n)

end LeafNode

theorem LeafNode.encode_ok {n : LeafNode} {p : Page} :
    n.encode = .ok p ↔ n.usedBytes ≤ PAGE_SIZE_LEAF ∧ p = .leaf n := by
  unfold LeafNode.encode
  split_ifs with h
  · simp [not_le.2 h]
  · simp [not_lt.1 h, eq_comm]

/-! ## Cutting a leaf -/

/-- deficit, imbalance and movement of a cut; `none` if a part does not fit a page -/
def cutScore (cells : List LeafCell) (originalLeftLen splitAt : ℕ) : Option (ℕ ×ₗ ℕ ×ₗ ℕ) :=
  let leftUsed := usedBytesForCells (cells.take splitAt)
  let rightUsed := usedBytesForCells (cells.drop splitAt)
  if leftUsed > PAGE_SIZE_LEAF ∨ rightUsed > PAGE_SIZE_LEAF then none
  else some (toLex ((MIN_LEAF_BYTES - leftUsed) + (MIN_LEAF_BYTES - rightUsed),
    toLex ((leftUsed - rightUsed) + (rightUsed - leftUsed), (splitAt - originalLeftLen) + (originalLeftLen - splitAt))))

/-- one round of the loop: the first of the best cuts is kept -/
def betterCut (cells : List LeafCell) (originalLeftLen : ℕ) (best : Option ((ℕ ×ₗ ℕ ×ₗ ℕ) × ℕ)) (splitAt : ℕ) :
    Option ((ℕ ×ₗ ℕ ×ₗ ℕ) × ℕ) :=
  match cutScore cells originalLeftLen splitAt with
  | none => best
  | some score =>
    match best with
    | some (bestScore, _) => if bestScore ≤ score then best else some (score, splitAt)
    | none => some (score, splitAt)

def chooseLeafRedistributionSplit (cells : List LeafCell) (originalLeftLen : ℕ) : Option ℕ :=
  (((List.range cells.length).drop 1).foldl (betterCut cells originalLeftLen) none).map Prod.snd

/-- the loop of `pack_cells_multiway`, with the group that is being filled -/
def packLoop : List LeafCell → List LeafCell → ℕ → Except TreeError (List (List LeafCell))
  | [], current, _ => .ok (if current = [] then [] else [current])
  | cell :: cells, current, currentUsed =>
    if current ≠ [] ∧ currentUsed + (cell.encodedSize + 2) > PAGE_SIZE_LEAF then
      if LEAF_HEADER_SIZE + (cell.encodedSize + 2) > PAGE_SIZE_LEAF then .error .cellTooLarge
      else do
        let groups ← packLoop cells [cell] (LEAF_HEADER_SIZE + (cell.encodedSize + 2))
        .ok (current :: groups)
    else if currentUsed + (cell.encodedSize + 2) > PAGE_SIZE_LEAF then .error .cellTooLarge
    else packLoop cells (current ++ [cell]) (currentUsed + (cell.encodedSize + 2))

def packCellsMultiway (cells : List LeafCell) : Except TreeError (List (List LeafCell)) :=
  packLoop cells [] LEAF_HEADER_SIZE

/-! ### Both parts fit -/

section Cut

variable {cells : List LeafCell} {originalLeftLen splitAt : ℕ}

/-- a cut inside the list whose parts fit a page -/
def Fits (cells : List LeafCell) (splitAt : ℕ) : Prop :=
  0 < splitAt ∧ splitAt < cells.length ∧ usedBytesForCells (cells.take splitAt) ≤ PAGE_SIZE_LEAF ∧
    usedBytesForCells (cells.drop splitAt) ≤ PAGE_SIZE_LEAF

theorem cutScore_eq_none_iff : cutScore cells originalLeftLen splitAt = none ↔
    ¬ (usedBytesForCells (cells.take splitAt) ≤ PAGE_SIZE_LEAF ∧
      usedBytesForCells (cells.drop splitAt) ≤ PAGE_SIZE_LEAF) := by
  unfold cutScore
  dsimp only
  split_ifs with h
  · simp only [true_iff]
    omega
  · simp only [false_iff]
    omega

/-- a cut that fits has a score -/
theorem Fits.score (h : Fits cells splitAt) (originalLeftLen : ℕ) :
    ∃ score, cutScore cells originalLeftLen splitAt = some score :=
  Option.ne_none_iff_exists'.1 fun hnone => cutScore_eq_none_iff.1 hnone h.2.2

/-- a round keeps the best so far or takes the cut, and what it keeps is no worse than either -/
theorem betterCut_spec (best : Option ((ℕ ×ₗ ℕ ×ₗ ℕ) × ℕ)) (splitAt : ℕ) :
    (∀ b ∈ betterCut cells originalLeftLen best splitAt, b ∈ best ∨ b.2 = splitAt ∧
      cutScore cells originalLeftLen splitAt = some b.1) ∧
    (∀ x ∈ best, ∃ b ∈ betterCut cells originalLeftLen best splitAt, b.1 ≤ x.1) ∧
    ∀ score ∈ cutScore cells originalLeftLen splitAt, ∃ b ∈ betterCut cells originalLeftLen best splitAt,
      b.1 ≤ score := by
  unfold betterCut
  cases cutScore cells originalLeftLen splitAt with
  | none => exact ⟨fun b hb => .inl hb, fun x hx => ⟨x, hx, le_rfl⟩, by simp⟩
  | some score =>
    cases best with
    | none => exact ⟨by simp, by simp, by simp⟩
    | some x =>
      dsimp only
      split_ifs with hle
      · exact ⟨fun b hb => .inl hb, fun y hy => ⟨y, hy, le_rfl⟩, by simpa using hle⟩
      · exact ⟨by simp, by simpa using (not_le.1 hle).le, by simp⟩

theorem foldl_betterCut (l : List ℕ) (best : Option ((ℕ ×ₗ ℕ ×ₗ ℕ) × ℕ)) :
    (∀ b ∈ l.foldl (betterCut cells originalLeftLen) best, b ∈ best ∨ b.2 ∈ l ∧
      cutScore cells originalLeftLen b.2 = some b.1) ∧
    (∀ x ∈ best, ∃ b ∈ l.foldl (betterCut cells originalLeftLen) best, b.1 ≤ x.1) ∧
    ∀ s ∈ l, ∀ score ∈ cutScore cells originalLeftLen s, ∃ b ∈ l.foldl (betterCut cells originalLeftLen) best,
      b.1 ≤ score := by
  induction l generalizing best with
  | nil => exact ⟨fun b hb => .inl hb, fun x hx => ⟨x, hx, le_rfl⟩, by simp⟩
  | cons s l ih =>
    obtain ⟨hfrom, hbest, hcut⟩ := @betterCut_spec cells originalLeftLen best s
    obtain ⟨hfrom', hbest', hcut'⟩ := ih (betterCut cells originalLeftLen best s)
    have hkept : ∀ {score}, (∃ x ∈ betterCut cells originalLeftLen best s, x.1 ≤ score) →
        ∃ b ∈ (s :: l).foldl (betterCut cells originalLeftLen) best, b.1 ≤ score := by
      rintro score ⟨x, hx, hle⟩
      obtain ⟨b, hb, hle'⟩ := hbest' x hx
      exact ⟨b, hb, hle'.trans hle⟩
    refine ⟨fun b hb => ?_, fun x hx => hkept (hbest x hx),
      forall_mem_cons.2 ⟨fun score hscore => hkept (hcut score hscore), hcut'⟩⟩
    rcases hfrom' b hb with hb | ⟨hmem, hscore⟩
    · refine (hfrom b hb).imp_right ?_
      rintro ⟨rfl, hscore⟩
      exact ⟨mem_cons_self, hscore⟩
    · exact .inr ⟨mem_cons_of_mem _ hmem, hscore⟩

theorem mem_candidates {s : ℕ} : s ∈ (List.range cells.length).drop 1 ↔ 0 < s ∧ s < cells.length := by
  rw [range_eq_range', drop_range', mem_range'_1]
  omega

/-- **The chosen cut fits**, and none that fits has a smaller score. -/
theorem chooseLeafRedistributionSplit_some (h : chooseLeafRedistributionSplit cells originalLeftLen = some splitAt) :
    Fits cells splitAt ∧ ∀ s, Fits cells s → ∀ score ∈ cutScore cells originalLeftLen s,
      ∃ best ∈ cutScore cells originalLeftLen splitAt, best ≤ score := by
  obtain ⟨b, hb, rfl⟩ := Option.map_eq_some_iff.1 h
  obtain ⟨hfrom, -, hcut⟩ := @foldl_betterCut cells originalLeftLen ((List.range cells.length).drop 1) none
  rcases hfrom b hb with hnone | ⟨hmem, hscore⟩
  · cases hnone
  · have hfit : ¬ cutScore cells originalLeftLen b.2 = none := by simp [hscore]
    rw [cutScore_eq_none_iff, not_not] at hfit
    refine ⟨⟨(mem_candidates.1 hmem).1, (mem_candidates.1 hmem).2, hfit⟩, fun s hs score hs' => ?_⟩
    obtain ⟨b', hb', hle⟩ := hcut s (mem_candidates.2 ⟨hs.1, hs.2.1⟩) score hs'
    rw [hb] at hb'
    cases hb'
    exact ⟨b.1, hscore, hle⟩

/-- without a chosen cut there is none that fits -/
theorem chooseLeafRedistributionSplit_none (h : chooseLeafRedistributionSplit cells originalLeftLen = none) (s : ℕ) :
    ¬ Fits cells s := by
  intro hs
  obtain ⟨score, hscore⟩ := hs.score originalLeftLen
  obtain ⟨b, hb, -⟩ := (foldl_betterCut _ none).2.2 s (mem_candidates.2 ⟨hs.1, hs.2.1⟩) score hscore
  rw [Option.map_eq_none_iff.1 h] at hb
  cases hb

theorem usedBytes_append_singleton (cells : List LeafCell) (c : LeafCell) :
    usedBytesForCells (cells ++ [c]) = usedBytesForCells cells + (c.encodedSize + 2) := by
  simp only [usedBytesForCells, length_append, length_singleton, map_append, map_cons, map_nil, sum_append,
    sum_singleton]
  omega

theorem usedBytes_perm {cells' : List LeafCell} (h : cells.Perm cells') :
    usedBytesForCells cells = usedBytesForCells cells' := by
  rw [usedBytesForCells, usedBytesForCells, h.length_eq, (h.map _).sum_eq]

theorem usedBytes_cons (c : LeafCell) (cells : List LeafCell) :
    usedBytesForCells (c :: cells) = usedBytesForCells cells + (c.encodedSize + 2) := by
  rw [usedBytes_perm (perm_append_singleton c cells).symm, usedBytes_append_singleton]

theorem usedBytes_singleton (c : LeafCell) : usedBytesForCells [c] = LEAF_HEADER_SIZE + (c.encodedSize + 2) := by
  simp only [usedBytesForCells, length_singleton, map_cons, map_nil, sum_singleton]
  omega

theorem packLoop_ok {current : List LeafCell} {groups : List (List LeafCell)}
    (h : packLoop cells current (usedBytesForCells current) = .ok groups)
    (hfit : usedBytesForCells current ≤ PAGE_SIZE_LEAF) :
    groups.flatten = current ++ cells ∧ ∀ g ∈ groups, g ≠ [] ∧ usedBytesForCells g ≤ PAGE_SIZE_LEAF := by
  induction cells generalizing current groups with
  | nil =>
    simp only [packLoop, Except.ok.injEq] at h
    subst h
    split_ifs with hc
    · simp [hc]
    · simp [hc, hfit]
  | cons cell cells ih =>
    rw [packLoop] at h
    split_ifs at h with hfull hbig hbig
    · obtain ⟨rest, hrest, h⟩ := bind_eq_ok h
      cases h
      rw [← usedBytes_singleton] at hrest hbig
      obtain ⟨hflat, hall⟩ := ih hrest (not_lt.1 hbig)
      exact ⟨by simp [hflat], forall_mem_cons.2 ⟨⟨hfull.1, hfit⟩, hall⟩⟩
    · rw [← usedBytes_append_singleton] at h hbig
      obtain ⟨hflat, hall⟩ := ih h (not_lt.1 hbig)
      exact ⟨by rw [hflat, append_assoc, singleton_append], hall⟩

/-- **Packing** keeps all cells in their order, and every group fits. -/
theorem packCellsMultiway_ok {groups : List (List LeafCell)} (h : packCellsMultiway cells = .ok groups) :
    groups.flatten = cells ∧ ∀ g ∈ groups, g ≠ [] ∧ usedBytesForCells g ≤ PAGE_SIZE_LEAF :=
  @packLoop_ok cells [] groups h (by decide)

theorem packLoop_error {current : List LeafCell} {currentUsed : ℕ} {e : TreeError}
    (h : packLoop cells current currentUsed = .error e) :
    e ≠ .duplicateKey := by
  induction cells generalizing current currentUsed with
  | nil => cases h
  | cons cell cells ih =>
    rw [packLoop] at h
    split_ifs at h
    · cases h
      simp
    · cases hrest : packLoop cells [cell] (LEAF_HEADER_SIZE + (cell.encodedSize + 2)) with
      | error e' =>
        rw [hrest] at h
        cases h
        exact ih hrest
      | ok groups =>
        rw [hrest] at h
        cases h
    · cases h
      simp
    · exact ih h

/-- packing succeeds when every cell fits a page of its own, and fails otherwise -/
theorem packLoop_isOk_iff (current : List LeafCell) (currentUsed : ℕ) (hused : LEAF_HEADER_SIZE ≤ currentUsed)
    (hcurrent : current = [] → currentUsed = LEAF_HEADER_SIZE) :
    (∃ groups, packLoop cells current currentUsed = .ok groups) ↔
      ∀ c ∈ cells, usedBytesForCells [c] ≤ PAGE_SIZE_LEAF := by
  induction cells generalizing current currentUsed with
  | nil => simp [packLoop]
  | cons cell cells ih =>
    rw [packLoop, forall_mem_cons, usedBytes_singleton]
    split_ifs with hfull hbig hbig
    · simp [not_le.2 hbig]
    · rw [← ih [cell] (LEAF_HEADER_SIZE + (cell.encodedSize + 2)) (by omega) (by simp), and_iff_right (not_lt.1 hbig)]
      constructor
      · rintro ⟨groups, h⟩
        obtain ⟨rest, hrest, -⟩ := bind_eq_ok h
        exact ⟨rest, hrest⟩
      · rintro ⟨rest, hrest⟩
        exact ⟨current :: rest, bind_ok hrest _⟩
    · -- the group is empty, or there would be room
      have hempty : current = [] := by
        by_contra hne
        exact hfull ⟨hne, hbig⟩
      rw [hcurrent hempty] at hbig
      simp [not_le.2 hbig]
    · rw [← ih (current ++ [cell]) (currentUsed + (cell.encodedSize + 2)) (by omega) (by simp),
        and_iff_right (by omega)]

end Cut

/-! ## Internal nodes in bytes -/

def PAGE_SIZE_INTERNAL : ℕ := 4096

def INTERNAL_HEADER_SIZE : ℕ := 12

/-- an entry with a separator of this length -/
def internalEntrySize (keyLen : ℕ) : ℕ := 2 + keyLen + 4

namespace InternalNode

def encodedSize (n : InternalNode) : ℕ :=
  INTERNAL_HEADER_SIZE + (n.entries.map fun e => internalEntrySize e.1.length).sum

def canInsert (n : InternalNode) (extraKeyLen : ℕ) : Bool :=
  n.encodedSize + internalEntrySize extraKeyLen ≤ PAGE_SIZE_INTERNAL

/-- the node as it is read back -/
def encode (n : InternalNode) : Except TreeError Page :=
  if n.encodedSize > PAGE_SIZE_INTERNAL then .error .internalTooLarge else .ok (.internal n)

/-- `find_child_idx`: the first separator above the key -/
def findChildIdx (n : InternalNode) (key : Key) : ℕ := n.entries.findIdx fun e => key < e.1

def childAt (n : InternalNode) (idx : ℕ) : ℕ := (n.entries[idx]?.map Prod.snd).getD n.rightmostChild

/-- where a promoted key goes: behind the separators that are not above it -/
def position (n : InternalNode) (key : Key) : ℕ := n.entries.findIdx fun e => key < e.1

/-- the promoted key with the left half of the split child, which was there before; its place is taken by the right
half -/
def withPromotion (n : InternalNode) (promotedKey : Key) (rightChild : ℕ) : InternalNode :=
  match n.entries[n.position promotedKey]? with
  | some (k, old) =>
    ⟨(n.entries.set (n.position promotedKey) (k, rightChild)).insertIdx (n.position promotedKey) (promotedKey, old),
      n.rightmostChild⟩
  | none => ⟨n.entries.insertIdx (n.position promotedKey) (promotedKey, n.rightmostChild), rightChild⟩

/-- left half, promoted key and right half around the middle entry -/
def splitMid (n : InternalNode) : Option (InternalNode × Key × InternalNode) :=
  (n.entries[n.entries.length / 2]?).map fun e =>
    (⟨n.entries.take (n.entries.length / 2), e.2⟩, e.1, ⟨n.entries.drop (n.entries.length / 2 + 1), n.rightmostChild⟩)

end InternalNode

theorem InternalNode.encode_ok {n : InternalNode} {p : Page} :
    n.encode = .ok p ↔ n.encodedSize ≤ PAGE_SIZE_INTERNAL ∧ p = .internal n := by
  unfold encode
  split_ifs with h
  · simp [not_le.2 h]
  · simp [not_lt.1 h, eq_comm]

/-! ## Rows

A first child, and each further child with the separator on its left. -/

abbrev Items := List (Key × ℕ)

/-- the node of a row -/
def ofRow : ℕ → Items → InternalNode
  | first, [] => ⟨[], first⟩
  | first, (sep, child) :: items => ⟨(sep, first) :: (ofRow child items).entries, (ofRow child items).rightmostChild⟩

/-- every node is the node of a row -/
theorem exists_row (n : InternalNode) : ∃ first items, n = ofRow first items := by
  obtain ⟨entries, rightmost⟩ := n
  induction entries with
  | nil => exact ⟨rightmost, [], rfl⟩
  | cons e entries ih =>
    obtain ⟨first, items, h⟩ := ih
    refine ⟨e.2, (e.1, first) :: items, ?_⟩
    rw [ofRow, ← h]

theorem ofRow_inj {first first' : ℕ} {items items' : Items} (h : ofRow first items = ofRow first' items') :
    first = first' ∧ items = items' := by
  induction items generalizing first first' items' with
  | nil =>
    cases items' with
    | nil => exact ⟨congrArg rightmostChild h, rfl⟩
    | cons e items' => cases congrArg entries h
  | cons e items ih =>
    cases items' with
    | nil => cases congrArg entries h
    | cons e' items' =>
      simp only [ofRow, mk.injEq, List.cons.injEq, Prod.mk.injEq] at h
      obtain ⟨⟨⟨hsep, hfirst⟩, hentries⟩, hlast⟩ := h
      have hrest : ofRow e.2 items = ofRow e'.2 items' := by
        cases hr : ofRow e.2 items
        cases hr' : ofRow e'.2 items'
        rw [hr, hr'] at hentries hlast
        cases hentries
        cases hlast
        rfl
      obtain ⟨hchild, rfl⟩ := ih hrest
      exact ⟨hfirst, by rw [Prod.ext hsep hchild]⟩

/-- insert behind the separators that are not above the key -/
def insertItem (key : Key) (child : ℕ) : Items → Items
  | [] => [(key, child)]
  | (sep, c) :: items => if key < sep then (key, child) :: (sep, c) :: items else (sep, c) :: insertItem key child items

/-- the child for a key -/
def childFor : ℕ → Items → Key → ℕ
  | first, [], _ => first
  | first, (sep, child) :: items, key => if key < sep then first else childFor child items key

section Row

variable {first : ℕ} {items : Items} {key : Key}

theorem map_fst_ofRow (first : ℕ) (items : Items) : (ofRow first items).entries.map Prod.fst = items.map Prod.fst := by
  induction items generalizing first with
  | nil => rfl
  | cons e items ih => simp [ofRow, ih]

theorem length_ofRow (first : ℕ) (items : Items) : (ofRow first items).entries.length = items.length := by
  have h := congrArg List.length (map_fst_ofRow first items)
  simpa using h

theorem findChild_ofRow (first : ℕ) (items : Items) (key : Key) :
    findChild (ofRow first items).entries (ofRow first items).rightmostChild key = childFor first items key := by
  induction items generalizing first with
  | nil => rfl
  | cons e items ih => rw [ofRow, findChild, childFor, ih]

theorem withPromotion_ofRow (first : ℕ) (items : Items) (key : Key) (child : ℕ) :
    (ofRow first items).withPromotion key child = ofRow first (insertItem key child items) := by
  induction items generalizing first with
  | nil => rfl
  | cons e items ih =>
    obtain ⟨sep, c⟩ := e
    rw [insertItem]
    by_cases h : key < sep
    · have hpos : (ofRow first ((sep, c) :: items)).position key = 0 := by
        simp [position, ofRow, findIdx_cons, h]
      rw [if_pos h, withPromotion, hpos]
      simp [ofRow]
    · have hpos : (ofRow first ((sep, c) :: items)).position key = (ofRow c items).position key + 1 := by
        simp [position, ofRow, findIdx_cons, h]
      have hrest : ofRow first ((sep, c) :: insertItem key child items) =
          ⟨(sep, first) :: ((ofRow c items).withPromotion key child).entries,
            ((ofRow c items).withPromotion key child).rightmostChild⟩ := by
        rw [ih]
        rfl
      rw [if_neg h, hrest, withPromotion, withPromotion, hpos]
      simp only [ofRow, getElem?_cons_succ]
      cases (ofRow c items).entries[(ofRow c items).position key]? with
      | none | some x => simp

theorem ofRow_append (first : ℕ) (items : Items) (sep : Key) (child : ℕ) (rest : Items) :
    ofRow first (items ++ (sep, child) :: rest) =
      ⟨(ofRow first items).entries ++ (sep, (ofRow first items).rightmostChild) :: (ofRow child rest).entries,
        (ofRow child rest).rightmostChild⟩ := by
  induction items generalizing first with
  | nil => rfl
  | cons e items ih => simp [ofRow, ih]

/-- the middle item goes up, its child is the first one of the right half -/
theorem splitMid_ofRow (first : ℕ) (left : Items) (sep : Key) (child : ℕ) (right : Items)
    (hmid : left.length = (left ++ (sep, child) :: right).length / 2) :
    (ofRow first (left ++ (sep, child) :: right)).splitMid = some (ofRow first left, sep, ofRow child right) := by
  have hlen : (ofRow first (left ++ (sep, child) :: right)).entries.length / 2 = (ofRow first left).entries.length := by
    rw [length_ofRow, length_ofRow, ← hmid]
  rw [splitMid, hlen, ofRow_append]
  simp

theorem exists_mid {items : Items} (h : items ≠ []) :
    ∃ left sep child right, items = left ++ (sep, child) :: right ∧ left.length = items.length / 2 := by
  have hpos : 0 < items.length := length_pos_iff.2 h
  have hlt : items.length / 2 < items.length := Nat.div_lt_self hpos (by decide)
  refine ⟨items.take (items.length / 2), items[items.length / 2].1, items[items.length / 2].2,
    items.drop (items.length / 2 + 1), ?_, ?_⟩
  · rw [← drop_eq_getElem_cons hlt, take_append_drop]
  · rw [length_take, min_eq_left hlt.le]

theorem insertItem_ne_nil (key : Key) (child : ℕ) (items : Items) : insertItem key child items ≠ [] := by
  cases items with
  | nil => simp [insertItem]
  | cons e items =>
    rw [insertItem]
    split_ifs <;> simp

end Row

end Mqlite.Btree
