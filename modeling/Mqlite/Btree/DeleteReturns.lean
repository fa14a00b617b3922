/-
When a deletion returns.

A deletion that leaves an underfull leaf needs a sibling below the same parent. If the two leaves fit one page the
repair succeeds. If not, their cells are divided anew, and the parent must have room for the separator of the new
division (`Repairable`). So a deletion returns exactly if the leaf that it leaves is not underfull or can be repaired,
and if the overflow chain of the removed value is not longer than a walk over it may be (`delete_returns_iff`).

A node that is cut at its middle entry may be left with a single child and no entry. The only leaf below it cannot be
repaired (`delete_without_siblings`).
-/
import Mqlite.Btree.InsertReturns

namespace Mqlite.Btree

open Lib Mvcc Storage List OrdMap Nat LeafNode TreeOp

/-! ## Sizes -/

section Sizes

theorem canMergeLeaves_iff (left right : LeafNode) :
    canMergeLeaves left right = true ↔
      usedBytesForCells (left.cells.entries ++ right.cells.entries) ≤ PAGE_SIZE_LEAF := by
  rw [canMergeLeaves, decide_eq_true_eq, usedBytes, usedBytes]
  simp only [usedBytesForCells, List.length_append, List.map_append, List.sum_append]
  omega

theorem usedBytes_erase_le (n : LeafNode) (key : Key) :
    usedBytesForCells (n.cells.erase key).entries ≤ n.usedBytes := by
  have hsub : (n.cells.erase key).entries.Sublist n.cells.entries := filter_sublist
  have hsum := (hsub.map LeafCell.encodedSize).sum_le_sum fun _ _ => zero_le _
  have hlen := hsub.length_le
  rw [usedBytes, usedBytesForCells, usedBytesForCells]
  omega

theorem encodedSize_setChild (n : InternalNode) (childIdx newChild : ℕ) :
    (n.setChild childIdx newChild).encodedSize = n.encodedSize := by
  rw [encodedSize_eq_keysSize, encodedSize_eq_keysSize, InternalNode.setChild]
  split_ifs
  · congr 1
    refine ext_getElem? fun i => ?_
    simp only [getElem?_map, getElem?_modify]
    cases n.entries[i]? with
    | none => rfl
    | some e =>
      split_ifs <;> rfl
  · rfl

end Sizes

/-! ## Repair -/

/-- the parent has room for the separator of the division that is chosen -/
def SeparatorFits (parent : InternalNode) (separatorIdx : ℕ) (left right : LeafNode) : Prop :=
  ∃ splitAt, chooseLeafRedistributionSplit (left.cells.entries ++ right.cells.entries) left.cells.entries.length =
    some splitAt ∧
    (parent.setKey separatorIdx (separatorAt (left.cells.entries ++ right.cells.entries) splitAt)).encodedSize ≤
      PAGE_SIZE_INTERNAL

/-- the leaf has a sibling below its parent, on the left or else on the right; both fit one page, or the parent has room
for the separator that their cells are divided by -/
def Repairable (store : PageStore) (parentPage childIdx : ℕ) (node : LeafNode) : Prop :=
  ∃ parent, store parentPage = some (.internal parent) ∧
    if 0 < childIdx then
      ∃ left, store (parent.childAt (childIdx - 1)) = some (.leaf left) ∧
        (canMergeLeaves left node = true ∨ SeparatorFits parent (childIdx - 1) left node)
    else
      childIdx < parent.entries.length ∧ ∃ right, store (parent.childAt (childIdx + 1)) = some (.leaf right) ∧
        (canMergeLeaves node right = true ∨ SeparatorFits parent childIdx node right)

section Repair

variable {store store' : PageStore} {page next prev : ℕ} {t : BTree} {parent first : ℕ} {l r : Items} {sep : Key}
  {right : ℕ} {lo hi : Option Key} {outL outR : List ℕ} {leftNode rightNode : LeafNode}

variable {node : InternalNode}

theorem removeFromParent_isOk (hnode : store parent = some (.internal node))
    (hfit : node.encodedSize ≤ PAGE_SIZE_INTERNAL)
    (rootPage rootLevel idx : ℕ) : ∃ t', removeFromParent ⟨store, rootPage, rootLevel⟩ parent idx = .ok t' := by
  rw [removeFromParent, bind_ok (readInternal_ok.2 hnode)]
  dsimp only
  split_ifs
  · exact ⟨_, rfl⟩
  · have hsub : (node.entries.eraseIdx idx).Sublist node.entries := List.eraseIdx_sublist _ _
    have hle : (node.removeEntry idx).encodedSize ≤ node.encodedSize :=
      Nat.add_le_add_left ((hsub.map _).sum_le_sum fun _ _ => Nat.zero_le _) _
    exact ⟨_, bind_ok (writeInternal_ok.2 ⟨hle.trans hfit, rfl⟩) _⟩

theorem redirectParentChildPointer_isOk (hnode : store parent = some (.internal node))
    (hfit : node.encodedSize ≤ PAGE_SIZE_INTERNAL) (childIdx newChild : ℕ) :
    ∃ store', redirectParentChildPointer store parent childIdx newChild = .ok store' ∧
      store' parent = some (.internal (node.setChild childIdx newChild)) := by
  refine ⟨_, ?_, writePage_self store parent _⟩
  rw [redirectParentChildPointer, bind_ok (readInternal_ok.2 hnode), writeInternal_ok]
  exact ⟨by rwa [encodedSize_setChild], rfl⟩

/-- a leaf among linked ones can be relinked, and so can its neighbours -/
theorem Around.canRelink {before after : List ℕ} {left : ℕ}
    (h : Around t parent before left right after leftNode rightNode)
    (hfit : PagesFit t.store) : CanRelink t.store leftNode.prevLeafPage ∧ CanRelink t.store rightNode.nextLeafPage := by
  have hcan : ∀ p, p = 0 ∨ p ∈ before ++ left :: right :: after → CanRelink t.store p := by
    rintro p (h0 | hp)
    · exact .inl h0
    · obtain ⟨m, hm⟩ := h.linked.leaf p hp
      exact .inr ⟨m, hm, hfit p _ hm⟩
  exact ⟨hcan _ (h.linked.prev (by simp) h.leftLeaf h.nodup), hcan _ (h.linked.next (by simp) h.rightLeaf)⟩

theorem mergeLeafIntoLeft_isOk (hbelow : Below t parent first (l ++ (sep, right) :: r) lo hi outL outR)
    (hl : t.store (lastChild first l) = some (.leaf leftNode)) (hr : t.store right = some (.leaf rightNode))
    (hfit : PagesFit t.store) (hmerge : canMergeLeaves leftNode rightNode = true) :
    ∃ t', mergeLeafIntoLeft t parent (l.length + 1) (lastChild first l) leftNode right rightNode = .ok t' := by
  have haround := hbelow.around hl hr
  obtain ⟨lo', hi', hpair⟩ := hbelow.row.pair
  obtain ⟨hlp, hrp⟩ := haround.ne_parent
  obtain ⟨store₁, hrelink⟩ := relinkPrev_isOk.2 (haround.canRelink hfit).2
  have hparent₁ := (relink_ok hrelink).other hbelow.node (by simp)
  have hmerged : (mergedLeaf leftNode rightNode (moveAllLeafChains rightNode.deltas leftNode.deltas)).usedBytes ≤
      PAGE_SIZE_LEAF := by
    rw [usedBytes, mergedLeaf, (hpair.entries_joined hl hr 0).1]
    exact (canMergeLeaves_iff _ _).1 hmerge
  have hwrite := (@writeLeaf_ok store₁ _ (lastChild first l) _).2 ⟨hmerged, rfl⟩
  have hsize := hfit parent _ hbelow.node
  have hparent₂ : freePage (writePage store₁ (lastChild first l) (.leaf (mergedLeaf leftNode rightNode
      (moveAllLeafChains rightNode.deltas leftNode.deltas)))) right parent = some (.internal (ofRow first (l ++
        (sep, right) :: r))) := by
    rw [freePage_of_ne hrp.symm, writePage_of_ne _ hlp.symm, hparent₁]
  obtain ⟨store₃, hredirect, hparent₃⟩ :=
    redirectParentChildPointer_isOk hparent₂ hsize (l.length + 1) (lastChild first l)
  obtain ⟨t', hremove⟩ :=
    removeFromParent_isOk hparent₃ (by rw [encodedSize_setChild]; exact hsize) t.rootPage t.rootLevel (l.length + 1 - 1)
  refine ⟨t', ?_⟩
  rw [mergeLeafIntoLeft, bind_ok hrelink]
  exact (bind_ok hwrite _).trans ((bind_ok hredirect _).trans hremove)

theorem mergeLeafIntoRight_isOk (hbelow : Below t parent first ((sep, right) :: r) lo hi outL outR)
    (hl : t.store first = some (.leaf leftNode)) (hr : t.store right = some (.leaf rightNode)) (hfit : PagesFit t.store)
    (hmerge : canMergeLeaves leftNode rightNode = true) :
    ∃ t', mergeLeafIntoRight t parent first leftNode right rightNode = .ok t' := by
  have haround := @Below.around t parent first [] r sep right lo hi outL outR leftNode rightNode hbelow hl hr
  obtain ⟨lo', hi', hpair⟩ := @LeafRow.pair t.store first [] r lo hi sep right hbelow.row
  obtain ⟨hlp, hrp⟩ := haround.ne_parent
  change first ≠ parent at hlp
  obtain ⟨store₁, hrelink⟩ : ∃ store₁, relinkNext t.store leftNode.prevLeafPage right = .ok store₁ :=
    (@relink_isOk _ _ (fun m => { m with nextLeafPage := right }) fun _ => rfl).2 (haround.canRelink hfit).1
  have hparent₁ := (relink_ok hrelink).other hbelow.node (by simp)
  have hmerged : (mergedLeaf leftNode rightNode (moveAllLeafChains leftNode.deltas rightNode.deltas)).usedBytes ≤
      PAGE_SIZE_LEAF := by
    rw [usedBytes, mergedLeaf, (hpair.entries_joined hl hr 0).1]
    exact (canMergeLeaves_iff _ _).1 hmerge
  have hwrite := (@writeLeaf_ok store₁ _ right _).2 ⟨hmerged, rfl⟩
  have hparent₂ : freePage (writePage store₁ right (.leaf (mergedLeaf leftNode rightNode
      (moveAllLeafChains leftNode.deltas rightNode.deltas)))) first parent =
        some (.internal (ofRow first ((sep, right) :: r))) := by
    rw [freePage_of_ne hlp.symm, writePage_of_ne _ hrp.symm, hparent₁]
  obtain ⟨t', hremove⟩ := removeFromParent_isOk hparent₂ (hfit parent _ hbelow.node) t.rootPage t.rootLevel 0
  refine ⟨t', ?_⟩
  rw [mergeLeafIntoRight, bind_ok hrelink]
  exact (bind_ok hwrite _).trans hremove

/-- cells that are not merged can be divided: in the worst case as they were -/
theorem redistributeLeafPair_isOk_iff {leftPage idx : ℕ} (hnode : t.store parent = some (.internal node))
    (hsorted : (leftNode.cells.entries ++ rightNode.cells.entries).Pairwise fun a b => a.1 < b.1)
    (hl : leftNode.usedBytes ≤ PAGE_SIZE_LEAF)
    (hr : rightNode.usedBytes ≤ PAGE_SIZE_LEAF) (hmerge : ¬ canMergeLeaves leftNode rightNode = true) :
    (∃ t', redistributeLeafPair t leftPage leftNode right rightNode parent idx = .ok t') ↔
      SeparatorFits node idx leftNode rightNode := by
  rw [canMergeLeaves_iff] at hmerge
  have hcut : Fits (leftNode.cells.entries ++ rightNode.cells.entries) leftNode.cells.entries.length := by
    refine ⟨?_, ?_, by rw [take_left]; exact hl, by rw [drop_left]; exact hr⟩
    · refine pos_of_ne_zero fun h0 => hmerge ?_
      rw [length_eq_zero_iff.1 h0]
      exact hr
    · rw [List.length_append]
      refine Nat.lt_add_of_pos_right (Nat.pos_of_ne_zero fun h0 => hmerge ?_)
      rw [List.length_eq_zero_iff.1 h0, List.append_nil]
      exact hl
  unfold redistributeLeafPair SeparatorFits
  dsimp only
  generalize hcombined : leftNode.cells.entries ++ rightNode.cells.entries = combined at *
  cases hchoose : chooseLeafRedistributionSplit combined leftNode.cells.entries.length with
  | none => exact absurd hcut (chooseLeafRedistributionSplit_none hchoose _)
  | some splitAt =>
    obtain ⟨⟨-, -, htake, hdrop⟩, -⟩ := chooseLeafRedistributionSplit_some hchoose
    rw [← take_append_drop splitAt combined] at hsorted
    obtain ⟨hsortedL, hsortedR, -⟩ := pairwise_append.1 hsorted
    have hencL : ∀ deltas next prev, encode ⟨.ofList (combined.take splitAt), deltas, next, prev⟩ =
        .ok (.leaf ⟨.ofList (combined.take splitAt), deltas, next, prev⟩) := by
      intro deltas next prev
      refine encode_ok.2 ⟨?_, rfl⟩
      rw [usedBytes, entries_ofList hsortedL]
      exact htake
    have hencR : ∀ deltas next prev, encode ⟨.ofList (combined.drop splitAt), deltas, next, prev⟩ =
        .ok (.leaf ⟨.ofList (combined.drop splitAt), deltas, next, prev⟩) := by
      intro deltas next prev
      refine encode_ok.2 ⟨?_, rfl⟩
      rw [usedBytes, entries_ofList hsortedR]
      exact hdrop
    dsimp only
    rw [bind_ok (hencL _ _ _), bind_ok (hencR _ _ _), bind_ok (readInternal_ok.2 hnode)]
    constructor
    · rintro ⟨t', h⟩
      obtain ⟨enc, henc, -⟩ := bind_eq_ok h
      exact ⟨splitAt, rfl, (InternalNode.encode_ok.1 henc).1⟩
    · rintro ⟨s, hs, hsize⟩
      cases hs
      exact ⟨_, bind_ok (InternalNode.encode_ok.2 ⟨hsize, rfl⟩) _⟩

/-- two leaves that fit one page are merged, others are divided anew -/
theorem mergeOrDivide_isOk_iff {fits : Bool} {merge divide : Except TreeError BTree} {S : Prop}
    (hmerge : fits = true → ∃ t', merge = .ok t') (hdivide : ¬ fits = true → ((∃ t', divide = .ok t') ↔ S)) :
    (∃ t', (if fits = true then merge else divide) = .ok t') ↔ fits = true ∨ S := by
  cases fits with
  | true => simpa using hmerge rfl
  | false => simpa using hdivide Bool.false_ne_true

/-- **When the repair succeeds** -/
theorem handleLeafUnderflow_isOk_iff {node : LeafNode} (hbelow : Below t parent first (l ++ r) lo hi outL outR)
    (hn : t.store (lastChild first l) = some (.leaf node)) (hfit : PagesFit t.store) :
    (∃ t', handleLeafUnderflow t (lastChild first l) node parent l.length = .ok t') ↔
      Repairable t.store parent l.length node := by
  have hrepair : Repairable t.store parent l.length node ↔ if 0 < l.length then
      ∃ left, t.store ((ofRow first (l ++ r)).childAt (l.length - 1)) = some (.leaf left) ∧
        (canMergeLeaves left node = true ∨ SeparatorFits (ofRow first (l ++ r)) (l.length - 1) left node)
    else
      l.length < (ofRow first (l ++ r)).entries.length ∧
        ∃ right, t.store ((ofRow first (l ++ r)).childAt (l.length + 1)) = some (.leaf right) ∧
        (canMergeLeaves node right = true ∨ SeparatorFits (ofRow first (l ++ r)) l.length node right) := by
    constructor
    · rintro ⟨p, hp, h⟩
      rw [hbelow.node] at hp
      cases hp
      exact h
    · exact fun h => ⟨_, hbelow.node, h⟩
  rw [hrepair, handleLeafUnderflow, bind_ok (readInternal_ok.2 hbelow.node)]
  rcases eq_nil_or_concat' l with rfl | ⟨l, ⟨sep, page⟩, rfl⟩
  · -- the sibling on the right
    simp only [length_nil, gt_iff_lt, lt_self_iff_false, if_false]
    cases r with
    | nil => simp [ofRow]
    | cons e r =>
      obtain ⟨sep, right⟩ := e
      have hlen : 0 < (ofRow first ([] ++ (sep, right) :: r)).entries.length := by simp [ofRow]
      obtain ⟨lo', hi', hpair⟩ := @LeafRow.pair t.store first [] r lo hi sep right hbelow.row
      obtain ⟨-, rightNode, hr, -⟩ := hpair.rightAt
      rw [childAt_one, bind_ok (readLeaf_ok.2 hr)]
      simp only [hlen, hr, Option.some.injEq, Page.leaf.injEq, exists_eq_left', true_and]
      refine mergeOrDivide_isOk_iff (mergeLeafIntoRight_isOk hbelow hn hr hfit) fun hno => ?_
      exact redistributeLeafPair_isOk_iff hbelow.node (hpair.sorted hn hr) (hfit _ _ hn) (hfit _ _ hr) hno
  · -- the sibling on the left
    have hlen : (l ++ [(sep, page)]).length - 1 = l.length := by simp
    rw [append_assoc] at hbelow ⊢
    rw [lastChild_concat] at hn ⊢
    obtain ⟨lo', hi', hpair⟩ := hbelow.row.pair
    obtain ⟨-, leftNode, hl, -⟩ := hpair.leftAt
    rw [hlen, childAt_ofRow, bind_ok (readLeaf_ok.2 hl), length_append]
    simp only [hl, Option.some.injEq, Page.leaf.injEq, exists_eq_left']
    refine mergeOrDivide_isOk_iff (mergeLeafIntoLeft_isOk hbelow hl hn hfit) fun hno => ?_
    exact redistributeLeafPair_isOk_iff hbelow.node (hpair.sorted hl hn) (hfit _ _ hl) (hfit _ _ hn) hno

end Repair

/-! ## Delete -/

/-- the tree has a leaf for the key; if the key is there, the value's chain is not too long, and the leaf without it is
not underfull, has no parent or can be repaired -/
def Deletable (t : BTree) (m : OrdMap Key Bytes) (key : Key) : Prop :=
  ∃ q n, findLeaf t.store t.rootLevel t.rootPage key = some q ∧
  t.store q = some (.leaf n) ∧ ((n.cells.get? key).isSome = true →
    (∀ v, m.get? key = some v → v.length ≤ MAX_OVERFLOW_CHAIN_PAGES * OVERFLOW_PAGE_DATA) ∧
    (LeafNode.needsRebalance { n with cells := n.cells.erase key } = true → ∀ parent idx,
      lastStep t.store key t.rootLevel t.rootPage none = some (parent, idx) →
        Repairable t.store parent idx { n with cells := n.cells.erase key }))

section Delete

variable {t : BTree} {m : OrdMap Key Bytes} {key : Key} {store : PageStore} {cell : VersionData} {pages : List ℕ}
  {value : Bytes}

/-- a chain that is not too long -/
theorem Stored.length_le_iff (h : Stored store cell pages value)
    (hcell : usedBytesForCells [(key, cell)] ≤ PAGE_SIZE_LEAF) :
    pages.length ≤ MAX_OVERFLOW_CHAIN_PAGES ↔ value.length ≤ MAX_OVERFLOW_CHAIN_PAGES * OVERFLOW_PAGE_DATA := by
  have hbound : PAGE_SIZE_LEAF ≤ MAX_OVERFLOW_CHAIN_PAGES * OVERFLOW_PAGE_DATA := by decide
  cases cell with
  | inline bytes =>
    obtain ⟨rfl, rfl⟩ := h
    rw [usedBytes_singleton, LeafCell.encodedSize, cellEncodedSize] at hcell
    exact iff_of_true (zero_le _) (by omega)
  | overflow firstPage totalLength =>
    obtain ⟨-, -, hpages, -, -⟩ := h
    have hdata : 0 < OVERFLOW_PAGE_DATA := by decide
    have hmax : 0 < MAX_OVERFLOW_CHAIN_PAGES := by decide
    rw [hpages, succ_le_iff, div_lt_iff_lt_mul hdata]
    have := mul_pos hmax hdata
    omega

variable {n : LeafNode}

/-- the sibling that a repair takes is another leaf -/
theorem Below.repairable_congr {t₁ : BTree} {parent first : ℕ} {l r : Items} {lo hi : Option Key} {outL outR : List ℕ}
    (hbelow : Below t₁ parent first (l ++ r) lo hi outL outR) (hparent : t.store parent = t₁.store parent)
    (hleaf : ∀ p ∈ first :: (l ++ r).map Prod.snd, p ≠ lastChild first l → t.store p = t₁.store p) :
    Repairable t₁.store parent l.length n ↔ Repairable t.store parent l.length n := by
  unfold Repairable
  rw [hparent]
  refine exists_congr fun node => and_congr_right fun hnode => ?_
  rw [hbelow.node] at hnode
  cases hnode
  rcases eq_nil_or_concat' l with rfl | ⟨l, ⟨sep, page⟩, rfl⟩
  · cases r with
    | nil => simp [ofRow]
    | cons e r =>
      obtain ⟨sep, right⟩ := e
      obtain ⟨lo', hi', hpair⟩ := @LeafRow.pair t₁.store first [] r lo hi sep right hbelow.row
      obtain ⟨-, leftNode, hl, -⟩ := hpair.leftAt
      obtain ⟨-, rightNode, hr, -⟩ := hpair.rightAt
      have hne :=
        (@Below.around t₁ parent first [] r sep right lo hi outL outR leftNode rightNode hbelow hl hr).left_ne_right
      simp only [length_nil, lt_self_iff_false, if_false, childAt_one, hleaf right (by simp) hne.symm]
  · rw [append_assoc] at hbelow hleaf ⊢
    obtain ⟨lo', hi', hpair⟩ := hbelow.row.pair
    obtain ⟨-, leftNode, hl, -⟩ := hpair.leftAt
    obtain ⟨-, rightNode, hr, -⟩ := hpair.rightAt
    have hne := (hbelow.around hl hr).left_ne_right
    have hlen : (l ++ [(sep, page)]).length - 1 = l.length := by simp
    have hmem : lastChild first l ∈ first :: (l ++ (sep, page) :: r).map Prod.snd := by
      rw [pages_append]
      simp
    rw [if_pos (by simp), if_pos (by simp), hlen, childAt_ofRow, hleaf _ hmem (by rw [lastChild_concat]; exact hne)]

/-- the chain is freed, the cell removed, and the leaf repaired if it has to be -/
theorem deleteFromLeaf_isOk_iff {q : ℕ} {path : Option (ℕ × ℕ)} {store₁ : PageStore} (hn : t.store q = some (.leaf n))
    (hfit : PagesFit t.store) (hget : n.cells.get? key = some cell) (hfree : freeValue t.store cell = .ok store₁) :
    (∃ r, deleteFromLeaf t q key path = .ok r) ↔
      (needsRebalance { n with cells := n.cells.erase key } = true → ∀ parent idx,
      path = some (parent, idx) → ∃ t',
        handleLeafUnderflow { t with store := writePage store₁ q (.leaf { n with cells := n.cells.erase key }) } q
        { n with cells := n.cells.erase key } parent idx = .ok t') := by
  have hwrite :=
    (@writeLeaf_ok store₁ _ q { n with cells := n.cells.erase key }).2
      ⟨(usedBytes_erase_le n key).trans (hfit q _ hn), rfl⟩
  rw [deleteFromLeaf, bind_ok (readLeaf_ok.2 hn), hget]
  dsimp only
  rw [bind_ok hfree, bind_ok hwrite]
  cases path with
  | none => simp
  | some step =>
    obtain ⟨parent, idx⟩ := step
    split_ifs with hneeds
    · constructor
      · rintro ⟨r, hr⟩ - parent' idx' hpath
        cases hpath
        obtain ⟨t', ht', -⟩ := bind_eq_ok hr
        exact ⟨t', ht'⟩
      · intro h
        obtain ⟨t', ht'⟩ := h hneeds parent idx rfl
        exact ⟨(t', true), bind_ok ht' _⟩
    · exact iff_of_true ⟨_, rfl⟩ fun h => absurd h hneeds

theorem delete_isOk_iff (hrep : Represents t m) (hfit : PagesFit t.store) :
    (∃ r, t.delete key = .ok r) ↔ Deletable t m key := by
  obtain ⟨-, inner, leaves, chain, hbuilt, hholding⟩ := hrep
  obtain ⟨q, n, hfind, hq, hn, hmem⟩ := hbuilt.find key
  have hdeletable : Deletable t m key ↔ ((n.cells.get? key).isSome = true →
      (∀ v, m.get? key = some v → v.length ≤ MAX_OVERFLOW_CHAIN_PAGES * OVERFLOW_PAGE_DATA) ∧
      (needsRebalance { n with cells := n.cells.erase key } = true → ∀ parent idx,
        lastStep t.store key t.rootLevel t.rootPage none = some (parent, idx) →
          Repairable t.store parent idx { n with cells := n.cells.erase key })) :=
    leafFound_iff hfind hn
  -- the descent ends at the leaf, with the last step above it
  obtain ⟨path, hpath, hstep, habove⟩ : ∃ path, t.delete key = deleteFromLeaf t q key path ∧
      lastStep t.store key t.rootLevel t.rootPage none = path ∧ ∀ parent idx, path = some (parent, idx) →
        ∃ level, ∃ p : LeafParent t.store key level t.rootPage none none inner leaves,
          p.parent = parent ∧ p.left.length = idx ∧ lastChild p.first p.left = q := by
    have hspans := hbuilt.spans
    unfold BTree.delete
    cases hlevel : t.rootLevel with
    | zero =>
      rw [hlevel] at hfind
      cases hfind
      exact ⟨none, rfl, rfl, fun _ _ h => by cases h⟩
    | succ level =>
      rw [hlevel] at hspans hfind
      obtain ⟨p⟩ := @Spans.leafParent _ key _ _ _ _ _ _ hspans ⟨by simp, by simp⟩
      have heq := p.find
      rw [hfind] at heq
      obtain rfl := Option.some.inj heq
      refine ⟨_, p.path t none rfl, p.above none, fun parent idx h => ?_⟩
      cases h
      exact ⟨level, p, rfl, rfl, rfl⟩
  rw [hdeletable, hpath, hstep]
  cases hget : n.cells.get? key with
  | none =>
    rw [deleteFromLeaf, bind_ok (readLeaf_ok.2 hn), hget]
    simp
  | some cell =>
    obtain ⟨v, hv, hst⟩ := hholding.stored key cell ((hmem cell).2 hget)
    have hlength := hst.length_le_iff ((usedBytes_le_of_mem (get?_eq_some_iff.1 hget)).trans (hfit q _ hn))
    have hrepair : ∀ store₁, freeValue t.store cell = .ok store₁ → ∀ parent idx, path = some (parent, idx) →
        ((∃ t', handleLeafUnderflow { t with
          store := writePage store₁ q (.leaf { n with cells := n.cells.erase key }) } q
          { n with cells := n.cells.erase key } parent idx = .ok t') ↔
            Repairable t.store parent idx { n with cells := n.cells.erase key }) := by
      intro store₁ hfree parent idx hsome
      obtain ⟨level, p, rfl, rfl, rfl⟩ := habove parent idx hsome
      obtain ⟨hwritten, hbuilt₁, -⟩ :=
        hbuilt.setLeaf hq hn (hst.free hfree).2 hst.overflow hget (cellsChange_erase n.cells key)
      have hbelow : Below
          { t with store := writePage store₁ (lastChild p.first p.left) (.leaf { n with cells := n.cells.erase key }) }
          p.parent p.first (p.left ++ p.right) p.lo' p.hi' p.outL p.outR := p.below hbuilt hwritten hst.overflow hbuilt₁
      have hfit₁ :=
        pagesFit_stable.write store₁ (lastChild p.first p.left) (.leaf { n with cells := n.cells.erase key })
          ((@freeValue_ends _ pagesFit_stable True _ cell hfit).of_ok hfree)
          ((usedBytes_erase_le n key).trans (hfit _ _ hn))
      refine (handleLeafUnderflow_isOk_iff hbelow (writePage_self _ _ _) hfit₁).trans
        (hbelow.repairable_congr ?_ fun x hx hxq => ?_)
      · rw [hbelow.node, p.node]
      · have hxl : x ∈ leaves := by
          rw [p.leaves_eq]
          exact mem_append_left _ (mem_append_right _ hx)
        obtain ⟨-, m', hm'⟩ := hbuilt.spans.leaf x hxl
        exact (hwritten.eq hst.overflow hm' (by simp) hxq).symm
    constructor
    · rintro h -
      obtain ⟨store₁, hfree⟩ : ∃ store₁, freeValue t.store cell = .ok store₁ := by
        obtain ⟨r, hr⟩ := h
        rw [deleteFromLeaf, bind_ok (readLeaf_ok.2 hn), hget] at hr
        obtain ⟨store₁, hfree, -⟩ := bind_eq_ok hr
        exact ⟨store₁, hfree⟩
      refine ⟨fun w hw => ?_, fun hneeds parent idx hsome => ?_⟩
      · rw [hv] at hw
        cases hw
        exact hlength.1 (hst.free_isOk.1 ⟨store₁, hfree⟩)
      · exact (hrepair store₁ hfree parent idx hsome).1
          ((deleteFromLeaf_isOk_iff hn hfit hget hfree).1 h hneeds parent idx hsome)
    · intro h
      obtain ⟨hshort, hsibling⟩ := h rfl
      obtain ⟨store₁, hfree⟩ := hst.free_isOk.2 (hlength.2 (hshort v hv))
      refine (deleteFromLeaf_isOk_iff hn hfit hget hfree).2 fun hneeds parent idx hsome => ?_
      exact (hrepair store₁ hfree parent idx hsome).2 (hsibling hneeds parent idx hsome)

/-- **When a deletion returns**, on a tree made by successful calls. -/
theorem delete_returns_iff {a : Allocator} {t₀ : BTree} {ops : List TreeOp} (hfit : PagesFit store)
    (hcreate : BTree.create a store = .ok t₀) (hrun : run TreeOp.step t₀ ops = some t) :
    (∃ r, t.delete key = .ok r) ↔ Deletable t (ops.foldl TreeOp.apply .empty) key := by
  obtain ⟨hfit', hrep | hlost⟩ := create_standing hfit hcreate hrun
  · exact delete_isOk_iff hrep hfit'
  · refine iff_of_false ?_ ?_
    · rintro ⟨r, hr⟩
      rw [hlost.delete key] at hr
      cases hr
    · rintro ⟨q, n, hfind, hn, -⟩
      exact hlost.no_leaf hfind n hn

/-- on a tree with two leaves -/
theorem delete_returns_two_leaves : ∃ t₀ t, BTree.create .least (fun _ => none) = .ok t₀ ∧
    run TreeOp.step t₀ (longInserts fewerZeros (zeros 20000) 2) = some t ∧ t.rootLevel = 1 ∧
      ((∃ r, t.delete (fewerZeros 0) = .ok r) ↔
        Deletable t ((longInserts fewerZeros (zeros 20000) 2).foldl TreeOp.apply .empty) (fewerZeros 0)) := by
  obtain ⟨t₀, hcreate, hrun⟩ := run_longInserts steep_fewerZeros long_fewerZeros le_rfl
  obtain ⟨t, hrun, hdeep, -⟩ := hrun 1 (by decide)
  have hfit : PagesFit fun _ => none := nofun
  exact ⟨t₀, t, hcreate, hrun, hdeep.level, delete_returns_iff hfit hcreate hrun⟩

/-- a leaf has no more cells than the map -/
theorem Built.length_le {inner : Set ℕ} {leaves : List ℕ} {chain : Key → List ℕ} {height root q : ℕ}
    (hbuilt : Built store height root inner leaves) (hholding : Holding store (contents store leaves) m chain)
    (hq : q ∈ leaves) (hn : store q = some (.leaf n)) : n.cells.entries.length ≤ m.entries.length := by
  obtain ⟨left, right, rfl⟩ := append_of_mem hq
  have hlen := congrArg List.length (hholding.entries hbuilt.spans.contents_sorted)
  rw [contents_middle hn] at hlen
  simp only [length_map, length_append] at hlen
  omega

theorem longInserts_apply (keys : ℕ → Key) (v : Bytes) (n : ℕ) :
    ((longInserts keys v n).foldl apply .empty).entries.length ≤ n ∧
      ∀ i < n, (((longInserts keys v n).foldl apply .empty).get? (keys i)).isSome = true := by
  induction n with
  | zero => exact ⟨le_rfl, fun i hi => absurd hi (not_lt_zero i)⟩
  | succ n ih =>
    rw [longInserts_eq, foldl_append, foldl_cons, foldl_nil]
    generalize (longInserts keys v n).foldl apply .empty = m at ih
    rw [apply]
    split_ifs with hsome
    · refine ⟨by omega, fun i hi => ?_⟩
      rcases Nat.lt_succ_iff_lt_or_eq.1 hi with hi | rfl
      · exact ih.2 i hi
      · exact hsome
    · have hnone : m.get? (keys n) = none := by simpa using hsome
      refine ⟨by rw [(insert_perm hnone v).length_eq, length_cons]; omega, fun i hi => ?_⟩
      rw [get?_insert]
      split_ifs with hkey
      · rfl
      · rcases Nat.lt_succ_iff_lt_or_eq.1 hi with hi | rfl
        · exact ih.2 i hi
        · exact absurd rfl hkey

/-- **Three insertions that return Ok, and a deletion that fails**: the key is in the only leaf below its parent. -/
theorem delete_without_siblings : ∃ t₀ t, BTree.create .least (fun _ => none) = .ok t₀ ∧
    run TreeOp.step t₀ (longInserts fewerZeros (zeros 20000) 3) = some t ∧ ¬ ∃ r, t.delete (fewerZeros 0) = .ok r := by
  obtain ⟨t₀, hcreate, hrun⟩ := run_longInserts steep_fewerZeros long_fewerZeros le_rfl
  obtain ⟨t, hrun, hdeep, -⟩ := hrun 2 (by decide)
  refine ⟨t₀, t, hcreate, hrun, ?_⟩
  obtain ⟨hlength, hpresent⟩ := longInserts_apply fewerZeros (zeros 20000) (2 + 1)
  obtain ⟨hfit, hrep | hlost⟩ := create_standing (fun _ _ h => by cases h) hcreate hrun
  · rw [delete_isOk_iff hrep hfit]
    rintro ⟨q, n, hfind, hn, h⟩
    obtain ⟨-, inner, leaves, chain, hbuilt, hholding⟩ := hrep
    obtain ⟨q', n', hfind', hq, hn', hmem⟩ := hbuilt.find (fewerZeros 0)
    rw [hfind] at hfind'
    cases hfind'
    rw [hn] at hn'
    cases hn'
    have hsome : (n.cells.get? (fewerZeros 0)).isSome = true := by
      obtain ⟨v, hv⟩ := Option.isSome_iff_exists.1 (hpresent 0 (by decide))
      obtain ⟨d, hd⟩ := hholding.present _ v hv
      rw [(hmem d).1 hd]
      rfl
    have hneeds : needsRebalance { n with cells := n.cells.erase (fewerZeros 0) } = true := by
      have hle := hbuilt.length_le hholding hq hn
      have hsub : (n.cells.erase (fewerZeros 0)).entries.length ≤ n.cells.entries.length := length_filter_le _ _
      exact decide_eq_true (.inl (by change (n.cells.erase (fewerZeros 0)).entries.length < 4; omega))
    obtain ⟨first, p, c, hroot, hp⟩ := hdeep.right le_rfl
    have hstep : lastStep t.store (fewerZeros 0) t.rootLevel t.rootPage none = some (p, 0) := by
      have hidx : (ofRow first [(fewerZeros 0, p)]).findChildIdx (fewerZeros 0) = 1 :=
        @findChildIdx_ofRow first [(fewerZeros 0, p)] [] (fewerZeros 0) (by simp) (by simp)
      have hchild : (ofRow first [(fewerZeros 0, p)]).childAt 1 = p := childAt_ofRow first [(fewerZeros 0, p)] []
      have hlast : (ofRow c []).findChildIdx (fewerZeros 0) = 0 := rfl
      rw [hdeep.level]
      simp only [lastStep, hroot, hidx, hchild, hp, hlast]
    obtain ⟨parent, hparent, hrepair⟩ := (h hsome).2 hneeds p 0 hstep
    rw [hp] at hparent
    cases hparent
    exact absurd hrepair.1 (by simp [ofRow])
  · rintro ⟨r, hr⟩
    rw [hlost.delete] at hr
    cases hr

end Delete

end Mqlite.Btree
