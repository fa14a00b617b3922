/-
A tree that grows by a level with every insertion.

Two separators of more than 2036 bytes do not fit one internal page. When such a node gets a second separator, the cut
at the middle entry leaves the smaller key on the left, hands the larger one up and leaves no entry on the right. So if
long keys are inserted in descending order, with values so large that each leaf holds one cell, then each insertion
splits all nodes on the left edge, up to the root (`Spine.insert`): the tree with n + 1 cells has n levels above its
leaves (`Deep.step`).

The level of the root is kept in one byte. The 257th insertion makes the level 256, which is stored as 0, and the tree
cannot be read any more.
-/
import Mqlite.Btree.Fitting

namespace Mqlite.Btree

open Lib Mvcc Storage List Nat Set TreeOp

/-! ## Long keys -/

/-- keys in descending order, up to an index, and a value of which two cells do not fit one leaf -/
structure Steep (keys : ℕ → Key) (value : Bytes) (last : ℕ) : Prop where
  descending : ∀ i < last, keys (i + 1) < keys i
  inline : value.length ≤ OVERFLOW_THRESHOLD
  alone : ∀ i ≤ last, usedBytesForCells [(keys i, .inline value)] ≤ PAGE_SIZE_LEAF
  pair : ∀ i ≤ last, ∀ j ≤ last, PAGE_SIZE_LEAF < usedBytesForCells [(keys i, .inline value), (keys j, .inline value)]

/-- separators of which two do not fit one internal page -/
structure Long (keys : ℕ → Key) (last : ℕ) : Prop where
  long : ∀ i ≤ last, 2036 < (keys i).length
  separator : ∀ i ≤ last, keysSize [keys i] ≤ PAGE_SIZE_INTERNAL

/-- the left edge of the tree after the keys up to n: single cells and single separators -/
def Spine (keys : ℕ → Key) (value : Bytes) (store : PageStore) (n : ℕ) : ℕ → ℕ → Prop
  | 0, page => ∃ leaf, store page = some (.leaf leaf) ∧ leaf.cells.entries = [(keys n, .inline value)]
  | level + 1, page => ∃ first child, store page = some (.internal (ofRow first [(keys (n - (level + 1)), child)])) ∧
      Spine keys value store n level first

section Spine

variable {keys : ℕ → Key} {value : Bytes} {last n level page : ℕ} {store store' : PageStore} {lo hi : Option Key}
  {inner : Set ℕ} {leaves : List ℕ} {a : Allocator}

theorem Spine.frame (h : Spine keys value store n level page) (hspans : Spans store level page lo hi inner leaves)
    (hinner : ∀ p ∈ inner, store' p = store p) (hleaf : ∀ q ∈ leaves, store' q = store q) :
    Spine keys value store' n level page := by
  induction level generalizing page lo hi inner leaves with
  | zero =>
    obtain ⟨-, rfl, -⟩ := hspans
    obtain ⟨leaf, hpage, hcells⟩ := h
    exact ⟨leaf, by rw [hleaf page mem_cons_self, hpage], hcells⟩
  | succ level ih =>
    obtain ⟨first, child, hpage, hspine⟩ := h
    obtain ⟨first', items, below, hpage', -, rfl, hrow⟩ := hspans
    rw [hpage] at hpage'
    obtain ⟨rfl, rfl⟩ := ofRow_inj (Page.internal.inj (Option.some.inj hpage'))
    obtain ⟨-, i₁, i₂, l₁, l₂, rfl, -, rfl, hfirst, -⟩ := hrow
    refine ⟨first, child, by rw [hinner page (mem_insert _ _), hpage], ih hspine hfirst (fun p hp => ?_) fun q hq => ?_⟩
    · exact hinner p (mem_insert_of_mem _ (mem_union_left _ hp))
    · exact hleaf q (mem_append_left _ hq)

/-- two cells that fit alone but not together -/
theorem splitGroups_pair {c c' : LeafCell} (hc : usedBytesForCells [c] ≤ PAGE_SIZE_LEAF)
    (hc' : usedBytesForCells [c'] ≤ PAGE_SIZE_LEAF) :
    splitGroups [c, c'] = .ok [[c], [c']] := by
  have hchoose : chooseLeafRedistributionSplit [c, c'] ([c, c'].length / 2) = some 1 := by
    cases h : chooseLeafRedistributionSplit [c, c'] ([c, c'].length / 2) with
    | none => exact absurd ⟨one_pos, by simp, hc, hc'⟩ (chooseLeafRedistributionSplit_none h 1)
    | some s =>
      obtain ⟨⟨hpos, hlt, -⟩, -⟩ := chooseLeafRedistributionSplit_some h
      simp only [length_cons, length_nil] at hlt
      rw [show s = 1 by omega]
  rw [splitGroups, hchoose]
  rfl

theorem Steep.antitone (h : Steep keys value last) {i j : ℕ} (hij : i < j) (hj : j ≤ last) : keys j < keys i := by
  induction j, hij using le_induction with
  | base => exact h.descending i hj
  | succ j hij ih => exact (h.descending j hj).trans (ih (by omega))

theorem Long.keysSize_pair (h : Long keys last) {i j : ℕ} (hi : i ≤ last) (hj : j ≤ last) :
    PAGE_SIZE_INTERNAL < keysSize [keys i, keys j] := by
  have hi := h.long i hi
  have hj := h.long j hj
  simp only [keysSize, PAGE_SIZE_INTERNAL, INTERNAL_HEADER_SIZE, internalEntrySize, map_cons, map_nil,
    sum_cons, sum_nil]
  omega

/-- the leaf with the next key -/
theorem Steep.entries (h : Steep keys value last) (hn : n < last) {leaf : LeafNode}
    (hcells : leaf.cells.entries = [(keys n, .inline value)]) :
    leaf.cells.get? (keys (n + 1)) = none ∧
      (leaf.cells.insert (keys (n + 1)) (.inline value)).entries =
        [(keys (n + 1), .inline value), (keys n, .inline value)] := by
  have hlt := h.descending n hn
  constructor
  · cases hget : leaf.cells.get? (keys (n + 1)) with
    | none => rfl
    | some v =>
      rw [OrdMap.get?_eq_some_iff, hcells] at hget
      simp only [List.mem_singleton, Prod.mk.injEq] at hget
      exact absurd hget.1 hlt.ne
  · simp [OrdMap.insert, hcells, OrdMap.insertEntry, hlt]

/-- **What goes up** when the next key is inserted: from each level the separator that was there. -/
theorem Spine.promotions (h : Spine keys value store n level page) (hsteep : Steep keys value last)
    (hlong : 0 < level → Long keys last) (hn : n < last) (hlevel : level ≤ n) :
    (pathPromotions store (keys (n + 1)) (.inline value) level page).1 = [keys (n - level)] ∧
      Fit (pathPromotions store (keys (n + 1)) (.inline value) level page).2 := by
  induction level generalizing page with
  | zero =>
    obtain ⟨leaf, hpage, hcells⟩ := h
    obtain ⟨hnone, hentries⟩ := hsteep.entries hn hcells
    have hroom : ¬ leaf.canInsert (LeafCell.encodedSize (keys (n + 1), .inline value)) = true := by
      have hpair := hsteep.pair (n + 1) hn n hn.le
      rw [← hentries, usedBytes_insert hnone] at hpair
      rw [LeafNode.canInsert, decide_eq_true_eq]
      omega
    have hgroups := splitGroups_pair (hsteep.alone (n + 1) hn) (hsteep.alone n hn.le)
    simp only [pathPromotions, hpage, leafPromotions, if_neg hroom, hentries, hgroups]
    exact ⟨rfl, by simp [Fit]⟩
  | succ level ih =>
    obtain ⟨first, child, hpage, hspine⟩ := h
    have hlong := hlong level.succ_pos
    obtain ⟨hkeys, hfit⟩ := ih hspine (fun _ => hlong) (by omega)
    have hlt : keys (n - level) < keys (n - (level + 1)) := hsteep.antitone (by omega) (by omega)
    have hkey : keys (n + 1) < keys (n - (level + 1)) := hsteep.antitone (by omega) (by omega)
    have hsize := hlong.keysSize_pair (show n - level ≤ last by omega) (show n - (level + 1) ≤ last by omega)
    have hcut := @cutRow_mid [keys (n - level), keys (n - (level + 1))] [_] [] _ (not_le.2 hsize) rfl (by simp)
    have hchild : childFor first [(keys (n - (level + 1)), child)] (keys (n + 1)) = first := by
      rw [childFor, if_pos hkey]
    simp only [pathPromotions, hpage, findChild_ofRow, hchild, hkeys, map_fst_ofRow, map_cons, map_nil,
      promoteKeys, promoteKey, insertKey, if_pos hlt, hcut]
    refine ⟨trivial, fit_append.2 ⟨hfit, ?_⟩⟩
    simp only [append_nil, Fit, forall_mem_cons, not_mem_nil, false_implies, implies_true, and_true]
    exact ⟨hlong.separator _ (by omega), by decide⟩

/-- the leaf is split between the two cells -/
theorem Spine.insertLeaf {splits : Items} (h : Spine keys value store n 0 page) (hsteep : Steep keys value last)
    (hn : n < last) (hat : LeafAt store page lo hi) (hkey : Within lo hi (keys (n + 1)))
    (hinsert : insertLeaf a store page (keys (n + 1)) (.inline value) = .ok (store', splits))
    (hsplits : splits.map Prod.fst = [keys n]) :
    Spine keys value store' (n + 1) 0 page := by
  obtain ⟨leaf, hpage, hcells⟩ := h
  obtain ⟨leaf', new, hpage', -, hrow, -, hcontents, -⟩ := insertLeaf_ok hinsert hat hkey
  rw [hpage] at hpage'
  cases hpage'
  rw [(hsteep.entries hn hcells).2] at hcontents
  obtain ⟨p, rfl⟩ : ∃ p, splits = [(keys n, p)] := by
    obtain ⟨e, rfl, he⟩ := map_eq_singleton_iff.1 hsplits
    exact ⟨e.2, by rw [← he]⟩
  obtain ⟨-, i₁, i₂, l₁, l₂, -, -, hleaves, ⟨-, rfl, -, left, hleft, hbelow⟩, -, rfl, -, right, hright, habove⟩ := hrow
  obtain rfl : new = [p] := by simpa using hleaves
  refine ⟨left, hleft, ?_⟩
  rw [contents_cons hleft, contents_cons hright, contents_nil, append_nil] at hcontents
  -- the separator is above the cells on the left and not above those on the right
  have hl : (keys n, .inline value) ∉ left.cells.entries := by
    intro hmem
    have hget := OrdMap.get?_eq_some_iff.2 hmem
    exact lt_irrefl _ ((hbelow _ (.inl (by rw [hget]; rfl))).2 _ rfl)
  have hr : (keys (n + 1), .inline value) ∉ right.cells.entries := by
    intro hmem
    have hget := OrdMap.get?_eq_some_iff.2 hmem
    exact absurd ((habove _ (.inl (by rw [hget]; rfl))).1 _ rfl) (not_le.2 (hsteep.descending n hn))
  cases hle : left.cells.entries with
  | nil =>
    rw [hle, nil_append] at hcontents
    exact absurd (hcontents ▸ mem_cons_self) hr
  | cons c rest =>
    rw [hle, cons_append, List.cons.injEq] at hcontents
    cases hrest : rest with
    | nil => rw [hcontents.1]
    | cons c' rest' =>
      rw [hrest, cons_append, List.cons.injEq] at hcontents
      rw [hle, hrest, hcontents.2.1] at hl
      exact absurd (by simp) hl

variable (h : Spine keys value store n level page)

include h

/-- the next key goes to the leaf on the far left -/
theorem Spine.find (hsteep : Steep keys value last) (hn : n < last) (hlevel : level ≤ n) :
    ∃ q leaf, findLeaf store level page (keys (n + 1)) = some q ∧ store q = some (.leaf leaf) ∧
      leaf.cells.entries = [(keys n, .inline value)] := by
  induction level generalizing page with
  | zero =>
    obtain ⟨leaf, hpage, hcells⟩ := h
    exact ⟨page, leaf, rfl, hpage, hcells⟩
  | succ level ih =>
    obtain ⟨first, child, hpage, hspine⟩ := h
    have hkey : keys (n + 1) < keys (n - (level + 1)) := hsteep.antitone (by omega) (by omega)
    obtain ⟨q, leaf, hfind, hleaf⟩ := ih hspine (by omega)
    refine ⟨q, leaf, ?_, hleaf⟩
    rw [findLeaf, hpage]
    simp only [findChild_ofRow, childFor, if_pos hkey]
    exact hfind

theorem Spine.splits_eq {splits : Items} (hsteep : Steep keys value last) (hlong : 0 < level → Long keys last)
    (hn : n < last) (hlevel : level ≤ n) (hspans : Spans store level page lo hi inner leaves) (hnodup : leaves.Nodup)
    (hkey : Within lo hi (keys (n + 1)))
    (hinsert : insertSubtree a (keys (n + 1)) (.inline value) level page store = .ok (store', splits)) :
    ∃ p, splits = [(keys (n - level), p)] := by
  obtain ⟨q, leaf, hfind, hleaf, hcells⟩ := h.find hsteep hn hlevel
  have hkeys := @insertSubtree_keys a store level page lo hi inner leaves (keys (n + 1))
    (.inline value) q leaf hspans hnodup hkey hfind hleaf (hsteep.entries hn hcells).1
  rw [hinsert, (h.promotions hsteep hlong hn hlevel).1] at hkeys
  obtain ⟨e, rfl, he⟩ := map_eq_singleton_iff.1 hkeys.1
  exact ⟨e.2, by rw [← he]⟩

/-- **One more key**: every node on the left edge is split; the node on the right of the cut has no entries. -/
theorem Spine.insert {splits : Items} (hsteep : Steep keys value last) (hlong : 0 < level → Long keys last)
    (hn : n < last) (hlevel : level ≤ n) (hspans : Spans store level page lo hi inner leaves) (hnodup : leaves.Nodup)
    (hkey : Within lo hi (keys (n + 1)))
    (hinsert : insertSubtree a (keys (n + 1)) (.inline value) level page store = .ok (store', splits)) :
    Spine keys value store' (n + 1) level page ∧
      (0 < level → ∀ e ∈ splits, ∃ c, store' e.2 = some (.internal (ofRow c []))) := by
  obtain ⟨p, hsplits⟩ := h.splits_eq hsteep hlong hn hlevel hspans hnodup hkey hinsert
  induction level generalizing page lo hi inner leaves p store' splits with
  | zero =>
    obtain ⟨-, -, hat⟩ := hspans
    exact ⟨h.insertLeaf hsteep hn hat hkey hinsert (by rw [hsplits]; rfl), fun h0 => absurd h0 (lt_irrefl 0)⟩
  | succ level ih =>
    obtain ⟨first, child, hpage, hspine⟩ := h
    obtain ⟨first', items, below, hpage', hbelow, rfl, hrow⟩ := hspans
    rw [hpage] at hpage'
    obtain ⟨rfl, rfl⟩ := ofRow_inj (Page.internal.inj (Option.some.inj hpage'))
    have hlt : keys (n + 1) < keys (n - (level + 1)) := hsteep.antitone (by omega) (by omega)
    obtain ⟨-, i₁, i₂, l₁, l₂, rfl, -, rfl, hfirst, -⟩ := hrow
    have hkey₁ := within_below hkey hlt
    have hnodup₁ := (nodup_append.1 hnodup).1
    have hlong' : 0 < level → Long keys last := fun _ => hlong level.succ_pos
    -- down the left edge
    rw [insertSubtree, bind_ok (readInternal_ok.2 hpage)] at hinsert
    simp only [findChild_ofRow, childFor, if_pos hlt] at hinsert
    obtain ⟨⟨store₁, splits₁⟩, hchild, hinsert₁⟩ := bind_eq_ok hinsert
    obtain ⟨p₁, hsplits₁⟩ := hspine.splits_eq hsteep hlong' hn (by omega) hfirst hnodup₁ hkey₁ hchild
    obtain ⟨hspine₁, -⟩ := ih hspine hlong' (by omega) hfirst hnodup₁ hkey₁ hchild p₁ hsplits₁
    obtain ⟨inner', left, q, right, leaf, new, hleaves, hleaf, -, hrow₁, hinner', hchange, -⟩ :=
      insertSubtree_ok hchild hfirst hnodup₁ hkey₁
    have hpage₁ : store₁ page = some (.internal (ofRow first [(keys (n - (level + 1)), child)])) := by
      refine hchange.other page _ hpage (fun m hm => by cases hm) fun hmem => hbelow (mem_union_left _ hmem)
    -- and the separator goes into this node
    subst hsplits₁
    obtain ⟨⟨store₂, split⟩, hinto, hinsert₂⟩ := bind_eq_ok hinsert₁
    cases hinsert₂
    change insertIntoInternal a store₁ page (keys (n - level)) p₁ = _ at hinto
    obtain ⟨htier, hnode⟩ := insertIntoInternal_ok hinto hpage₁
    have hsplit : split = some (keys (n - (level + 1)), p) := by
      cases split with
      | none => cases hsplits
      | some e => exact congrArg some (List.cons.inj hsplits).1
    subst hsplit
    have hlt₁ : keys (n - level) < keys (n - (level + 1)) := hsteep.antitone (by omega) (by omega)
    rw [insertItem, if_pos hlt₁] at htier
    obtain ⟨items₁, c, items₂, heq, hpage₂, hp⟩ := htier
    obtain ⟨rfl, rfl, rfl⟩ : items₁ = [(keys (n - level), p₁)] ∧ c = child ∧ items₂ = [] := by
      cases items₁ with
      | nil => exact absurd (congrArg Prod.fst (List.cons.inj heq).1) hlt₁.ne
      | cons e items₁ =>
        cases items₁ with
        | nil => simp_all
        | cons e' items₁ => simp at heq
    refine ⟨⟨first, p₁, by rw [hpage₂, Nat.add_sub_add_right], ?_⟩, fun _ e he => ?_⟩
    · -- the node is not below itself
      obtain ⟨-, j₁, j₂, m₁, m₂, rfl, -, hm, hfirst₁, -⟩ := hrow₁
      refine hspine₁.frame hfirst₁ (fun x hx => ?_) fun x hx => ?_
      · obtain ⟨node, hx'⟩ := hfirst₁.internal x hx
        refine hnode.same x (fun hxp => ?_) (by simp [hx'])
        rw [List.mem_singleton] at hxp
        subst hxp
        rcases hinner' x (mem_union_left _ hx) with hmem | ⟨-, hnone⟩
        · exact hbelow (mem_union_left _ hmem)
        · rw [hpage] at hnone
          cases hnone
      · obtain ⟨-, m, hx'⟩ := hfirst₁.leaf x hx
        refine hnode.same x (fun hxp => ?_) (by simp [hx'])
        rw [List.mem_singleton] at hxp
        subst hxp
        rw [hpage₁] at hx'
        cases hx'
    · rw [hsplits, List.mem_singleton] at he
      subst he
      exact ⟨_, hp⟩

end Spine

/-! ## Growth -/

/-- the tree after the keys up to n -/
structure Deep (keys : ℕ → Key) (value : Bytes) (n : ℕ) (t : BTree) : Prop where
  built : ∃ inner leaves, Built t.store n t.rootPage inner leaves
  level : t.rootLevel = n % 256
  spine : Spine keys value t.store n n t.rootPage
  -- the root's right child has no entries
  right : 2 ≤ n → ∃ first p c, t.store t.rootPage = some (.internal (ofRow first [(keys 0, p)])) ∧
    t.store p = some (.internal (ofRow c []))
  fit : PagesFit t.store
  bounded : Bounded t.store

section Deep

variable {keys : ℕ → Key} {value : Bytes} {last n : ℕ} {t t' : BTree}

theorem Steep.insert_eq (hsteep : Steep keys value last) (a : Allocator) (t : BTree) (key : Key)
    (h : insertRoot a t key (.inline value) = .ok t') :
    t.insert a key value = .ok (t', true) := by
  rw [BTree.insert, bind_ok (storeValue_inline hsteep.inline)]
  dsimp only
  rw [h]

/-- with pages to spare, an insertion of which everything fits succeeds -/
theorem insertRoot_isOk {key : Key} {cell : VersionData} {q : ℕ} {leaf : LeafNode} {inner : Set ℕ} {leaves : List ℕ}
    (hbuilt : Built t.store t.rootLevel t.rootPage inner leaves) (hbounded : Bounded t.store)
    (hfind : findLeaf t.store t.rootLevel t.rootPage key = some q) (hleaf : t.store q = some (.leaf leaf))
    (hnone : leaf.cells.get? key = none) (htakes : LeafTakes t.store leaf key cell) (hfit : Fit (t.growth key cell).2) :
    ∃ t', insertRoot .least t key cell = .ok t' := by
  have houtcome := @insertRoot_outcome .least inner leaves key cell t q leaf hbuilt hfind hleaf hnone
  have hends := @insertRoot_ends Bounded bounded_stable .least t key cell hbounded
  cases hr : insertRoot .least t key cell with
  | ok t' => exact ⟨t', rfl⟩
  | error e =>
    rw [hr] at houtcome hends
    rcases houtcome with rfl | ⟨-, hnot⟩
    · exact absurd (hends rfl) not_full_least
    · exact absurd ⟨htakes, hfit⟩ hnot

theorem Deep.growth (h : Deep keys value n t) (hsteep : Steep keys value last) (hlong : 0 < n → Long keys last)
    (hfirst : keysSize [keys 0] ≤ PAGE_SIZE_INTERNAL) (hn : n < last) (h256 : n < 256) :
    (t.growth (keys (n + 1)) (.inline value)).1 = 1 ∧ Fit (t.growth (keys (n + 1)) (.inline value)).2 := by
  have hlevel : t.rootLevel = n := h.level.trans (mod_eq_of_lt h256)
  obtain ⟨hkeys, hfit⟩ := h.spine.promotions hsteep hlong hn le_rfl
  simp only [BTree.growth, hlevel, hkeys, length_singleton, rootGrowth, promoteKeys, zero_add, true_and]
  refine fit_append.2 ⟨hfit, ?_⟩
  simp only [List.append_nil, Fit, List.forall_mem_cons, List.not_mem_nil, false_implies, implies_true,
    and_true, Nat.sub_self]
  exact hfirst

theorem Steep.cellFor_eq (h : Steep keys value last) : cellFor value = .inline value := if_neg (not_lt.2 h.inline)

theorem Deep.newLevels (h : Deep keys value n t) (hsteep : Steep keys value last) (hlong : Long keys last)
    (hn : n < last) (h256 : n < 256) : t.rootLevel + t.newLevels (keys (n + 1)) value = n + 1 := by
  have hgrowth := (h.growth hsteep (fun _ => hlong) (hlong.separator 0 (zero_le _)) hn h256).1
  rw [BTree.newLevels, hsteep.cellFor_eq, hgrowth, h.level, mod_eq_of_lt h256]

/-- **One more key, one more level.** -/
theorem Deep.step (h : Deep keys value n t) (hsteep : Steep keys value last) (hlong : 0 < n → Long keys last)
    (hfirst : keysSize [keys 0] ≤ PAGE_SIZE_INTERNAL) (hn : n < last) (h256 : n < 256) :
    ∃ t', t.insert .least (keys (n + 1)) value = .ok (t', true) ∧ Deep keys value (n + 1) t' := by
  have hlevel : t.rootLevel = n := h.level.trans (mod_eq_of_lt h256)
  obtain ⟨inner, leaves, hbuilt⟩ := h.built
  have hbuilt₀ : Built t.store t.rootLevel t.rootPage inner leaves := hlevel ▸ hbuilt
  obtain ⟨q, leaf, hfind, hleaf, hcells⟩ := h.spine.find hsteep hn le_rfl
  have hnone := (hsteep.entries hn hcells).1
  obtain ⟨hgrown, hfit⟩ := h.growth hsteep hlong hfirst hn h256
  have hq : q ∈ leaves := hbuilt.mem_of_find hfind
  have htakes := (hbuilt.leafTakes_iff h.fit hq hleaf hnone).2 (hsteep.alone (n + 1) hn)
  obtain ⟨t', ht'⟩ := insertRoot_isOk hbuilt₀ h.bounded (hlevel ▸ hfind) hleaf hnone htakes hfit
  refine ⟨t', hsteep.insert_eq .least t _ ht', ?_⟩
  have hfit' := (@insertRoot_ends _ pagesFit_stable .least t (keys (n + 1)) (.inline value) h.fit).of_ok ht'
  have hbounded' := (@insertRoot_ends _ bounded_stable .least t (keys (n + 1)) (.inline value) h.bounded).of_ok ht'
  obtain ⟨inner', leaves', hbuilt', hlevel', -⟩ := insertRoot_ok ht' (hlevel ▸ h256) hbuilt₀
  rw [hgrown, hlevel] at hbuilt' hlevel'
  -- the path below the old root, and the new root
  rw [insertRoot, hlevel] at ht'
  obtain ⟨⟨store₁, splits⟩, hsub, h₁⟩ := bind_eq_ok ht'
  have hkey : Within none none (keys (n + 1)) := ⟨by simp, by simp⟩
  obtain ⟨p, rfl⟩ := h.spine.splits_eq hsteep hlong hn le_rfl hbuilt.spans hbuilt.nodup hkey hsub
  obtain ⟨hspine₁, hempty⟩ := h.spine.insert hsteep hlong hn le_rfl hbuilt.spans hbuilt.nodup hkey hsub
  obtain ⟨_, _, _, _, _, _, -, -, -, hrow, -⟩ := insertSubtree_ok hsub hbuilt.spans hbuilt.nodup hkey
  obtain ⟨⟨store₂, root, level⟩, hgrow, h₂⟩ := bind_eq_ok h₁
  cases h₂
  obtain ⟨-, -, -, -, hsame⟩ := growRoot_ok hgrow h256 hrow
  obtain ⟨-, i₁, i₂, l₁, l₂, -, -, -, hspans₁, -⟩ := hrow
  have hused := @Row.used store₁ n t.rootPage [] _ _ i₁ l₁ hspans₁
  obtain ⟨⟨store₃, newRoot⟩, halloc, h₃⟩ := bind_eq_ok hgrow
  obtain ⟨store₄, hwrite, h₄⟩ := bind_eq_ok h₃
  cases h₄
  obtain ⟨-, rfl⟩ := writeInternal_ok.1 hwrite
  simp only [Nat.sub_self] at hempty hbuilt' hfit' hbounded' hsame ⊢
  refine ⟨⟨inner', leaves', hbuilt'⟩, hlevel', ⟨t.rootPage, p, ?_, ?_⟩, fun hn2 => ?_, hfit', hbounded'⟩
  · rw [Nat.sub_self]
    exact writePage_self _ _ _
  · exact hspine₁.frame hspans₁ (fun x hx => hsame x (hused.1 x hx)) fun x hx => hsame x (hused.2 x hx)
  · obtain ⟨c, hc⟩ := hempty (by omega) _ List.mem_cons_self
    exact ⟨t.rootPage, p, c, writePage_self _ _ _, (hsame p (by simp [hc])).trans hc⟩

/-- a tree in an empty store -/
theorem create_least : ∃ t₀, BTree.create .least (fun _ => none) = .ok t₀ ∧ t₀.rootLevel = 0 ∧
    t₀.store t₀.rootPage = some (.leaf ⟨.empty, .empty, 0, 0⟩) ∧ PagesFit t₀.store ∧ Bounded t₀.store := by
  have hempty : Bounded fun _ => none := ⟨0, fun _ _ => rfl⟩
  obtain ⟨root, hroot⟩ : ∃ root, Allocator.least.alloc (fun _ => none) = some root := by
    cases h : Allocator.least.alloc fun _ => none with
    | none => exact absurd ⟨_, hempty, h⟩ not_full_least
    | some root => exact ⟨root, rfl⟩
  have halloc : allocPage .least (fun _ => none) = .ok (writePage (fun _ => none) root .blank, root) := by
    rw [allocPage, hroot]
  have hwrite :=
    (@writeLeaf_ok (writePage (fun _ => none) root .blank) _ root ⟨.empty, .empty, 0, 0⟩).2 ⟨by decide, rfl⟩
  have hcreate : BTree.create .least (fun _ => none) = .ok ⟨writePage (writePage (fun _ => none) root .blank) root
      (.leaf ⟨.empty, .empty, 0, 0⟩), root, 0⟩ := by
    rw [BTree.create, bind_ok halloc]
    dsimp only
    rw [BTree.createAt, bind_ok hwrite]
  have hfit := (@create_ends _ pagesFit_stable .least (fun _ => none) fun _ _ h => by cases h).of_ok hcreate
  have hbounded := (@create_ends _ bounded_stable .least (fun _ => none) hempty).of_ok hcreate
  exact ⟨_, hcreate, rfl, writePage_self _ _ _, hfit, hbounded⟩

/-- a root that is a leaf and has room -/
theorem insertRoot_room {a : Allocator} {key : Key} {cell : VersionData} {n : LeafNode} (hlevel : t.rootLevel = 0)
    (hn : t.store t.rootPage = some (.leaf n)) (hnone : n.cells.get? key = none)
    (hroom : n.canInsert (LeafCell.encodedSize (key, cell)) = true) :
    insertRoot a t key cell = .ok ⟨writePage t.store t.rootPage (.leaf { n with cells := n.cells.insert key cell }),
      t.rootPage, 0⟩ := by
  have hfit : usedBytesForCells (n.cells.insert key cell).entries ≤ PAGE_SIZE_LEAF := by
    rw [usedBytes_insert hnone]
    exact of_decide_eq_true hroom
  have hwrite := (@writeLeaf_ok t.store _ t.rootPage { n with cells := n.cells.insert key cell }).2 ⟨hfit, rfl⟩
  have hsub : insertSubtree a key cell t.rootLevel t.rootPage t.store =
      .ok (writePage t.store t.rootPage (.leaf { n with cells := n.cells.insert key cell }), []) := by
    rw [hlevel, insertSubtree, insertLeaf, bind_ok (readLeaf_ok.2 hn), if_neg (by simp [hnone]), if_pos hroom,
      bind_ok hwrite]
  rw [insertRoot, bind_ok hsub]
  simp [growRoot, bind, Except.bind, hlevel]

/-- the first key finds room in the root -/
theorem growth_first (hsteep : Steep keys value last) (hlevel : t.rootLevel = 0)
    (hroot : t.store t.rootPage = some (.leaf ⟨.empty, .empty, 0, 0⟩)) :
    LeafNode.canInsert ⟨.empty, .empty, 0, 0⟩ (LeafCell.encodedSize (keys 0, .inline value)) = true ∧
      (t.growth (keys 0) (.inline value)).1 = 0 := by
  have hroom : LeafNode.canInsert ⟨.empty, .empty, 0, 0⟩ (LeafCell.encodedSize (keys 0, .inline value)) = true := by
    have := hsteep.alone 0 (zero_le _)
    rw [usedBytes_singleton] at this
    exact decide_eq_true this
  refine ⟨hroom, ?_⟩
  simp only [BTree.growth, hlevel, pathPromotions, hroot, leafPromotions, if_pos hroom]
  rfl

/-- the tree with the first key -/
theorem Deep.first (hsteep : Steep keys value last) {t₀ : BTree}
    (hcreate : BTree.create .least (fun _ => none) = .ok t₀) (hlevel : t₀.rootLevel = 0)
    (hroot : t₀.store t₀.rootPage = some (.leaf ⟨.empty, .empty, 0, 0⟩)) (hfit : PagesFit t₀.store)
    (hbounded : Bounded t₀.store) :
    ∃ t, t₀.insert .least (keys 0) value = .ok (t, true) ∧ Deep keys value 0 t := by
  obtain ⟨hroom, hgrown⟩ := growth_first hsteep hlevel hroot
  have hinsert := @insertRoot_room t₀ .least (keys 0) (.inline value) ⟨.empty, .empty, 0, 0⟩ hlevel hroot rfl hroom
  refine ⟨_, hsteep.insert_eq .least t₀ _ hinsert, ?_⟩
  obtain ⟨hlt, inner, leaves, -, hbuilt, -⟩ := create_represents hcreate
  obtain ⟨inner', leaves', hbuilt', -⟩ := insertRoot_ok hinsert hlt hbuilt
  rw [hgrown, hlevel] at hbuilt'
  exact ⟨⟨inner', leaves', hbuilt'⟩, rfl, ⟨_, writePage_self _ _ _, rfl⟩, fun h => absurd h (by simp),
    (@insertRoot_ends _ pagesFit_stable .least t₀ (keys 0) (.inline value) hfit).of_ok hinsert,
    (@insertRoot_ends _ bounded_stable .least t₀ (keys 0) (.inline value) hbounded).of_ok hinsert⟩

/-- the insertion of the first keys, the longest one first -/
noncomputable def longInserts (keys : ℕ → Key) (value : Bytes) (count : ℕ) : List TreeOp :=
  (List.range count).map fun i => .insert .least (keys i) value

theorem longInserts_eq (n : ℕ) :
    longInserts keys value (n + 1) = longInserts keys value n ++ [.insert .least (keys n) value] := by
  rw [longInserts, range_succ, map_append]
  rfl

theorem longInserts_succ {t₀ : BTree} (hrun : run step t₀ (longInserts keys value n) = some t)
    (hinsert : t.insert .least (keys n) value = .ok (t', true)) :
    run step t₀ (longInserts keys value (n + 1)) = some t' := by
  have hstep : (insert .least (keys n) value).step t = some t' := by
    rw [step, exec, hinsert]
    rfl
  rw [longInserts_eq, run_append, hrun, Option.bind_some, run_cons, hstep]
  rfl

/-- **A run that adds a level with each key**, and meets the conditions of the ordered map until the level is 256 -/
theorem run_longInserts (hsteep : Steep keys value last) (hlong : Long keys last) (hlast : last ≤ 256) :
    ∃ t₀, BTree.create .least (fun _ => none) = .ok t₀ ∧
      ∀ n ≤ last, ∃ t, run step t₀ (longInserts keys value (n + 1)) = some t ∧ Deep keys value n t ∧
        (n < 256 → Along step (fun t op => op.Fits t) t₀ (longInserts keys value (n + 1))) := by
  obtain ⟨t₀, hcreate, hlevel, hroot, hfit, hbounded⟩ := create_least
  have hshort : value.length < 2 ^ 32 := hsteep.inline.trans_lt (by decide)
  refine ⟨t₀, hcreate, fun n hn => ?_⟩
  induction n with
  | zero =>
    obtain ⟨t, hinsert, hdeep⟩ := Deep.first hsteep hcreate hlevel hroot hfit hbounded
    refine ⟨t, longInserts_succ rfl hinsert, hdeep, fun _ => ⟨⟨?_, hshort⟩, fun _ _ => trivial⟩⟩
    rw [LevelFits, BTree.newLevels, hsteep.cellFor_eq, hlevel, (growth_first hsteep hlevel hroot).2]
    decide
  | succ n ih =>
    obtain ⟨t, hrun, hdeep, halong⟩ := ih (by omega)
    obtain ⟨t', hinsert, hdeep'⟩ :=
      hdeep.step hsteep (fun _ => hlong) (hlong.separator 0 (zero_le _)) (by omega) (by omega)
    refine ⟨t', longInserts_succ hrun hinsert, hdeep', fun h256 => ?_⟩
    rw [longInserts_eq]
    refine (halong (by omega)).append hrun ⟨⟨?_, hshort⟩, fun _ _ => trivial⟩
    rw [LevelFits, hdeep.newLevels hsteep hlong (by omega) (by omega)]
    exact h256

/-- a tree with 256 levels is taken for a leaf -/
theorem Deep.get_error (h : Deep keys value 256 t) (key : Key) : t.get key = .error .badPage := by
  obtain ⟨first, child, hroot, -⟩ := h.spine
  have hread : t.readLeafForKey key = .error .badPage := by
    rw [BTree.readLeafForKey, h.level]
    simp only [findLeaf, readLeaf, hroot]
    rfl
  rw [BTree.get, BTree.search, hread]
  rfl

end Deep

/-! ## Such keys exist -/

def zeros (n : ℕ) : Bytes := List.replicate n 0

/-- 2600 zeros, then one zero less each time -/
def fewerZeros (i : ℕ) : Key := zeros (2600 - i)

theorem zeros_lt (n : ℕ) : zeros n < zeros (n + 1) := by
  induction n with
  | zero => exact nil_lt_cons _ _
  | succ n ih => exact cons_lt_cons_iff.2 (.inr ⟨rfl, ih⟩)

theorem steep_fewerZeros : Steep fewerZeros (zeros 20000) 256 := by
  refine ⟨fun i hi => ?_, ?_, fun i hi => ?_, fun i hi j hj => ?_⟩
  · have := zeros_lt (2600 - (i + 1))
    rwa [show 2600 - (i + 1) + 1 = 2600 - i by omega] at this
  · rw [zeros, length_replicate]
    decide
  · simp only [fewerZeros, zeros, usedBytesForCells, LeafCell.encodedSize, cellEncodedSize, LEAF_HEADER_SIZE,
      PAGE_SIZE_LEAF, map_cons, map_nil, sum_cons, sum_nil, length_cons, length_nil, length_replicate]
    omega
  · simp only [fewerZeros, zeros, usedBytesForCells, LeafCell.encodedSize, cellEncodedSize, LEAF_HEADER_SIZE,
      PAGE_SIZE_LEAF, map_cons, map_nil, sum_cons, sum_nil, length_cons, length_nil, length_replicate]
    omega

theorem long_fewerZeros : Long fewerZeros 256 := by
  refine ⟨fun i hi => ?_, fun i hi => ?_⟩
  · simp only [fewerZeros, zeros, length_replicate]
    omega
  · simp only [fewerZeros, zeros, keysSize, INTERNAL_HEADER_SIZE, internalEntrySize, PAGE_SIZE_INTERNAL,
      map_cons, map_nil, sum_cons, sum_nil, length_replicate]
    omega

/-- two keys, in two leaves below an internal node -/
theorem tree_is_ordered_map_two_leaves : ∃ t₀ t, BTree.create .least (fun _ => none) = .ok t₀ ∧
    run TreeOp.step t₀ (longInserts fewerZeros (zeros 20000) 2) = some t ∧ t.rootLevel = 1 ∧
      t.get (fewerZeros 0) = .ok (some (zeros 20000)) := by
  obtain ⟨t₀, hcreate, hrun⟩ := run_longInserts steep_fewerZeros long_fewerZeros le_rfl
  obtain ⟨t, hrun, hdeep, hfits⟩ := hrun 1 (by decide)
  refine ⟨t₀, t, hcreate, hrun, hdeep.level, ((tree_is_ordered_map hcreate hrun (hfits (by decide))).1 _).trans ?_⟩
  have hne : fewerZeros 0 ≠ fewerZeros 1 := (steep_fewerZeros.descending 0 (by decide)).ne'
  simp only [longInserts, List.range_succ, List.range_zero, nil_append, cons_append, map_cons, map_nil, foldl_cons,
    foldl_nil, apply, OrdMap.get?_empty, Option.isSome_none, Bool.false_eq_true, if_false, OrdMap.get?_insert, hne,
    hne.symm, if_true]

/-- **257 insertions, each of which returns Ok, leave a tree that cannot be read.** -/
theorem deep_tree_is_lost : ∃ t₀ t, BTree.create .least (fun _ => none) = .ok t₀ ∧
    run TreeOp.step t₀ (longInserts fewerZeros (zeros 20000) 257) = some t ∧ (∀ k, t.get k = .error .badPage) ∧
      ¬ ∀ k, t.get k = .ok (((longInserts fewerZeros (zeros 20000) 257).foldl TreeOp.apply .empty).get? k) := by
  obtain ⟨t₀, hcreate, hrun⟩ := run_longInserts steep_fewerZeros long_fewerZeros le_rfl
  obtain ⟨t, hrun, hdeep, -⟩ := hrun 256 le_rfl
  refine ⟨t₀, t, hcreate, hrun, hdeep.get_error, fun h => ?_⟩
  have := h []
  rw [hdeep.get_error] at this
  cases this

end Mqlite.Btree
