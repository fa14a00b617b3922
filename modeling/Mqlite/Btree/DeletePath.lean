/-
Deletes over the whole path.

`deleteSubtree_ok`: if the call returns, the tree has linked leaves as before and all cells but the one of the key,
whose overflow chain has been freed.
-/
import Mqlite.Btree.DeleteRepair

namespace Mqlite.Btree

open Lib Mvcc Storage List Option OrdMap Set InternalNode

/-! ## The parent of a leaf in the tree -/

/-- the node above the leaf for a key, and the tree around it -/
structure LeafParent (store : PageStore) (key : Key) (level page : ℕ) (lo hi : Option Key) (inner : Set ℕ)
    (leaves : List ℕ) where
  parent : ℕ
  first : ℕ
  left : Items
  right : Items
  lo' : Option Key
  hi' : Option Key
  rest : Set ℕ
  outL : List ℕ
  outR : List ℕ
  node : store parent = some (.internal (ofRow first (left ++ right)))
  leftKeys : ∀ e ∈ left, e.1 ≤ key
  rightKeys : ∀ e ∈ right, key < e.1
  row : LeafRow store first (left ++ right) lo' hi'
  inner_eq : inner = insert parent rest
  notMem : parent ∉ rest
  leaves_eq : leaves = outL ++ (first :: (left ++ right).map Prod.snd) ++ outR
  path : ∀ (t : BTree) (path : Option (ℕ × ℕ)), t.store = store →
    deleteSubtree t key (level + 1) page path = deleteFromLeaf t (lastChild first left) key (some (parent, left.length))
  find : findLeaf store (level + 1) page key = some (lastChild first left)
  above : ∀ path, lastStep store key (level + 1) page path = some (parent, left.length)
  root : parent = page → level = 0 ∧ outL = [] ∧ outR = [] ∧ lo' = lo ∧ hi' = hi
  plug : ∀ store' first' items', store' parent = some (.internal (ofRow first' items')) →
    LeafRow store' first' items' lo' hi' →
    (∀ p ∈ rest, store' p = store p) → (∀ q ∈ outL ++ outR, SameLeaf store store' q) →
    Spans store' (level + 1) page lo hi inner (outL ++ (first' :: items'.map Prod.snd) ++ outR)

theorem Spans.leafParent {store : PageStore} {key : Key} {level page : ℕ} {lo hi : Option Key} {inner : Set ℕ}
    {leaves : List ℕ} (h : Spans store (level + 1) page lo hi inner leaves) (hkey : Within lo hi key) :
    Nonempty (LeafParent store key level page lo hi inner leaves) := by
  induction level generalizing page lo hi inner leaves with
  | zero =>
    obtain ⟨first, items, below, hpage, hnot, rfl, hrow⟩ := h
    obtain ⟨l, r, -, -, -, -, -, -, -, rfl, hl, hr, -, -, -, -, -, -⟩ := hrow.focus hkey
    obtain ⟨rfl, rfl, hleafRow⟩ := row_iff_leafRow.1 hrow
    refine ⟨⟨page, first, l, r, lo, hi, ∅, [], [], hpage, hl, hr, hleafRow, rfl, hnot, by simp, ?_, ?_, ?_,
      fun _ => ⟨rfl, rfl, rfl, rfl, rfl⟩, ?_⟩⟩
    · rintro t path rfl
      have hread := readInternal_ok.2 hpage
      rw [deleteSubtree, bind_ok hread, findChildIdx_ofRow hl hr, childAt_ofRow, deleteSubtree]
    · simp only [findLeaf, hpage, findChild_ofRow, childFor_eq_lastChild hl hr]
    · intro path
      simp only [lastStep, hpage, findChildIdx_ofRow hl hr]
    · intro store' first' items' hnode hrow' _ _
      exact ⟨first', items', ∅, hnode, hnot, rfl, row_iff_leafRow.2 ⟨rfl, by simp, hrow'⟩⟩
  | succ level ih =>
    obtain ⟨first, items, below, hpage, hnot, rfl, hrow⟩ := h
    obtain ⟨l, r, lo', hi', innerC, rest, leavesL, leavesC, leavesR, rfl, hl, hr, hkey', rfl, hdisj, rfl, hspansC,
      hplug⟩ := hrow.focus hkey
    obtain ⟨⟨parent, firstC, lC, rC, loC, hiC, restC, outL, outR, hnodeC, hlC, hrC, hrowC, rfl, hnotC, rfl, hpathC,
      hfindC, haboveC, -, hplugC⟩⟩ := ih hspansC hkey'
    have hne : parent ≠ page := fun heq => hnot (heq ▸ .inl (mem_insert _ _))
    refine ⟨⟨parent, firstC, lC, rC, loC, hiC, insert page (restC ∪ rest), leavesL ++ outL, outR ++ leavesR, hnodeC,
      hlC, hrC, hrowC, ?_, ?_, by simp, ?_, ?_, ?_, fun heq => absurd heq hne, ?_⟩⟩
    · rw [insert_comm, insert_union]
    · rintro (heq | hp | hp)
      · exact hne heq
      · exact hnotC hp
      · exact disjoint_left.1 hdisj (mem_insert _ _) hp
    · rintro t path rfl
      have hread := readInternal_ok.2 hpage
      rw [deleteSubtree, bind_ok hread, findChildIdx_ofRow hl hr, childAt_ofRow, ← childFor_eq_lastChild hl hr,
        hpathC t _ rfl]
    · rw [findLeaf, hpage]
      simp only [findChild_ofRow]
      exact hfindC
    · intro path
      rw [lastStep, hpage]
      simp only [findChildIdx_ofRow hl hr, childAt_ofRow, ← childFor_eq_lastChild hl hr]
      exact haboveC _
    · intro store' first' items' hnode hrow' hinner hleaf
      have hchild := hplugC store' first' items' hnode hrow' (fun q hq => hinner q (.inr (.inl hq)))
        fun q hq => hleaf q (by simp only [mem_append] at hq ⊢; tauto)
      have hothers : ∀ c lo hi i m, Spans store (level + 1) c lo hi i m → i ⊆ rest → m ⊆ leavesL ++ leavesR →
          Spans store' (level + 1) c lo hi i m := by
        intro c lo hi i m hP hi' hm
        refine hP.frame (fun q hq => hinner q (.inr (.inr (hi' hq)))) fun q hq => hleaf q ?_
        have := hm hq
        simp only [mem_append] at this ⊢
        tauto
      have hnew := hplug (Spans store' (level + 1)) [] _ _ hothers hdisj hchild
      refine ⟨first, l ++ r, _, ?_, hnot, rfl, ?_⟩
      · rw [hinner page (mem_insert _ _), hpage]
      · simpa using hnew

/-! ## Deletion from the tree -/

section Tree

variable {store store₁ : PageStore} {height root q : ℕ} {inner : Set ℕ} {leaves chain : List ℕ} {n : LeafNode}
  {key : Key} {cell : VersionData} {x : Option VersionData} {cells : OrdMap Key VersionData}

/-- the cells of one leaf are written, after pages of a chain have changed: for each leaf what it holds, and other
pages -/
structure LeafWritten (store store' : PageStore) (q : ℕ) (leaves chain : List ℕ) : Prop where
  same : ∀ p, p ≠ q → p ∉ chain → store' p = store p
  shrinks : ∀ p ∈ leaves, Shrinks store store' p

theorem not_mem_chain (hchain : ∀ p ∈ chain, ∃ data next, store p = some (.overflow data next)) {p : ℕ} {x : Page}
    (hx : store p = some x) (hover : ∀ data next, x ≠ .overflow data next) : p ∉ chain := by
  intro hp
  obtain ⟨data, next, hp⟩ := hchain p hp
  rw [hx] at hp
  cases hp
  exact hover _ _ rfl

/-- **One key of one leaf** gets another cell or none; the tree is the same. -/
theorem Built.setLeaf (hbuilt : Built store height root inner leaves) (hq : q ∈ leaves) (hn : store q = some (.leaf n))
    (hsame : ∀ p, p ∉ chain → store₁ p = store p)
    (hchain : ∀ p ∈ chain, ∃ data next, store p = some (.overflow data next))
    (hget : n.cells.get? key = some cell) (hchange : CellsChange n.cells.entries cells.entries key x) :
    LeafWritten store (writePage store₁ q (.leaf { n with cells })) q leaves chain ∧
      Built (writePage store₁ q (.leaf { n with cells })) height root inner leaves ∧
      CellsChange (contents store leaves) (contents (writePage store₁ q (.leaf { n with cells })) leaves) key x := by
  have hstore : ∀ p, p ≠ q → p ∉ chain → writePage store₁ q (.leaf { n with cells }) p = store p :=
    fun p hpq hp => by rw [writePage_of_ne _ hpq, hsame p hp]
  have hleaf : ∀ p ∈ leaves, p ≠ q → writePage store₁ q (.leaf { n with cells }) p = store p := by
    intro p hp hpq
    obtain ⟨-, m, hm⟩ := hbuilt.spans.leaf p hp
    exact hstore p hpq (not_mem_chain hchain hm (by simp))
  have hshrinks : ∀ p ∈ leaves, Shrinks store (writePage store₁ q (.leaf { n with cells })) p := by
    intro p hp
    by_cases hpq : p = q
    · subst hpq
      intro m hm
      rw [hn] at hm
      cases hm
      refine ⟨_, writePage_self _ _ _, fun k hk => hk.imp_left fun hk => ?_⟩
      obtain ⟨v, hv⟩ := isSome_iff_exists.1 hk
      have hmem := (hchange (k, v)).1 (get?_eq_some_iff.1 hv)
      simp only at hmem
      split_ifs at hmem with hkey
      · rw [hkey, hget]
        rfl
      · rw [get?_eq_some_iff.2 hmem]
        rfl
    · exact (sameLeaf_of_eq (hleaf p hp hpq)).shrinks
  have hinner : ∀ p ∈ inner, writePage store₁ q (.leaf { n with cells }) p = store p := by
    intro p hp
    obtain ⟨node, hnode⟩ := hbuilt.spans.internal p hp
    refine hstore p ?_ (not_mem_chain hchain hnode (by simp))
    rintro rfl
    rw [hn] at hnode
    cases hnode
  obtain ⟨left, right, rfl⟩ := append_of_mem hq
  have hne : q ∉ left ++ right := (nodup_cons.1 (nodup_middle.1 hbuilt.nodup)).1
  rw [mem_append, not_or] at hne
  have hleft : ∀ p ∈ left, writePage store₁ q (.leaf { n with cells }) p = store p :=
    fun p hp => hleaf p (by simp [hp]) fun heq => hne.1 (heq ▸ hp)
  have hright : ∀ p ∈ right, writePage store₁ q (.leaf { n with cells }) p = store p :=
    fun p hp => hleaf p (by simp [hp]) fun heq => hne.2 (heq ▸ hp)
  refine ⟨⟨hstore, hshrinks⟩, ⟨hbuilt.spans.shrink hinner hshrinks, ?_⟩, ?_⟩
  · obtain ⟨hbefore, ⟨m, hm, hprev, hnext⟩, hafter⟩ := linked_append.1 hbuilt.linked
    rw [hn] at hm
    cases hm
    exact linked_append.2 ⟨hbefore.frame hleft, ⟨_, writePage_self _ _ _, hprev, hnext⟩, hafter.frame hright⟩
  · have hsorted := hbuilt.spans.contents_sorted
    rw [contents_middle hn] at hsorted
    obtain ⟨hl, hr⟩ := ne_of_sorted hsorted (get?_eq_some_iff.1 hget)
    rw [contents_middle hn, contents_middle (writePage_self _ _ _), contents_congr hleft, contents_congr hright]
    exact hchange.append hl hr

variable {t t' : BTree} {found : Bool}

theorem deleteFromLeaf_ok {path : Option (ℕ × ℕ)} (h : deleteFromLeaf t q key path = .ok (t', found))
    (hn : t.store q = some (.leaf n)) :
    n.cells.get? key = none ∧ found = false ∧ t' = t ∨
      ∃ cell store₁, n.cells.get? key = some cell ∧ found = true ∧ freeValue t.store cell = .ok store₁ ∧
        (t' = { t with store := writePage store₁ q (.leaf { n with cells := n.cells.erase key }) } ∨
          ∃ parent childIdx, path = some (parent, childIdx) ∧
            handleLeafUnderflow { t with store := writePage store₁ q (.leaf { n with cells := n.cells.erase key }) } q
              { n with cells := n.cells.erase key } parent childIdx = .ok t') := by
  obtain ⟨m, hread, h₁⟩ := bind_eq_ok h
  rw [readLeaf_ok, hn] at hread
  cases hread
  cases hget : n.cells.get? key with
  | none =>
    rw [hget] at h₁
    cases h₁
    exact .inl ⟨rfl, rfl, rfl⟩
  | some cell =>
    rw [hget] at h₁
    obtain ⟨store₁, hfree, h₂⟩ := bind_eq_ok h₁
    obtain ⟨store₂, hwrite, h₃⟩ := bind_eq_ok h₂
    obtain ⟨-, rfl⟩ := writeLeaf_ok.1 hwrite
    cases path with
    | none =>
      cases h₃
      exact .inr ⟨cell, store₁, rfl, rfl, hfree, .inl rfl⟩
    | some step =>
      obtain ⟨parent, childIdx⟩ := step
      split_ifs at h₃
      · obtain ⟨t₁, hrepair, h₄⟩ := bind_eq_ok h₃
        cases h₄
        exact .inr ⟨cell, store₁, rfl, rfl, hfree, .inr ⟨parent, childIdx, rfl, hrepair⟩⟩
      · cases h₃
        exact .inr ⟨cell, store₁, rfl, rfl, hfree, .inl rfl⟩

/-- the key is in the leaf that the descent ends at, or nowhere -/
theorem Built.absent (hbuilt : Built store height root inner leaves) (hfind : findLeaf store height root key = some q)
    (hn : store q = some (.leaf n)) (hnone : n.cells.get? key = none) (d : VersionData) :
    (key, d) ∉ contents store leaves := by
  intro hd
  obtain ⟨p, hp, m, hm, hget⟩ := mem_contents.1 hd
  have hpq := hbuilt.spans.subtree.find_of_holds hp ⟨m, hm, .inl (by rw [hget]; rfl)⟩
  rw [hfind] at hpq
  cases hpq
  rw [hn] at hm
  cases hm
  rw [hnone] at hget
  cases hget

/-- a deletion found the key: the tree afterwards -/
structure Deleted (t t' : BTree) (leaves : List ℕ) (key : Key) (chain : List ℕ) (inner' : Set ℕ) (leaves' : List ℕ) :
    Prop where
  built : Built t'.store t'.rootLevel t'.rootPage inner' leaves'
  level : t'.rootLevel ≤ t.rootLevel
  cells : CellsChange (contents t.store leaves) (contents t'.store leaves') key none
  overflow : ∀ p data next, t.store p = some (.overflow data next) → p ∉ chain → t'.store p = some (.overflow data next)

/-- pages of the tree that are not the leaf stay -/
theorem LeafWritten.eq (h : LeafWritten store store₁ q leaves chain)
    (hchain : ∀ p ∈ chain, ∃ data next, store p = some (.overflow data next)) {p : ℕ} {x : Page} (hx : store p = some x)
    (hover : ∀ data next, x ≠ .overflow data next) (hpq : p ≠ q) : store₁ p = store p :=
  h.same p hpq (not_mem_chain hchain hx hover)

theorem LeafParent.mem {level page : ℕ} {lo hi : Option Key} (p : LeafParent store key level page lo hi inner leaves) :
    lastChild p.first p.left ∈ leaves := by
  have hmem : lastChild p.first p.left ∈ p.outL ++ (p.first :: (p.left ++ p.right).map Prod.snd) ++ p.outR := by
    rw [pages_append]
    simp
  exact (congrArg (lastChild p.first p.left ∈ ·) p.leaves_eq).mpr hmem

/-- the parent and its leaves after the leaf has been written -/
theorem LeafParent.below {t₁ : BTree} {level height : ℕ} (hbuilt : Built t.store height t.rootPage inner leaves)
    (p : LeafParent t.store key level t.rootPage none none inner leaves)
    (hwritten : LeafWritten t.store t₁.store (lastChild p.first p.left) leaves chain)
    (hchain : ∀ p ∈ chain, ∃ data next, t.store p = some (.overflow data next))
    (hbuilt₁ : Built t₁.store height t.rootPage inner leaves) :
    Below t₁ p.parent p.first (p.left ++ p.right) p.lo' p.hi' p.outL p.outR := by
  obtain ⟨-, m, hm⟩ := hbuilt.spans.leaf _ p.mem
  have hne : p.parent ≠ lastChild p.first p.left := by
    intro heq
    rw [← heq, p.node] at hm
    cases hm
  have hleaves := p.leaves_eq
  refine ⟨by rw [hwritten.eq hchain p.node (by simp) hne, p.node], p.row.shrink fun q hq => hwritten.shrinks q ?_,
    hleaves ▸ hbuilt₁.linked, hleaves ▸ fun q hq => (hbuilt.spans.leaf q hq).1⟩
  rw [hleaves]
  exact mem_append_left _ (mem_append_right _ hq)

/-- the repair, seen from the whole tree -/
theorem LeafParent.repaired {t t₁ t' : BTree} {level : ℕ} (hlevel : t.rootLevel = level + 1)
    (hbuilt : Built t.store t.rootLevel t.rootPage inner leaves)
    (p : LeafParent t.store key level t.rootPage none none inner leaves)
    (hroot : t₁.rootPage = t.rootPage ∧ t₁.rootLevel = t.rootLevel)
    (hwritten : LeafWritten t.store t₁.store (lastChild p.first p.left) leaves chain)
    (hchain : ∀ p ∈ chain, ∃ data next, t.store p = some (.overflow data next))
    (hbuilt₁ : Built t₁.store t.rootLevel t.rootPage inner leaves)
    (hcells : CellsChange (contents t.store leaves) (contents t₁.store leaves) key none)
    (hn : t₁.store (lastChild p.first p.left) = some (.leaf n))
    (h : handleLeafUnderflow t₁ (lastChild p.first p.left) n p.parent p.left.length = .ok t') :
    ∃ inner' leaves', Deleted t t' leaves key chain inner' leaves' ∧ SameChains t₁.store leaves t'.store leaves' := by
  have hbelow := p.below hbuilt hwritten hchain hbuilt₁
  obtain ⟨parent, first, l, r, lo', hi', rest, outL, outR, hnode, _, _, hrow, hinner, hnot, hleaves, _, _, _,
    hrootP, hplug⟩ := p
  subst hinner hleaves
  have hq : lastChild first l ∈ first :: (l ++ r).map Prod.snd := by
    rw [pages_append]
    simp
  have hinternal : ∀ p ∈ insert parent rest, t₁.store p = t.store p := by
    intro p hp
    obtain ⟨node, hnode⟩ := hbuilt.spans.internal p hp
    obtain ⟨node₁, hnode₁⟩ := hbuilt₁.spans.internal p hp
    refine hwritten.eq hchain hnode (by simp) ?_
    rintro rfl
    rw [hn] at hnode₁
    cases hnode₁
  have hmem : ∀ p ∈ first :: (l ++ r).map Prod.snd, p ∈ outL ++ (first :: (l ++ r).map Prod.snd) ++ outR :=
    fun p hp => mem_append_left _ (mem_append_right _ hp)
  obtain ⟨first', items', hrep, hchains⟩ := handleLeafUnderflow_ok hbelow hn h
  -- leaves under other parents
  have hsideMem : ∀ p ∈ outL ++ outR, p ∈ outL ++ (first :: (l ++ r).map Prod.snd) ++ outR := by
    intro p hp
    simp only [mem_append] at hp ⊢
    tauto
  have hside₁ : ∀ p ∈ outL ++ outR, t₁.store p = t.store p := by
    intro p hp
    obtain ⟨-, m, hm⟩ := hbuilt.spans.leaf p (hsideMem p hp)
    refine hwritten.eq hchain hm (by simp) ?_
    rintro rfl
    have hnodup := hbuilt.nodup
    rw [append_assoc, nodup_append, nodup_append] at hnodup
    obtain ⟨-, ⟨-, -, hd₂⟩, hd₁⟩ := hnodup
    rcases mem_append.1 hp with hp | hp
    · exact hd₁ _ hp _ (mem_append_left _ hq) rfl
    · exact hd₂ _ hq _ hp rfl
  have hside := forall_mem_append.1 hrep.side
  have hsideLeaf : ∀ p ∈ outL ++ outR, ∃ m, t₁.store p = some (.leaf m) :=
    fun p hp => (hbuilt₁.spans.leaf p (hsideMem p hp)).2
  rw [forall_mem_append] at hsideLeaf
  have hchains' : SameChains t₁.store (outL ++ (first :: (l ++ r).map Prod.snd) ++ outR) t'.store
      (outL ++ (first' :: items'.map Prod.snd) ++ outR) :=
    ((sameChains_frame hsideLeaf.1 hside.1).append hchains).append (sameChains_frame hsideLeaf.2 hside.2)
  have hcontents : contents t'.store (outL ++ (first' :: items'.map Prod.snd) ++ outR) =
      contents t₁.store (outL ++ (first :: (l ++ r).map Prod.snd) ++ outR) := by
    rw [contents_append, contents_append, contents_append, contents_append, hrep.cells,
      contents_frame hsideLeaf.1 hside.1, contents_frame hsideLeaf.2 hside.2]
  have hoverflow : ∀ p data next, t.store p = some (.overflow data next) → p ∉ chain →
      t'.store p = some (.overflow data next) := by
    intro p data next hp hpc
    have hpq : p ≠ lastChild first l := by
      rintro rfl
      obtain ⟨-, m, hm⟩ := hbuilt.spans.leaf _ (hmem _ hq)
      rw [hp] at hm
      cases hm
    refine hrep.other p _ ((hwritten.same p hpq hpc).trans hp) (by simp) ?_
    rintro rfl
    rw [hp] at hnode
    cases hnode
  rcases hrep.node with ⟨hparent', hroot', hlevel'⟩ | ⟨hroot', rfl, hpage', hlevel'⟩
  · -- the parent stays
    rw [hroot.1] at hroot'
    rw [hroot.2] at hlevel'
    refine ⟨insert parent rest, _, ⟨⟨?_, hrep.linked⟩, hlevel'.le, by rw [hcontents]; exact hcells, hoverflow⟩,
      hchains'⟩
    rw [hroot', hlevel', hlevel]
    refine hplug t'.store first' items' hparent' hrep.row (fun p hp => ?_) fun p hp => ?_
    · obtain ⟨node, hpnode⟩ := hbuilt.spans.internal p (mem_insert_of_mem _ hp)
      rw [hpnode]
      refine hrep.other p _ ((hinternal p (mem_insert_of_mem _ hp)).trans hpnode) (by simp) ?_
      rintro rfl
      exact hnot hp
    · exact (sameLeaf_of_eq (hside₁ p hp)).trans (hrep.side p hp)
  · -- the root is given up
    rw [hroot.1] at hroot'
    obtain ⟨rfl, rfl, rfl, rfl, rfl⟩ := hrootP hroot'
    rw [hroot.2, hlevel] at hlevel'
    refine ⟨∅, [first'], ⟨⟨?_, by simpa using hrep.linked⟩, by omega, ?_, hoverflow⟩, by simpa using hchains'⟩
    · rw [hlevel', hpage']
      exact ⟨rfl, rfl, hrep.row⟩
    · change CellsChange _ (contents t'.store ([] ++ [first'] ++ [])) key none
      rw [show contents t'.store ([] ++ [first'] ++ []) = _ from hcontents]
      exact hcells

/-- the leaf that a deletion ends at, with the step above it -/
theorem Built.deletePath (hbuilt : Built t.store t.rootLevel t.rootPage inner leaves)
    (h : t.delete key = .ok (t', found)) : ∃ q path, deleteFromLeaf t q key path = .ok (t', found) ∧
      findLeaf t.store t.rootLevel t.rootPage key = some q ∧ q ∈ leaves ∧ ∀ parent idx, path = some (parent, idx) →
        ∃ level, t.rootLevel = level + 1 ∧ ∃ p : LeafParent t.store key level t.rootPage none none inner leaves,
          p.parent = parent ∧ p.left.length = idx ∧ lastChild p.first p.left = q := by
  have hspans := hbuilt.spans
  unfold BTree.delete at h
  cases hlevel : t.rootLevel with
  | zero =>
    rw [hlevel] at h hspans
    obtain ⟨-, rfl, -⟩ := hspans
    exact ⟨t.rootPage, none, h, rfl, mem_singleton.2 rfl, fun _ _ hpath => by cases hpath⟩
  | succ level =>
    rw [hlevel] at h hspans
    obtain ⟨p⟩ := @Spans.leafParent _ key _ _ _ _ _ _ hspans ⟨by simp, by simp⟩
    rw [p.path t none rfl] at h
    refine ⟨_, _, h, p.find, p.mem, fun parent idx hpath => ?_⟩
    cases hpath
    exact ⟨level, rfl, p, rfl, rfl, rfl⟩

/-- **Deletion from the tree.** -/
theorem BTree.delete_ok {value : Bytes} (h : t.delete key = .ok (t', found))
    (hbuilt : Built t.store t.rootLevel t.rootPage inner leaves)
    (hstored : ∀ cell, (key, cell) ∈ contents t.store leaves → Stored t.store cell chain value) :
    found = false ∧ t' = t ∧ (∀ d, (key, d) ∉ contents t.store leaves) ∨ found = true ∧
      (∃ cell, (key, cell) ∈ contents t.store leaves) ∧
        ∃ inner' leaves', Deleted t t' leaves key chain inner' leaves' ∧
          SameChains t.store leaves t'.store leaves' := by
  obtain ⟨q, path, hdelete, hfind, hq, hpath⟩ := hbuilt.deletePath h
  obtain ⟨-, n, hn⟩ := hbuilt.spans.leaf q hq
  rcases deleteFromLeaf_ok hdelete hn with ⟨hnone, rfl, rfl⟩ | ⟨cell, store₁, hget, rfl, hfree, hafter⟩
  · exact .inl ⟨rfl, rfl, hbuilt.absent hfind hn hnone⟩
  · have hmem : (key, cell) ∈ contents t.store leaves := mem_contents.2 ⟨q, hq, n, hn, hget⟩
    have hst := hstored cell hmem
    have hsame := (hst.free hfree).2
    obtain ⟨hwritten, hbuilt₁, hcells⟩ := hbuilt.setLeaf hq hn hsame hst.overflow hget (cellsChange_erase n.cells key)
    have hchains : SameChains t.store leaves
        (writePage store₁ q (.leaf { n with cells := n.cells.erase key })) leaves := by
      intro k c
      refine exists_congr fun p => and_congr_right fun hp => ?_
      by_cases hpq : p = q
      · rw [hpq, hn, writePage_self]
        simp
      · obtain ⟨-, m, hm⟩ := hbuilt.spans.leaf p hp
        rw [hwritten.eq hst.overflow hm (by simp) hpq]
    refine .inr ⟨rfl, ⟨cell, hmem⟩, ?_⟩
    rcases hafter with rfl | ⟨parent, idx, hstep, hrepair⟩
    · refine ⟨inner, leaves, ⟨hbuilt₁, le_rfl, hcells, fun p data next hp hpc => (hwritten.same p ?_ hpc).trans hp⟩,
        hchains⟩
      rintro rfl
      rw [hn] at hp
      cases hp
    · obtain ⟨level, hlevel, p, rfl, rfl, rfl⟩ := hpath parent idx hstep
      have hrepaired := @LeafParent.repaired inner leaves chain _ key t ⟨writePage store₁ (lastChild p.first p.left)
        (.leaf { n with cells := n.cells.erase key }), t.rootPage, t.rootLevel⟩ t' level hlevel hbuilt p ⟨rfl,
        rfl⟩ hwritten hst.overflow hbuilt₁ hcells (writePage_self _ _ _) hrepair
      obtain ⟨inner', leaves', hdeleted, hchains'⟩ := hrepaired
      exact ⟨inner', leaves', hdeleted, hchains.trans hchains'⟩

end Tree

end Mqlite.Btree
