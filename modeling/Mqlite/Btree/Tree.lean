/-
B+ trees of pages (`storage/btree`): nodes, the descent from the root to a leaf, and the structural invariant.

A leaf page holds base cells; its frame in memory also holds the version chains of keys it is responsible for. Leaves
are linked to their siblings. Large values are in chains of overflow pages. An internal page holds (separator, left
child) pairs and a rightmost child; the descent for a key takes the child left of the first separator above the key.

`Subtree` says that a page is the root of a tree of a given height that is responsible for the keys in [lo, hi), and
lists its leaves from left to right. What it gives:
- `Subtree.find_of_holds`: the descent for a key that some leaf holds ends at that leaf;
- `Subtree.find`: leaves left of the one the descent for a key ends at hold smaller keys only;
- `Subtree.ascends`: keys ascend from leaf to leaf.
`Sound` adds the sibling links.

Left out: page sizes, encodings and checksums, and latches: a descent sees one state of the pages.
-/
import Mqlite.Lib.OrdMap
import Mqlite.Mvcc.Version

namespace Mqlite.Btree

open Lib Mvcc List

/-! ## Nodes -/

/-- a leaf page with the chains of its frame; page 0 is no page -/
structure LeafNode where
  cells : OrdMap Key VersionData
  deltas : OrdMap Key Chain
  nextLeafPage : ℕ
  prevLeafPage : ℕ

structure InternalNode where
  entries : List (Key × ℕ)
  rightmostChild : ℕ

/-- blank pages are allocated and not yet written -/
inductive Page where
  | blank
  | leaf (node : LeafNode)
  | internal (node : InternalNode)
  | overflow (data : Bytes) (nextOverflowPage : ℕ)

/-- reading a page fails if it is not there -/
abbrev PageStore := ℕ → Option Page

structure BTree where
  store : PageStore
  rootPage : ℕ
  rootLevel : ℕ

/-- the leaf has a base cell or a chain for the key -/
def LeafNode.holds (n : LeafNode) (k : Key) : Prop := (n.cells.get? k).isSome = true ∨ (n.deltas.get? k).isSome = true

instance (n : LeafNode) (k : Key) : Decidable (n.holds k) := inferInstanceAs (Decidable (_ ∨ _))

/-! ## Descent -/

def findChild (entries : List (Key × ℕ)) (rightmostChild : ℕ) (key : Key) : ℕ :=
  match entries with
  | [] => rightmostChild
  | (k, childPage) :: rest => if key < k then childPage else findChild rest rightmostChild key

def findLeaf (store : PageStore) : ℕ → ℕ → Key → Option ℕ
  | 0, page, _ => some page
  | level + 1, page, key =>
    match store page with
    | some (.internal node) => findLeaf store level (findChild node.entries node.rightmostChild key) key
    | _ => none

def leftmostLeaf (store : PageStore) : ℕ → ℕ → Option ℕ
  | 0, page => some page
  | level + 1, page =>
    match store page with
    | some (.internal node) =>
      match node.entries with
      | [] => leftmostLeaf store level node.rightmostChild
      | (_, childPage) :: _ => leftmostLeaf store level childPage
    | _ => none

/-! ## The structural invariant -/

/-- the keys in [lo, hi); none is an open end -/
def Within (lo hi : Option Key) (k : Key) : Prop := (∀ l ∈ lo, l ≤ k) ∧ ∀ h ∈ hi, k < h

/-- a leaf that holds keys in [lo, hi) only -/
def LeafAt (store : PageStore) (page : ℕ) (lo hi : Option Key) : Prop :=
  page ≠ 0 ∧ ∃ n, store page = some (.leaf n) ∧ ∀ k, n.holds k → Within lo hi k

/-- the children of an internal node, each with the range its separators leave to it -/
def Children (P : ℕ → Option Key → Option Key → List ℕ → Prop) :
    List (Key × ℕ) → ℕ → Option Key → Option Key → List ℕ → Prop
  | [], rightmost, lo, hi, leaves => P rightmost lo hi leaves
  | (sep, child) :: rest, rightmost, lo, hi, leaves => Within lo hi sep ∧ ∃ left right, leaves = left ++ right ∧
      P child lo (some sep) left ∧ Children P rest rightmost (some sep) hi right

/-- the page is the root of a tree of this height with these leaves -/
def Subtree (store : PageStore) : ℕ → ℕ → Option Key → Option Key → List ℕ → Prop
  | 0, page, lo, hi, leaves => leaves = [page] ∧ LeafAt store page lo hi
  | level + 1, page, lo, hi, leaves => ∃ node, store page = some (.internal node) ∧
      Children (Subtree store level) node.entries node.rightmostChild lo hi leaves

/-- the sibling links run through the leaves in order, between prev and 0 -/
def Siblings (store : PageStore) : ℕ → List ℕ → Prop
  | _, [] => True
  | prev, page :: rest =>
    (∃ n, store page = some (.leaf n) ∧ n.prevLeafPage = prev ∧ n.nextLeafPage = rest.headD 0) ∧
      Siblings store page rest

structure Sound (t : BTree) (leaves : List ℕ) : Prop where
  subtree : Subtree t.store t.rootLevel t.rootPage none none leaves
  siblings : Siblings t.store 0 leaves

/-! ## Leaves of a subtree -/

/-- a leaf page holds the key -/
def Holds (store : PageStore) (page : ℕ) (k : Key) : Prop := ∃ n, store page = some (.leaf n) ∧ n.holds k

variable {store : PageStore} {level page : ℕ} {lo hi : Option Key} {leaves : List ℕ} {k : Key}

theorem LeafAt.within (h : LeafAt store page lo hi) (hk : Holds store page k) : Within lo hi k := by
  obtain ⟨-, n, hn, hin⟩ := h
  obtain ⟨m, hm, hk⟩ := hk
  rw [hn] at hm; cases hm
  exact hin k hk

theorem Within.left {sep : Key} (h : Within lo hi sep) (hk : Within lo (some sep) k) : Within lo hi k :=
  ⟨hk.1, fun h' hh => (hk.2 sep rfl).trans (h.2 h' hh)⟩

theorem Within.right {sep : Key} (h : Within lo hi sep) (hk : Within (some sep) hi k) : Within lo hi k :=
  ⟨fun l hl => (h.1 l hl).trans (hk.1 sep rfl), hk.2⟩

/-- keys ascend from leaf to leaf -/
def Ascends (store : PageStore) (leaves : List ℕ) : Prop :=
  leaves.Pairwise fun p q => ∀ k k', Holds store p k → Holds store q k' → k < k'

section Children

variable {P : ℕ → Option Key → Option Key → List ℕ → Prop} {entries : List (Key × ℕ)} {rightmost : ℕ}

/-- P keeps what its leaves hold in its range -/
def Ranged (store : PageStore) (P : ℕ → Option Key → Option Key → List ℕ → Prop) : Prop :=
  ∀ page lo hi leaves, P page lo hi leaves → ∀ q ∈ leaves, ∀ k, Holds store q k → Within lo hi k

theorem Children.within (hP : Ranged store P) (h : Children P entries rightmost lo hi leaves) {q : ℕ} (hq : q ∈ leaves)
    (hk : Holds store q k) : Within lo hi k := by
  induction entries generalizing lo leaves with
  | nil => exact hP _ _ _ _ h q hq k hk
  | cons e rest ih =>
    obtain ⟨hsep, left, right, rfl, hl, hr⟩ := h
    rcases mem_append.1 hq with hq | hq
    · exact hsep.left (hP _ _ _ _ hl q hq k hk)
    · exact hsep.right (ih hr hq)

/-- the child that is taken for a key that is held below the node -/
theorem Children.find_of_holds (hP : Ranged store P) (h : Children P entries rightmost lo hi leaves) {q : ℕ}
    (hq : q ∈ leaves)
    (hk : Holds store q k) : ∃ lo' hi' leaves', P (findChild entries rightmost k) lo' hi' leaves' ∧ q ∈ leaves' := by
  induction entries generalizing lo leaves with
  | nil => exact ⟨lo, hi, leaves, h, hq⟩
  | cons e rest ih =>
    obtain ⟨-, left, right, rfl, hl, hr⟩ := h
    rw [findChild]
    rcases mem_append.1 hq with hq | hq
    · rw [if_pos ((hP _ _ _ _ hl q hq k hk).2 e.1 rfl)]
      exact ⟨_, _, _, hl, hq⟩
    · rw [if_neg (not_lt.2 ((hr.within hP hq hk).1 e.1 rfl))]
      exact ih hr hq

/-- the child that is taken for any key: left of it there are smaller keys only, and right of it greater ones -/
theorem Children.find (hP : Ranged store P) (h : Children P entries rightmost lo hi leaves) (key : Key) :
    ∃ lo' hi' left mid right, leaves = left ++ (mid ++ right) ∧ P (findChild entries rightmost key) lo' hi' mid ∧
      (∀ q ∈ left, ∀ k, Holds store q k → k < key) ∧ ∀ q ∈ right, ∀ k, Holds store q k → key < k := by
  induction entries generalizing lo leaves with
  | nil => exact ⟨lo, hi, [], leaves, [], by simp, h, by simp, by simp⟩
  | cons e rest ih =>
    obtain ⟨-, left, right, rfl, hl, hr⟩ := h
    rw [findChild]
    split_ifs with hlt
    · refine ⟨lo, some e.1, [], left, right, rfl, hl, by simp, fun q hq k hk => ?_⟩
      exact hlt.trans_le ((hr.within hP hq hk).1 e.1 rfl)
    · obtain ⟨lo', hi', left', mid, right', rfl, hmid, hsmall, hgreat⟩ := ih hr
      refine ⟨lo', hi', left ++ left', mid, right', by simp, hmid, fun q hq k hk => ?_, hgreat⟩
      rcases mem_append.1 hq with hq | hq
      · exact ((hP _ _ _ _ hl q hq k hk).2 e.1 rfl).trans_le (not_lt.1 hlt)
      · exact hsmall q hq k hk

theorem Children.ascends (hP : Ranged store P) (hasc : ∀ page lo hi leaves, P page lo hi leaves → Ascends store leaves)
    (h : Children P entries rightmost lo hi leaves) : Ascends store leaves := by
  induction entries generalizing lo leaves with
  | nil => exact hasc _ _ _ _ h
  | cons e rest ih =>
    obtain ⟨-, left, right, rfl, hl, hr⟩ := h
    refine pairwise_append.2 ⟨hasc _ _ _ _ hl, ih hr, fun p hp q hq k k' hk hk' => ?_⟩
    exact ((hP _ _ _ _ hl p hp k hk).2 e.1 rfl).trans_le ((hr.within hP hq hk').1 e.1 rfl)

theorem Children.forall_leaves {Q : ℕ → Prop} (hQ : ∀ page lo hi leaves, P page lo hi leaves → ∀ q ∈ leaves, Q q)
    (h : Children P entries rightmost lo hi leaves) : ∀ q ∈ leaves, Q q := by
  induction entries generalizing lo leaves with
  | nil => exact hQ _ _ _ _ h
  | cons e rest ih =>
    obtain ⟨-, left, right, rfl, hl, hr⟩ := h
    exact forall_mem_append.2 ⟨hQ _ _ _ _ hl, ih hr⟩

end Children

theorem ranged_subtree : Ranged store (Subtree store level) := by
  induction level with
  | zero =>
    rintro page lo hi leaves ⟨rfl, hleaf⟩ q hq k hk
    obtain rfl := mem_singleton.1 hq
    exact hleaf.within hk
  | succ level ih =>
    rintro page lo hi leaves ⟨node, -, hc⟩ q hq k hk
    exact hc.within ih hq hk

section

variable (h : Subtree store level page lo hi leaves)

include h

/-- **The descent ends where the key is.** -/
theorem Subtree.find_of_holds {q : ℕ} (hq : q ∈ leaves) (hk : Holds store q k) :
    findLeaf store level page k = some q := by
  induction level generalizing page lo hi leaves with
  | zero =>
    obtain ⟨rfl, -⟩ := h
    rw [mem_singleton.1 hq]
    rfl
  | succ level ih =>
    obtain ⟨node, hnode, hc⟩ := h
    obtain ⟨lo', hi', leaves', hsub, hq'⟩ := hc.find_of_holds ranged_subtree hq hk
    simp only [findLeaf, hnode]
    exact ih hsub hq'

/-- **The descent for any key** ends at a leaf; left of it there are smaller keys only, and right of it greater ones. -/
theorem Subtree.find (key : Key) :
    ∃ q left right, findLeaf store level page key = some q ∧ leaves = left ++ q :: right ∧
      (∀ p ∈ left, ∀ k, Holds store p k → k < key) ∧ ∀ p ∈ right, ∀ k, Holds store p k → key < k := by
  induction level generalizing page lo hi leaves with
  | zero =>
    obtain ⟨rfl, -⟩ := h
    exact ⟨page, [], [], rfl, rfl, by simp, by simp⟩
  | succ level ih =>
    obtain ⟨node, hnode, hc⟩ := h
    obtain ⟨lo', hi', left, mid, right, rfl, hsub, hsmall, hgreat⟩ := hc.find ranged_subtree key
    obtain ⟨q, left', right', hfind, rfl, hsmall', hgreat'⟩ := ih hsub
    refine ⟨q, left ++ left', right' ++ right, ?_, by simp, fun p hp k hk => ?_, fun p hp k hk => ?_⟩
    · simp only [findLeaf, hnode]
      exact hfind
    · exact (mem_append.1 hp).elim (fun hp => hsmall p hp k hk) fun hp => hsmall' p hp k hk
    · exact (mem_append.1 hp).elim (fun hp => hgreat' p hp k hk) fun hp => hgreat p hp k hk

theorem Subtree.leftmost : ∃ q right, leftmostLeaf store level page = some q ∧ leaves = q :: right := by
  induction level generalizing page lo hi leaves with
  | zero =>
    obtain ⟨rfl, -⟩ := h
    exact ⟨page, [], rfl, rfl⟩
  | succ level ih =>
    obtain ⟨node, hnode, hc⟩ := h
    simp only [leftmostLeaf, hnode]
    cases hent : node.entries with
    | nil =>
      rw [hent] at hc
      exact ih hc
    | cons e rest =>
      rw [hent] at hc
      obtain ⟨-, left, right, rfl, hl, -⟩ := hc
      obtain ⟨q, rest', hq, rfl⟩ := ih hl
      exact ⟨q, rest' ++ right, hq, rfl⟩

theorem Subtree.ascends : Ascends store leaves := by
  induction level generalizing page lo hi leaves with
  | zero =>
    obtain ⟨rfl, -⟩ := h
    exact pairwise_singleton _ _
  | succ level ih =>
    obtain ⟨node, -, hc⟩ := h
    exact hc.ascends ranged_subtree fun _ _ _ _ => ih

theorem Subtree.leaves_ne_zero : ∀ q ∈ leaves, q ≠ 0 := by
  induction level generalizing page lo hi leaves with
  | zero =>
    obtain ⟨rfl, hleaf⟩ := h
    exact forall_mem_singleton.2 hleaf.1
  | succ level ih =>
    obtain ⟨node, -, hc⟩ := h
    exact hc.forall_leaves fun _ _ _ _ => ih

end

/-- the rest of the leaves is linked too -/
theorem Siblings.right {prev : ℕ} {left right : List ℕ} {q : ℕ} (h : Siblings store prev (left ++ q :: right)) :
    ∃ prev', Siblings store prev' (q :: right) := by
  induction left generalizing prev with
  | nil => exact ⟨prev, h⟩
  | cons p left ih => exact ih h.2

/-- the links of a leaf lead to the leaves beside it, or nowhere -/
theorem Siblings.links {prev : ℕ} {left right : List ℕ} {q : ℕ} {n : LeafNode}
    (h : Siblings store prev (left ++ q :: right))
    (hn : store q = some (.leaf n)) : n.prevLeafPage = left.getLastD prev ∧ n.nextLeafPage = right.headD 0 := by
  induction left generalizing prev with
  | nil =>
    obtain ⟨⟨m, hm, hprev, hnext⟩, -⟩ := h
    rw [hn] at hm
    cases hm
    exact ⟨hprev, hnext⟩
  | cons p left ih =>
    rw [getLastD_cons]
    exact ih h.2

end Mqlite.Btree
