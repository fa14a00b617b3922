/-
Repair of an underfull leaf with its sibling.

Both leaves are below one parent, next to each other in the chain of leaves (`Around`). A merge and a redistribution
keep the cells of the two and the links of all leaves, and the parent's row stays a row of trees (`Repaired`).
-/
import Mqlite.Btree.DeleteRows

namespace Mqlite.Btree

open Lib Mvcc Storage List Option OrdMap Set InternalNode

/-! ## Repair -/

section Links

variable {store store' : PageStore} {prev prev' next next' : ℕ} {pages : List ℕ}

/-- the first leaf gets another left sibling -/
theorem Linked.setPrev (h : Linked store prev pages next)
    (hhead : ∀ q m, pages.head? = some q → store q = some (.leaf m) →
      store' q = some (.leaf { m with prevLeafPage := prev' }))
    (htail : ∀ q ∈ pages.tail, store' q = store q) : Linked store' prev' pages next := by
  cases pages with
  | nil => trivial
  | cons q pages =>
    obtain ⟨⟨m, hm, -, hnext⟩, hrest⟩ := h
    exact ⟨⟨_, hhead q m rfl hm, rfl, hnext⟩, hrest.frame htail⟩

/-- the last leaf gets another right sibling -/
theorem Linked.setNext (h : Linked store prev pages next)
    (hlast : ∀ q m, pages.getLast? = some q → store q = some (.leaf m) →
      store' q = some (.leaf { m with nextLeafPage := next' }))
    (hinit : ∀ q ∈ pages.dropLast, store' q = store q) : Linked store' prev pages next' := by
  induction pages generalizing prev with
  | nil => trivial
  | cons q pages ih =>
    obtain ⟨⟨m, hm, hprev, hnext⟩, hrest⟩ := h
    cases pages with
    | nil => exact ⟨⟨_, hlast q m rfl hm, hprev, rfl⟩, trivial⟩
    | cons q' pages =>
      rw [dropLast_cons_of_ne_nil (by simp), forall_mem_cons] at hinit
      exact ⟨⟨m, hinit.1.trans hm, hprev, hnext⟩, ih hrest (fun p m hp => hlast p m (by simpa using hp)) hinit.2⟩

end Links

theorem get?_foldl_insert {κ ν : Type} [LinearOrder κ] {l : List (κ × ν)} (h : l.Pairwise fun a b => a.1 < b.1)
    (m : OrdMap κ ν) (k : κ) :
    (l.foldl (fun m e => m.insert e.1 e.2) m).get? k = ((l.find? fun e => e.1 = k).map Prod.snd).or (m.get? k) := by
  induction l generalizing m with
  | nil => rfl
  | cons e l ih =>
    obtain ⟨hlt, hl⟩ := pairwise_cons.1 h
    rw [foldl_cons, ih hl, get?_insert]
    by_cases hk : e.1 = k
    · -- no later entry has the key
      have hnone : l.find? (fun e => decide (e.1 = k)) = none := by
        refine find?_eq_none.2 fun e' he' => ?_
        have := hlt e' he'
        simpa [← hk] using this.ne'
      rw [hnone, if_pos hk.symm, find?_cons_of_pos (by simpa using hk)]
      rfl
    · rw [if_neg fun heq => hk heq.symm, find?_cons_of_neg (by simpa using hk)]

/-- a chain that is moved takes the place of one that is there -/
theorem get?_moveAllLeafChains (source target : OrdMap Key Chain) (k : Key) :
    (moveAllLeafChains source target).get? k = (source.get? k).or (target.get? k) :=
  get?_foldl_insert source.sorted target k

theorem isSome_moveAllLeafChains {source target : OrdMap Key Chain} {k : Key}
    (h : ((moveAllLeafChains source target).get? k).isSome = true) :
    (source.get? k).isSome = true ∨ (target.get? k).isSome = true := by
  rwa [get?_moveAllLeafChains, isSome_or, Bool.or_eq_true] at h

/-- the parent without a separator, or its last child as the new root -/
theorem removeFromParent_ok {t t' : BTree} {parent idx : ℕ} {node : InternalNode}
    (h : removeFromParent t parent idx = .ok t')
    (hnode : t.store parent = some (.internal node)) : (∀ p, p ≠ parent → t'.store p = t.store p) ∧
      (t'.store parent = some (.internal (node.removeEntry idx)) ∧ t'.rootPage = t.rootPage ∧
        t'.rootLevel = t.rootLevel ∨
        parent = t.rootPage ∧ (node.removeEntry idx).entries = [] ∧
          t'.rootPage = (node.removeEntry idx).rightmostChild ∧ t'.rootLevel = t.rootLevel - 1) := by
  obtain ⟨n, hread, h₁⟩ := bind_eq_ok h
  rw [readInternal_ok, hnode] at hread
  cases hread
  dsimp only at h₁
  split_ifs at h₁ with hempty
  · cases h₁
    exact ⟨fun p hp => freePage_of_ne hp, .inr ⟨hempty.2, hempty.1, rfl, rfl⟩⟩
  · obtain ⟨store₁, hwrite, h₂⟩ := bind_eq_ok h₁
    cases h₂
    obtain ⟨-, rfl⟩ := writeInternal_ok.1 hwrite
    exact ⟨fun p hp => writePage_of_ne _ hp, .inl ⟨writePage_self _ _ _, rfl, rfl⟩⟩

/-- a parent of leaves, with the leaves before and after its own -/
structure Below (t : BTree) (parent first : ℕ) (items : Items) (lo hi : Option Key) (outL outR : List ℕ) : Prop where
  node : t.store parent = some (.internal (ofRow first items))
  row : LeafRow t.store first items lo hi
  linked : Linked t.store 0 (outL ++ (first :: items.map Prod.snd) ++ outR) 0
  nonzero : ∀ p ∈ outL ++ (first :: items.map Prod.snd) ++ outR, p ≠ 0

/-- what a repair does: another row of leaves with the same cells, linked to the leaves around them -/
structure Repaired (t t' : BTree) (parent : ℕ) (leaves : List ℕ) (lo hi : Option Key) (outL outR : List ℕ) (first : ℕ)
    (items : Items) :
    Prop where
  row : LeafRow t'.store first items lo hi
  linked : Linked t'.store 0 (outL ++ (first :: items.map Prod.snd) ++ outR) 0
  cells : contents t'.store (first :: items.map Prod.snd) = contents t.store leaves
  side : ∀ q ∈ outL ++ outR, SameLeaf t.store t'.store q
  other : ∀ p x, t.store p = some x → (∀ m, x ≠ .leaf m) → p ≠ parent → t'.store p = some x
  node : t'.store parent = some (.internal (ofRow first items)) ∧ t'.rootPage = t.rootPage ∧
    t'.rootLevel = t.rootLevel ∨ parent = t.rootPage ∧ items = [] ∧ t'.rootPage = first ∧ t'.rootLevel = t.rootLevel - 1

section Repair

variable {t t' : BTree} {parent first : ℕ} {l r : Items} {sep : Key} {right : ℕ} {lo hi : Option Key}
  {outL outR : List ℕ} {leftNode rightNode : LeafNode}

theorem pages_eq (first : ℕ) (l : Items) :
    first :: l.map Prod.snd = (first :: l.map Prod.snd).dropLast ++ [lastChild first l] := by
  induction l generalizing first with
  | nil => rfl
  | cons e l ih =>
    rw [map_cons, dropLast_cons_of_ne_nil (by simp), lastChild, cons_append, ← ih]

theorem pages_append (first : ℕ) (l r : Items) :
    first :: (l ++ r).map Prod.snd = (first :: l.map Prod.snd).dropLast ++ lastChild first l :: r.map Prod.snd := by
  rw [map_append, ← cons_append]
  nth_rewrite 1 [pages_eq]
  rw [append_assoc, singleton_append]

theorem pages_around (first : ℕ) (l : Items) (sep : Key) (right : ℕ) (r : Items) (outL outR : List ℕ) :
    outL ++ (first :: (l ++ (sep, right) :: r).map Prod.snd) ++ outR =
      (outL ++ (first :: l.map Prod.snd).dropLast) ++ lastChild first l :: right :: (r.map Prod.snd ++ outR) := by
  rw [pages_append]
  simp

variable {hi' lo' : Option Key} {after before : List ℕ} {left : ℕ} {store store' : PageStore}

section

variable (h : Pair t.store first l sep right r lo hi lo' hi') (hl : t.store (lastChild first l) = some (.leaf leftNode))
  (hr : t.store right = some (.leaf rightNode))

include h hl hr

/-- cells of the left leaf are before those of the right one -/
theorem Pair.sorted : (leftNode.cells.entries ++ rightNode.cells.entries).Pairwise fun a b => a.1 < b.1 := by
  refine pairwise_append.2 ⟨leftNode.cells.sorted, rightNode.cells.sorted, fun a ha b hb => ?_⟩
  rw [← get?_eq_some_iff] at ha
  rw [← get?_eq_some_iff] at hb
  have hla := h.leftAt.within ⟨leftNode, hl, .inl (by rw [ha]; rfl)⟩
  have hrb := h.rightAt.within ⟨rightNode, hr, .inl (by rw [hb]; rfl)⟩
  exact (hla.2 sep rfl).trans_le (hrb.1 sep rfl)

/-- so a leaf holds the cells of both as they are put together, or a part of them as it is cut -/
theorem Pair.entries_joined (splitAt : ℕ) :
    let combined := leftNode.cells.entries ++ rightNode.cells.entries
    (OrdMap.ofList combined).entries = combined ∧
      (OrdMap.ofList (combined.take splitAt)).entries = combined.take splitAt ∧
      (OrdMap.ofList (combined.drop splitAt)).entries = combined.drop splitAt := by
  have hsorted := h.sorted hl hr
  exact ⟨entries_ofList hsorted, entries_ofList (hsorted.sublist (take_sublist ..)),
    entries_ofList (hsorted.sublist (drop_sublist ..))⟩

/-- what either leaf holds is in the range of the two -/
theorem Pair.within {k : Key} (hk : leftNode.holds k ∨ rightNode.holds k) : Within lo' hi' k := by
  rcases hk with hk | hk
  · exact h.between.within.left (h.leftAt.within ⟨leftNode, hl, hk⟩)
  · exact h.between.within.right (h.rightAt.within ⟨rightNode, hr, hk⟩)

/-- no key has a chain in both leaves, so a move takes the place of nothing -/
theorem Pair.or_chains (k : Key) (c : Chain) :
    ((leftNode.deltas.get? k).or (rightNode.deltas.get? k) = some c ↔ leftNode.deltas.get? k = some c ∨
      rightNode.deltas.get? k = some c) ∧
      ((rightNode.deltas.get? k).or (leftNode.deltas.get? k) = some c ↔ leftNode.deltas.get? k = some c ∨
        rightNode.deltas.get? k = some c) := by
  cases hleft : leftNode.deltas.get? k with
  | none => simp
  | some cl =>
    cases hright : rightNode.deltas.get? k with
    | none => simp
    | some cr =>
      have hbelow := h.leftAt.within ⟨leftNode, hl, .inr (by rw [hleft]; rfl)⟩
      have habove := h.rightAt.within ⟨rightNode, hr, .inr (by rw [hright]; rfl)⟩
      exact absurd (hbelow.2 sep rfl) (not_lt.2 (habove.1 sep rfl))

end

/-- of four lists, the two in the middle -/
theorem mem_middle {α : Type} {a b c d : List α} : ∀ x ∈ b ++ c, x ∈ (a ++ b) ++ (c ++ d) := by
  intro x hx
  rcases mem_append.1 hx with h | h
  · exact mem_append_left _ (mem_append_right _ h)
  · exact mem_append_right _ (mem_append_left _ h)

/-- of four lists, the two at the ends -/
theorem mem_ends {α : Type} {a b c d : List α} : ∀ x ∈ a ++ d, x ∈ (a ++ b) ++ (c ++ d) := by
  intro x hx
  rcases mem_append.1 hx with h | h
  · exact mem_append_left _ (mem_append_left _ h)
  · exact mem_append_right _ (mem_append_right _ h)

/-- two leaves with a common parent, and the leaves around them -/
structure Around (t : BTree) (parent : ℕ) (before : List ℕ) (left right : ℕ) (after : List ℕ)
    (leftNode rightNode : LeafNode) : Prop where
  leftLeaf : t.store left = some (.leaf leftNode)
  rightLeaf : t.store right = some (.leaf rightNode)
  parentNode : ∃ node, t.store parent = some (.internal node)
  linked : Linked t.store 0 (before ++ left :: right :: after) 0
  nonzero : ∀ p ∈ before ++ left :: right :: after, p ≠ 0

section Around

variable {before after : List ℕ} {left : ℕ}

theorem mem_around {α : Type} {a b : List α} {x y z : α} (h : z ∈ a ++ b) : z ∈ a ++ x :: y :: b := by
  simp only [mem_append, mem_cons] at h ⊢
  tauto

theorem Around.nodup (h : Around t parent before left right after leftNode rightNode) :
    (before ++ left :: right :: after).Nodup :=
  h.linked.nodup h.nonzero

theorem Around.links (h : Around t parent before left right after leftNode rightNode) :
    leftNode.prevLeafPage = before.getLastD 0 ∧ leftNode.nextLeafPage = right ∧ rightNode.prevLeafPage = left ∧
      rightNode.nextLeafPage = after.headD 0 := by
  obtain ⟨-, ⟨m, hm, hprev, hnext⟩, ⟨m', hm', hprev', hnext'⟩, -⟩ := linked_append.1 h.linked
  rw [h.leftLeaf] at hm
  rw [h.rightLeaf] at hm'
  cases hm
  cases hm'
  exact ⟨hprev, hnext, hprev', hnext'⟩

variable {q : ℕ}

section

variable (h : Around t parent before left right after leftNode rightNode)

include h

/-- leaves around the two are other pages -/
theorem Around.ne (hq : q ∈ before ++ after) : q ≠ left ∧ q ≠ right ∧ q ≠ parent := by
  have hnodup := h.nodup
  refine ⟨?_, ?_, ?_⟩
  · rintro rfl
    rw [nodup_middle, nodup_cons] at hnodup
    exact hnodup.1 (by simp only [mem_append, mem_cons] at hq ⊢; tauto)
  · rintro rfl
    rw [append_cons, nodup_middle, nodup_cons] at hnodup
    exact hnodup.1 (by simp only [mem_append, mem_cons] at hq ⊢; tauto)
  · rintro rfl
    obtain ⟨node, hnode⟩ := h.parentNode
    obtain ⟨m, hm⟩ := h.linked.leaf q (mem_around hq)
    rw [hnode] at hm
    cases hm

theorem Around.left_ne_right : left ≠ right := by
  rintro rfl
  have hnodup := h.nodup
  rw [nodup_append, nodup_cons] at hnodup
  exact hnodup.2.1.1 mem_cons_self

theorem Around.ne_parent : left ≠ parent ∧ right ≠ parent := by
  obtain ⟨node, hnode⟩ := h.parentNode
  constructor
  · rintro rfl
    rw [h.leftLeaf] at hnode
    cases hnode
  · rintro rfl
    rw [h.rightLeaf] at hnode
    cases hnode

theorem Around.nonzero' (hq : q ∈ before ++ after) : q ≠ 0 := h.nonzero q (mem_around hq)

theorem Around.disjoint (hq : q ∈ before) : q ∉ after := by
  intro hq'
  exact (nodup_append.1 h.nodup).2.2 q hq q (by simp [hq']) rfl

theorem Around.head_ne (hq : q ∈ after.tail) : after.head? ≠ some q := by
  cases after with
  | nil => cases hq
  | cons p after =>
    intro heq
    cases heq
    have hnodup := (nodup_append.1 h.nodup).2.1
    rw [nodup_cons, nodup_cons, nodup_cons] at hnodup
    exact hnodup.2.2.1 hq

theorem Around.last_ne (hq : q ∈ before.dropLast) : before.getLast? ≠ some q := by
  intro heq
  have hnodup := (nodup_append.1 h.nodup).1
  rw [← dropLast_append_getLast? q heq, nodup_append] at hnodup
  exact hnodup.2.2 q hq q (by simp) rfl

theorem Around.leaf (hq : q ∈ before ++ after) : ∃ m, t.store q = some (.leaf m) := h.linked.leaf q (mem_around hq)

end

end Around

theorem Around.ne_of_not_leaf {p : ℕ} {x : Page}
    (h : Around t parent before left right after leftNode rightNode) (hx : t.store p = some x)
    (hnl : ∀ m, x ≠ .leaf m) :
    p ≠ left ∧ p ≠ right := by
  constructor
  · rintro rfl
    rw [h.leftLeaf] at hx
    cases hx
    exact hnl _ rfl
  · rintro rfl
    rw [h.rightLeaf] at hx
    cases hx
    exact hnl _ rfl

/-- a root without entries has one child -/
theorem row_root (first : ℕ) (items : Items) {root : ℕ} {p q : Prop}
    (h : p ∧ (ofRow first items).entries = [] ∧ root = (ofRow first items).rightmostChild ∧ q) :
    p ∧ items = [] ∧ root = first ∧ q := by
  obtain ⟨hp, hnil, hroot, hq⟩ := h
  obtain rfl : items = [] := by
    rw [← length_eq_zero_iff, length_ofRow] at hnil
    exact length_eq_zero_iff.1 hnil
  exact ⟨hp, rfl, hroot, hq⟩

/-- the pair of leaves on both sides of a separator -/
theorem Below.around (h : Below t parent first (l ++ (sep, right) :: r) lo hi outL outR)
    (hl : t.store (lastChild first l) = some (.leaf leftNode)) (hr : t.store right = some (.leaf rightNode)) :
    Around t parent (outL ++ (first :: l.map Prod.snd).dropLast) (lastChild first l) right (r.map Prod.snd ++ outR)
      leftNode rightNode := by
  have hpages := pages_around first l sep right r outL outR
  exact ⟨hl, hr, ⟨_, h.node⟩, hpages ▸ h.linked, hpages ▸ h.nonzero⟩

/-- the leaf that two leaves are merged into -/
def mergedLeaf (left right : LeafNode) (deltas : OrdMap Key Chain) : LeafNode :=
  ⟨.ofList (left.cells.entries ++ right.cells.entries), deltas, right.nextLeafPage, left.prevLeafPage⟩

theorem Pair.merged (h : Pair t.store first l sep right r lo hi lo' hi')
    (hl : t.store (lastChild first l) = some (.leaf leftNode)) (hr : t.store right = some (.leaf rightNode))
    {deltas : OrdMap Key Chain} (hdeltas : ∀ k, (deltas.get? k).isSome = true → (leftNode.deltas.get? k).isSome = true ∨
      (rightNode.deltas.get? k).isSome = true)
    {k : Key} (hk : (mergedLeaf leftNode rightNode deltas).holds k) : Within lo' hi' k := by
  refine h.within hl hr ?_
  rcases hk with hk | hk
  · obtain ⟨v, hv⟩ := isSome_iff_exists.1 hk
    rw [get?_eq_some_iff, mergedLeaf, (h.entries_joined hl hr 0).1, mem_append, ← get?_eq_some_iff,
      ← get?_eq_some_iff] at hv
    exact hv.imp (fun hv => .inl (by rw [hv]; rfl)) fun hv => .inl (by rw [hv]; rfl)
  · exact (hdeltas k hk).imp .inr .inr

/-- a kept leaf between the leaves around -/
theorem linked_between {kept : ℕ} {n : LeafNode} (hbefore : Linked store 0 before kept)
    (hafter : Linked store kept after 0) (hn : store kept = some (.leaf n)) (hprev : n.prevLeafPage = before.getLastD 0)
    (hnext : n.nextLeafPage = after.headD 0) : Linked store 0 (before ++ kept :: after) 0 :=
  linked_append.2 ⟨hbefore, ⟨n, hn, hprev, hnext⟩, hafter⟩

/-- the row's cells: leaves around as they were, the two leaves' cells in between -/
theorem contents_pair {mid : List ℕ} {right : ℕ} (hl : store left = some (.leaf leftNode))
    (hr : store right = some (.leaf rightNode)) (hleaf : ∀ q ∈ before ++ after, ∃ n, store q = some (.leaf n))
    (hside : ∀ q ∈ before ++ after, SameLeaf store store' q)
    (hmid : contents store' mid = leftNode.cells.entries ++ rightNode.cells.entries) :
    contents store' (before ++ mid ++ after) = contents store (before ++ left :: right :: after) := by
  rw [forall_mem_append] at hleaf hside
  rw [contents_append, contents_append, contents_append, hmid, contents_frame hleaf.1 hside.1,
    contents_frame hleaf.2 hside.2, append_assoc]
  rw [contents_cons hl, contents_cons hr, append_assoc]

/-- the row's chains, likewise -/
theorem chains_pair {mid : List ℕ} {right : ℕ} (hl : store left = some (.leaf leftNode))
    (hr : store right = some (.leaf rightNode)) (hleaf : ∀ q ∈ before ++ after, ∃ n, store q = some (.leaf n))
    (hside : ∀ q ∈ before ++ after, SameLeaf store store' q)
    (hmid : ∀ k c, ChainIn store' mid k c ↔ leftNode.deltas.get? k = some c ∨ rightNode.deltas.get? k = some c) :
    SameChains store (before ++ left :: right :: after) store' (before ++ mid ++ after) := by
  rw [forall_mem_append] at hleaf hside
  have hpair : SameChains store [left, right] store' mid := by
    intro k c
    rw [hmid, chainIn_cons hl, chainIn_cons hr, or_iff_left not_chainIn_nil]
  have hrow := ((sameChains_frame hleaf.1 hside.1).append hpair).append (sameChains_frame hleaf.2 hside.2)
  simpa using hrow

/-- one leaf, if any, gets another link to a sibling -/
structure Relinked (store store' : PageStore) (leaf : Option ℕ) (link : LeafNode → LeafNode) : Prop where
  same : ∀ p, leaf ≠ some p → store' p = store p
  linked : ∀ p m, leaf = some p → store p = some (.leaf m) → store' p = some (.leaf (link m))

theorem relinked_of {page : ℕ} {leaf : Option ℕ} {link : LeafNode → LeafNode} (h : LinkSet store store' page link)
    (hpage : page = leaf.getD 0) (h0 : ∀ p, leaf = some p → p ≠ 0) : Relinked store store' leaf link := by
  obtain ⟨hother, hzero, hlinked⟩ := h
  subst hpage
  cases leaf with
  | none => exact ⟨fun p _ => by rw [hzero rfl], fun p m hp => by cases hp⟩
  | some q =>
    refine ⟨fun p hp => hother p fun heq => hp (heq ▸ rfl), fun p m hp hm => ?_⟩
    cases hp
    obtain ⟨m', hm', hset⟩ := hlinked (h0 q rfl)
    rw [getD_some, hm] at hm'
    cases hm'
    exact hset

/-- what a merge makes of the leaves, apart from the node above: the kept leaf has the cells and chains of both -/
theorem Around.merged {kept : ℕ} {store₁ : PageStore} {leaf : Option ℕ} {link : LeafNode → LeafNode}
    {deltas : OrdMap Key Chain} (h : Around t parent (outL ++ before) left right (after ++ outR) leftNode rightNode)
    (hjoined : (OrdMap.ofList (leftNode.cells.entries ++ rightNode.cells.entries)).entries =
      leftNode.cells.entries ++ rightNode.cells.entries)
    (hdeltas : ∀ k c, deltas.get? k = some c ↔ leftNode.deltas.get? k = some c ∨ rightNode.deltas.get? k = some c)
    (hrel : Relinked t.store store₁ leaf link) (hleaf : ∀ p, leaf = some p → p ∈ (outL ++ before) ++ (after ++ outR))
    (hlink : ∀ m, (link m).cells = m.cells ∧ (link m).deltas = m.deltas)
    (hstore : ∀ p, p ≠ parent → p ≠ left → p ≠ right → t'.store p = store₁ p)
    (hkept : t'.store kept = some (.leaf (mergedLeaf leftNode rightNode deltas))) :
    (∀ p ∈ (outL ++ before) ++ (after ++ outR), leaf ≠ some p → t'.store p = t.store p) ∧
      (∀ p m, leaf = some p → t.store p = some (.leaf m) → t'.store p = some (.leaf (link m))) ∧
      (∀ p ∈ (outL ++ before) ++ (after ++ outR), SameLeaf t.store t'.store p) ∧
      (∀ p x, t.store p = some x → (∀ m, x ≠ .leaf m) → p ≠ parent → t'.store p = some x) ∧
      contents t'.store (before ++ kept :: after) = contents t.store (before ++ left :: right :: after) ∧
      SameChains t.store (before ++ left :: right :: after) t'.store (before ++ kept :: after) := by
  have hstore₁ : ∀ p ∈ (outL ++ before) ++ (after ++ outR), t'.store p = store₁ p := by
    intro p hp
    obtain ⟨hpl, hpr, hpp⟩ := h.ne hp
    exact hstore p hpp hpl hpr
  have hrest : ∀ p ∈ (outL ++ before) ++ (after ++ outR), leaf ≠ some p → t'.store p = t.store p :=
    fun p hp hne => by rw [hstore₁ p hp, hrel.same p hne]
  have hlinked : ∀ p m, leaf = some p → t.store p = some (.leaf m) → t'.store p = some (.leaf (link m)) :=
    fun p m hp hm => by rw [hstore₁ p (hleaf p hp), hrel.linked p m hp hm]
  have hside : ∀ p ∈ (outL ++ before) ++ (after ++ outR), SameLeaf t.store t'.store p := by
    intro p hp
    by_cases hpl : leaf = some p
    · exact fun m hm => ⟨_, hlinked p m hpl hm, (hlink m).1, (hlink m).2⟩
    · exact sameLeaf_of_eq (hrest p hp hpl)
  refine ⟨hrest, hlinked, hside, fun p x hx hnl hp => ?_, ?_, ?_⟩
  · obtain ⟨hpl, hpr⟩ := h.ne_of_not_leaf hx hnl
    rw [hstore p hp hpl hpr, hrel.same p, hx]
    intro hpleaf
    obtain ⟨m, hm⟩ := h.leaf (hleaf p hpleaf)
    rw [hx] at hm
    cases hm
    exact hnl m rfl
  · have hmid : contents t'.store [kept] = leftNode.cells.entries ++ rightNode.cells.entries := by
      rw [contents_cons hkept, contents_nil, append_nil, mergedLeaf, hjoined]
    simpa using contents_pair h.leftLeaf h.rightLeaf (fun q hq => h.leaf (mem_middle q hq))
      (fun q hq => hside q (mem_middle q hq)) hmid
  · have hmid : ∀ k c, ChainIn t'.store [kept] k c ↔ leftNode.deltas.get? k = some c ∨
        rightNode.deltas.get? k = some c := by
      intro k c
      rw [chainIn_cons hkept, or_iff_left not_chainIn_nil]
      exact hdeltas k c
    simpa using chains_pair h.leftLeaf h.rightLeaf (fun q hq => h.leaf (mem_middle q hq))
      (fun q hq => hside q (mem_middle q hq)) hmid

/-- **Merge into the left leaf.** -/
theorem mergeLeafIntoLeft_ok (hbelow : Below t parent first (l ++ (sep, right) :: r) lo hi outL outR)
    (hl : t.store (lastChild first l) = some (.leaf leftNode)) (hr : t.store right = some (.leaf rightNode))
    (h : mergeLeafIntoLeft t parent (l.length + 1) (lastChild first l) leftNode right rightNode = .ok t') :
    Repaired t t' parent (first :: (l ++ (sep, right) :: r).map Prod.snd) lo hi outL outR first (l ++ r) ∧
      SameChains t.store (first :: (l ++ (sep, right) :: r).map Prod.snd) t'.store
        (first :: (l ++ r).map Prod.snd) := by
  have haround := hbelow.around hl hr
  obtain ⟨lo', hi', hpair⟩ := hbelow.row.pair
  obtain ⟨hprev, -, -, hnext⟩ := haround.links
  obtain ⟨hlp, hrp⟩ := haround.ne_parent
  obtain ⟨store₁, hrelink, h₁⟩ := bind_eq_ok h
  obtain ⟨store₂, hwrite, h₂⟩ := bind_eq_ok h₁
  obtain ⟨store₃, hredirect, hremove⟩ := bind_eq_ok h₂
  obtain ⟨-, rfl⟩ := writeLeaf_ok.1 hwrite
  have hmem : ∀ p, (r.map Prod.snd ++ outR).head? = some p →
      p ∈ (outL ++ (first :: l.map Prod.snd).dropLast) ++ (r.map Prod.snd ++ outR) :=
    fun p hp => mem_append_right _ (mem_of_mem_head? hp)
  have hrel :=
    relinked_of (relink_ok hrelink) (hnext.trans headD_eq_head?_getD) fun p hp => haround.nonzero' (hmem p hp)
  -- the node above
  obtain ⟨node, hread, hset⟩ := bind_eq_ok hredirect
  rw [readInternal_ok, freePage_of_ne hrp.symm, writePage_of_ne _ hlp.symm,
    hrel.same parent fun hp => (haround.ne (hmem parent hp)).2.2 rfl, hbelow.node] at hread
  cases hread
  obtain ⟨-, rfl⟩ := writeInternal_ok.1 hset
  obtain ⟨hsame, hnode⟩ := removeFromParent_ok hremove (writePage_self _ _ _)
  rw [Nat.add_sub_cancel, removeEntry_setChild_ofRow] at hnode
  have hkept : t'.store (lastChild first l) =
      some (.leaf (mergedLeaf leftNode rightNode (moveAllLeafChains rightNode.deltas leftNode.deltas))) := by
    rw [hsame _ hlp]
    simp only
    rw [writePage_of_ne _ hlp, freePage_of_ne haround.left_ne_right, writePage_self]
    rfl
  obtain ⟨hrest, hhead, hside, hother, hcells, hchains⟩ := haround.merged (hpair.entries_joined hl hr 0).1
    (fun k c => by rw [get?_moveAllLeafChains]; exact (hpair.or_chains hl hr k c).2) hrel hmem (fun m => ⟨rfl, rfl⟩)
    (fun p hpp hpl hpr => by
      rw [hsame p hpp]
      simp only
      rw [writePage_of_ne _ hpp, freePage_of_ne hpr, writePage_of_ne _ hpl]) hkept
  obtain ⟨hbefore, -, -, hafter⟩ := linked_append.1 haround.linked
  refine ⟨⟨?_, ?_, by rwa [pages_append, pages_append], fun q hq => hside q (mem_ends q hq), hother,
    hnode.imp id (row_root first (l ++ r))⟩, by rwa [pages_append, pages_append]⟩
  · exact hpair.mergeLeft _ (fun q hq => (hside q (mem_middle q hq)).shrinks)
      ⟨haround.nonzero _ (by simp), _, hkept,
        fun k hk => hpair.merged hl hr (fun k hk => (isSome_moveAllLeafChains hk).symm) hk⟩
  · have hlinked := linked_between (hbefore.frame fun q hq => hrest q (mem_append_left _ hq)
      fun hqh => haround.disjoint hq (mem_of_mem_head? hqh)) (hafter.setPrev hhead fun q hq =>
        hrest q (mem_append_right _ (mem_of_mem_tail hq)) (haround.head_ne hq)) hkept hprev hnext
    rw [pages_append]
    simpa using hlinked

/-- **Merge into the right leaf.** -/
theorem mergeLeafIntoRight_ok (hbelow : Below t parent first ((sep, right) :: r) lo hi outL outR)
    (hl : t.store first = some (.leaf leftNode)) (hr : t.store right = some (.leaf rightNode))
    (h : mergeLeafIntoRight t parent first leftNode right rightNode = .ok t') :
    Repaired t t' parent (first :: ((sep, right) :: r).map Prod.snd) lo hi outL outR right r ∧
      SameChains t.store (first :: ((sep, right) :: r).map Prod.snd) t'.store (right :: r.map Prod.snd) := by
  have haround : Around t parent (outL ++ []) first right (r.map Prod.snd ++ outR) leftNode rightNode :=
    @Below.around t parent first [] r sep right lo hi outL outR leftNode rightNode hbelow hl hr
  obtain ⟨lo', hi', hpair⟩ := @LeafRow.pair t.store first [] r lo hi sep right hbelow.row
  obtain ⟨hprev, -, -, hnext⟩ := haround.links
  obtain ⟨hlp, hrp⟩ := haround.ne_parent
  obtain ⟨store₁, hrelink, h₁⟩ := bind_eq_ok h
  obtain ⟨store₂, hwrite, hremove⟩ := bind_eq_ok h₁
  obtain ⟨-, rfl⟩ := writeLeaf_ok.1 hwrite
  have hmem : ∀ p, (outL ++ []).getLast? = some p → p ∈ (outL ++ []) ++ (r.map Prod.snd ++ outR) :=
    fun p hp => mem_append_left _ (mem_of_getLast? hp)
  have hrel :=
    relinked_of (relink_ok hrelink) (hprev.trans getLastD_eq_getLast?) fun p hp => haround.nonzero' (hmem p hp)
  obtain ⟨hsame, hnode⟩ := removeFromParent_ok hremove (by
    simp only
    rw [freePage_of_ne hlp.symm, writePage_of_ne _ hrp.symm,
      hrel.same parent fun hp => (haround.ne (hmem parent hp)).2.2 rfl, hbelow.node])
  have hkept : t'.store right =
      some (.leaf (mergedLeaf leftNode rightNode (moveAllLeafChains leftNode.deltas rightNode.deltas))) := by
    rw [hsame _ hrp]
    simp only
    rw [freePage_of_ne haround.left_ne_right.symm, writePage_self]
    rfl
  obtain ⟨hrest, hlast, hside, hother, hcells, hchains⟩ := haround.merged (hpair.entries_joined hl hr 0).1
    (fun k c => by rw [get?_moveAllLeafChains]; exact (hpair.or_chains hl hr k c).1) hrel hmem (fun m => ⟨rfl, rfl⟩)
    (fun p hpp hpl hpr => by
      rw [hsame p hpp]
      simp only
      rw [freePage_of_ne hpl, writePage_of_ne _ hpr]) hkept
  obtain ⟨hbefore, -, -, hafter⟩ := linked_append.1 haround.linked
  refine ⟨⟨?_, ?_, hcells, fun q hq => hside q (mem_ends q hq), hother, hnode.imp id (row_root right r)⟩, hchains⟩
  · exact hpair.mergeRight rfl _ (fun q hq => (hside q (mem_middle q hq)).shrinks)
      ⟨haround.nonzero _ (by simp), _, hkept,
        fun k hk => hpair.merged hl hr (fun k hk => isSome_moveAllLeafChains hk) hk⟩
  · have hlinked := linked_between (hbefore.setNext hlast fun q hq =>
      hrest q (mem_append_left _ (mem_of_mem_dropLast hq)) (haround.last_ne hq)) (hafter.frame fun q hq =>
        hrest q (mem_append_right _ hq) fun hqh => haround.disjoint (mem_of_getLast? hqh) hq) hkept hprev hnext
    simpa using hlinked

/-- the separator of a cut is the first key on the right of it -/
theorem separatorAt_spec {cells : List LeafCell} {splitAt : ℕ} (hsorted : cells.Pairwise fun a b => a.1 < b.1)
    (hlt : splitAt < cells.length) :
    (∀ x ∈ cells.take splitAt, x.1 < separatorAt cells splitAt) ∧
      (∀ x ∈ cells.drop splitAt, separatorAt cells splitAt ≤ x.1) ∧
      ∃ c ∈ cells.drop splitAt, c.1 = separatorAt cells splitAt := by
  obtain ⟨c, rest, hdrop⟩ : ∃ c rest, cells.drop splitAt = c :: rest :=
    exists_cons_of_ne_nil (by rw [ne_eq, drop_eq_nil_iff]; omega)
  have hsep : separatorAt cells splitAt = c.1 := by rw [separatorAt, hdrop]; rfl
  rw [← take_append_drop splitAt cells, pairwise_append, hdrop, pairwise_cons] at hsorted
  obtain ⟨-, ⟨hrest, -⟩, hcross⟩ := hsorted
  rw [hsep, hdrop]
  refine ⟨fun x hx => hcross x hx c mem_cons_self, fun x hx => ?_, c, mem_cons_self, rfl⟩
  rcases mem_cons.1 hx with rfl | hx
  · exact le_rfl
  · exact (hrest x hx).le

/-- **Cells divided anew.** -/
theorem redistributeLeafPair_ok (hbelow : Below t parent first (l ++ (sep, right) :: r) lo hi outL outR)
    (hl : t.store (lastChild first l) = some (.leaf leftNode)) (hr : t.store right = some (.leaf rightNode))
    (h : redistributeLeafPair t (lastChild first l) leftNode right rightNode parent l.length = .ok t') :
    ∃ sep', Repaired t t' parent (first :: (l ++ (sep, right) :: r).map Prod.snd) lo hi outL outR first
        (l ++ (sep', right) :: r) ∧
      SameChains t.store (first :: (l ++ (sep, right) :: r).map Prod.snd) t'.store
        (first :: (l ++ (sep', right) :: r).map Prod.snd) := by
  have haround := hbelow.around hl hr
  obtain ⟨lo', hi', hpair⟩ := hbelow.row.pair
  obtain ⟨hprev, -, -, hnext⟩ := haround.links
  obtain ⟨hlp, hrp⟩ := haround.ne_parent
  have hsorted := hpair.sorted hl hr
  unfold redistributeLeafPair at h
  dsimp only at h
  split at h
  · cases h
  next splitAt hcut =>
    obtain ⟨leftEnc, hle, h₁⟩ := bind_eq_ok h
    obtain ⟨rightEnc, hre, h₂⟩ := bind_eq_ok h₁
    obtain ⟨node, hread, h₃⟩ := bind_eq_ok h₂
    obtain ⟨parentEnc, hpe, h₄⟩ := bind_eq_ok h₃
    cases h₄
    rw [readInternal_ok, hbelow.node] at hread
    cases hread
    rw [setKey_ofRow] at hpe
    -- the pages that are written
    generalize hstore : writePage (writePage (writePage t.store (lastChild first l) leftEnc) right rightEnc) parent
      parentEnc = store'
    have hleft' : store' (lastChild first l) = some leftEnc := by
      rw [← hstore, writePage_of_ne _ hlp, writePage_of_ne _ haround.left_ne_right, writePage_self]
    have hright' : store' right = some rightEnc := by rw [← hstore, writePage_of_ne _ hrp, writePage_self]
    have hparent' : store' parent = some parentEnc := by rw [← hstore, writePage_self]
    have hrest : ∀ p, p ≠ lastChild first l → p ≠ right → p ≠ parent → store' p = t.store p := by
      intro p hpl hpr hpp
      rw [← hstore, writePage_of_ne _ hpp, writePage_of_ne _ hpr, writePage_of_ne _ hpl]
    have hside : ∀ p ∈ (outL ++ (first :: l.map Prod.snd).dropLast) ++ (r.map Prod.snd ++ outR),
        store' p = t.store p := by
      intro p hp
      obtain ⟨hpl, hpr, hpp⟩ := haround.ne hp
      exact hrest p hpl hpr hpp
    clear hstore
    obtain ⟨-, rfl⟩ := LeafNode.encode_ok.1 hle
    obtain ⟨-, rfl⟩ := LeafNode.encode_ok.1 hre
    obtain ⟨-, rfl⟩ := encode_ok.1 hpe
    obtain ⟨⟨hpos, hlt, -⟩, -⟩ := chooseLeafRedistributionSplit_some hcut
    have hwithin : ∀ c ∈ leftNode.cells.entries ++ rightNode.cells.entries, Within lo' hi' c.1 := by
      intro c hc
      rw [mem_append, ← get?_eq_some_iff, ← get?_eq_some_iff] at hc
      exact hpair.within hl hr (hc.imp (fun h => .inl (by rw [h]; rfl)) fun h => .inl (by rw [h]; rfl))
    have hchains : ∀ k, ((moveAllLeafChains rightNode.deltas leftNode.deltas).get? k).isSome = true →
        Within lo' hi' k :=
      fun k hk => hpair.within hl hr ((isSome_moveAllLeafChains hk).symm.imp .inr .inr)
    obtain ⟨-, hjoinedL, hjoinedR⟩ := hpair.entries_joined hl hr splitAt
    generalize hcombined : leftNode.cells.entries ++ rightNode.cells.entries = combined at *
    obtain ⟨hbelowSep, haboveSep, c, hc, hsep⟩ := separatorAt_spec hsorted hlt
    obtain ⟨d, hd⟩ : ∃ d, d ∈ combined.take splitAt :=
      exists_mem_of_ne_nil _ (by rw [ne_eq, take_eq_nil_iff]; rintro (h0 | h0) <;> simp [h0] at hpos hlt)
    have hbetween : Between lo' hi' (separatorAt combined splitAt) :=
      ⟨fun x hx => ((hwithin d (mem_of_mem_take hd)).1 x hx).trans_lt (hbelowSep d hd),
        hsep ▸ (hwithin c (mem_of_mem_drop hc)).2⟩
    have hleaf := fun q hq => haround.leaf (mem_middle q hq)
    have hsame := fun q hq => sameLeaf_of_eq (hside q (mem_middle q hq))
    refine ⟨_, ⟨?_, ?_, ?_, fun q hq => sameLeaf_of_eq (hside q (mem_ends q hq)), fun p x hx hnl hp => ?_,
      .inl ⟨hparent', rfl, rfl⟩⟩, ?_⟩
    · refine hpair.divide _ _ (fun q hq => (hsame q hq).shrinks) hbetween
        ⟨haround.nonzero _ (by simp), _, hleft',
          within_leaf (hsorted.sublist (take_sublist ..)) (fun x hx => ?_) fun k hk hlt' => ?_⟩
        ⟨haround.nonzero _ (by simp), _, hright',
          within_leaf (hsorted.sublist (drop_sublist ..)) (fun x hx => ?_) fun k hk hle => ?_⟩
      · exact within_below (hwithin x (mem_of_mem_take hx)) (hbelowSep x hx)
      · exact within_below (hchains k hk) (of_decide_eq_true hlt')
      · exact within_above (hwithin x (mem_of_mem_drop hx)) (haboveSep x hx)
      · exact within_above (hchains k hk) (not_lt.1 (of_decide_eq_true hle))
    · obtain ⟨hbefore, -, -, hafter⟩ := linked_append.1 haround.linked
      rw [pages_around]
      exact linked_append.2 ⟨hbefore.frame fun q hq => hside q (mem_append_left _ hq), ⟨_, hleft', hprev, rfl⟩,
        ⟨_, hright', rfl, hnext⟩, hafter.frame fun q hq => hside q (mem_append_right _ hq)⟩
    · have hmid : contents store' [lastChild first l, right] = leftNode.cells.entries ++ rightNode.cells.entries := by
        rw [contents_cons hleft', contents_cons hright', contents_nil, append_nil, hcombined, hjoinedL, hjoinedR,
          take_append_drop]
      rw [pages_append, pages_append]
      simpa using contents_pair hl hr hleaf hsame hmid
    · obtain ⟨hpl, hpr⟩ := haround.ne_of_not_leaf hx hnl
      rw [← hx]
      exact hrest p hpl hpr hp
    · have hmid : ∀ k d, ChainIn store' [lastChild first l, right] k d ↔ leftNode.deltas.get? k = some d ∨
          rightNode.deltas.get? k = some d := by
        intro k d
        rw [chainIn_cons hleft', chainIn_cons hright', or_iff_left not_chainIn_nil,
          ← (hpair.or_chains hl hr k d).2, get?_filter, get?_filter, get?_moveAllLeafChains]
        by_cases hk : k < separatorAt combined splitAt <;> simp [hk]
      rw [pages_append, pages_append]
      simpa using chains_pair hl hr hleaf hsame hmid

/-- **The repair** of a leaf, with one of the leaves beside it. -/
theorem handleLeafUnderflow_ok {node : LeafNode} (hbelow : Below t parent first (l ++ r) lo hi outL outR)
    (hn : t.store (lastChild first l) = some (.leaf node))
    (h : handleLeafUnderflow t (lastChild first l) node parent l.length = .ok t') :
    ∃ first' items', Repaired t t' parent (first :: (l ++ r).map Prod.snd) lo hi outL outR first' items' ∧
      SameChains t.store (first :: (l ++ r).map Prod.snd) t'.store (first' :: items'.map Prod.snd) := by
  obtain ⟨parentNode, hread, h₁⟩ := bind_eq_ok h
  rw [readInternal_ok, hbelow.node] at hread
  cases hread
  rcases eq_nil_or_concat' l with rfl | ⟨l, ⟨sep, page⟩, rfl⟩
  · -- the sibling on the right
    simp only [length_nil, gt_iff_lt, lt_self_iff_false, if_false] at h₁
    cases r with
    | nil => cases h₁
    | cons e r =>
      obtain ⟨sep, right⟩ := e
      rw [childAt_one] at h₁
      obtain ⟨rightNode, hr, h₂⟩ := bind_eq_ok h₁
      rw [readLeaf_ok] at hr
      split_ifs at h₂
      · exact ⟨_, _, mergeLeafIntoRight_ok hbelow hn hr h₂⟩
      · obtain ⟨sep', hrepaired⟩ :=
          @redistributeLeafPair_ok t t' parent first [] r sep right lo hi outL outR node rightNode hbelow hn hr h₂
        exact ⟨_, _, hrepaired⟩
  · -- the sibling on the left
    rw [if_pos (by simp)] at h₁
    have hlen : (l ++ [(sep, page)]).length - 1 = l.length := by simp
    rw [append_assoc] at hbelow h₁ ⊢
    rw [lastChild_concat] at hn h₁
    rw [hlen, childAt_ofRow] at h₁
    obtain ⟨leftNode, hl, h₂⟩ := bind_eq_ok h₁
    rw [readLeaf_ok] at hl
    rw [length_append] at h₂
    split_ifs at h₂
    · exact ⟨_, _, mergeLeafIntoLeft_ok hbelow hl hn h₂⟩
    · obtain ⟨sep', hrepaired⟩ := redistributeLeafPair_ok hbelow hl hn h₂
      exact ⟨_, _, hrepaired⟩

end Repair

end Mqlite.Btree
