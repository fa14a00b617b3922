/-
Where version chains are (`btree/chain_migration.rs`).

A leaf has chains for keys of its range, with or without a base cell. A reader finds a chain through the descent for its
key, so when a split, a merge or a redistribution gives keys to another leaf, their chains have to go there too.

`Carries t chains`: each chain is in the leaf that the descent for its key ends at, and the leaves have no other chains.
The assignment of chains to keys is arbitrary; the tree is one whose base cells, without the chains, represent a map.

Result: `chains_follow_iff`. A deletion that returns keeps every chain in place. So does an insertion, unless it makes
the tree higher than 255 levels while there is a chain: the root's level is then stored modulo 256, descents stop at
internal pages, and no chain is found (`deep_tree_loses_chains`).
-/
import Mqlite.Btree.Deep
import Mqlite.Btree.ScanAgrees

namespace Mqlite.Btree

open Lib Mvcc Storage List Option Nat OrdMap

/-! ## Chains and the tree they are put on -/

def Page.bare : Page → Page
  | .leaf n => .leaf { n with deltas := .empty }
  | page => page

/-- the tree without its chains -/
def BTree.bare (t : BTree) : BTree := { t with store := fun p => (t.store p).map Page.bare }

/-- every chain is in the leaf for its key, and nowhere else -/
structure Carries (t : BTree) (chains : Key → Option Chain) : Prop where
  sits : ∀ k c, chains k = some c → ∃ q n, findLeaf t.store t.rootLevel t.rootPage k = some q ∧
    t.store q = some (.leaf n) ∧ n.deltas.get? k = some c
  only : ∀ q ∈ leavesBelow t.store t.rootLevel t.rootPage, ∀ n, t.store q = some (.leaf n) →
    ∀ k c, n.deltas.get? k = some c → findLeaf t.store t.rootLevel t.rootPage k = some q ∧ chains k = some c

/-- the pages are the same up to chains -/
def SameButChains (store store' : PageStore) : Prop := ∀ p, (store' p).map Page.bare = (store p).map Page.bare

section SameButChains

variable {store store' : PageStore} {level page p : ℕ} {leaves : List ℕ}

theorem sameButChains_bare (t : BTree) : SameButChains t.store t.bare.store := by
  intro p
  rw [BTree.bare, Option.map_map]
  refine congrArg (fun f => (t.store p).map f) (funext fun x => ?_)
  cases x <;> rfl

section

variable (h : SameButChains store store')

include h

theorem SameButChains.symm : SameButChains store' store := fun p => (h p).symm

theorem SameButChains.leaf {n : LeafNode} (hn : store p = some (.leaf n)) :
    ∃ deltas, store' p = some (.leaf { n with deltas }) := by
  have hp := h p
  rw [hn] at hp
  obtain ⟨x, hx, hbare⟩ := map_eq_some_iff.1 hp
  cases x with
  | leaf m =>
    obtain ⟨cells, deltas, next, prev⟩ := m
    cases hbare
    exact ⟨deltas, hx⟩
  | blank | internal node | overflow data next => cases hbare

theorem SameButChains.other {x : Page} (hx : store p = some x) (hleaf : ∀ n, x ≠ .leaf n) : store' p = some x := by
  have hp := h p
  rw [hx] at hp
  obtain ⟨y, hy, hbare⟩ := map_eq_some_iff.1 hp
  rw [hy]
  cases x with
  | leaf n => exact absurd rfl (hleaf n)
  | blank | internal node | overflow data next => cases y <;> cases hbare; rfl

theorem SameButChains.isInternal (p : ℕ) :
    (∃ node, store p = some (.internal node) ∧ store' p = some (.internal node)) ∨
      (∀ node, store p ≠ some (.internal node)) ∧ ∀ node, store' p ≠ some (.internal node) := by
  by_cases hp : ∃ node, store p = some (.internal node)
  · obtain ⟨node, hnode⟩ := hp
    exact .inl ⟨node, hnode, h.other hnode (by simp)⟩
  · exact .inr ⟨fun node hnode => hp ⟨node, hnode⟩, fun node hnode => hp ⟨node, h.symm.other hnode (by simp)⟩⟩

theorem SameButChains.findLeaf_eq (k : Key) : findLeaf store' level page k = findLeaf store level page k := by
  induction level generalizing page with
  | zero => rfl
  | succ level ih =>
    unfold findLeaf
    rcases h.isInternal page with ⟨node, hnode, hnode'⟩ | ⟨hnot, hnot'⟩
    · simp only [hnode, hnode', ih]
    · split
      next node hnode => exact absurd hnode (hnot' node)
      next => rfl

theorem SameButChains.leavesBelow_eq : leavesBelow store' level page = leavesBelow store level page := by
  induction level generalizing page with
  | zero => rfl
  | succ level ih =>
    unfold leavesBelow
    rcases h.isInternal page with ⟨node, hnode, hnode'⟩ | ⟨hnot, hnot'⟩
    · simp only [hnode, hnode']
      exact congrArg (fun f => List.flatMap f _) (funext fun _ => ih)
    · split
      next node hnode => exact absurd hnode (hnot' node)
      next => rfl

theorem SameButChains.linked {prev next : ℕ} (hl : Linked store prev leaves next) : Linked store' prev leaves next := by
  induction leaves generalizing prev with
  | nil => trivial
  | cons q leaves ih =>
    obtain ⟨⟨n, hn, hprev, hnext⟩, hrest⟩ := hl
    obtain ⟨deltas, hn'⟩ := h.leaf hn
    exact ⟨⟨_, hn', hprev, hnext⟩, ih hrest⟩

theorem SameButChains.contents_eq (hleaf : ∀ q ∈ leaves, ∃ n, store q = some (.leaf n)) :
    contents store' leaves = contents store leaves := by
  induction leaves with
  | nil => rfl
  | cons q leaves ih =>
    rw [forall_mem_cons] at hleaf
    obtain ⟨n, hn⟩ := hleaf.1
    obtain ⟨deltas, hn'⟩ := h.leaf hn
    rw [contents_cons hn, contents_cons hn', ih hleaf.2]

end

/-- the same tree with other chains represents the same map -/
theorem SameButChains.represents {t t' : BTree} {m : OrdMap Key Bytes} {inner : Set ℕ} {leaves : List ℕ}
    {chain : Key → List ℕ} (h : SameButChains t.store t'.store)
    (hroot : t'.rootPage = t.rootPage ∧ t'.rootLevel = t.rootLevel) (hlevel : t.rootLevel < 256)
    (hbuilt : Built t.store t.rootLevel t.rootPage inner leaves)
    (hholding : Holding t.store (contents t.store leaves) m chain)
    (hspans : Spans t'.store t.rootLevel t.rootPage none none inner leaves) : Represents t' m := by
  refine ⟨hroot.2 ▸ hlevel, inner, leaves, chain, ?_, ?_⟩
  · rw [hroot.1, hroot.2]
    exact ⟨hspans, h.linked hbuilt.linked⟩
  · rw [h.contents_eq fun q hq => (hbuilt.spans.leaf q hq).2]
    refine hholding.frame fun k d hd p hp => ?_
    obtain ⟨v, -, hst⟩ := hholding.stored k d hd
    obtain ⟨data, next, hover⟩ := hst.overflow p hp
    rw [hover, h.other hover (by simp)]

end SameButChains

/-! ## Leaves that hold more keys -/

section Grow

variable {store store' : PageStore} {level page first : ℕ} {items : Items} {lo hi : Option Key} {inner : Set ℕ}
  {leaves : List ℕ}

/-- the leaves may hold further keys, if the descent for them ends there -/
def HoldsOwn (find : Key → Option ℕ) (store' : PageStore) (lo hi : Option Key) (leaves : List ℕ) : Prop :=
  ∀ q ∈ leaves, ∃ n, store' q = some (.leaf n) ∧ ∀ k, n.holds k → Within lo hi k ∧ find k = some q

/-- the descent for a key of a row ends at one of its leaves -/
theorem Row.find_mem (h : Row (Spans store level) first items lo hi inner leaves) {k : Key}
    (hk : Within lo hi k) {q : ℕ} (hfind : findLeaf store level (childFor first items k) k = some q) : q ∈ leaves := by
  obtain ⟨_, _, _, _, _, _, leavesL, leavesC, leavesR, -, -, -, -, -, -, rfl, hchild, -⟩ := h.focus hk
  obtain ⟨q', left, right, hfind', hleaves, -⟩ := hchild.subtree.find k
  rw [hfind] at hfind'
  cases hfind'
  simp [hleaves]

theorem Row.grow (h : Row (Spans store level) first items lo hi inner leaves) (hnodup : leaves.Nodup)
    (hinner : ∀ p ∈ inner, store' p = store p)
    (hholds : HoldsOwn (fun k => findLeaf store level (childFor first items k) k) store' lo hi leaves)
    (ih : ∀ c lo hi i l, Spans store level c lo hi i l → l.Nodup → (∀ p ∈ i, store' p = store p) →
      HoldsOwn (findLeaf store level c) store' lo hi l → Spans store' level c lo hi i l) :
    Row (Spans store' level) first items lo hi inner leaves := by
  induction items generalizing first lo inner leaves with
  | nil => exact ih _ _ _ _ _ h hnodup hinner hholds
  | cons e items ihItems =>
    obtain ⟨hsep, i₁, i₂, l₁, l₂, rfl, hdisj, rfl, hfirst, hrest⟩ := h
    obtain ⟨hnodup₁, hnodup₂, hapart⟩ := nodup_append.1 hnodup
    refine ⟨hsep, i₁, i₂, l₁, l₂, rfl, hdisj, rfl,
      ih _ _ _ _ _ hfirst hnodup₁ (fun p hp => hinner p (.inl hp)) fun q hq => ?_,
      ihItems hrest hnodup₂ (fun p hp => hinner p (.inr hp)) fun q hq => ?_⟩
    · obtain ⟨n, hn, hown⟩ := hholds q (mem_append_left _ hq)
      refine ⟨n, hn, fun k hk => ?_⟩
      obtain ⟨hwithin, hfind⟩ := hown k hk
      dsimp only at hfind
      rw [childFor] at hfind
      split_ifs at hfind with hlt
      · exact ⟨within_below hwithin hlt, hfind⟩
      · -- the descent ends further right
        exact absurd rfl (hapart q hq q (hrest.find_mem (within_above hwithin (not_lt.1 hlt)) hfind))
    · obtain ⟨n, hn, hown⟩ := hholds q (mem_append_right _ hq)
      refine ⟨n, hn, fun k hk => ?_⟩
      obtain ⟨hwithin, hfind⟩ := hown k hk
      dsimp only at hfind
      rw [childFor] at hfind
      split_ifs at hfind with hlt
      · -- the descent ends in the first child
        have hone : Row (Spans store level) first [] lo (some e.1) i₁ l₁ := hfirst
        exact absurd rfl (hapart q (hone.find_mem (within_below hwithin hlt) hfind) q hq)
      · exact ⟨within_above hwithin (not_lt.1 hlt), hfind⟩

theorem Spans.grow (h : Spans store level page lo hi inner leaves) (hnodup : leaves.Nodup)
    (hinner : ∀ p ∈ inner, store' p = store p) (hholds : HoldsOwn (findLeaf store level page) store' lo hi leaves) :
    Spans store' level page lo hi inner leaves := by
  induction level generalizing page lo hi inner leaves with
  | zero =>
    obtain ⟨rfl, rfl, hne, -⟩ := h
    obtain ⟨n, hn, hown⟩ := hholds page (mem_singleton_self _)
    exact ⟨rfl, rfl, hne, n, hn, fun k hk => (hown k hk).1⟩
  | succ level ih =>
    obtain ⟨first, items, below, hpage, hnot, rfl, hrow⟩ := h
    refine ⟨first, items, below, (hinner page (Set.mem_insert _ _)).trans hpage, hnot, rfl, ?_⟩
    refine hrow.grow hnodup (fun p hp => hinner p (Set.mem_insert_of_mem _ hp)) (fun q hq => ?_)
      fun c lo hi i l hP hnd hin hown =>
      ih hP hnd hin hown
    obtain ⟨n, hn, hown⟩ := hholds q hq
    refine ⟨n, hn, fun k hk => ⟨(hown k hk).1, ?_⟩⟩
    have hfind := (hown k hk).2
    simp only [findLeaf, hpage, findChild_ofRow] at hfind
    exact hfind

theorem Row.child {P : ℕ → Option Key → Option Key → Set ℕ → List ℕ → Prop} (h : Row P first items lo hi inner leaves) :
    ∀ c ∈ first :: items.map Prod.snd, ∃ lo hi i l, P c lo hi i l := by
  induction items generalizing first lo inner leaves with
  | nil =>
    intro c hc
    rw [mem_singleton.1 hc]
    exact ⟨_, _, _, _, h⟩
  | cons e items ih =>
    obtain ⟨-, i₁, i₂, l₁, l₂, -, -, -, hfirst, hrest⟩ := h
    intro c hc
    rcases mem_cons.1 hc with rfl | hc
    · exact ⟨_, _, _, _, hfirst⟩
    · exact ih hrest c hc

/-- fewer levels down than the tree has, there are no leaves -/
theorem Spans.leavesBelow_internal (h : Spans store level page lo hi inner leaves) {low : ℕ} (hlow : low < level) :
    ∀ q ∈ leavesBelow store low page, ∃ node, store q = some (.internal node) := by
  induction low generalizing level page lo hi inner leaves with
  | zero =>
    intro q hq
    obtain rfl := mem_singleton.1 hq
    obtain ⟨level, rfl⟩ : ∃ l, level = l + 1 := ⟨level - 1, by omega⟩
    obtain ⟨first, items, below, hpage, -⟩ := h
    exact ⟨_, hpage⟩
  | succ low ih =>
    obtain ⟨level, rfl⟩ : ∃ l, level = l + 1 := ⟨level - 1, by omega⟩
    obtain ⟨first, items, below, hpage, -, rfl, hrow⟩ := h
    intro q hq
    simp only [leavesBelow, hpage, children_ofRow] at hq
    obtain ⟨c, hc, hq⟩ := mem_flatMap.1 hq
    obtain ⟨_, _, _, _, hchild⟩ := hrow.child c hc
    exact ih hchild (by omega) q hq

theorem findChild_mem (entries : List (Key × ℕ)) (rightmost : ℕ) (k : Key) :
    findChild entries rightmost k ∈ entries.map Prod.snd ++ [rightmost] := by
  induction entries with
  | nil => exact mem_singleton_self _
  | cons e entries ih =>
    rw [findChild]
    split_ifs
    · exact mem_cons_self
    · exact mem_cons_of_mem _ ih

theorem findLeaf_mem {k : Key} {q : ℕ} (h : findLeaf store level page k = some q) :
    q ∈ leavesBelow store level page := by
  induction level generalizing page with
  | zero =>
    cases h
    exact mem_singleton_self _
  | succ level ih =>
    rw [findLeaf] at h
    rw [leavesBelow]
    cases hpage : store page with
    | none =>
      rw [hpage] at h
      cases h
    | some p =>
      rw [hpage] at h
      cases p with
      | internal node => exact mem_flatMap.2 ⟨_, findChild_mem _ _ _, ih h⟩
      | leaf n | overflow next data | blank => cases h

end Grow

/-! ## The tree with its chains -/

section Tree

variable {t t' : BTree} {m : OrdMap Key Bytes} {chains : Key → Option Chain}

/-- with chains in the leaves for their keys, the tree is as sound as without -/
theorem Carries.represents (h : Carries t chains) (hrep : Represents t.bare m) : Represents t m := by
  obtain ⟨hlevel, inner, leaves, chain, hbuilt, hholding⟩ := hrep
  have hsame := (sameButChains_bare t).symm
  have hleaves : leavesBelow t.store t.rootLevel t.rootPage = leaves := by
    rw [hsame.leavesBelow_eq]
    exact hbuilt.spans.leavesBelow_eq
  refine hsame.represents ⟨rfl, rfl⟩ hlevel hbuilt hholding
    (hbuilt.spans.grow hbuilt.nodup (fun p hp => ?_) fun q hq => ?_)
  · obtain ⟨node, hnode⟩ := hbuilt.spans.internal p hp
    rw [hnode, hsame.other hnode (by simp)]
  · obtain ⟨-, n, hn⟩ := hbuilt.spans.leaf q hq
    obtain ⟨deltas, hq'⟩ := hsame.leaf hn
    refine ⟨_, hq', fun k hk => ⟨⟨by simp, by simp⟩, ?_⟩⟩
    rcases hk with hk | hk
    · exact hbuilt.spans.subtree.find_of_holds hq ⟨n, hn, .inl hk⟩
    · obtain ⟨c, hc⟩ := isSome_iff_exists.1 hk
      have hfind := (h.only q (hleaves ▸ hq) _ hq' k c hc).1
      rw [hsame.findLeaf_eq] at hfind
      exact hfind

theorem Represents.bare (hrep : Represents t m) : Represents t.bare m := by
  obtain ⟨hlevel, inner, leaves, chain, hbuilt, hholding⟩ := hrep
  have hsame := sameButChains_bare t
  refine hsame.represents ⟨rfl, rfl⟩ hlevel hbuilt hholding (hbuilt.spans.shrink (fun p hp => ?_) fun q hq n hn => ?_)
  · obtain ⟨node, hnode⟩ := hbuilt.spans.internal p hp
    rw [hnode, hsame.other hnode (by simp)]
  · refine ⟨{ n with deltas := .empty }, ?_, fun k hk => ?_⟩
    · rw [BTree.bare]
      dsimp only
      rw [hn]
      rfl
    · exact hk.imp_right fun h => by cases h

/-- **In a sound tree chains are in the leaves for their keys**; all that matters is which chains there are. -/
theorem Built.carries_iff {inner : Set ℕ} {leaves : List ℕ} (h : Built t.store t.rootLevel t.rootPage inner leaves) :
    Carries t chains ↔ ∀ k c, ChainIn t.store leaves k c ↔ chains k = some c := by
  have hfind : ∀ {q n k c}, q ∈ leaves → t.store q = some (.leaf n) → n.deltas.get? k = some c →
      findLeaf t.store t.rootLevel t.rootPage k = some q := fun hq hn hget =>
    h.spans.subtree.find_of_holds hq ⟨_, hn, .inr (by rw [hget]; rfl)⟩
  constructor
  · intro hcarries k c
    constructor
    · rintro ⟨q, hq, n, hn, hget⟩
      exact (hcarries.only q (h.spans.leavesBelow_eq ▸ hq) n hn k c hget).2
    · intro hk
      obtain ⟨q, n, hq, hn, hget⟩ := hcarries.sits k c hk
      obtain ⟨q', m, hq', hmem, -⟩ := h.find k
      rw [hq] at hq'
      cases hq'
      exact ⟨q, hmem, n, hn, hget⟩
  · intro hchains
    refine ⟨fun k c hk => ?_, fun q hq n hn k c hget => ?_⟩
    · obtain ⟨q, hq, n, hn, hget⟩ := (hchains k c).2 hk
      exact ⟨q, n, hfind hq hn hget, hn, hget⟩
    · rw [h.spans.leavesBelow_eq] at hq
      exact ⟨hfind hq hn hget, (hchains k c).1 ⟨q, hq, n, hn, hget⟩⟩

/-- the same chains in another sound tree -/
theorem Carries.transfer {inner inner' : Set ℕ} {leaves leaves' : List ℕ} (h : Carries t chains)
    (hbuilt : Built t.store t.rootLevel t.rootPage inner leaves)
    (hbuilt' : Built t'.store t'.rootLevel t'.rootPage inner' leaves')
    (hsame : SameChains t.store leaves t'.store leaves') : Carries t' chains :=
  hbuilt'.carries_iff.2 fun k c => (hsame k c).trans (hbuilt.carries_iff.1 h k c)

/-- **The level of the root is wrong.** Then no chain can be found. -/
theorem carries_iff_of_low {height : ℕ} {inner : Set ℕ} {leaves : List ℕ}
    (hbuilt : Built t.store height t.rootPage inner leaves)
    (hlow : t.rootLevel < height) : Carries t chains ↔ ∀ k, chains k = none := by
  have hno : ∀ q ∈ leavesBelow t.store t.rootLevel t.rootPage, ∀ n, t.store q ≠ some (.leaf n) := by
    intro q hq n hn
    obtain ⟨node, hnode⟩ := hbuilt.spans.leavesBelow_internal hlow q hq
    rw [hn] at hnode
    cases hnode
  constructor
  · intro h k
    cases hk : chains k with
    | none => rfl
    | some c =>
      obtain ⟨q, n, hfind, hn, -⟩ := h.sits k c hk
      exact absurd hn (hno q (findLeaf_mem hfind) n)
  · intro h
    refine ⟨fun k c hk => ?_, fun q hq n hn => absurd hn (hno q hq n)⟩
    rw [h k] at hk
    cases hk

/-! ## Insertions and deletions -/

theorem insert_carries {a : Allocator} {key : Key} {value : Bytes} {inserted : Bool} (hrep : Represents t.bare m)
    (h : Carries t chains) (hinsert : t.insert a key value = .ok (t', inserted)) :
    Carries t' chains ↔ (∀ k, chains k = none) ∨ (inserted = true → t.rootLevel + t.newLevels key value < 256) := by
  have hrep' := h.represents hrep
  obtain ⟨grown, inner', leaves', chain', hgrown, hinserted, hlevel', hbuilt', -, hchains⟩ := insert_built hinsert hrep'
  obtain ⟨hlevel, inner, leaves, chain, hbuilt, -⟩ := hrep'
  rw [hbuilt.spans.leavesBelow_eq] at hchains
  have hfits : (inserted = true → t.rootLevel + t.newLevels key value < 256) ↔ t.rootLevel + grown < 256 := by
    cases hget : m.get? key with
    | some v =>
      simp only [hget, isSome_some, if_true, isNone_some] at hgrown hinserted
      simp [hgrown, hinserted, hlevel]
    | none =>
      simp only [hget, isSome_none, Bool.false_eq_true, if_false, isNone_none] at hgrown hinserted
      simp [hgrown, hinserted]
  rw [hfits]
  by_cases hlt : t.rootLevel + grown < 256
  · rw [mod_eq_of_lt hlt] at hlevel'
    exact iff_of_true (h.transfer hbuilt (hlevel' ▸ hbuilt') hchains) (.inr hlt)
  · rw [carries_iff_of_low hbuilt' (by omega), or_iff_left hlt]

/-- **Chains follow their keys.** After a deletion each chain is in the leaf for its key, and nowhere else; after an
insertion too, unless the tree has a chain and grows higher than the byte for its level can say. -/
theorem chains_follow_iff (hrep : Represents t.bare m) (h : Carries t chains) :
    (∀ a key value t' inserted, t.insert a key value = .ok (t', inserted) →
      (Carries t' chains ↔ (∀ k, chains k = none) ∨ (inserted = true → t.rootLevel + t.newLevels key value < 256))) ∧
    ∀ key t' found, t.delete key = .ok (t', found) → Carries t' chains := by
  refine ⟨fun _ _ _ _ _ hinsert => insert_carries hrep h hinsert, fun key t' found hdelete => ?_⟩
  obtain ⟨hlevel, inner, leaves, chain, hbuilt, hholding⟩ := h.represents hrep
  have hstored : ∀ cell, (key, cell) ∈ contents t.store leaves →
      Stored t.store cell (chain key) ((m.get? key).getD []) := by
    intro cell hcell
    obtain ⟨v, hv, hst⟩ := hholding.stored key cell hcell
    rwa [hv]
  rcases t.delete_ok hdelete hbuilt hstored with ⟨-, rfl, -⟩ | ⟨-, -, inner', leaves', hdeleted, hchains⟩
  · exact h
  · exact h.transfer hbuilt hdeleted.built hchains

end Tree

/-! ## Trees of one leaf -/

section OneLeaf

variable {key : Key} {value : Bytes} {deltas : OrdMap Key Chain}

theorem oneCell_built (cells : OrdMap Key VersionData) (deltas : OrdMap Key Chain) :
    Built (oneLeaf cells deltas).store 0 1 ∅ [1] :=
  ⟨⟨rfl, rfl, one_ne_zero, _, rfl, fun _ _ => ⟨fun _ h => (by cases h), fun _ h => (by cases h)⟩⟩,
    ⟨_, rfl, rfl, rfl⟩, trivial⟩

theorem oneCell_represents (key : Key) (value : Bytes) (deltas : OrdMap Key Chain) :
    Represents (oneLeaf (empty.insert key (.inline value)) deltas) (empty.insert key value) := by
  have hcells : contents (oneLeaf (empty.insert key (.inline value)) deltas).store [1] = [(key, .inline value)] := rfl
  refine ⟨zero_lt_succ _, ∅, [1], fun _ => [], oneCell_built _ _, ?_⟩
  refine ⟨fun k d hd => ?_, fun k v hk => ?_, fun _ _ _ _ _ _ _ => disjoint_nil_left _⟩
  · obtain ⟨rfl, rfl⟩ := Prod.mk.inj (mem_singleton.1 hd)
    exact ⟨value, get?_eq_some_iff.2 (mem_singleton_self _), rfl, rfl⟩
  · obtain ⟨rfl, rfl⟩ := Prod.mk.inj (mem_singleton.1 (get?_eq_some_iff.1 hk))
    exact ⟨_, mem_singleton_self _⟩

theorem oneLeaf_carries (cells : OrdMap Key VersionData) (deltas : OrdMap Key Chain) :
    Carries (oneLeaf cells deltas) deltas.get? := by
  refine (@Built.carries_iff (oneLeaf cells deltas) _ _ _ (oneCell_built cells deltas)).2 fun k c => ?_
  rw [chainIn_cons rfl, or_iff_left not_chainIn_nil]

end OneLeaf

/-! ## A tree that is too high -/

section TooHigh

variable {keys : ℕ → Key} {value : Bytes} {t : BTree}

/-- trees of any height up to 255, with chains -/
theorem deep_carries {deltas : OrdMap Key Chain} (hsteep : Steep keys value 256) (hlong : Long keys 256) {n : ℕ}
    (hn : n < 256) :
    ∃ t m, Deep keys value n t ∧ Represents t m ∧ Carries t deltas.get? := by
  induction n with
  | zero =>
    refine ⟨oneLeaf (empty.insert (keys 0) (.inline value)) deltas, _, ?_, oneCell_represents (keys 0) value deltas,
      oneLeaf_carries _ _⟩
    refine ⟨⟨∅, [1], oneCell_built _ _⟩, rfl, ⟨_, rfl, rfl⟩, fun h => absurd h (by decide), fun p x hx => ?_, 2,
      fun p hp => if_neg (by omega)⟩
    simp only [oneLeaf] at hx
    split_ifs at hx
    cases hx
    exact hsteep.alone 0 (zero_le _)
  | succ n ih =>
    obtain ⟨t, m, hdeep, hrep, hcarries⟩ := ih (by omega)
    obtain ⟨t', hinsert, hdeep'⟩ :=
      hdeep.step hsteep (fun _ => hlong) (hlong.separator 0 (zero_le _)) (by omega) (by omega)
    have hlevel : t.rootLevel + t.newLevels (keys (n + 1)) value < 256 := by
      rw [hdeep.newLevels hsteep hlong (by omega) (by omega)]
      exact hn
    exact ⟨t', _, hdeep', insert_represents hinsert hrep hlevel,
      (insert_carries hrep.bare hcarries hinsert).2 (.inr fun _ => hlevel)⟩

end TooHigh

/-- the leaf of the new key is split, and with it the node above; the chain is in the other leaf -/
theorem chains_follow_two_leaves : ∃ t t' m, t.rootLevel = 1 ∧ Represents t.bare m ∧
    Carries t (OrdMap.empty.insert (fewerZeros 0) chainAt10).get? ∧
      t.insert .least (fewerZeros 2) (zeros 20000) = .ok (t', true) ∧
      Carries t' (OrdMap.empty.insert (fewerZeros 0) chainAt10).get? := by
  have hsteep := steep_fewerZeros
  have hlong := long_fewerZeros
  obtain ⟨t, m, hdeep, hrep, hcarries⟩ :=
    @deep_carries _ _ (empty.insert (fewerZeros 0) chainAt10) hsteep hlong 1 (by decide)
  obtain ⟨t', hinsert, -⟩ := hdeep.step hsteep (fun _ => hlong) (hlong.separator 0 (zero_le _)) (by decide) (by decide)
  refine ⟨t, t', m, hdeep.level, hrep.bare, hcarries, hinsert, ?_⟩
  refine ((chains_follow_iff hrep.bare hcarries).1 .least (fewerZeros 2) (zeros 20000) t' true hinsert).2
    (.inr fun _ => ?_)
  rw [hdeep.newLevels hsteep hlong (by decide) (by decide)]
  decide

/-- **The insertion that makes the tree 256 levels high loses the chains.** -/
theorem deep_tree_loses_chains :
    ∃ t t' m, Represents t.bare m ∧ Carries t (OrdMap.empty.insert (fewerZeros 0) chainAt10).get? ∧
    t.insert .least (fewerZeros 256) (zeros 20000) = .ok (t', true) ∧
      ¬ Carries t' (OrdMap.empty.insert (fewerZeros 0) chainAt10).get? := by
  have hsteep := steep_fewerZeros
  have hlong := long_fewerZeros
  obtain ⟨t, m, hdeep, hrep, hcarries⟩ :=
    @deep_carries _ _ (empty.insert (fewerZeros 0) chainAt10) hsteep hlong 255 (by decide)
  obtain ⟨t', hinsert, -⟩ := hdeep.step hsteep (fun _ => hlong) (hlong.separator 0 (zero_le _)) (by decide) (by decide)
  refine ⟨t, t', m, hrep.bare, hcarries, hinsert, fun hcarries' => ?_⟩
  rcases (insert_carries hrep.bare hcarries hinsert).1 hcarries' with hnone | hfits
  · have hsome := hnone (fewerZeros 0)
    rw [get?_insert, if_pos rfl] at hsome
    cases hsome
  · have hlevel := hfits rfl
    rw [hdeep.newLevels hsteep hlong (by decide) (by decide)] at hlevel
    exact absurd hlevel (by decide)

end Mqlite.Btree
