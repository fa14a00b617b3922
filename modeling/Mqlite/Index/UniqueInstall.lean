/-
The unique check of an install (`check_unique_prefix_install` of `storage/paged_engine/pending_install.rs`,
`storage/buffer_pool/latched_page.rs`, `storage/btree/mod.rs`).

Before an entry of a unique index gets its Pending head, the leaf of its key is searched for other keys with the same
prefix, and so are the direct siblings if the range of the prefix reaches over the leaf's base cells. Chains and base
cells are searched separately: a chain counts if it has a live head, and a base cell always counts.

`unique_install_exact_iff`: when this refuses exactly those installs for which another key of the range is live. A key
whose newest version is a tombstone is not live, but its chain has a live head (`deleted_entry_conflicts`); and behind a
sibling without entries nothing is found.
-/
import Mqlite.Btree.ScanAgrees
import Mqlite.Btree.Spans
import Mqlite.Keys.Prefix
import Mqlite.Mvcc.Stacked

namespace Mqlite.Index

open Lib Mvcc Btree Keys List LeafNode

/-! ## The check -/

inductive InstallError where
  | missingTargetLatch (page : ℕ)
  | structuralContention
  | uniqueConflict (keyPrefixPreview : Bytes)
  | badPage
  | panic
deriving DecidableEq, Repr

/-- up to the first bytes of the prefix, without the separator -/
def uniquePrefixPreview (prefixStart : Key) : Bytes :=
  keyPreview (if prefixStart.getLast? = some COMPOUND_SEP then prefixStart.dropLast else prefixStart)

section Leaf

variable (n : LeafNode) (start stop : Key)

/-- over `BTreeMap::range`, which panics if the end is below the start and there are chains -/
def hasLiveDeltaKeyInRange (excludeKey : Key) : Except InstallError Bool :=
  match n.deltaRange (.included start) (.excluded stop) with
  | .error _ => .error .panic
  | .ok range => .ok (range.any fun p => decide (p.1 ≠ excludeKey) && p.2.any VersionEntry.isLiveHead)

/-- the loop over the cells from the start on -/
def containsFrom (excludeKey : Key) : List (Key × VersionData) → Bool
  | [] => false
  | (key, _) :: rest => if stop ≤ key then false else if key ≠ excludeKey then true else containsFrom excludeKey rest

def leafContainsKeyInRange (excludeKey : Key) : Bool :=
  containsFrom stop excludeKey (n.cells.entries.drop (n.baseStartIndex (.included start)))

/-- the siblings that may have keys of the range as well, by the first and the last base cell -/
def leafUniquePrefixSiblingPages : List ℕ :=
  let prev := match n.cells.entries.head? with
    | some first => if n.prevLeafPage ≠ 0 ∧ start ≤ first.1 then [n.prevLeafPage] else []
    | none => if n.prevLeafPage ≠ 0 then [n.prevLeafPage] else []
  let next := match n.cells.entries.getLast? with
    | some last => if n.nextLeafPage ≠ 0 ∧ last.1 < stop then [n.nextLeafPage] else []
    | none => if n.nextLeafPage ≠ 0 then [n.nextLeafPage] else []
  prev ++ next

end Leaf

section Check

variable (store : PageStore) (latched : ℕ → Bool) (key start stop : Key)

/-- the loop over the pages -/
def checkPages : List ℕ → Except InstallError Unit
  | [] => .ok ()
  | page :: rest =>
    if latched page then
      match store page with
      | some (.leaf n) =>
        match hasLiveDeltaKeyInRange n start stop key with
        | .error e => .error e
        | .ok true => .error (.uniqueConflict (uniquePrefixPreview start))
        | .ok false =>
          if leafContainsKeyInRange n start stop key then .error (.uniqueConflict (uniquePrefixPreview start))
          else checkPages rest
      | _ => .error .badPage
    else .error .structuralContention

/-- in the order of page numbers, each once -/
def scanPages (n : LeafNode) (leafPage : ℕ) : List ℕ :=
  ((leafPage :: leafUniquePrefixSiblingPages n start stop).insertionSort (· ≤ ·)).dedup

def checkUniquePrefixInstall (leafPage : ℕ) : Except InstallError Unit :=
  if latched leafPage then
    match store leafPage with
    | some (.leaf n) => checkPages store latched key start stop (scanPages start stop n leafPage)
    | _ => .error .badPage
  else .error (.missingTargetLatch leafPage)

end Check

/-! ## Live and deleted keys -/

/-- another key of the range -/
def Other (key start stop k : Key) : Prop := start ≤ k ∧ k < stop ∧ k ≠ key

/-- the newest version that is not Aborted is no tombstone; without one, there is a base cell -/
def isLiveKey (n : LeafNode) (k : Key) : Bool :=
  match (live (n.chainOf k)).head? with
  | some e => !e.isTombstone
  | none => (n.cells.get? k).isSome

/-- the newest version that is not Aborted is a tombstone -/
def isDeletedKey (n : LeafNode) (k : Key) : Bool := (live (n.chainOf k)).head?.any VersionEntry.isTombstone

/-- live or deleted: the key has a base cell, or a version that is not Aborted -/
def isEntry (n : LeafNode) (k : Key) : Bool := isLiveKey n k || isDeletedKey n k

/-- what the check counts -/
def Counts (n : LeafNode) (k : Key) : Prop := (liveHead (n.chainOf k)).isSome = true ∨ (n.cells.get? k).isSome = true

/-- the check does not tell deleted keys from live ones -/
theorem counts_iff {n : LeafNode} {k : Key} (h : Stacked (n.chainOf k)) : Counts n k ↔ isEntry n k = true := by
  unfold Counts isEntry isLiveKey isDeletedKey
  rw [liveHead_eq_head? h]
  cases (live (n.chainOf k)).head? with
  | none => simp
  | some e => cases he : e.isTombstone <;> simp [he]

/-! ## One leaf -/

section Leaf

variable {n : LeafNode} {key start stop : Key}

theorem any_isLiveHead {c : Chain} : c.any VersionEntry.isLiveHead = (liveHead c).isSome := by
  rw [Bool.eq_iff_iff, liveHead, find?_isSome, any_eq_true]

theorem hasLiveDeltaKeyInRange_eq (hle : start ≤ stop) : ∃ found, hasLiveDeltaKeyInRange n start stop key = .ok found ∧
    (found = true ↔ ∃ k, Other key start stop k ∧ (liveHead (n.chainOf k)).isSome = true) := by
  have hrange : n.deltaRange (.included start) (.excluded stop) = .ok (n.inRange (.included start) (.excluded stop)) :=
    if_neg fun h => absurd (of_decide_eq_true h.2) (not_lt.2 hle)
  refine ⟨_, by rw [hasLiveDeltaKeyInRange, hrange], ?_⟩
  rw [any_eq_true]
  have hbounds : ∀ k, inBounds (.included start) (.excluded stop) k = true ↔ start ≤ k ∧ k < stop := by
    intro k
    simp [inBounds, startAdmits, endExcludesKey]
  constructor
  · rintro ⟨⟨k, c⟩, hmem, hp⟩
    obtain ⟨hget, hin⟩ := mem_inRange.1 hmem
    rw [Bool.and_eq_true, decide_eq_true_eq, any_isLiveHead] at hp
    obtain ⟨hstart, hstop⟩ := (hbounds k).1 hin
    exact ⟨k, ⟨hstart, hstop, hp.1⟩, by rw [chainOf_eq hget]; exact hp.2⟩
  · rintro ⟨k, ⟨hstart, hstop, hne⟩, hhead⟩
    cases hget : n.deltas.get? k with
    | none =>
      rw [chainOf, hget] at hhead
      cases hhead
    | some c =>
      refine ⟨(k, c), mem_inRange.2 ⟨hget, (hbounds k).2 ⟨hstart, hstop⟩⟩, ?_⟩
      rw [chainOf_eq hget] at hhead
      rw [Bool.and_eq_true, decide_eq_true_eq, any_isLiveHead]
      exact ⟨hne, hhead⟩

theorem containsFrom_iff {l : List (Key × VersionData)} (h : l.Pairwise fun a b => a.1 < b.1) :
    containsFrom stop key l = true ↔ ∃ p ∈ l, p.1 < stop ∧ p.1 ≠ key := by
  induction l with
  | nil => simp [containsFrom]
  | cons q l ih =>
    obtain ⟨hq, hl⟩ := pairwise_cons.1 h
    rw [containsFrom, exists_mem_cons_iff]
    split_ifs with hend hkey
    · -- the cells behind are above the end as well
      refine iff_of_false (by decide) ?_
      rintro (⟨hlt, -⟩ | ⟨p, hp, hlt, -⟩)
      · exact absurd hlt (not_lt.2 hend)
      · exact absurd (hlt.trans_le hend) (hq p hp).asymm
    · exact iff_of_true rfl (.inl ⟨not_le.1 hend, hkey⟩)
    · rw [ih hl, or_iff_right]
      exact fun h => hkey h.2

theorem leafContainsKeyInRange_iff : leafContainsKeyInRange n start stop key = true ↔
    ∃ k, Other key start stop k ∧ (n.cells.get? k).isSome = true := by
  rw [leafContainsKeyInRange, drop_baseStartIndex, containsFrom_iff (n.cells.sorted.filter _)]
  constructor
  · rintro ⟨p, hp, hstop, hne⟩
    obtain ⟨hmem, hstart⟩ := mem_filter.1 hp
    exact ⟨p.1, ⟨of_decide_eq_true hstart, hstop, hne⟩, by rw [OrdMap.get?_eq_some_iff.2 hmem]; rfl⟩
  · rintro ⟨k, ⟨hstart, hstop, hne⟩, hsome⟩
    obtain ⟨v, hv⟩ := Option.isSome_iff_exists.1 hsome
    exact ⟨(k, v), mem_filter.2 ⟨OrdMap.get?_eq_some_iff.1 hv, decide_eq_true hstart⟩, hstop, hne⟩

end Leaf

/-! ## The pages -/

section Pages

variable {store : PageStore} {latched : ℕ → Bool} {key start stop : Key}

/-- the loop refuses the install if and only if one of the pages has a key that counts -/
theorem checkPages_iff (hle : start ≤ stop) {pages : List ℕ} (hlatched : ∀ q ∈ pages, latched q = true)
    (hleaves : ∀ q ∈ pages, ∃ n, store q = some (.leaf n)) :
    checkPages store latched key start stop pages = .error (.uniqueConflict (uniquePrefixPreview start)) ↔
      ∃ q ∈ pages, ∃ n, store q = some (.leaf n) ∧ ∃ k, Other key start stop k ∧ Counts n k := by
  induction pages with
  | nil => simp [checkPages]
  | cons page pages ih =>
    obtain ⟨hpage, hrest⟩ := forall_mem_cons.1 hlatched
    obtain ⟨⟨n, hn⟩, hleaves⟩ := forall_mem_cons.1 hleaves
    obtain ⟨found, hfound, hchains⟩ := @hasLiveDeltaKeyInRange_eq n key start stop hle
    have hcells := @leafContainsKeyInRange_iff n key start stop
    have hhead : (∃ m, store page = some (.leaf m) ∧ ∃ k, Other key start stop k ∧ Counts m k) ↔
        found = true ∨ leafContainsKeyInRange n start stop key = true := by
      rw [hchains, hcells, ← exists_or]
      simp only [hn, Option.some.injEq, Page.leaf.injEq, exists_eq_left', Counts, and_or_left]
    rw [checkPages, if_pos hpage, hn, exists_mem_cons_iff, ← hn, hhead]
    simp only [hn, hfound]
    cases found with
    | true => simp
    | false =>
      split_ifs with hcell
      · simp [hcell]
      · rw [ih hrest hleaves]
        simp [hcell]

/-- a sibling is searched unless the base cells of the leaf reach over the end of the range -/
theorem mem_siblingPages {n : LeafNode} {q : ℕ} : q ∈ leafUniquePrefixSiblingPages n start stop ↔
    q ≠ 0 ∧ (q = n.prevLeafPage ∧ (∀ first ∈ n.cells.entries.head?, start ≤ first.1) ∨
      q = n.nextLeafPage ∧ ∀ last ∈ n.cells.entries.getLast?, last.1 < stop) := by
  have hone : ∀ {p : ℕ} {c : Prop} [Decidable c], q ∈ (if p ≠ 0 ∧ c then [p] else []) ↔ q ≠ 0 ∧ q = p ∧ c := by
    intro p c _
    split_ifs with hc
    · rw [mem_singleton]
      exact ⟨fun h => ⟨h ▸ hc.1, h, hc.2⟩, fun h => h.2.1⟩
    · refine iff_of_false not_mem_nil ?_
      rintro ⟨hne, rfl, h⟩
      exact hc ⟨hne, h⟩
  rw [leafUniquePrefixSiblingPages, mem_append, and_or_left, ← hone, ← hone]
  refine or_congr ?_ ?_
  · cases n.cells.entries.head? <;> simp
  · cases n.cells.entries.getLast? <;> simp

end Pages

/-- some other key of the range, on one of the pages -/
def SomeOther (store : PageStore) (pages : List ℕ) (key start stop : Key) (P : LeafNode → Key → Bool) : Prop :=
  ∃ q ∈ pages, ∃ n, store q = some (.leaf n) ∧ ∃ k, Other key start stop k ∧ P n k = true

/-! ## The leaves beside a leaf -/

/-- the leaf with the leaves directly beside it -/
def near (left : List ℕ) (leafPage : ℕ) (right : List ℕ) : List ℕ :=
  left.getLast?.toList ++ leafPage :: right.head?.toList

theorem isEntry_holds {n : LeafNode} {k : Key} (h : isEntry n k = true) : n.holds k := by
  by_contra hnot
  obtain ⟨hcell, hchain⟩ := not_or.1 hnot
  have hnil : n.chainOf k = [] := by
    rw [chainOf, Option.not_isSome_iff_eq_none.1 hchain]
    rfl
  simp [isEntry, isLiveKey, isDeletedKey, hnil, live, Option.not_isSome_iff_eq_none.1 hcell] at h

section Near

variable {t : BTree} {left right : List ℕ} {leafPage : ℕ} {n : LeafNode} {key start stop : Key}
  (hs : Sound t (left ++ leafPage :: right)) (hn : t.store leafPage = some (.leaf n))

include hs hn

theorem scanPages_near {q : ℕ} (h : q ∈ scanPages start stop n leafPage) : q ∈ near left leafPage right := by
  obtain ⟨hprev, hnext⟩ := hs.siblings.links hn
  rw [getLastD_eq_getLast?] at hprev
  rw [headD_eq_head?_getD] at hnext
  rw [scanPages, mem_dedup, mem_insertionSort, mem_cons, mem_siblingPages] at h
  simp only [near, mem_append, mem_cons, Option.mem_toList]
  rcases h with rfl | ⟨hne, ⟨rfl, -⟩ | ⟨rfl, -⟩⟩
  · exact .inr (.inl rfl)
  · cases hl : left.getLast? with
    | none => exact absurd (hprev.trans (by rw [hl]; rfl)) hne
    | some p => exact .inl (by rw [hprev, hl]; rfl)
  · cases hr : right.head? with
    | none => exact absurd (hnext.trans (by rw [hr]; rfl)) hne
    | some p => exact .inr (.inr (by rw [hnext, hr]; rfl))

/-- a leaf beside it that is not searched has no key of the range -/
theorem near_scanPages {q : ℕ} {k : Key} (h : q ∈ near left leafPage right) (hk : Holds t.store q k)
    (hstart : start ≤ k) (hstop : k < stop) : q ∈ scanPages start stop n leafPage := by
  obtain ⟨hprev, hnext⟩ := hs.siblings.links hn
  rw [getLastD_eq_getLast?] at hprev
  rw [headD_eq_head?_getD] at hnext
  obtain ⟨-, hright, hleft⟩ := pairwise_append.1 hs.subtree.ascends
  have hcell : ∀ p ∈ n.cells.entries, Holds t.store leafPage p.1 := fun p hp =>
    ⟨n, hn, .inl (by rw [OrdMap.get?_eq_some_iff.2 hp]; rfl)⟩
  rw [scanPages, mem_dedup, mem_insertionSort, mem_cons, mem_siblingPages]
  simp only [near, mem_append, mem_cons, Option.mem_toList] at h
  rcases h with hq | hq | hq
  · have hmem := mem_of_getLast? hq
    refine .inr ⟨hs.subtree.leaves_ne_zero q (mem_append_left _ hmem),
      .inl ⟨by rw [hprev, Option.mem_def.1 hq]; rfl, ?_⟩⟩
    intro first hfirst
    exact hstart.trans (hleft q hmem leafPage mem_cons_self k first.1 hk (hcell first (mem_of_head? hfirst))).le
  · exact .inl hq
  · have hmem := mem_of_head? hq
    refine .inr ⟨hs.subtree.leaves_ne_zero q (mem_append_right _ (mem_cons_of_mem _ hmem)),
      .inr ⟨by rw [hnext, Option.mem_def.1 hq]; rfl, ?_⟩⟩
    intro last hlast
    exact ((pairwise_cons.1 hright).1 q hmem last.1 k (hcell last (mem_of_getLast? hlast)) hk).trans hstop

theorem someOther_scanPages {P : LeafNode → Key → Bool} (hP : ∀ m k, P m k = true → m.holds k) :
    SomeOther t.store (scanPages start stop n leafPage) key start stop P ↔
      SomeOther t.store (near left leafPage right) key start stop P := by
  constructor
  · rintro ⟨q, hq, h⟩
    exact ⟨q, scanPages_near hs hn hq, h⟩
  · rintro ⟨q, hq, m, hm, k, hk, h⟩
    exact ⟨q, near_scanPages hs hn hq ⟨m, hm, hP m k h⟩ hk.1 hk.2.1, m, hm, k, hk, h⟩

omit hn in
theorem beside_keys (hleaf : findLeaf t.store t.rootLevel t.rootPage key = some leafPage) :
    (∀ p ∈ left, p ≠ leafPage ∧ ∀ k, Holds t.store p k → k < key) ∧ ∀ p ∈ right, p ≠ leafPage ∧
      ∀ k, Holds t.store p k → key < k := by
  have hnodup := (siblings_iff_linked.1 hs.siblings).nodup hs.subtree.leaves_ne_zero
  obtain ⟨hfresh, -⟩ := nodup_cons.1 (nodup_middle.1 hnodup)
  rw [mem_append, not_or] at hfresh
  obtain ⟨q, left', right', hq, hsplit, hsmall, hgreat⟩ := hs.subtree.find key
  obtain rfl : q = leafPage := Option.some.inj (hq.symm.trans hleaf)
  obtain ⟨rfl, -, rfl⟩ := (append_cons_inj_of_notMem hfresh.1 hfresh.2).1 hsplit
  exact ⟨fun p hp => ⟨fun h => hfresh.1 (h ▸ hp), hsmall p hp⟩, fun p hp => ⟨fun h => hfresh.2 (h ▸ hp), hgreat p hp⟩⟩

omit hn in
/-- between the leaf and a key of the range there are keys of the range only -/
theorem someOther_near (hleaf : findLeaf t.store t.rootLevel t.rootPage key = some leafPage) (hstart : start ≤ key)
    (hstop : key < stop) (hbeside : ∀ q ∈ near left leafPage right, q ≠ leafPage → ∃ m k, t.store q = some (.leaf m) ∧
      isEntry m k = true)
    (h : SomeOther t.store (left ++ leafPage :: right) key start stop isEntry) :
    SomeOther t.store (near left leafPage right) key start stop isEntry := by
  obtain ⟨hsmall, hgreat⟩ := beside_keys hs hleaf
  obtain ⟨hleft, hright, -⟩ := pairwise_append.1 hs.subtree.ascends
  obtain ⟨q, hq, m, hm, k, hk, hentry⟩ := h
  by_cases hqn : q ∈ near left leafPage right
  · exact ⟨q, hqn, m, hm, k, hk, hentry⟩
  have hholds : Holds t.store q k := ⟨m, hm, isEntry_holds hentry⟩
  simp only [near, mem_append, mem_cons, Option.mem_toList, not_or] at hqn
  rcases mem_append.1 hq with hq | hq
  · -- the leaf left of the target is between the two
    obtain ⟨init, p, rfl⟩ := (eq_nil_or_concat' left).resolve_left (ne_nil_of_mem hq)
    rw [getLast?_concat, Option.some.injEq] at hqn
    have hp : p ∈ near (init ++ [p]) leafPage right := by simp [near]
    have hqi : q ∈ init := (mem_append.1 hq).resolve_right fun h => hqn.1 (mem_singleton.1 h).symm
    obtain ⟨hne, hbelow⟩ := hsmall p (by simp)
    obtain ⟨m', k', hm', hentry'⟩ := hbeside p hp hne
    have hholds' : Holds t.store p k' := ⟨m', hm', isEntry_holds hentry'⟩
    have hlt := (pairwise_append.1 hleft).2.2 q hqi p (mem_singleton.2 rfl) k k' hholds hholds'
    have hlt' := hbelow k' hholds'
    exact ⟨p, hp, m', hm', k', ⟨hk.1.trans hlt.le, hlt'.trans hstop, hlt'.ne⟩, hentry'⟩
  · have hqr : q ∈ right := (mem_cons.1 hq).resolve_left hqn.2.1
    obtain ⟨p, rest, rfl⟩ := exists_cons_of_ne_nil (ne_nil_of_mem hqr)
    rw [head?_cons, Option.some.injEq] at hqn
    have hp : p ∈ near left leafPage (p :: rest) := by simp [near]
    have hqi : q ∈ rest := (mem_cons.1 hqr).resolve_left fun h => hqn.2.2 h.symm
    obtain ⟨hne, habove⟩ := hgreat p mem_cons_self
    obtain ⟨m', k', hm', hentry'⟩ := hbeside p hp hne
    have hholds' : Holds t.store p k' := ⟨m', hm', isEntry_holds hentry'⟩
    have hlt := (pairwise_cons.1 (pairwise_cons.1 hright).2).1 q hqi k' k hholds' hholds
    have hlt' := habove k' hholds'
    exact ⟨p, hp, m', hm', k', ⟨hstart.trans hlt'.le, hlt.trans hk.2.1, hlt'.ne'⟩, hentry'⟩

end Near

/-- **The unique check is exact** if and only if (1) no other key of the range on the leaf and the leaves beside it is
deleted, unless another one is live, and (2) if another key of the range is live, these leaves have an entry for one.
The second is so if neither of the leaves beside it is without entries. -/
theorem unique_install_exact_iff (t : BTree) (left right : List ℕ) (latched : ℕ → Bool) (key start stop : Key)
    (leafPage : ℕ) (n : LeafNode) (hs : Sound t (left ++ leafPage :: right))
    (hleaf : findLeaf t.store t.rootLevel t.rootPage key = some leafPage)
    (hn : t.store leafPage = some (.leaf n)) (hstart : start ≤ key) (hstop : key < stop)
    (hlatched : ∀ q ∈ scanPages start stop n leafPage, latched q = true)
    (hchains : ∀ q ∈ left ++ leafPage :: right, ∀ m, t.store q = some (.leaf m) → ∀ k, Stacked (m.chainOf k)) :
    let others (pages : List ℕ) (P : LeafNode → Key → Bool) : Prop := SomeOther t.store pages key start stop P
    ((checkUniquePrefixInstall t.store latched key start stop leafPage =
      .error (.uniqueConflict (uniquePrefixPreview start)) ↔
        others (left ++ leafPage :: right) isLiveKey) ↔
      (others (near left leafPage right) isDeletedKey → others (left ++ leafPage :: right) isLiveKey) ∧
        (others (left ++ leafPage :: right) isLiveKey → others (near left leafPage right) isEntry)) ∧
    ((∀ q ∈ near left leafPage right, q ≠ leafPage → ∃ m k, t.store q = some (.leaf m) ∧ isEntry m k = true) →
      others (left ++ leafPage :: right) isLiveKey → others (near left leafPage right) isEntry) := by
  intro others
  have hnear : ∀ q ∈ near left leafPage right, q ∈ left ++ leafPage :: right := by
    intro q hq
    simp only [near, mem_append, mem_cons, Option.mem_toList] at hq ⊢
    exact hq.imp mem_of_getLast? (Or.imp_right mem_of_head?)
  have hscanned := fun q hq => hnear q (@scanPages_near t left right leafPage n start stop hs hn q hq)
  have hself : leafPage ∈ scanPages start stop n leafPage := by
    rw [scanPages, mem_dedup, mem_insertionSort]
    exact mem_cons_self
  have hleaves : ∀ p ∈ scanPages start stop n leafPage, ∃ m, t.store p = some (.leaf m) := by
    intro p hp
    obtain ⟨l, r, hsplit⟩ := append_of_mem (hscanned p hp)
    obtain ⟨prev, ⟨m, hm, -, -⟩, -⟩ := (hsplit ▸ hs.siblings).right
    exact ⟨m, hm⟩
  -- the check refuses for what is live or deleted on the pages searched
  have hcheck : checkUniquePrefixInstall t.store latched key start stop leafPage =
      .error (.uniqueConflict (uniquePrefixPreview start)) ↔ others (near left leafPage right) isEntry := by
    refine Iff.trans ?_ (someOther_scanPages hs hn fun _ _ => isEntry_holds)
    rw [checkUniquePrefixInstall, if_pos (hlatched leafPage hself), hn]
    refine (checkPages_iff (hstart.trans hstop.le) hlatched hleaves).trans ?_
    refine exists_congr fun p => and_congr_right fun hp => exists_congr fun m => and_congr_right fun hm => ?_
    exact exists_congr fun k => and_congr_right fun _ => counts_iff (hchains p (hscanned p hp) m hm k)
  have hentry : ∀ m k, isLiveKey m k = true → isEntry m k = true := fun m k h => Bool.or_eq_true_iff.2 (.inl h)
  refine ⟨?_, fun hbeside hlive => ?_⟩
  · rw [hcheck]
    constructor
    · refine fun h =>
        ⟨fun ⟨p, hp, m, hm, k, hk, hdel⟩ => h.1 ⟨p, hp, m, hm, k, hk, Bool.or_eq_true_iff.2 (.inr hdel)⟩, h.2⟩
    · rintro ⟨hdeleted, hmissed⟩
      refine ⟨fun ⟨p, hp, m, hm, k, hk, h⟩ => ?_, hmissed⟩
      rcases Bool.or_eq_true_iff.1 h with h | h
      · exact ⟨p, hnear p hp, m, hm, k, hk, h⟩
      · exact hdeleted ⟨p, hp, m, hm, k, hk, h⟩
  · obtain ⟨p, hp, m, hm, k, hk, h⟩ := hlive
    exact someOther_near hs hleaf hstart hstop hbeside ⟨p, hp, m, hm, k, hk, hentry m k h⟩

/-! ## Entries of {a: 1} for a = 5 -/

/-- the entry of the document with this `_id` -/
def entryOf (id : Int32) : Key := encodeCompoundKey [(.int32 5, true), (.int32 id, true)]

def rangeStart : Key := encodeKey (.int32 5) ++ [COMPOUND_SEP]

def rangeStop : Key := encodeKey (.int32 5) ++ [COMPOUND_SEP + 1]

/-- with a base cell for one document, the install for another one is refused -/
theorem unique_install_exact_cell :
    compoundPrefixRangeExcludingTrailingId (entryOf 2) [true] = .ok (rangeStart, rangeStop) ∧
      checkUniquePrefixInstall (oneLeaf (OrdMap.empty.insert (entryOf 1) (.inline [1])) OrdMap.empty).store
        (fun _ => true)
        (entryOf 2) rangeStart rangeStop 1 = .error (.uniqueConflict (uniquePrefixPreview rangeStart)) := by
  have hother : Other (entryOf 2) rangeStart rangeStop (entryOf 1) := ⟨by decide, by decide, by decide⟩
  refine ⟨by decide, (unique_install_exact_iff _ [] [] (fun _ => true) (entryOf 2) rangeStart rangeStop 1 _
    (oneLeaf_sound _ _) rfl rfl (by decide) (by decide) (fun _ _ => rfl) ?_).1.2 ⟨fun _ => ?_, fun _ => ?_⟩ |>.2 ?_⟩
  · intro q hq m hm k
    cases mem_singleton.1 hq
    cases hm
    exact stacked_nil
  · exact ⟨1, mem_singleton.2 rfl, _, rfl, _, hother, by decide⟩
  · exact ⟨1, by decide, _, rfl, _, hother, by decide⟩
  · exact ⟨1, mem_singleton.2 rfl, _, rfl, _, hother, by decide⟩

/-- an entry that is inserted at 10 and deleted at 20 -/
def deletedEntry : Chain :=
  flipPendingInChain (pushPending (flipPendingInChain (pushPending [] ⟨10, 0⟩ 1 (.insert [1])) 1 (some ⟨10, 0⟩))
    ⟨20, 0⟩ 2 .delete) 2 (some ⟨20, 0⟩)

/-- **A deleted entry conflicts.** The value is free, but its tombstone is the live head of the chain, so that the
install for another document is refused. -/
theorem deleted_entry_conflicts :
    compoundPrefixRangeExcludingTrailingId (entryOf 2) [true] = .ok (rangeStart, rangeStop) ∧
      checkUniquePrefixInstall (oneLeaf OrdMap.empty (OrdMap.empty.insert (entryOf 1) deletedEntry)).store
        (fun _ => true) (entryOf 2) rangeStart rangeStop 1 = .error (.uniqueConflict (uniquePrefixPreview rangeStart)) ∧
      ¬ SomeOther (oneLeaf OrdMap.empty (OrdMap.empty.insert (entryOf 1) deletedEntry)).store [1]
        (entryOf 2) rangeStart rangeStop isLiveKey := by
  refine ⟨by decide, by decide, ?_⟩
  rintro ⟨q, hq, n, hn, k, -, hlive⟩
  cases mem_singleton.1 hq
  cases hn
  by_cases hk : k = entryOf 1
  · subst hk
    revert hlive
    decide
  · have hchain : (OrdMap.empty.insert (entryOf 1) deletedEntry).get? k = none := by
      rw [OrdMap.get?_insert, if_neg hk]
      rfl
    rw [isLiveKey, chainOf, hchain] at hlive
    cases hlive

end Mqlite.Index
