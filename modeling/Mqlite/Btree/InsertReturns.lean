/-
When an insertion returns.

A call on a tree can leave it higher than its root's level says (`Lost`); no further call returns then. Otherwise an
insertion returns, given that there are pages to be had, if the cell fits a leaf of its own and every internal node that
gets too large can be cut at its middle entry into halves that fit a page (`insert_returns_iff`).

The cut goes by the number of entries and the limit by bytes, so this does not always hold: two long separators beside
short ones may end up in one half (`Comb.fails`, `insert_fails_at_the_middle`). Nothing is checked beforehand, the
leaves have been split by then.
-/
import Mqlite.Btree.Deep

namespace Mqlite.Btree

open Lib Mvcc Storage List TreeOp InternalNode

/-! ## Trees that are too high -/

/-- the tree is higher than the level of its root says -/
def Lost (t : BTree) : Prop :=
  ∃ height inner leaves, Built t.store height t.rootPage inner leaves ∧ t.rootLevel < height

section Lost

variable {store store' : PageStore} {height level page q : ℕ} {lo hi : Option Key} {inner : Set ℕ} {leaves : List ℕ}
  {key : Key} {a : Allocator} {value : VersionData} {t : BTree}

/-- a descent that stops too early -/
theorem Spans.find_internal (h : Spans store height page lo hi inner leaves) (hkey : Within lo hi key)
    (hlevel : level < height) :
    ∃ p node, findLeaf store level page key = some p ∧ store p = some (.internal node) := by
  induction level generalizing height page lo hi inner leaves with
  | zero =>
    obtain ⟨height, rfl⟩ : ∃ k, height = k + 1 := ⟨height - 1, by omega⟩
    obtain ⟨first, items, below, hpage, -⟩ := h
    exact ⟨page, _, rfl, hpage⟩
  | succ level ih =>
    obtain ⟨height, rfl⟩ : ∃ k, height = k + 1 := ⟨height - 1, by omega⟩
    obtain ⟨first, items, below, hpage, -, -, hrow⟩ := h
    obtain ⟨-, -, lo', hi', innerC, -, -, leavesC, -, -, -, -, hkey', -, -, -, hspansC, -⟩ := hrow.focus hkey
    obtain ⟨p, node, hfind, hnode⟩ := ih hspansC hkey' (by omega)
    refine ⟨p, node, ?_, hnode⟩
    rw [findLeaf, hpage]
    simp only [findChild_ofRow]
    exact hfind

theorem childAt_findChildIdx (n : InternalNode) (key : Key) :
    n.childAt (n.findChildIdx key) = findChild n.entries n.rightmostChild key := by
  obtain ⟨entries, rightmost⟩ := n
  induction entries with
  | nil => rfl
  | cons e entries ih =>
    rw [findChild]
    by_cases h : key < e.1
    · simp [childAt, findChildIdx, findIdx_cons, h]
    · rw [← ih]
      simp [childAt, findChildIdx, findIdx_cons, h]

theorem insertSubtree_badPage (hfind : findLeaf store level page key = some q) (hq : ∀ n, store q ≠ some (.leaf n)) :
    insertSubtree a key value level page store = .error .badPage := by
  refine (insertSubtree_of_leaf hfind).1 _ ?_
  rw [insertLeaf, readLeaf]
  split
  next n hn => exact absurd hn (hq n)
  next => rfl

theorem deleteSubtree_badPage {path : Option (ℕ × ℕ)} (hfind : findLeaf t.store level page key = some q)
    (hq : ∀ n, t.store q ≠ some (.leaf n)) :
    deleteSubtree t key level page path = .error .badPage := by
  induction level generalizing page path with
  | zero =>
    cases hfind
    rw [deleteSubtree, deleteFromLeaf, readLeaf]
    split
    next n hn => exact absurd hn (hq n)
    next => rfl
  | succ level ih =>
    rw [findLeaf] at hfind
    split at hfind
    next node hnode =>
      rw [← childAt_findChildIdx] at hfind
      rw [deleteSubtree, bind_ok (readInternal_ok.2 hnode), ih hfind]
    next => cases hfind

theorem findLeaf_keeps (h : Spans store height page lo hi inner leaves) (hkey : Within lo hi key)
    (hkeeps : Keeps store store') (hlevel : level ≤ height) :
    findLeaf store' level page key = findLeaf store level page key := by
  induction level generalizing height page lo hi inner leaves with
  | zero => rfl
  | succ level ih =>
    obtain ⟨height, rfl⟩ : ∃ k, height = k + 1 := ⟨height - 1, by omega⟩
    obtain ⟨first, items, below, hpage, -, -, hrow⟩ := h
    obtain ⟨-, -, lo', hi', innerC, -, -, leavesC, -, -, -, -, hkey', -, -, -, hspansC, -⟩ := hrow.focus hkey
    rw [findLeaf, findLeaf, hkeeps page (by simp [hpage]), hpage]
    simp only [findChild_ofRow]
    exact ih hspansC hkey' (by omega)

theorem Lost.find (h : Lost t) (key : Key) :
    ∃ p node, findLeaf t.store t.rootLevel t.rootPage key = some p ∧ t.store p = some (.internal node) := by
  obtain ⟨height, inner, leaves, hbuilt, hlevel⟩ := h
  exact hbuilt.spans.find_internal ⟨by simp, by simp⟩ hlevel

theorem Lost.no_leaf (h : Lost t) {q : ℕ} (hfind : findLeaf t.store t.rootLevel t.rootPage key = some q)
    (n : LeafNode) :
    t.store q ≠ some (.leaf n) := by
  obtain ⟨p, node, hfind', hnode⟩ := h.find key
  rw [hfind] at hfind'
  cases hfind'
  simp [hnode]

theorem storeValue_error {v : Bytes} {e : TreeError} (h : storeValue a store v = .error e) : e = .alloc := by
  unfold storeValue at h
  split_ifs at h
  rcases bind_eq_error h with h | ⟨r, -, h⟩
  · rcases bind_eq_error h with h | ⟨r, -, h⟩
    · exact allocPages_error h
    · cases h
  · cases h

/-- nothing can be inserted into a tree that is too high -/
theorem Lost.insert (h : Lost t) (a : Allocator) (key : Key) (v : Bytes) :
    t.insert a key v = .error .alloc ∨ t.insert a key v = .error .badPage := by
  obtain ⟨height, inner, leaves, hbuilt, hlevel⟩ := h
  cases hstore : storeValue a t.store v with
  | error e =>
    rw [BTree.insert, hstore, storeValue_error hstore]
    exact .inl rfl
  | ok r =>
    obtain ⟨store₁, cell⟩ := r
    have hlost₁ : Lost { t with store := store₁ } :=
      ⟨height, inner, leaves, hbuilt.keeps (storeValue_keeps hstore), hlevel⟩
    obtain ⟨p, node, hfind, hnode⟩ := hlost₁.find key
    have hroot : insertRoot a { t with store := store₁ } key cell = .error .badPage := by
      rw [insertRoot, insertSubtree_badPage hfind fun n hn => by cases hnode.symm.trans hn]
      rfl
    rw [BTree.insert, bind_ok hstore]
    dsimp only
    rw [hroot]
    exact .inr rfl

theorem Lost.delete (h : Lost t) (key : Key) : t.delete key = .error .badPage := by
  obtain ⟨p, node, hfind, hnode⟩ := h.find key
  exact deleteSubtree_badPage hfind (by simp [hnode])

theorem Lost.readLeafForKey (h : Lost t) (key : Key) : t.readLeafForKey key = .error .badPage := by
  obtain ⟨p, node, hfind, hnode⟩ := h.find key
  rw [BTree.readLeafForKey, hfind]
  simp only [readLeaf, hnode]
  rfl

theorem Lost.replaceExisting (h : Lost t) (a : Allocator) (key : Key) (v : Bytes) :
    t.replaceExisting a key v = .error .badPage := by
  rw [BTree.replaceExisting, h.readLeafForKey key]
  rfl

/-- it is the last state of its run -/
theorem Lost.step (h : Lost t) (op : TreeOp) : op.step t = none := by
  unfold TreeOp.step
  cases op with
  | insert a key v => rcases h.insert a key v with he | he <;> rw [TreeOp.exec, he] <;> rfl
  | replaceExisting a key v =>
    rw [TreeOp.exec, h.replaceExisting a key v]
    rfl
  | delete key =>
    rw [TreeOp.exec, h.delete key]
    rfl

end Lost

/-! ## What every run leaves -/

section Runs

variable {t t' : BTree} {m : OrdMap Key Bytes}

theorem TreeOp.step_standing {op : TreeOp} (h : op.step t = some t') (hrep : Represents t m) :
    Represents t' (op.apply m) ∨ Lost t' := by
  obtain ⟨flag, hexec⟩ := step_eq h
  cases op with
  | insert a key value =>
    obtain ⟨grown, inner', leaves', chain', -, -, hlevel', hbuilt', hholding', -⟩ := insert_built hexec hrep
    by_cases hsmall : t.rootLevel + grown < 256
    · rw [Nat.mod_eq_of_lt hsmall] at hlevel'
      exact .inl ⟨by omega, inner', leaves', chain', by rwa [hlevel'], hholding'⟩
    · exact .inr ⟨_, inner', leaves', hbuilt', by rw [hlevel']; omega⟩
  | replaceExisting a key value => exact .inl (replaceExisting_represents hexec hrep)
  | delete key => exact .inl (delete_represents hexec hrep)

/-- **Every run** leaves a tree that holds the map of its calls, or one that is too high; its pages fit. -/
theorem run_standing {ops : List TreeOp} (hrun : run step t ops = some t') (hfit : PagesFit t.store)
    (hrep : Represents t m) :
    PagesFit t'.store ∧ (Represents t' (ops.foldl apply m) ∨ Lost t') := by
  induction ops generalizing t m with
  | nil =>
    cases hrun
    exact ⟨hfit, .inl hrep⟩
  | cons op ops ih =>
    obtain ⟨t₁, hstep, hrun⟩ := run_cons_some hrun
    have hfit₁ := step_pagesFit hstep hfit
    rcases step_standing hstep hrep with hrep₁ | hlost
    · exact ih hrun hfit₁ hrep₁
    · cases ops with
      | nil =>
        cases hrun
        exact ⟨hfit₁, .inr hlost⟩
      | cons op' ops =>
        obtain ⟨t₂, hstep', -⟩ := run_cons_some hrun
        rw [hlost.step op'] at hstep'
        cases hstep'

theorem create_standing {a : Allocator} {store : PageStore} {t₀ : BTree} {ops : List TreeOp} (hfit : PagesFit store)
    (hcreate : BTree.create a store = .ok t₀) (hrun : run step t₀ ops = some t) :
    PagesFit t.store ∧ (Represents t (ops.foldl apply .empty) ∨ Lost t) :=
  run_standing hrun ((create_ends pagesFit_stable hfit).of_ok hcreate) (create_represents hcreate)

end Runs

/-! ## Insert -/

/-- the tree has a leaf for the key; the key is there, or its cell fits a leaf of its own and everything that is written
to internal pages fits: both halves of a node that gets too large, and new roots -/
def Takes (t : BTree) (key : Key) (value : Bytes) : Prop :=
  ∃ q n, findLeaf t.store t.rootLevel t.rootPage key = some q ∧
  t.store q = some (.leaf n) ∧
    ((n.cells.get? key).isSome = true ∨ usedBytesForCells [(key, cellFor value)] ≤ PAGE_SIZE_LEAF ∧
      Fit (t.written key value))

section Insert

variable {t : BTree} {m : OrdMap Key Bytes} {a : Allocator} {key : Key} {value : Bytes}

theorem insert_isOk_iff (hrep : Represents t m) (hfit : PagesFit t.store)
    (halloc : t.insert a key value ≠ .error .alloc) : (∃ r, t.insert a key value = .ok r) ↔ Takes t key value := by
  obtain ⟨-, inner, leaves, -, hbuilt, -⟩ := hrep
  have hkey : Within none none key := ⟨by simp, by simp⟩
  cases hstore : storeValue a t.store value with
  | error e =>
    refine absurd ?_ halloc
    rw [BTree.insert, hstore, storeValue_error hstore]
    rfl
  | ok r =>
    obtain ⟨store₁, cell⟩ := r
    have hkeeps := storeValue_keeps hstore
    have hbuilt₁ := hbuilt.keeps hkeeps
    have hfit₁ : PagesFit store₁ := (storeValue_ends pagesFit_stable value hfit).of_ok hstore
    have hsize := storeValue_size hstore key
    obtain ⟨q, n, hfind, hq, hn, -⟩ := hbuilt.find key
    have hn₁ : store₁ q = some (.leaf n) := by rw [hkeeps q (by simp [hn]), hn]
    have hfind₁ : findLeaf store₁ t.rootLevel t.rootPage key = some q := by
      rw [findLeaf_keeps hbuilt.spans hkey hkeeps le_rfl, hfind]
    have htakes : Takes t key value ↔ (n.cells.get? key).isSome = true ∨
        usedBytesForCells [(key, cellFor value)] ≤ PAGE_SIZE_LEAF ∧ Fit (t.written key value) :=
      leafFound_iff hfind hn
    rw [BTree.insert, bind_ok hstore] at halloc ⊢
    dsimp only at halloc ⊢
    rw [htakes]
    by_cases hsome : (n.cells.get? key).isSome = true
    · -- the key is there
      rw [@insertRoot_duplicate a key cell { t with store := store₁ } q n hfind₁ hn₁ hsome]
      simp [hsome]
    · have hnone : n.cells.get? key = none := by simpa using hsome
      have houtcome :=
        @insertRoot_outcome a inner leaves key cell { t with store := store₁ } q n hbuilt₁ hfind₁ hn₁ hnone
      have hcell : usedBytesForCells [(key, cell)] = usedBytesForCells [(key, cellFor value)] := by
        rw [usedBytes_singleton, usedBytes_singleton, hsize]
      rw [hbuilt.growth_stored hstore, ← BTree.written, hbuilt₁.leafTakes_iff hfit₁ hq hn₁ hnone, hcell] at houtcome
      cases hroot : insertRoot a { t with store := store₁ } key cell with
      | ok t' =>
        rw [hroot] at houtcome
        exact iff_of_true ⟨_, rfl⟩ (.inr houtcome.2)
      | error e =>
        rw [hroot] at houtcome halloc
        rcases houtcome with rfl | ⟨hne, hnot⟩
        · exact absurd rfl halloc
        · refine iff_of_false ?_ fun h => hnot (h.resolve_left hsome)
          rintro ⟨r, hr⟩
          cases e <;> cases hr
          exact hne rfl

/-- **When an insertion returns**, on a tree made by successful calls and with pages to be had. -/
theorem insert_returns_iff {a₀ : Allocator} {store : PageStore} {t₀ : BTree} {ops : List TreeOp} (hfit : PagesFit store)
    (hcreate : BTree.create a₀ store = .ok t₀) (hrun : run TreeOp.step t₀ ops = some t)
    (halloc : t.insert a key value ≠ .error .alloc) : (∃ r, t.insert a key value = .ok r) ↔ Takes t key value := by
  obtain ⟨hfit', hrep | hlost⟩ := create_standing hfit hcreate hrun
  · exact insert_isOk_iff hrep hfit' halloc
  · refine iff_of_false ?_ ?_
    · rintro ⟨r, hr⟩
      rcases hlost.insert a key value with he | he <;> rw [he] at hr <;> cases hr
    · rintro ⟨q, n, hfind, hn, -⟩
      exact hlost.no_leaf hfind n hn

/-- a third key, into a tree with two leaves -/
theorem insert_returns_third_key : ∃ t₀ t, BTree.create .least (fun _ => none) = .ok t₀ ∧
    run TreeOp.step t₀ (longInserts fewerZeros (zeros 20000) 2) = some t ∧ t.rootLevel = 1 ∧
      (∃ r, t.insert .least (fewerZeros 2) (zeros 20000) = .ok r) ∧ Takes t (fewerZeros 2) (zeros 20000) := by
  obtain ⟨t₀, hcreate, hrun⟩ := run_longInserts steep_fewerZeros long_fewerZeros le_rfl
  obtain ⟨t, hrun, hdeep, -⟩ := hrun 1 (by decide)
  obtain ⟨t', hinsert, -⟩ :=
    hdeep.step steep_fewerZeros (fun _ => long_fewerZeros) (long_fewerZeros.separator 0 (Nat.zero_le _))
    (by decide) (by decide)
  have hfit : PagesFit fun _ => none := nofun
  have halloc : t.insert .least (fewerZeros 2) (zeros 20000) ≠ .error .alloc := by simp [hinsert]
  exact ⟨t₀, t, hcreate, hrun, hdeep.level, ⟨_, hinsert⟩, (insert_returns_iff hfit hcreate hrun halloc).1 ⟨_, hinsert⟩⟩

/-! ### A node that cannot be cut in the middle -/

/-- the separators after the keys up to n, the smallest one first -/
def separatorsBelow (keys : ℕ → Key) : ℕ → List Key
  | 0 => []
  | n + 1 => keys n :: separatorsBelow keys n

/-- one internal node above leaves with one cell each; the newest key is on the left -/
structure Comb (keys : ℕ → Key) (value : Bytes) (n : ℕ) (t : BTree) : Prop where
  built : ∃ inner leaves, Built t.store 1 t.rootPage inner leaves
  level : t.rootLevel = 1
  root : ∃ first items, t.store t.rootPage = some (.internal (ofRow first items)) ∧
    items.map Prod.fst = separatorsBelow keys n ∧ Spine keys value t.store n 0 first
  fit : PagesFit t.store
  bounded : Bounded t.store

variable {keys : ℕ → Key} {last n : ℕ}

theorem insertKey_separatorsBelow (hsteep : Steep keys value last) {k : ℕ} (hk : k ≤ n) (hn : n ≤ last) :
    insertKey (keys n) (separatorsBelow keys k) = keys n :: separatorsBelow keys k := by
  cases k with
  | zero => rfl
  | succ k => rw [separatorsBelow, insertKey, if_pos (hsteep.antitone (by omega) hn)]

theorem Comb.childFor (hsteep : Steep keys value last) (hn : n < last) {first : ℕ} {items : Items}
    (hitems : items.map Prod.fst = separatorsBelow keys n) : childFor first items (keys (n + 1)) = first := by
  cases items with
  | nil => rfl
  | cons e items =>
    cases n with
    | zero => cases hitems
    | succ n =>
      have he : e.1 = keys n := (List.cons.inj hitems).1
      rw [Btree.childFor, he, if_pos (hsteep.antitone (by omega) (by omega))]

/-- the row that gets the next separator -/
theorem Comb.path (h : Comb keys value n t) (hsteep : Steep keys value last) (hn : n < last) :
    pathPromotions t.store (keys (n + 1)) (.inline value) 1 t.rootPage =
      ((cutRow (separatorsBelow keys (n + 1))).1.2.map Prod.fst, (cutRow (separatorsBelow keys (n + 1))).2) := by
  obtain ⟨first, items, hroot, hitems, hspine⟩ := h.root
  have hleaf : pathPromotions t.store (keys (n + 1)) (.inline value) 0 first = ([keys n], []) := by
    refine Prod.ext (hspine.promotions hsteep (fun h0 => absurd h0 (lt_irrefl 0)) hn (Nat.zero_le n)).1 ?_
    rw [pathPromotions]
    split <;> rfl
  have hinsert := insertKey_separatorsBelow hsteep le_rfl hn.le
  rw [pathPromotions, hroot]
  simp only [findChild_ofRow, Comb.childFor hsteep hn hitems, map_fst_ofRow, hitems]
  rw [hleaf]
  simp only [promoteKeys, promoteKey, hinsert, append_nil, nil_append]
  rfl

/-- **One more key**, as long as the node has room for its separator -/
theorem Comb.step (h : Comb keys value n t) (hsteep : Steep keys value last) (hn : n < last)
    (hroom : keysSize (separatorsBelow keys (n + 1)) ≤ PAGE_SIZE_INTERNAL) :
    ∃ t', t.insert .least (keys (n + 1)) value = .ok (t', true) ∧ Comb keys value (n + 1) t' := by
  have hcut : cutRow (separatorsBelow keys (n + 1)) = ((separatorsBelow keys (n + 1), []), []) := by
    rw [cutRow, if_pos hroom]
  have hpath := h.path hsteep hn
  rw [hcut] at hpath
  obtain ⟨inner, leaves, hbuilt⟩ := h.built
  obtain ⟨first, items, hroot, hitems, hspine⟩ := h.root
  have hkey : Within none none (keys (n + 1)) := ⟨by simp, by simp⟩
  have hgrowth : t.growth (keys (n + 1)) (.inline value) = (0, []) := by
    simp only [BTree.growth, h.level, hpath]
    rfl
  obtain ⟨leaf, hleaf, hcells⟩ := hspine
  have hnone := (hsteep.entries hn hcells).1
  have hfind : findLeaf t.store 1 t.rootPage (keys (n + 1)) = some first := by
    rw [findLeaf, hroot]
    simp only [findChild_ofRow, Comb.childFor hsteep hn hitems]
    rfl
  have hfirst : first ∈ leaves := hbuilt.mem_of_find hfind
  have hbuilt₀ : Built t.store t.rootLevel t.rootPage inner leaves := h.level ▸ hbuilt
  have htakes := (hbuilt.leafTakes_iff h.fit hfirst hleaf hnone).2 (hsteep.alone (n + 1) hn)
  obtain ⟨t', ht'⟩ :=
    insertRoot_isOk hbuilt₀ h.bounded (h.level ▸ hfind) hleaf hnone htakes (by rw [hgrowth]; simp [Fit])
  refine ⟨t', hsteep.insert_eq .least t _ ht', ?_⟩
  have hfit' := (@insertRoot_ends _ pagesFit_stable .least t (keys (n + 1)) (.inline value) h.fit).of_ok ht'
  have hbounded' := (@insertRoot_ends _ bounded_stable .least t (keys (n + 1)) (.inline value) h.bounded).of_ok ht'
  obtain ⟨inner', leaves', hbuilt', hlevel', -⟩ := insertRoot_ok ht' (by rw [h.level]; decide) hbuilt₀
  rw [hgrowth, h.level] at hbuilt' hlevel'
  -- nothing goes up to the root
  rw [insertRoot, h.level] at ht'
  obtain ⟨⟨store₁, splits⟩, hsub, h₁⟩ := bind_eq_ok ht'
  have hkeys := @insertSubtree_keys .least t.store 1 t.rootPage none none inner leaves (keys (n + 1))
    (.inline value) first leaf hbuilt.spans hbuilt.nodup hkey hfind hleaf hnone
  rw [hsub, hpath] at hkeys
  obtain rfl : splits = [] := map_eq_nil_iff.1 hkeys.1
  cases h₁
  -- the leaf is split, and its new separator goes into the root
  rw [insertSubtree, bind_ok (readInternal_ok.2 hroot)] at hsub
  simp only [findChild_ofRow, Comb.childFor hsteep hn hitems] at hsub
  obtain ⟨⟨store₂, splits₁⟩, hchild, hsub₁⟩ := bind_eq_ok hsub
  obtain ⟨first', items', below, hroot', -, -, hrow⟩ := hbuilt.spans
  rw [hroot] at hroot'
  obtain ⟨rfl, rfl⟩ := ofRow_inj (Page.internal.inj (Option.some.inj hroot'))
  obtain ⟨-, -, lo, hi, innerC, -, _, leavesC, _, -, -, -, hkey', -, -, hsplit, hspans, -⟩ := hrow.focus hkey
  rw [Comb.childFor hsteep hn hitems] at hspans
  have hnodup : leavesC.Nodup := by
    have := hbuilt.nodup
    rw [hsplit] at this
    exact (nodup_append.1 (nodup_append.1 this).1).2.1
  have hspine : Spine keys value t.store n 0 first := ⟨leaf, hleaf, hcells⟩
  obtain ⟨p, rfl⟩ :=
    hspine.splits_eq hsteep (fun h0 => absurd h0 (lt_irrefl 0)) hn (Nat.zero_le n) hspans hnodup hkey' hchild
  obtain ⟨-, -, hat⟩ := hspans
  have hspine₂ := hspine.insertLeaf hsteep hn hat hkey' hchild rfl
  obtain ⟨leaf', new, hleaf', -, -, hchange, -⟩ := insertLeaf_ok hchild hat hkey'
  have hroot₂ : store₂ t.rootPage = some (.internal (ofRow first items)) :=
    hchange.other t.rootPage _ hroot (by simp) (by simp)
  obtain ⟨⟨store₃, split⟩, hinto, h₃⟩ := bind_eq_ok hsub₁
  change insertIntoInternal .least store₂ t.rootPage (keys (n - 0)) p = _ at hinto
  obtain ⟨htier, hnode⟩ := insertIntoInternal_ok hinto hroot₂
  obtain ⟨rfl, hout⟩ := Prod.mk.inj (Except.ok.inj h₃)
  obtain rfl : split = none := by
    cases split with
    | none => rfl
    | some e => cases hout
  refine ⟨⟨inner', leaves', hbuilt'⟩, hlevel', ⟨first, _, htier, ?_, ?_⟩, hfit', hbounded'⟩
  · rw [map_fst_insertItem, hitems, Nat.sub_zero, insertKey_separatorsBelow hsteep le_rfl hn.le]
    rfl
  · obtain ⟨leaf₂, hleaf₂, hcells₂⟩ := hspine₂
    refine ⟨leaf₂, ?_, hcells₂⟩
    rw [← hleaf₂]
    refine hnode.same first (fun hmem => ?_) (by simp [hleaf₂])
    rw [mem_singleton] at hmem
    rw [hmem, hroot] at hleaf
    cases hleaf

/-- a tree with two keys -/
theorem Deep.comb (h : Deep keys value 1 t) : Comb keys value 1 t := by
  obtain ⟨first, child, hroot, hspine⟩ := h.spine
  exact ⟨h.built, h.level, ⟨first, _, hroot, rfl, hspine⟩, h.fit, h.bounded⟩

/-- **A node with no room** for the next separator, of which a half is too large: the insertion fails. -/
theorem Comb.fails (h : Comb keys value n t) (hsteep : Steep keys value last) (hn : n < last)
    (hhalves : ¬ Fit (cutRow (separatorsBelow keys (n + 1))).2) :
    ∃ e, t.insert .least (keys (n + 1)) value = .error e ∧ e ≠ .alloc := by
  obtain ⟨inner, leaves, hbuilt⟩ := h.built
  have hbuilt₀ : Built t.store t.rootLevel t.rootPage inner leaves := h.level ▸ hbuilt
  obtain ⟨first, items, hroot, hitems, leaf, hleaf, hcells⟩ := h.root
  have hfind : findLeaf t.store t.rootLevel t.rootPage (keys (n + 1)) = some first := by
    rw [h.level, findLeaf, hroot]
    simp only [findChild_ofRow, Comb.childFor hsteep hn hitems]
    rfl
  have houtcome :=
    @insertRoot_outcome .least inner leaves (keys (n + 1)) (.inline value) t first leaf hbuilt₀ hfind hleaf
      (hsteep.entries hn hcells).1
  have hends := @insertRoot_ends _ bounded_stable .least t (keys (n + 1)) (.inline value) h.bounded
  have hnot : ¬ Fit (t.growth (keys (n + 1)) (.inline value)).2 := by
    simp only [BTree.growth, h.level, h.path hsteep hn]
    exact fun hfit => hhalves (fit_append.1 hfit).1
  rw [BTree.insert, bind_ok (storeValue_inline hsteep.inline)]
  dsimp only
  cases hr : insertRoot .least t (keys (n + 1)) (.inline value) with
  | ok t' =>
    rw [hr] at houtcome
    exact absurd houtcome.2.2 hnot
  | error e =>
    rw [hr] at houtcome hends
    have halloc : e ≠ .alloc := fun heq => not_full_least (hends heq)
    have hdup := (houtcome.resolve_left halloc).1
    refine ⟨e, ?_, halloc⟩
    cases e <;> first | rfl | exact absurd rfl hdup

end Insert

/-- two short keys, two long ones and a short one, in descending order -/
def unevenKeys : ℕ → Key
  | 0 => [9]
  | 1 => [8]
  | 2 => 7 :: zeros 2099
  | 3 => 6 :: zeros 2099
  | _ => [5]

theorem length_unevenKeys : (unevenKeys 0).length = 1 ∧ (unevenKeys 1).length = 1 ∧ (unevenKeys 2).length = 2100 ∧
    (unevenKeys 3).length = 2100 ∧ (unevenKeys 4).length = 1 := by
  simp only [unevenKeys, zeros, length_cons, length_nil, length_replicate]
  decide

theorem steep_unevenKeys : Steep unevenKeys (zeros 20000) 4 := by
  obtain ⟨h0, h1, h2, h3, h4⟩ := length_unevenKeys
  have hlength : ∀ i ≤ 4, (unevenKeys i).length ≤ 2100 := by
    intro i hi
    interval_cases i <;> omega
  refine ⟨fun i hi => ?_, ?_, fun i hi => ?_, fun i hi j hj => ?_⟩
  · interval_cases i <;> exact cons_lt_cons_iff.2 (.inl (by decide))
  · rw [zeros, length_replicate]
    decide
  · have := hlength i hi
    simp only [usedBytesForCells, LeafCell.encodedSize, cellEncodedSize, LEAF_HEADER_SIZE, PAGE_SIZE_LEAF,
      map_cons, map_nil, sum_cons, sum_nil, length_cons, length_nil, zeros, length_replicate]
    omega
  · simp only [usedBytesForCells, LeafCell.encodedSize, cellEncodedSize, LEAF_HEADER_SIZE, PAGE_SIZE_LEAF,
      map_cons, map_nil, sum_cons, sum_nil, length_cons, length_nil, zeros, length_replicate]
    omega

/-- **Four insertions that return Ok, and a fifth one that fails**: the node above the leaves is cut between a short
separator and two long ones, which do not fit one page. -/
theorem insert_fails_at_the_middle : ∃ t₀ t, BTree.create .least (fun _ => none) = .ok t₀ ∧
    run TreeOp.step t₀ (longInserts unevenKeys (zeros 20000) 4) = some t ∧
      (∀ i ≤ 4, keysSize [unevenKeys i] ≤ PAGE_SIZE_INTERNAL) ∧
      ∃ e, t.insert .least (unevenKeys 4) (zeros 20000) = .error e ∧ e ≠ .alloc := by
  obtain ⟨h0, h1, h2, h3, h4⟩ := length_unevenKeys
  have hsizes : ∀ l : List Key, keysSize l = 12 + (l.map fun k => 2 + k.length + 4).sum := fun _ => rfl
  obtain ⟨t₀, hcreate, hlevel, hroot, hfit, hbounded⟩ := create_least
  obtain ⟨t₁, hins₁, hdeep₀⟩ := Deep.first steep_unevenKeys hcreate hlevel hroot hfit hbounded
  have hfirst : keysSize [unevenKeys 0] ≤ PAGE_SIZE_INTERNAL := by
    rw [hsizes]
    simp [h0, PAGE_SIZE_INTERNAL]
  obtain ⟨t₂, hins₂, hdeep₁⟩ :=
    hdeep₀.step steep_unevenKeys (fun h => absurd h (lt_irrefl 0)) hfirst (by decide) (by decide)
  obtain ⟨t₃, hins₃, hcomb₂⟩ := hdeep₁.comb.step steep_unevenKeys (by decide) (by
    rw [hsizes]
    simp [separatorsBelow, h0, h1, PAGE_SIZE_INTERNAL])
  obtain ⟨t₄, hins₄, hcomb₃⟩ := hcomb₂.step steep_unevenKeys (by decide) (by
    rw [hsizes]
    simp [separatorsBelow, h0, h1, h2, PAGE_SIZE_INTERNAL])
  have hrun := longInserts_succ (longInserts_succ (longInserts_succ (longInserts_succ rfl hins₁) hins₂) hins₃) hins₄
  refine ⟨t₀, t₄, hcreate, hrun, fun i hi => ?_, hcomb₃.fails steep_unevenKeys (by decide) ?_⟩
  · rw [hsizes]
    interval_cases i <;> simp [h0, h1, h2, h3, h4, PAGE_SIZE_INTERNAL]
  · have hbig : ¬ keysSize (separatorsBelow unevenKeys 4) ≤ PAGE_SIZE_INTERNAL := by
      rw [hsizes]
      simp [separatorsBelow, h0, h1, h2, h3, PAGE_SIZE_INTERNAL]
    rw [@cutRow_mid _ [unevenKeys 3, unevenKeys 2] [unevenKeys 0] (unevenKeys 1) hbig rfl (by simp [separatorsBelow])]
    intro hfit
    have hleft := hfit [unevenKeys 3, unevenKeys 2] mem_cons_self
    rw [hsizes] at hleft
    simp [h2, h3, PAGE_SIZE_INTERNAL] at hleft

end Mqlite.Btree
