/-
The B+ tree as an ordered map.

`TreeOp` is a call of insert, `replace_existing` or delete; `TreeOp.step` performs it on a tree of pages and
`TreeOp.apply` on an `OrdMap`. A call that fails for another reason than a duplicate key is no step.

`Represents t m`: the tree has linked leaves, its cells have the keys of m, and each cell stands for the value that m
has (`Stored`), chains of different keys being in different pages. Every step keeps this (`TreeOp.step_represents`) as
long as the level of the root fits its byte. What it gives for a reader: `Represents.get` and `Represents.rangeScan`,
for values shorter than 2^32 bytes.

`tree_is_ordered_map`: a tree that is created empty and stays within these limits reads like the ordered map.
-/
import Mqlite.Btree.DeletePath
import Mqlite.Lib.Run

namespace Mqlite.Btree

open Lib Mvcc Storage List OrdMap Function Bool BTree

/-! ## Calls -/

namespace BTree

def createAt (store : PageStore) (rootPage : ℕ) : Except TreeError BTree := do
  let store ← writeLeaf store rootPage ⟨.empty, .empty, 0, 0⟩
  .ok ⟨store, rootPage, 0⟩

def create (a : Allocator) (store : PageStore) : Except TreeError BTree := do
  let (store, rootPage) ← allocPage a store
  createAt store rootPage

/-- the leaf that the descent for a key ends at -/
def readLeafForKey (t : BTree) (key : Key) : Except TreeError (ℕ × LeafNode) :=
  match findLeaf t.store t.rootLevel t.rootPage key with
  | none => .error .badPage
  | some page => do
    let n ← readLeaf t.store page
    .ok (page, n)

def search (t : BTree) (key : Key) : Except TreeError (Option VersionData) := do
  let (_, n) ← t.readLeafForKey key
  .ok (n.cells.get? key)

def get (t : BTree) (key : Key) : Except TreeError (Option Bytes) := do
  match ← t.search key with
  | none => .ok none
  | some value => do
    let bytes ← resolveCellValue t.store value
    .ok (some bytes)

/-- `false`: the key is not there -/
def replaceExisting (a : Allocator) (t : BTree) (key : Key) (value : Bytes) : Except TreeError (BTree × Bool) := do
  let (leafPage, n) ← t.readLeafForKey key
  match n.cells.get? key with
  | none => .ok (t, false)
  | some oldValue => do
    let (store, cell) ← storeValue a t.store value
    let store ← freeValue store oldValue
    let store ← writeLeaf store leafPage { n with cells := n.cells.insert key cell }
    .ok ({ t with store }, true)

/-- the cells from the start key on, up to the first one above the end key; true if there is such a cell -/
def scanCells (startKey endKey : Option Key) (n : LeafNode) : List LeafCell × Bool :=
  let cells := n.cells.entries.dropWhile fun c => startKey.any fun k => c.1 < k
  (cells.takeWhile fun c => !endKey.any fun k => k < c.1, cells.any fun c => endKey.any fun k => k < c.1)

/-- the walk over the leaves; the fuel is the number of leaves that may be visited -/
def scanLeaves (store : PageStore) (startKey endKey : Option Key) : ℕ → ℕ → Except TreeError (List LeafCell)
  | 0, _ => .error .badPage
  | fuel + 1, page => do
    let n ← readLeaf store page
    let (results, stopped) := scanCells startKey endKey n
    if stopped ∨ n.nextLeafPage = 0 then .ok results
    else do
      let rest ← scanLeaves store startKey endKey fuel n.nextLeafPage
      .ok (results ++ rest)

def scanStart (t : BTree) : Option Key → Option ℕ
  | some k => findLeaf t.store t.rootLevel t.rootPage k
  | none => leftmostLeaf t.store t.rootLevel t.rootPage

/-- values in overflow chains are not read -/
def rangeScan (t : BTree) (startKey endKey : Option Key) (fuel : ℕ) : Except TreeError (List LeafCell) :=
  match t.scanStart startKey with
  | none => .error .badPage
  | some page => scanLeaves t.store startKey endKey fuel page

/-- the caller reads the values -/
def readCells (t : BTree) (cells : List LeafCell) : Except TreeError (List (Key × Bytes)) :=
  cells.mapM fun c => do
    let bytes ← resolveCellValue t.store c.2
    .ok (c.1, bytes)

end BTree

/-- each call has an allocator of its own -/
inductive TreeOp where
  | insert (a : Allocator) (key : Key) (value : Bytes)
  | replaceExisting (a : Allocator) (key : Key) (value : Bytes)
  | delete (key : Key)

namespace TreeOp

def exec (t : BTree) : TreeOp → Except TreeError (BTree × Bool)
  | insert a key value => t.insert a key value
  | replaceExisting a key value => t.replaceExisting a key value
  | delete key => t.delete key

/-- a call that returns Ok, or DuplicateKey -/
def step (t : BTree) (op : TreeOp) : Option BTree := (op.exec t).toOption.map Prod.fst

/-- the same on an ordered map -/
def apply (m : OrdMap Key Bytes) : TreeOp → OrdMap Key Bytes
  | insert _ key value => if (m.get? key).isSome then m else m.insert key value
  | replaceExisting _ key value => if (m.get? key).isSome then m.insert key value else m
  | delete key => m.erase key

end TreeOp

/-! ## New pages do not matter -/

/-- pages in use stay as they are -/
def Keeps (store store' : PageStore) : Prop := ∀ p, store p ≠ none → store' p = store p

section Keeps

variable {store store' : PageStore} {height level root page : ℕ} {lo hi : Option Key} {inner : Set ℕ} {leaves : List ℕ}
  {key : Key} {cell : VersionData}

theorem Spans.keeps (h : Spans store level page lo hi inner leaves) (hkeeps : Keeps store store') :
    Spans store' level page lo hi inner leaves := by
  have hused := @Row.used store level page [] lo hi inner leaves h
  exact h.frame (fun p hp => hkeeps p (hused.1 p hp)) fun q hq => sameLeaf_of_eq (hkeeps q (hused.2 q hq))

theorem Built.leaf_keeps (h : Built store height root inner leaves) (hkeeps : Keeps store store') :
    ∀ q ∈ leaves, store' q = store q := by
  intro q hq
  obtain ⟨-, n, hn⟩ := h.spans.leaf q hq
  exact hkeeps q (by simp [hn])

theorem Built.keeps (h : Built store height root inner leaves) (hkeeps : Keeps store store') :
    Built store' height root inner leaves :=
  ⟨h.spans.keeps hkeeps, h.linked.frame (h.leaf_keeps hkeeps)⟩

theorem pathPromotions_keeps (h : Spans store level page lo hi inner leaves) (hkey : Within lo hi key)
    (hkeeps : Keeps store store') :
    pathPromotions store' key cell level page = pathPromotions store key cell level page := by
  induction level generalizing page lo hi inner leaves with
  | zero =>
    obtain ⟨-, rfl, -, n, hn, -⟩ := h
    rw [pathPromotions, pathPromotions, hkeeps page (by simp [hn])]
  | succ level ih =>
    obtain ⟨first, items, below, hpage, -, -, hrow⟩ := h
    obtain ⟨-, -, lo', hi', innerC, -, -, leavesC, -, -, -, -, hkey', -, -, -, hspansC, -⟩ := hrow.focus hkey
    rw [pathPromotions, pathPromotions, hkeeps page (by simp [hpage]), hpage]
    simp only [findChild_ofRow, ih hspansC hkey']

/-- a stored value takes pages that were not in use -/
theorem storeValue_keeps {a : Allocator} {value : Bytes} (h : storeValue a store value = .ok (store', cell)) :
    Keeps store store' := by
  obtain ⟨pages, -, hfresh, hsame⟩ := storeValue_ok h
  exact fun p hp => hsame p fun hmem => hp (hfresh p hmem)

theorem storeValue_size {a : Allocator} {value : Bytes}
    (h : storeValue a store value = .ok (store', cell)) (key : Key) :
    LeafCell.encodedSize (key, cell) = LeafCell.encodedSize (key, cellFor value) := by
  unfold storeValue at h
  unfold cellFor
  split_ifs at h ⊢ with hbig
  · obtain ⟨r, -, h₁⟩ := bind_eq_ok h
    cases h₁
    rfl
  · cases h
    rfl

end Keeps

/-! ## The tree and the map -/

/-- the cells have the map's keys and stand for its values; chains of different keys are in different pages -/
structure Holding (store : PageStore) (cells : List LeafCell) (m : OrdMap Key Bytes) (chain : Key → List ℕ) : Prop where
  stored : ∀ k d, (k, d) ∈ cells → ∃ v, m.get? k = some v ∧ Stored store d (chain k) v
  present : ∀ k v, m.get? k = some v → ∃ d, (k, d) ∈ cells
  apart : ∀ k d k' d', (k, d) ∈ cells → (k', d') ∈ cells → k ≠ k' → (chain k).Disjoint (chain k')

def Represents (t : BTree) (m : OrdMap Key Bytes) : Prop := t.rootLevel < 256 ∧ ∃ inner leaves chain,
  Built t.store t.rootLevel t.rootPage inner leaves ∧ Holding t.store (contents t.store leaves) m chain

section Holding

variable {store store' : PageStore} {cells cells' : List LeafCell} {m m' : OrdMap Key Bytes} {chain : Key → List ℕ}
  {key : Key} {value : Bytes} {cell : VersionData}

section

variable (h : Holding store cells m chain)

include h

theorem Holding.congr (hm : ∀ k, m'.get? k = m.get? k) : Holding store cells m' chain :=
  ⟨fun k d hd => by rw [hm]; exact h.stored k d hd, fun k v hv => h.present k v (hm k ▸ hv), h.apart⟩

/-- pages of chains are in use -/
theorem Holding.ne_none {k : Key} {d : VersionData} (hd : (k, d) ∈ cells) : ∀ p ∈ chain k, store p ≠ none := by
  intro p hp
  obtain ⟨v, -, hst⟩ := h.stored k d hd
  obtain ⟨data, next, hover⟩ := hst.overflow p hp
  simp [hover]

/-- no cell, no value -/
theorem Holding.absent {k : Key} (hk : ∀ d, (k, d) ∉ cells) : m.get? k = none := by
  cases hm : m.get? k with
  | none => rfl
  | some v =>
    obtain ⟨d, hd⟩ := h.present k v hm
    exact absurd hd (hk d)

theorem Holding.frame (hsame : ∀ k d, (k, d) ∈ cells → ∀ p ∈ chain k, store' p = store p) :
    Holding store' cells m chain := by
  refine ⟨fun k d hd => ?_, h.present, h.apart⟩
  obtain ⟨v, hv, hst⟩ := h.stored k d hd
  exact ⟨v, hv, hst.frame (hsame k d hd)⟩

/-- **A key gets another cell**, whose chain shares no page with those of other keys. -/
theorem Holding.set (hcells : CellsChange cells cells' key (some cell)) {pages : List ℕ}
    (hother : ∀ k d, (k, d) ∈ cells → k ≠ key → ∀ p ∈ chain k, store' p = store p)
    (hst : Stored store' cell pages value) (hapart : ∀ k d, (k, d) ∈ cells → k ≠ key → pages.Disjoint (chain k)) :
    Holding store' cells' (m.insert key value) (Function.update chain key pages) := by
  have hold : ∀ k d, (k, d) ∈ cells' → k ≠ key → (k, d) ∈ cells := by
    intro k d hd hk
    have := (hcells (k, d)).1 hd
    rwa [if_neg hk] at this
  refine ⟨fun k d hd => ?_, fun k v hv => ?_, fun k d k' d' hd hd' hne => ?_⟩
  · rw [get?_insert]
    by_cases hk : k = key
    · subst hk
      have := (hcells (k, d)).1 hd
      rw [if_pos rfl] at this
      cases this
      rw [update_self, if_pos rfl]
      exact ⟨value, rfl, hst⟩
    · rw [update_of_ne hk, if_neg hk]
      obtain ⟨v, hv, hst'⟩ := h.stored k d (hold k d hd hk)
      exact ⟨v, hv, hst'.frame (hother k d (hold k d hd hk) hk)⟩
  · rw [get?_insert] at hv
    split_ifs at hv with hk
    · exact ⟨cell, (hcells (k, cell)).2 (by simp [hk])⟩
    · obtain ⟨d, hd⟩ := h.present k v hv
      exact ⟨d, (hcells (k, d)).2 (by rwa [if_neg hk])⟩
  · by_cases hk : k = key
    · subst hk
      rw [update_self, update_of_ne hne.symm]
      exact hapart k' d' (hold k' d' hd' hne.symm) hne.symm
    · rw [update_of_ne hk]
      by_cases hk' : k' = key
      · subst hk'
        rw [update_self]
        exact (hapart k d (hold k d hd hk) hk).symm
      · rw [update_of_ne hk']
        exact h.apart k d k' d' (hold k d hd hk) (hold k' d' hd' hk') hne

/-- **A key loses its cell.** -/
theorem Holding.unset (hcells : CellsChange cells cells' key none)
    (hother : ∀ k d, (k, d) ∈ cells → k ≠ key → ∀ p ∈ chain k, store' p = store p) :
    Holding store' cells' (m.erase key) chain := by
  have hold : ∀ k d, (k, d) ∈ cells' → k ≠ key ∧ (k, d) ∈ cells := by
    intro k d hd
    have := (hcells (k, d)).1 hd
    split_ifs at this with hk
    exact ⟨hk, this⟩
  refine ⟨fun k d hd => ?_, fun k v hv => ?_,
    fun k d k' d' hd hd' => h.apart k d k' d' (hold k d hd).2 (hold k' d' hd').2⟩
  · obtain ⟨hk, hd⟩ := hold k d hd
    obtain ⟨v, hv, hst⟩ := h.stored k d hd
    rw [get?_erase, if_neg hk]
    exact ⟨v, hv, hst.frame (hother k d hd hk)⟩
  · rw [get?_erase] at hv
    split_ifs at hv with hk
    obtain ⟨d, hd⟩ := h.present k v hv
    exact ⟨d, (hcells (k, d)).2 (by rwa [if_neg hk])⟩

end

end Holding

/-! ## Steps -/

section Steps

variable {t t' : BTree} {m : OrdMap Key Bytes} {key : Key} {value : Bytes} {a : Allocator} {store : PageStore}

theorem createAt_represents {rootPage : ℕ} (h0 : rootPage ≠ 0) (h : createAt store rootPage = .ok t) :
    Represents t .empty := by
  obtain ⟨store₁, hwrite, h₁⟩ := bind_eq_ok h
  cases h₁
  obtain ⟨-, rfl⟩ := writeLeaf_ok.1 hwrite
  have hn := writePage_self store rootPage (.leaf ⟨.empty, .empty, 0, 0⟩)
  have hcells : contents (writePage store rootPage (.leaf ⟨.empty, .empty, 0, 0⟩)) [rootPage] = [] := by
    rw [contents_cons hn]
    rfl
  refine ⟨Nat.zero_lt_succ _, ∅, [rootPage], fun _ => [], ⟨⟨rfl, rfl, h0, _, hn, ?_⟩, ⟨_, hn, rfl, rfl⟩, trivial⟩, ?_⟩
  · rintro k (hk | hk) <;> cases hk
  · simp only [hcells]
    exact ⟨by simp, by simp, by simp⟩

theorem create_represents (h : create a store = .ok t) : Represents t .empty := by
  obtain ⟨⟨store₁, rootPage⟩, halloc, h₁⟩ := bind_eq_ok h
  exact createAt_represents (allocPage_ok halloc).1 h₁

variable {leaves : List ℕ} {inner : Set ℕ}

/-- the leaf for a key, and whether the key is in the map -/
theorem Built.find {height root : ℕ} (h : Built store height root inner leaves) (key : Key) :
    ∃ q n, findLeaf store height root key = some q ∧ q ∈ leaves ∧ store q = some (.leaf n) ∧
      ∀ d, (key, d) ∈ contents store leaves ↔ n.cells.get? key = some d := by
  obtain ⟨q, left, right, hfind, hleaves, -⟩ := h.spans.subtree.find key
  have hq : q ∈ leaves := hleaves ▸ by simp
  obtain ⟨-, n, hn⟩ := h.spans.leaf q hq
  refine ⟨q, n, hfind, hq, hn, fun d => ⟨fun hd => ?_, fun hget => mem_contents.2 ⟨q, hq, n, hn, hget⟩⟩⟩
  obtain ⟨p, hp, m, hm, hget⟩ := mem_contents.1 hd
  have hpq := h.spans.subtree.find_of_holds hp ⟨m, hm, .inl (by rw [hget]; rfl)⟩
  rw [hfind] at hpq
  cases hpq
  rw [hn] at hm
  cases hm
  exact hget

theorem Built.mem_of_find {height root q : ℕ}
    (h : Built store height root inner leaves) (hfind : findLeaf store height root key = some q) : q ∈ leaves := by
  obtain ⟨q', n, hfind', hq, -⟩ := h.find key
  rw [hfind] at hfind'
  cases hfind'
  exact hq

/-- what is said of the leaf for a key is said of the one that is found -/
theorem leafFound_iff {level page q : ℕ} {n : LeafNode} {P : LeafNode → Prop}
    (hfind : findLeaf store level page key = some q) (hn : store q = some (.leaf n)) :
    (∃ q n, findLeaf store level page key = some q ∧ store q = some (.leaf n) ∧ P n) ↔ P n := by
  constructor
  · rintro ⟨q', n', hfind', hn', h⟩
    rw [hfind] at hfind'
    cases hfind'
    rw [hn] at hn'
    cases hn'
    exact h
  · exact fun h => ⟨q, n, hfind, hn, h⟩

theorem readLeafForKey_ok {q : ℕ} {n : LeafNode} (hfind : findLeaf t.store t.rootLevel t.rootPage key = some q)
    (hn : t.store q = some (.leaf n)) : t.readLeafForKey key = .ok (q, n) := by
  rw [readLeafForKey, hfind]
  exact bind_ok (readLeaf_ok.2 hn) _

theorem replaceExisting_absent {q : ℕ} {n : LeafNode} (hfind : findLeaf t.store t.rootLevel t.rootPage key = some q)
    (hn : t.store q = some (.leaf n)) (hnone : n.cells.get? key = none) :
    t.replaceExisting a key value = .ok (t, false) := by
  rw [replaceExisting, bind_ok (readLeafForKey_ok hfind hn)]
  dsimp only
  rw [hnone]

/-- the growth is that of the tree before the value was stored -/
theorem Built.growth_stored {store₁ : PageStore} {cell : VersionData}
    (h : Built t.store t.rootLevel t.rootPage inner leaves) (hstore : storeValue a t.store value = .ok (store₁, cell)) :
    growth { t with store := store₁ } key cell = t.growth key (cellFor value) := by
  simp only [growth]
  rw [pathPromotions_keeps h.spans ⟨by simp, by simp⟩ (storeValue_keeps hstore),
    pathPromotions_congr _ _ (storeValue_size hstore key)]

/-- an insertion, with the levels that the tree has grown by -/
theorem insert_built {inserted : Bool} (h : t.insert a key value = .ok (t', inserted)) (hrep : Represents t m) :
    ∃ grown inner' leaves' chain', grown = (if (m.get? key).isSome then 0 else t.newLevels key value) ∧
      inserted = (m.get? key).isNone ∧ t'.rootLevel = (t.rootLevel + grown) % 256 ∧
      Built t'.store (t.rootLevel + grown) t'.rootPage inner' leaves' ∧
      Holding t'.store (contents t'.store leaves') ((TreeOp.insert a key value).apply m) chain' ∧
      SameChains t.store (leavesBelow t.store t.rootLevel t.rootPage) t'.store leaves' := by
  obtain ⟨hlevel0, inner, leaves, chain, hbuilt, hholding⟩ := hrep
  obtain ⟨⟨store₁, cell⟩, hstore, h₁⟩ := bind_eq_ok h
  dsimp only at h₁
  have hkeeps := storeValue_keeps hstore
  obtain ⟨pages, hst, hfresh, -⟩ := storeValue_ok hstore
  have hbuilt₁ := hbuilt.keeps hkeeps
  have hcontents₁ : contents store₁ leaves = contents t.store leaves := contents_congr (hbuilt.leaf_keeps hkeeps)
  have hchains₁ : SameChains t.store leaves store₁ leaves := sameChains_congr (hbuilt.leaf_keeps hkeeps)
  have hholding₁ : Holding store₁ (contents store₁ leaves) m chain := by
    rw [hcontents₁]
    exact hholding.frame fun k d hd p hp => hkeeps p (hholding.ne_none hd p hp)
  obtain ⟨q, n, hfind, hq, hn, hmem⟩ := hbuilt₁.find key
  rw [hbuilt.spans.leavesBelow_eq]
  rw [TreeOp.apply]
  cases hget : n.cells.get? key with
  | some d =>
    -- the key is there
    rw [insertRoot_duplicate hfind hn (by rw [hget]; rfl)] at h₁
    cases h₁
    obtain ⟨v, hv, -⟩ := hholding₁.stored key d ((hmem d).2 hget)
    have hsome : (m.get? key).isSome = true := by
      rw [hv]
      rfl
    simp only [if_pos hsome]
    exact ⟨0, inner, leaves, chain, rfl, by rw [hv]; rfl, (Nat.mod_eq_of_lt hlevel0).symm, hbuilt₁, hholding₁, hchains₁⟩
  | none =>
    have habsent : m.get? key = none := hholding₁.absent fun d hd => by simp [hmem, hget] at hd
    have hnone : ¬(m.get? key).isSome = true := by simp [habsent]
    simp only [if_neg hnone]
    cases hroot : insertRoot a { t with store := store₁ } key cell with
    | error e =>
      rw [hroot] at h₁
      have houtcome : Outcome (insertRoot a { t with store := store₁ } key cell) _ _ :=
        insertRoot_outcome hbuilt₁ hfind hn hget
      rw [hroot] at houtcome
      cases e <;> cases h₁
      rcases houtcome with heq | ⟨hne, -⟩
      · cases heq
      · exact absurd rfl hne
    | ok t₁ =>
      rw [hroot] at h₁
      cases h₁
      obtain ⟨inner', leaves', hbuilt', hlevel', hcells, -, hover, hchains⟩ := insertRoot_ok hroot hlevel0 hbuilt₁
      rw [hbuilt.growth_stored hstore] at hbuilt' hlevel'
      refine ⟨_, inner', leaves', _, rfl, by rw [habsent]; rfl, hlevel', hbuilt',
        hholding₁.set hcells (fun k d hd _ p hp => ?_) (hst.frame fun p hp => ?_)
        fun k d hd _ => ?_, hchains₁.trans hchains⟩
      · obtain ⟨v, -, hst'⟩ := hholding₁.stored k d hd
        obtain ⟨data, next, hp'⟩ := hst'.overflow p hp
        rw [hp', hover p data next hp']
      · obtain ⟨data, next, hp'⟩ := hst.overflow p hp
        rw [hp', hover p data next hp']
      · intro p hp hpk
        rw [hcontents₁] at hd
        exact hholding.ne_none hd p hpk (hfresh p hp)

theorem insert_represents {inserted : Bool} (h : t.insert a key value = .ok (t', inserted)) (hrep : Represents t m)
    (hlevel : t.rootLevel + t.newLevels key value < 256) : Represents t' ((TreeOp.insert a key value).apply m) := by
  obtain ⟨grown, inner', leaves', chain', hgrown, -, hlevel', hbuilt', hholding', -⟩ := insert_built h hrep
  have hle : grown ≤ t.newLevels key value := by
    rw [hgrown]
    split_ifs
    · exact Nat.zero_le _
    · exact le_rfl
  rw [Nat.mod_eq_of_lt (by omega)] at hlevel'
  exact ⟨by omega, inner', leaves', chain', by rwa [hlevel'], hholding'⟩

theorem delete_represents {found : Bool} (h : t.delete key = .ok (t', found)) (hrep : Represents t m) :
    Represents t' ((TreeOp.delete key).apply m) := by
  obtain ⟨hlevel, inner, leaves, chain, hbuilt, hholding⟩ := hrep
  have hstored : ∀ cell, (key, cell) ∈ contents t.store leaves →
      Stored t.store cell (chain key) ((m.get? key).getD []) := by
    intro cell hcell
    obtain ⟨v, hv, hst⟩ := hholding.stored key cell hcell
    rwa [hv]
  rw [TreeOp.apply]
  rcases t.delete_ok h hbuilt hstored with ⟨-, rfl, habsent⟩ | ⟨-, ⟨cell, hcell⟩, inner', leaves', hdeleted, -⟩
  · refine ⟨hlevel, inner, leaves, chain, hbuilt, hholding.congr fun k => ?_⟩
    rw [get?_erase]
    split_ifs with hk
    · rw [hk, hholding.absent habsent]
    · rfl
  · refine ⟨hdeleted.level.trans_lt hlevel, inner', leaves', chain, hdeleted.built,
      hholding.unset hdeleted.cells fun k d hd hk p hp => ?_⟩
    obtain ⟨v, -, hst⟩ := hholding.stored k d hd
    obtain ⟨data, next, hp'⟩ := hst.overflow p hp
    rw [hp', hdeleted.overflow p data next hp' fun hpk => hholding.apart k d key cell hd hcell hk hp hpk]

theorem replaceExisting_represents {found : Bool} (h : t.replaceExisting a key value = .ok (t', found))
    (hrep : Represents t m) :
    Represents t' ((TreeOp.replaceExisting a key value).apply m) := by
  obtain ⟨hlevel, inner, leaves, chain, hbuilt, hholding⟩ := hrep
  obtain ⟨q, n, hfind, hq, hn, hmem⟩ := hbuilt.find key
  rw [TreeOp.apply]
  cases hget : n.cells.get? key with
  | none =>
    rw [replaceExisting_absent hfind hn hget] at h
    cases h
    rw [hholding.absent fun d hd => by simp [hmem, hget] at hd]
    exact ⟨hlevel, inner, leaves, chain, hbuilt, hholding⟩
  | some old =>
    rw [replaceExisting, bind_ok (readLeafForKey_ok hfind hn)] at h
    dsimp only at h
    rw [hget] at h
    obtain ⟨⟨store₁, cell⟩, hstore, h₁⟩ := bind_eq_ok h
    obtain ⟨store₂, hfree, h₂⟩ := bind_eq_ok h₁
    obtain ⟨store₃, hwrite, h₃⟩ := bind_eq_ok h₂
    cases h₃
    obtain ⟨-, rfl⟩ := writeLeaf_ok.1 hwrite
    have hkeeps := storeValue_keeps hstore
    obtain ⟨pages, hst, hfresh, -⟩ := storeValue_ok hstore
    have hbuilt₁ := hbuilt.keeps hkeeps
    have hcontents₁ : contents store₁ leaves = contents t.store leaves := contents_congr (hbuilt.leaf_keeps hkeeps)
    have hholding₁ : Holding store₁ (contents store₁ leaves) m chain := by
      rw [hcontents₁]
      exact hholding.frame fun k d hd p hp => hkeeps p (hholding.ne_none hd p hp)
    have hn₁ : store₁ q = some (.leaf n) := (hbuilt.leaf_keeps hkeeps q hq).trans hn
    have hold : (key, old) ∈ contents store₁ leaves := hcontents₁ ▸ (hmem old).2 hget
    obtain ⟨v, hv, hstOld⟩ := hholding₁.stored key old hold
    have hsame := (hstOld.free hfree).2
    obtain ⟨hwritten, hbuilt₂, hcells⟩ :=
      hbuilt₁.setLeaf hq hn₁ hsame hstOld.overflow hget (cellsChange_insert n.cells key cell)
    rw [if_pos (by rw [hv]; rfl)]
    -- pages of the new chain and of other keys' chains are neither the leaf nor pages of the old chain
    have hnotLeaf : ∀ p, (∃ data next, store₁ p = some (.overflow data next)) → p ≠ q := by
      rintro p ⟨data, next, hp⟩ rfl
      rw [hn₁] at hp
      cases hp
    refine ⟨hlevel, inner, leaves, _, hbuilt₂,
      hholding₁.set hcells (fun k d hd hk p hp => ?_) (hst.frame fun p hp => ?_) fun k d hd hk => ?_⟩
    · obtain ⟨v', -, hst'⟩ := hholding₁.stored k d hd
      exact hwritten.same p (hnotLeaf p (hst'.overflow p hp)) fun hpk => hholding₁.apart k d key old hd hold hk hp hpk
    · refine hwritten.same p (hnotLeaf p (hst.overflow p hp)) fun hpk => ?_
      rw [hcontents₁] at hold
      exact hholding.ne_none hold p hpk (hfresh p hp)
    · intro p hp hpk
      rw [hcontents₁] at hd
      exact hholding.ne_none hd p hpk (hfresh p hp)

/-- the level of the root still fits its byte -/
def TreeOp.LevelFits (t : BTree) : TreeOp → Prop
  | .insert _ key value => t.rootLevel + t.newLevels key value < 256
  | _ => True

theorem TreeOp.step_eq {op : TreeOp} (h : op.step t = some t') : ∃ flag, op.exec t = .ok (t', flag) := by
  unfold TreeOp.step at h
  cases hexec : op.exec t with
  | error e =>
    rw [hexec] at h
    cases h
  | ok r =>
    rw [hexec] at h
    cases h
    exact ⟨r.2, rfl⟩

/-- **One call.** -/
theorem TreeOp.step_represents {op : TreeOp} (h : op.step t = some t') (hrep : Represents t m)
    (hlevel : op.LevelFits t) :
    Represents t' (op.apply m) := by
  obtain ⟨flag, hexec⟩ := TreeOp.step_eq h
  cases op with
  | insert a key value => exact insert_represents hexec hrep hlevel
  | replaceExisting a key value => exact replaceExisting_represents hexec hrep
  | delete key => exact delete_represents hexec hrep

end Steps

/-! ## Reads -/

/-- the keys that a scan returns; both ends are included -/
def inRange (startKey endKey : Option Key) (k : Key) : Bool :=
  !(startKey.any fun s => k < s) && !(endKey.any fun e => e < k)

section Reads

variable {store : PageStore} {startKey endKey : Option Key}

theorem takeWhile_dropWhile_eq {α : Type} {R : α → α → Prop} {p : α → Bool} {l : List α} (h : l.Pairwise R)
    (hp : ∀ x y, R x y → p y = true → p x = true) :
    l.takeWhile p = l.filter p ∧ l.dropWhile p = l.filter fun x => !p x := by
  induction l with
  | nil => exact ⟨rfl, rfl⟩
  | cons x l ih =>
    obtain ⟨hl, h⟩ := pairwise_cons.1 h
    by_cases hx : p x = true
    · simp [hx, ih h]
    · have hrest : ∀ y ∈ l, p y = false := fun y hy => eq_false_iff.2 fun hpy => hx (hp x y (hl y hy) hpy)
      rw [takeWhile_cons_of_neg hx, dropWhile_cons_of_neg hx, filter_cons_of_neg hx, filter_cons_of_pos (by simp [hx])]
      refine ⟨(filter_eq_nil_iff.2 fun y hy => ?_).symm, congrArg (x :: ·) (filter_eq_self.2 fun y hy => ?_).symm⟩
      · simp [hrest y hy]
      · simp [hrest y hy]

theorem scanCells_eq (n : LeafNode) :
    (scanCells startKey endKey n).1 = n.cells.entries.filter fun c => inRange startKey endKey c.1 := by
  have hstart : ∀ x y : LeafCell, x.1 < y.1 → (startKey.any fun k => y.1 < k) = true →
      (startKey.any fun k => x.1 < k) = true := by
    intro x y hxy hy
    cases startKey with
    | none => cases hy
    | some k => exact decide_eq_true (hxy.trans (of_decide_eq_true hy))
  have hend : ∀ x y : LeafCell, x.1 < y.1 → (!endKey.any fun k => k < y.1) = true →
      (!endKey.any fun k => k < x.1) = true := by
    intro x y hxy hy
    cases endKey with
    | none => rfl
    | some k =>
      simp only [Option.any_some, not_eq_true', decide_eq_false_iff_not, not_lt] at hy ⊢
      exact hxy.le.trans hy
  rw [scanCells, (takeWhile_dropWhile_eq n.cells.sorted hstart).2,
    (takeWhile_dropWhile_eq (n.cells.sorted.filter _) hend).1, filter_filter]
  refine List.filter_congr fun c _ => ?_
  rw [inRange, Bool.and_comm]

/-- **The walk over the leaves.** -/
theorem scanLeaves_eq {prev q : ℕ} {right : List ℕ} (hlinked : Linked store prev (q :: right) 0)
    (h0 : ∀ p ∈ right, p ≠ 0)
    (hsorted : (contents store (q :: right)).Pairwise fun a b => a.1 < b.1) {fuel : ℕ} (hfuel : right.length < fuel) :
    scanLeaves store startKey endKey fuel q =
      .ok ((contents store (q :: right)).filter fun c => inRange startKey endKey c.1) := by
  induction right generalizing prev q fuel with
  | nil =>
    obtain ⟨⟨n, hn, -, hnext⟩, -⟩ := hlinked
    obtain ⟨fuel, rfl⟩ : ∃ f, fuel = f + 1 := ⟨fuel - 1, by omega⟩
    rw [scanLeaves, bind_ok (readLeaf_ok.2 hn)]
    dsimp only
    rw [if_pos (.inr (show n.nextLeafPage = 0 from hnext)), scanCells_eq, contents_cons hn, contents_nil, append_nil]
  | cons r right ih =>
    obtain ⟨⟨n, hn, -, hnext⟩, hrest⟩ := hlinked
    obtain ⟨fuel, rfl⟩ : ∃ f, fuel = f + 1 := ⟨fuel - 1, by omega⟩
    rw [forall_mem_cons] at h0
    rw [contents_cons hn] at hsorted ⊢
    obtain ⟨-, hsortedR, hcross⟩ := pairwise_append.1 hsorted
    rw [scanLeaves, bind_ok (readLeaf_ok.2 hn)]
    dsimp only
    rw [filter_append, scanCells_eq]
    by_cases hstop : (scanCells startKey endKey n).2 = true
    · rw [if_pos (.inl hstop)]
      have hnil : (contents store (r :: right)).filter (fun c => inRange startKey endKey c.1) = [] := by
        refine filter_eq_nil_iff.2 fun c hc => ?_
        obtain ⟨d, hd, habove⟩ := any_eq_true.1 hstop
        cases endKey with
        | none => cases habove
        | some e =>
          have hlt : e < c.1 := (of_decide_eq_true habove).trans (hcross d ((dropWhile_sublist _).subset hd) c hc)
          simp [inRange, hlt]
      rw [hnil, append_nil]
    · have hnext' : n.nextLeafPage = r := hnext
      rw [if_neg (by rw [hnext']; exact not_or.2 ⟨hstop, h0.1⟩), hnext']
      exact bind_ok (ih hrest h0.2 hsortedR (by simpa using hfuel)) _

theorem mapM_ok {α β : Type} {f : α → Except TreeError β} {g : α → β} {l : List α} (h : ∀ x ∈ l, f x = .ok (g x)) :
    l.mapM f = .ok (l.map g) := by
  induction l with
  | nil => rfl
  | cons x l ih =>
    rw [forall_mem_cons] at h
    rw [mapM_cons, bind_ok h.1, bind_ok (ih h.2)]
    rfl

variable {t : BTree} {m : OrdMap Key Bytes}

/-- values that fit their length field -/
def Short (m : OrdMap Key Bytes) : Prop := ∀ k v, m.get? k = some v → v.length < 2 ^ 32

/-- **`get` reads the map.** -/
theorem Represents.get (h : Represents t m) (hshort : Short m) (k : Key) : t.get k = .ok (m.get? k) := by
  obtain ⟨-, inner, leaves, chain, hbuilt, hholding⟩ := h
  obtain ⟨q, n, hfind, hq, hn, hmem⟩ := hbuilt.find k
  have hsearch : t.search k = .ok (n.cells.get? k) := bind_ok (readLeafForKey_ok hfind hn) _
  rw [BTree.get, bind_ok hsearch]
  cases hget : n.cells.get? k with
  | none =>
    rw [hholding.absent fun d hd => by simp [hmem, hget] at hd]
  | some d =>
    obtain ⟨v, hv, hst⟩ := hholding.stored k d ((hmem d).2 hget)
    rw [hv]
    exact bind_ok (hst.resolve (hshort k v hv)) _

/-- the cells with their values are the map's entries -/
theorem Holding.entries {cells : List LeafCell} {chain : Key → List ℕ} (h : Holding store cells m chain)
    (hsorted : cells.Pairwise fun a b => a.1 < b.1) : cells.map (fun c => (c.1, (m.get? c.1).getD [])) = m.entries := by
  refine List.Pairwise.eq_of_mem_iff (pairwise_map.2 hsorted) m.sorted fun e => ?_
  rw [mem_map, ← get?_eq_some_iff]
  constructor
  · rintro ⟨c, hc, heq⟩
    obtain ⟨v, hv, -⟩ := h.stored c.1 c.2 hc
    rw [hv, Prod.mk.injEq] at heq
    rw [← heq.1, ← heq.2]
    exact hv
  · intro hget
    obtain ⟨d, hd⟩ := h.present e.1 e.2 hget
    exact ⟨(e.1, d), hd, by rw [hget]; rfl⟩

/-- **A scan reads the map's entries** in its range. -/
theorem Represents.rangeScan (h : Represents t m) (hshort : Short m) (startKey endKey : Option Key) :
    ∃ N, ∀ fuel, N ≤ fuel → ∃ cells, t.rangeScan startKey endKey fuel = .ok cells ∧
      t.readCells cells = .ok (m.entries.filter fun e => inRange startKey endKey e.1) := by
  obtain ⟨-, inner, leaves, chain, hbuilt, hholding⟩ := h
  have hsorted := hbuilt.spans.contents_sorted
  -- the first leaf; keys before it are below the start
  obtain ⟨q, left, right, hstart, rfl, hbefore⟩ : ∃ q left right, t.scanStart startKey = some q ∧
      leaves = left ++ q :: right ∧ ∀ c ∈ contents t.store left, inRange startKey endKey c.1 = false := by
    cases startKey with
    | none =>
      obtain ⟨q, right, hfirst, rfl⟩ := hbuilt.spans.subtree.leftmost
      exact ⟨q, [], right, hfirst, rfl, by simp⟩
    | some k =>
      obtain ⟨q, left, right, hfind, rfl, hsmall, -⟩ := hbuilt.spans.subtree.find k
      refine ⟨q, left, right, hfind, rfl, fun c hc => ?_⟩
      obtain ⟨p, hp, n, hn, hget⟩ := mem_contents.1 hc
      have hlt := hsmall p hp c.1 ⟨n, hn, .inl (by rw [hget]; rfl)⟩
      simp [inRange, hlt]
  have hlinked := (linked_append.1 hbuilt.linked).2
  have h0 : ∀ p ∈ right, p ≠ 0 := fun p hp => (hbuilt.spans.leaf p (by simp [hp])).1
  rw [contents_append] at hsorted
  have hscan := fun fuel (hfuel : right.length < fuel) =>
    @scanLeaves_eq t.store startKey endKey _ q right hlinked h0 (pairwise_append.1 hsorted).2.1 fuel hfuel
  have hread : t.readCells ((contents t.store (q :: right)).filter fun c => inRange startKey endKey c.1) =
      .ok (((contents t.store (q :: right)).filter fun c => inRange startKey endKey c.1).map fun c =>
        (c.1, (m.get? c.1).getD [])) := by
    refine mapM_ok fun c hc => ?_
    have hcell : c ∈ contents t.store (left ++ q :: right) := by
      rw [contents_append]
      exact mem_append_right _ (mem_filter.1 hc).1
    obtain ⟨v, hv, hst⟩ := hholding.stored c.1 c.2 hcell
    rw [bind_ok (hst.resolve (hshort c.1 v hv)), hv]
    rfl
  have hentries : m.entries.filter (fun e => inRange startKey endKey e.1) =
      ((contents t.store (q :: right)).filter fun c => inRange startKey endKey c.1).map fun c =>
        (c.1, (m.get? c.1).getD []) := by
    have hleft : (contents t.store left).filter (fun c => inRange startKey endKey c.1) = [] :=
      filter_eq_nil_iff.2 fun c hc => by rw [hbefore c hc]; exact false_ne_true
    rw [← hholding.entries hbuilt.spans.contents_sorted, filter_map, contents_append, filter_append]
    change List.map _ ((contents t.store left).filter (fun c => inRange startKey endKey c.1) ++ _) = _
    rw [hleft]
    rfl
  refine ⟨right.length + 1, fun fuel hfuel => ⟨_, ?_, hread.trans (congrArg _ hentries.symm)⟩⟩
  rw [BTree.rangeScan, hstart]
  exact hscan fuel hfuel

end Reads

/-! ## Runs -/

/-- the call's value is shorter than 2^32 bytes, and the level of the root still fits its byte -/
def TreeOp.Fits (t : BTree) (op : TreeOp) : Prop := op.LevelFits t ∧ match op with
  | .insert _ _ value => value.length < 2 ^ 32
  | .replaceExisting _ _ value => value.length < 2 ^ 32
  | .delete _ => True

instance (t : BTree) (op : TreeOp) : Decidable (op.Fits t) := by
  cases op <;> unfold TreeOp.Fits TreeOp.LevelFits <;> infer_instance

section Runs

variable {t t' : BTree} {m : OrdMap Key Bytes}

theorem TreeOp.apply_short {op : TreeOp} (h : op.Fits t) (hshort : Short m) : Short (op.apply m) := by
  have hinsert : ∀ key value, value.length < 2 ^ 32 → Short (m.insert key value) := by
    intro key value hv k v hk
    rw [get?_insert] at hk
    split_ifs at hk
    · cases hk
      exact hv
    · exact hshort k v hk
  cases op with
  | insert a key value =>
    rw [TreeOp.apply]
    split_ifs
    · exact hshort
    · exact hinsert key value h.2
  | replaceExisting a key value =>
    rw [TreeOp.apply]
    split_ifs
    · exact hinsert key value h.2
    · exact hshort
  | delete key =>
    intro k v hk
    rw [TreeOp.apply, get?_erase] at hk
    split_ifs at hk
    exact hshort k v hk

theorem run_represents {ops : List TreeOp} (hrun : run TreeOp.step t ops = some t')
    (hfits : Along TreeOp.step (fun t op => op.Fits t) t ops) (hrep : Represents t m) (hshort : Short m) :
    Represents t' (ops.foldl TreeOp.apply m) ∧ Short (ops.foldl TreeOp.apply m) := by
  induction ops generalizing t m with
  | nil =>
    cases hrun
    exact ⟨hrep, hshort⟩
  | cons op ops ih =>
    obtain ⟨t₁, hstep, hrun⟩ := run_cons_some hrun
    exact ih hrun (hfits.2 t₁ hstep) (TreeOp.step_represents hstep hrep hfits.1.1) (TreeOp.apply_short hfits.1 hshort)

/-- separators ascend in every internal node -/
theorem Spans.keys_sorted {store : PageStore} {level page : ℕ} {lo hi : Option Key} {inner : Set ℕ} {leaves : List ℕ}
    (h : Spans store level page lo hi inner leaves) : ∀ p ∈ inner, ∀ node, store p = some (.internal node) →
      node.entries.Pairwise fun a b => a.1 < b.1 := by
  induction level generalizing page lo hi inner leaves with
  | zero =>
    obtain ⟨rfl, -⟩ := h
    simp
  | succ level ih =>
    obtain ⟨first, items, below, hpage, -, rfl, hrow⟩ := h
    rintro p (rfl | hp) node hnode
    · rw [hpage] at hnode
      cases hnode
      have hkeys : (items.map Prod.fst).Pairwise (· < ·) := pairwise_map.2 hrow.sorted
      rw [← map_fst_ofRow first] at hkeys
      exact pairwise_map.1 hkeys
    · exact hrow.forall_inner (fun _ _ _ _ _ hP => ih hP) p hp node hnode

/-- **The tree is an ordered map.** After any calls on a tree created empty, of which each returned Ok or DuplicateKey:
if no value was too long for its length field and the level of the root never outgrew its byte, then `get` and
`range_scan` read the ordered map that the same calls give; keys ascend in every node, separators bound the trees beside
them, all leaves are at the same depth, and the sibling links run through them in order. -/
theorem tree_is_ordered_map {a : Allocator} {store : PageStore} {t₀ t : BTree} {ops : List TreeOp}
    (hcreate : BTree.create a store = .ok t₀)
    (hrun : run TreeOp.step t₀ ops = some t) (hfits : Along TreeOp.step (fun t op => op.Fits t) t₀ ops) :
    (∀ k, t.get k = .ok ((ops.foldl TreeOp.apply .empty).get? k)) ∧
      (∀ startKey endKey, ∃ N, ∀ fuel, N ≤ fuel → ∃ cells, t.rangeScan startKey endKey fuel = .ok cells ∧
        t.readCells cells = .ok ((ops.foldl TreeOp.apply .empty).entries.filter fun e => inRange startKey endKey e.1)) ∧
      ∃ inner leaves, Built t.store t.rootLevel t.rootPage inner leaves ∧ Sound t leaves ∧
        ∀ p ∈ inner, ∀ node, t.store p = some (.internal node) → node.entries.Pairwise fun a b => a.1 < b.1 := by
  have hempty : Short .empty := fun k v hk => by cases hk
  obtain ⟨hrep, hshort⟩ := run_represents hrun hfits (create_represents hcreate) hempty
  refine ⟨hrep.get hshort, hrep.rangeScan hshort, ?_⟩
  obtain ⟨-, inner, leaves, -, hbuilt, -⟩ := hrep
  exact ⟨inner, leaves, hbuilt, ⟨hbuilt.spans.subtree, siblings_iff_linked.2 hbuilt.linked⟩, hbuilt.spans.keys_sorted⟩

/-- the first of the pages 1, …, bound that is free -/
def Allocator.upTo (bound : ℕ) : Allocator where
  alloc store := ((List.range bound).map (· + 1)).find? fun p => (store p).isNone
  fresh store page h := by
    have hmem := List.mem_of_find?_eq_some h
    have hnone := List.find?_some h
    simp only [List.mem_map, List.mem_range] at hmem
    obtain ⟨p, -, rfl⟩ := hmem
    exact ⟨Nat.succ_ne_zero p, Option.isNone_iff_eq_none.1 hnone⟩

end Runs

end Mqlite.Btree
