/-
The range scan of a B+ tree at a read view, against the point lookup (`storage/btree/scan.rs`).

The point lookup asks the key's chain, then the history store, then the base cell. The scan walks the leaves from the
one that the start bound belongs to, along the sibling links. On each leaf it merges three ascending sources: base
cells, chains with a visible version, and chains without one for which history may have a version. A history row is
consulted for keys that come from one of the sources only. Bounds that are the wrong way round make the scan panic if it
gets to a leaf with chains.

`Merging` says what the three sources have to do with the leaf, `Merging.next_spec` what one round of the merge does to
them, and `merge_spec` what the whole loop visits.

The visitor of the model keeps everything it is shown.
-/
import Mqlite.Btree.Tree
import Mqlite.Storage.History

namespace Mqlite.Btree

open Lib Mvcc Storage List Option

/-! ## Bounds -/

inductive Bound where
  | included (key : Key)
  | excluded (key : Key)
  | unbounded
deriving DecidableEq, Repr

def startAdmits : Bound → Key → Bool
  | .unbounded, _ => true
  | .included start, key => start ≤ key
  | .excluded start, key => start < key

def endExcludesKey : Bound → Key → Bool
  | .unbounded, _ => false
  | .included stop, key => stop < key
  | .excluded stop, key => stop ≤ key

def inBounds (start stop : Bound) (key : Key) : Bool := startAdmits start key && !endExcludesKey stop key

/-- bounds that `BTreeMap::range` panics on, if the map is not empty -/
def inverted : Bound → Bound → Bool
  | .excluded start, .excluded stop => stop ≤ start
  | .excluded start, .included stop | .included start, .excluded stop | .included start, .included stop => stop < start
  | _, _ => false

/-! ## Point lookup -/

/-- the parts of a read that are the same for all keys -/
structure Reader where
  pages : ℕ → ℕ → Bytes
  frontier : Ts
  view : ReadView
  kind : TreeKind
  rows : Key → HistoryRows

namespace LeafNode

def chainOf (n : LeafNode) (key : Key) : Chain := (n.deltas.get? key).getD []

def getMvcc (r : Reader) (n : LeafNode) (key : Key) : Except ReadError (Option Bytes) :=
  Storage.getMvcc r.pages r.frontier r.view r.kind (n.chainOf key) (r.rows key) (n.cells.get? key)

end LeafNode

def BTree.getMvcc (r : Reader) (t : BTree) (key : Key) : Except ReadError (Option Bytes) :=
  match (findLeaf t.store t.rootLevel t.rootPage key).bind t.store with
  | some (.leaf n) => n.getMvcc r key
  | _ => .error .badPage

/-! ## The merge on one leaf -/

inductive MergeSource where
  | base
  | chain
  | both
  | historyCandidate
deriving DecidableEq, Repr

def mergeSource (base chain history : Option Key) : Option (MergeSource × Key) :=
  let baseChain : Option (MergeSource × Key) :=
    match base, chain with
    | none, none => none
    | some base, none => some (.base, base)
    | none, some chain => some (.chain, chain)
    | some base, some chain =>
      if base < chain then some (.base, base) else if base = chain then some (.both, base) else some (.chain, chain)
  match baseChain, history with
  | other, none => other
  | none, some history => some (.historyCandidate, history)
  | some (source, sourceKey), some history =>
    if history < sourceKey then some (.historyCandidate, history) else some (source, sourceKey)

/-- the three sources, as far as they have not been consumed -/
structure Sources where
  base : List (Key × VersionData)
  chain : List (Key × VersionEntry)
  history : List Key

namespace Sources

/-- a history key that ties the next base key is dropped: the base cell's own arm asks history -/
def dropTie (s : Sources) : Sources × Option Key :=
  match s.base, s.history with
  | (k, _) :: _, h :: rest => if k = h then ({ s with history := rest }, none) else (s, some h)
  | _, h :: _ => (s, some h)
  | _, [] => (s, none)

/-- what a probe of history says about a key -/
def probed (r : Reader) (key : Key) : Except ReadError (Option VersionEntry) :=
  probeVisibleEntry r.kind (r.rows key) r.view.readTs

def baseValue (r : Reader) (n : LeafNode) (key : Key) (cell : VersionData) : Except ReadError (Option Bytes) :=
  (if historyIsCandidate r.view.readTs (n.chainOf key) then probed r key else .ok none).map
    (rowOrCell r.pages (some cell))

/-- the next key, what to show for it, and what is left -/
def next (r : Reader) (n : LeafNode) (s : Sources) : Option (Key × Except ReadError (Option Bytes) × Sources) :=
  match mergeSource (s.base.head?.map Prod.fst) (s.chain.head?.map Prod.fst) s.dropTie.2, s.dropTie.1 with
  | some (.base, key), ⟨(_, cell) :: base, chain, history⟩ => some (key, baseValue r n key cell, ⟨base, chain, history⟩)
  | some (.chain, key), ⟨base, (_, e) :: chain, history⟩ =>
    some (key, .ok (entryValue r.pages e), ⟨base, chain, history⟩)
  | some (.both, key), ⟨_ :: base, (_, e) :: chain, history⟩ =>
    some (key, .ok (entryValue r.pages e), ⟨base, chain, history⟩)
  | some (.historyCandidate, key), ⟨base, chain, _ :: history⟩ =>
    some (key, (probed r key).map (rowOrCell r.pages none), ⟨base, chain, history⟩)
  | _, _ => none

def size (s : Sources) : ℕ := s.base.length + s.chain.length + s.history.length

/-- the merge loop: what is visited, and whether the end bound has been reached -/
def merge (r : Reader) (n : LeafNode) (stop : Bound) : ℕ → Sources → Except ReadError (List (Key × Bytes) × Bool)
  | 0, _ => .ok ([], false)
  | fuel + 1, s =>
    match s.next r n with
    | none => .ok ([], false)
    | some (key, value, rest) =>
      if endExcludesKey stop key then .ok ([], true)
      else do
        let value ← value
        let (visited, stopped) ← merge r n stop fuel rest
        .ok (value.elim visited fun v => (key, v) :: visited, stopped)

end Sources

/-! ## The scan -/

namespace LeafNode

/-- `BTreeMap::range` over the chains of the leaf -/
def deltaRange (n : LeafNode) (start stop : Bound) : Except ReadError (List (Key × Chain)) :=
  if n.deltas.entries ≠ [] ∧ inverted start stop then .error .panic
  else .ok (n.deltas.entries.filter fun p => inBounds start stop p.1)

def visibleRange (r : Reader) (range : List (Key × Chain)) : List (Key × VersionEntry) :=
  range.filterMap fun p => (visibleAt r.frontier r.view p.2).map (p.1, ·)

def historyCandidateKeys (r : Reader) (range : List (Key × Chain)) : List Key :=
  range.filterMap fun p =>
    if (visibleAt r.frontier r.view p.2).isSome then none
    else if historyIsCandidate r.view.readTs p.2 then some p.1 else none

/-- the index of the key, or where it would be inserted -/
def binarySearch (n : LeafNode) (key : Key) : Except ℕ ℕ :=
  let index := n.cells.entries.findIdx fun p => key ≤ p.1
  if (n.cells.get? key).isSome then .ok index else .error index

/-- where the base cells from the start bound on begin -/
def baseStartIndex (n : LeafNode) : Bound → ℕ
  | .unbounded => 0
  | .included key =>
    match n.binarySearch key with
    | .ok index | .error index => index
  | .excluded key =>
    match n.binarySearch key with
    | .ok index => index + 1
    | .error index => index

def scan (r : Reader) (start stop : Bound) (n : LeafNode) : Except ReadError (List (Key × Bytes) × Bool) :=
  match n.deltaRange start stop with
  | .error err => .error err
  | .ok range =>
    let s : Sources :=
      ⟨n.cells.entries.drop (n.baseStartIndex start), visibleRange r range, historyCandidateKeys r range⟩
    s.merge r n stop (s.size + 1)

end LeafNode

/-- the walk along the leaves -/
def scanFrom (r : Reader) (store : PageStore) (start stop : Bound) : ℕ → ℕ → Except ReadError (List (Key × Bytes))
  | 0, _ => .error .outOfFuel
  | fuel + 1, page =>
    match store page with
    | some (.leaf n) =>
      match n.scan r start stop with
      | .error err => .error err
      | .ok (visited, stopped) =>
        if stopped = true ∨ n.nextLeafPage = 0 then .ok visited
        else (scanFrom r store start stop fuel n.nextLeafPage).map (visited ++ ·)
    | _ => .error .badPage

def BTree.startLeaf (t : BTree) : Bound → Option ℕ
  | .included key | .excluded key => findLeaf t.store t.rootLevel t.rootPage key
  | .unbounded => leftmostLeaf t.store t.rootLevel t.rootPage

def BTree.rangeScanMvccBounded (r : Reader) (t : BTree) (start stop : Bound) (fuel : ℕ) :
    Except ReadError (List (Key × Bytes)) :=
  match t.startLeaf start with
  | none => .error .badPage
  | some page => scanFrom r t.store start stop fuel page

/-! ## What the merge visits -/

/-- the key is still to come -/
def Sources.Pending (s : Sources) (k : Key) : Prop := k ∈ s.base.map Prod.fst ∨ k ∈ s.chain.map Prod.fst ∨ k ∈ s.history

/-- what the sources of a leaf have to do with the leaf -/
structure Merging (r : Reader) (n : LeafNode) (stop : Bound) (s : Sources) : Prop where
  baseSorted : s.base.Pairwise fun a b => a.1 < b.1
  chainSorted : s.chain.Pairwise fun a b => a.1 < b.1
  historySorted : s.history.Pairwise (· < ·)
  base : ∀ p ∈ s.base, n.cells.get? p.1 = some p.2
  chain : ∀ p ∈ s.chain, visibleAt r.frontier r.view (n.chainOf p.1) = some p.2
  history : ∀ k ∈ s.history, visibleAt r.frontier r.view (n.chainOf k) = none ∧
    historyIsCandidate r.view.readTs (n.chainOf k) = true
  -- a key that is to come is to come from all its sources, unless it is above the end
  visible : ∀ k e, s.Pending k → endExcludesKey stop k = false → visibleAt r.frontier r.view (n.chainOf k) = some e →
    (k, e) ∈ s.chain
  cell : ∀ k v, s.Pending k → n.cells.get? k = some v → (k, v) ∈ s.base

theorem mergeSource_spec (base chain history : Option Key) :
    match mergeSource base chain history with
    | none => base = none ∧ chain = none ∧ history = none
    | some (source, key) => (∀ x ∈ base, key ≤ x) ∧ (∀ x ∈ chain, key ≤ x) ∧ (∀ x ∈ history, key ≤ x) ∧
      match source with
      | .base => base = some key ∧ ∀ x ∈ chain, key < x
      | .chain => chain = some key ∧ ∀ x ∈ base, key < x
      | .both => base = some key ∧ chain = some key
      | .historyCandidate => history = some key ∧ (∀ x ∈ base, key < x) ∧ ∀ x ∈ chain, key < x := by
  cases base with
  | none =>
    cases chain with
    | none => cases history <;> simp [mergeSource]
    | some c =>
      cases history with
      | none => simp [mergeSource]
      | some h =>
        by_cases hlt : h < c
        · simp [mergeSource, hlt, hlt.le]
        · simp [mergeSource, hlt, not_lt.1 hlt]
  | some b =>
    cases chain with
    | none =>
      cases history with
      | none => simp [mergeSource]
      | some h =>
        by_cases hlt : h < b
        · simp [mergeSource, hlt, hlt.le]
        · simp [mergeSource, hlt, not_lt.1 hlt]
    | some c =>
      rcases lt_trichotomy b c with hbc | rfl | hbc
      · cases history with
        | none => simp [mergeSource, hbc, hbc.le]
        | some h =>
          by_cases hlt : h < b
          · simp [mergeSource, hbc, hlt, hlt.le, hlt.trans hbc, (hlt.trans hbc).le]
          · simp [mergeSource, hbc, hbc.le, hlt, not_lt.1 hlt]
      · cases history with
        | none => simp [mergeSource]
        | some h =>
          by_cases hlt : h < b
          · simp [mergeSource, hlt, hlt.le]
          · simp [mergeSource, hlt, not_lt.1 hlt]
      · have hne : ¬ b < c := not_lt.2 hbc.le
        cases history with
        | none => simp [mergeSource, hne, hbc.ne', hbc, hbc.le]
        | some h =>
          by_cases hlt : h < c
          · simp [mergeSource, hne, hbc.ne', hlt, hlt.le, hlt.trans hbc, (hlt.trans hbc).le]
          · simp [mergeSource, hne, hbc.ne', hbc, hbc.le, hlt, not_lt.1 hlt]

section Sorted

variable {β : Type} {l : List (Key × β)}

theorem le_of_head (h : l.Pairwise fun a b => a.1 < b.1) {key : Key} (hk : ∀ x ∈ l.head?.map Prod.fst, key ≤ x) :
    ∀ p ∈ l, key ≤ p.1 := by
  cases l with
  | nil => exact fun p hp => by cases hp
  | cons q l =>
    have hq : key ≤ q.1 := hk q.1 rfl
    exact forall_mem_cons.2 ⟨hq, fun p hp => hq.trans ((pairwise_cons.1 h).1 p hp).le⟩

/-- taking the first entry away takes its key away -/
theorem filter_ne_head {p : Key × β} (h : (p :: l).Pairwise fun a b => a.1 < b.1) :
    (p :: l).filter (fun q => q.1 ≠ p.1) = l := by
  rw [filter_cons_of_neg (by simp), filter_eq_self]
  exact fun q hq => decide_eq_true (ne_of_gt ((pairwise_cons.1 h).1 q hq))

theorem filter_ne_of_lt (h : l.Pairwise fun a b => a.1 < b.1) {key : Key} (hk : ∀ x ∈ l.head?.map Prod.fst, key < x) :
    l.filter (fun q => q.1 ≠ key) = l := by
  refine filter_eq_self.2 fun q hq => decide_eq_true ?_
  cases l with
  | nil => cases hq
  | cons p l =>
    have hp : key < p.1 := hk p.1 rfl
    rcases mem_cons.1 hq with rfl | hq
    · exact hp.ne'
    · exact (hp.trans ((pairwise_cons.1 h).1 q hq)).ne'

theorem length_filter_ne {key : Key} (h : key ∈ l.map Prod.fst) : (l.filter fun q => q.1 ≠ key).length < l.length := by
  obtain ⟨p, hp, rfl⟩ := mem_map.1 h
  exact length_filter_lt_length_iff_exists.2 ⟨p, hp, by simp⟩

end Sorted

namespace Merging

variable {r : Reader} {n : LeafNode} {stop : Bound} {s : Sources}

/-- a key that comes from a chain does not come from history -/
theorem history_apart (hm : Merging r n stop s) {k : Key} (hk : k ∈ s.history) : k ∉ s.chain.map Prod.fst := by
  intro hc
  obtain ⟨p, hp, rfl⟩ := mem_map.1 hc
  have := (hm.history _ hk).1
  rw [hm.chain p hp] at this; cases this

/-- what is left when a key is taken from all sources -/
theorem remove (hm : Merging r n stop s) {key : Key} {history : List Key} (hsub : history.Sublist s.history)
    (hnot : key ∉ history) (hkeep : ∀ k ∈ s.history, k ≠ key → k ∈ history ∨ k ∈ s.base.map Prod.fst) :
    Merging r n stop ⟨s.base.filter fun p => p.1 ≠ key, s.chain.filter fun p => p.1 ≠ key, history⟩ ∧
    ∀ k, (⟨s.base.filter fun p => p.1 ≠ key, s.chain.filter fun p => p.1 ≠ key, history⟩ : Sources).Pending k ↔
      s.Pending k ∧ k ≠ key := by
  have hmap : ∀ {β : Type} (l : List (Key × β)) (k : Key),
      k ∈ (l.filter fun p => p.1 ≠ key).map Prod.fst ↔ k ∈ l.map Prod.fst ∧ k ≠ key := by
    intro β l k
    simp only [List.mem_map, List.mem_filter, ne_eq, decide_eq_true_eq]
    constructor
    · rintro ⟨p, ⟨hp, hne⟩, rfl⟩
      exact ⟨⟨p, hp, rfl⟩, hne⟩
    · rintro ⟨⟨p, hp, rfl⟩, hne⟩
      exact ⟨p, ⟨hp, hne⟩, rfl⟩
  have hpending : ∀ k,
      (⟨s.base.filter fun p => p.1 ≠ key, s.chain.filter fun p => p.1 ≠ key, history⟩ : Sources).Pending k ↔
      s.Pending k ∧ k ≠ key := by
    intro k
    unfold Sources.Pending
    rw [hmap, hmap]
    constructor
    · rintro (h | h | h)
      · exact ⟨.inl h.1, h.2⟩
      · exact ⟨.inr (.inl h.1), h.2⟩
      · exact ⟨.inr (.inr (hsub.subset h)), fun he => hnot (he ▸ h)⟩
    · rintro ⟨h | h | h, hne⟩
      · exact .inl ⟨h, hne⟩
      · exact .inr (.inl ⟨h, hne⟩)
      · rcases hkeep k h hne with h | h
        · exact .inr (.inr h)
        · exact .inl ⟨h, hne⟩
  refine ⟨⟨hm.baseSorted.filter _, hm.chainSorted.filter _, hm.historySorted.sublist hsub, fun p hp => ?_,
    fun p hp => ?_, fun k hk => hm.history k (hsub.subset hk), fun k e hk hin he => ?_, fun k v hk hv => ?_⟩, hpending⟩
  · exact hm.base p (mem_filter.1 hp).1
  · exact hm.chain p (mem_filter.1 hp).1
  · obtain ⟨hk, hne⟩ := (hpending k).1 hk
    exact mem_filter.2 ⟨hm.visible k e hk hin he, decide_eq_true hne⟩
  · obtain ⟨hk, hne⟩ := (hpending k).1 hk
    exact mem_filter.2 ⟨hm.cell k v hk hv, decide_eq_true hne⟩

/-- what dropping a tie leaves -/
theorem dropTie (hm : Merging r n stop s) : ∃ history historyKey, s.dropTie = (⟨s.base, s.chain, history⟩, historyKey) ∧
    history.Sublist s.history ∧ (∀ k ∈ s.history, k ∈ history ∨ k ∈ s.base.map Prod.fst) ∧
    (∀ x ∈ historyKey, history.head? = some x ∧ s.base.head?.map Prod.fst ≠ some x) ∧
    (historyKey = none → ∀ k ∈ history, ∃ b ∈ s.base.head?.map Prod.fst, b < k) := by
  obtain ⟨base, chain, history⟩ := s
  have hsorted := hm.historySorted
  cases history with
  | nil => exact ⟨[], none, by cases base <;> rfl, List.Sublist.refl _, fun k hk => .inl hk, fun x hx => (by cases hx),
      fun _ k hk => (by cases hk)⟩
  | cons h rest =>
    cases base with
    | nil => exact ⟨h :: rest, some h, rfl, List.Sublist.refl _, fun k hk => .inl hk,
        fun x hx => (by cases hx; simp), fun hnone => (by cases hnone)⟩
    | cons p base =>
      by_cases htie : p.1 = h
      · refine ⟨rest, none, by simp [Sources.dropTie, htie], sublist_cons_self _ _, fun k hk => ?_,
          fun x hx => (by cases hx), fun _ k hk => ⟨p.1, rfl, ?_⟩⟩
        · rcases mem_cons.1 hk with rfl | hk
          · exact .inr (htie ▸ mem_cons_self)
          · exact .inl hk
        · rw [htie]
          exact (pairwise_cons.1 hsorted).1 k hk
      · refine ⟨h :: rest, some h, by simp [Sources.dropTie, htie], List.Sublist.refl _, fun k hk => .inl hk,
          fun x hx => ?_, fun hnone => (by cases hnone)⟩
        cases hx
        exact ⟨rfl, by simpa using htie⟩

end Merging

/-- one round of the loop -/
structure Round (r : Reader) (n : LeafNode) (stop : Bound) (s : Sources) (key : Key)
    (value : Except ReadError (Option Bytes)) (s' : Sources) : Prop where
  value : endExcludesKey stop key = false → value = n.getMvcc r key
  pending : s.Pending key
  least : ∀ k, s.Pending k → key ≤ k
  merging : Merging r n stop s'
  rest : ∀ k, s'.Pending k ↔ s.Pending k ∧ k ≠ key
  size : s'.size < s.size

namespace Merging

variable {r : Reader} {n : LeafNode} {stop : Bound} {s : Sources}

/-- the least key of the heads is the least key -/
theorem least (hm : Merging r n stop s) {history : List Key} {historyKey : Option Key}
    (hsub : history.Sublist s.history)
    (hkeep : ∀ k ∈ s.history, k ∈ history ∨ k ∈ s.base.map Prod.fst) (hhead : ∀ x ∈ historyKey, history.head? = some x)
    (hnone : historyKey = none → ∀ k ∈ history, ∃ b ∈ s.base.head?.map Prod.fst, b < k) (key : Key)
    (hb : ∀ x ∈ s.base.head?.map Prod.fst, key ≤ x) (hc : ∀ x ∈ s.chain.head?.map Prod.fst, key ≤ x)
    (hh : ∀ x ∈ historyKey, key ≤ x) : ∀ k, s.Pending k → key ≤ k := by
  have hbase : ∀ k ∈ s.base.map Prod.fst, key ≤ k := by
    intro k hk
    obtain ⟨p, hp, rfl⟩ := mem_map.1 hk
    exact le_of_head hm.baseSorted hb p hp
  rintro k (hk | hk | hk)
  · exact hbase k hk
  · obtain ⟨p, hp, rfl⟩ := mem_map.1 hk
    exact le_of_head hm.chainSorted hc p hp
  · rcases hkeep k hk with hk | hk
    · cases hkey : historyKey with
      | none =>
        obtain ⟨b, hb', hlt⟩ := hnone hkey k hk
        exact (hb b hb').trans hlt.le
      | some x =>
        have hx := hhead x hkey
        have hs := hm.historySorted.sublist hsub
        cases history with
        | nil => cases hx
        | cons y rest =>
          cases hx
          rcases mem_cons.1 hk with rfl | hk
          · exact hh _ hkey
          · exact (hh _ hkey).trans ((pairwise_cons.1 hs).1 k hk).le
    · exact hbase k hk

theorem not_visible (hm : Merging r n stop s) {key : Key} (hp : s.Pending key) (hin : endExcludesKey stop key = false)
    (hc : ∀ x ∈ s.chain.head?.map Prod.fst, key < x) : visibleAt r.frontier r.view (n.chainOf key) = none := by
  cases hv : visibleAt r.frontier r.view (n.chainOf key) with
  | none => rfl
  | some e =>
    have hmem := hm.visible key e hp hin hv
    rw [← filter_ne_of_lt hm.chainSorted hc] at hmem
    exact absurd rfl (of_decide_eq_true (mem_filter.1 hmem).2)

theorem not_cell (hm : Merging r n stop s) {key : Key} (hp : s.Pending key)
    (hb : ∀ x ∈ s.base.head?.map Prod.fst, key < x) :
    n.cells.get? key = none := by
  cases hv : n.cells.get? key with
  | none => rfl
  | some v =>
    have hmem := hm.cell key v hp hv
    rw [← filter_ne_of_lt hm.baseSorted hb] at hmem
    exact absurd rfl (of_decide_eq_true (mem_filter.1 hmem).2)

/-- a key at the head of the base is not in what dropping a tie has left of history -/
theorem head_not_history (hm : Merging r n stop s) {history : List Key} {historyKey : Option Key} {key : Key}
    (hsub : history.Sublist s.history)
    (hhead : ∀ x ∈ historyKey, history.head? = some x ∧ s.base.head?.map Prod.fst ≠ some x)
    (hnone : historyKey = none → ∀ k ∈ history, ∃ b ∈ s.base.head?.map Prod.fst, b < k)
    (hbk : s.base.head?.map Prod.fst = some key) (hh : ∀ x ∈ historyKey, key ≤ x) : key ∉ history := by
  intro hk
  cases hkey : historyKey with
  | none =>
    obtain ⟨b, hb, hlt⟩ := hnone hkey _ hk
    rw [hbk] at hb
    cases hb
    exact lt_irrefl _ hlt
  | some x =>
    obtain ⟨hx, hne⟩ := hhead x hkey
    have hhist := hm.historySorted.sublist hsub
    cases history with
    | nil => cases hk
    | cons y rest =>
      cases hx
      rcases mem_cons.1 hk with rfl | hk
      · exact hne hbk
      · exact absurd ((pairwise_cons.1 hhist).1 _ hk) (not_lt.2 (hh _ hkey))

/-- a round takes its key from all sources -/
theorem round (hm : Merging r n stop s) {key : Key} {history : List Key} {value : Except ReadError (Option Bytes)}
    (hsub : history.Sublist s.history) (hnot : key ∉ history)
    (hkeep : ∀ k ∈ s.history, k ≠ key → k ∈ history ∨ k ∈ s.base.map Prod.fst) (hp : s.Pending key)
    (hleast : ∀ k, s.Pending k → key ≤ k) (hvalue : endExcludesKey stop key = false → value = n.getMvcc r key) :
    Round r n stop s key value ⟨s.base.filter fun p => p.1 ≠ key, s.chain.filter fun p => p.1 ≠ key, history⟩ := by
  obtain ⟨hmerging, hrest⟩ := hm.remove hsub hnot hkeep
  refine ⟨hvalue, hp, hleast, hmerging, hrest, ?_⟩
  have hb := length_filter_le (fun p => decide (p.1 ≠ key)) s.base
  have hc := length_filter_le (fun p => decide (p.1 ≠ key)) s.chain
  have hh := hsub.length_le
  simp only [Sources.size]
  rcases hp with hk | hk | hk
  · have hlt := length_filter_ne hk
    omega
  · have hlt := length_filter_ne hk
    omega
  · have hne : history.length ≠ s.history.length := fun heq => hnot (hsub.eq_of_length heq ▸ hk)
    omega

/-- a round for a key with a visible version in its chain, with or without a base cell -/
theorem round_chain (hm : Merging r n stop s) {history : List Key} (hsub : history.Sublist s.history)
    (hkeep : ∀ k ∈ s.history, k ∈ history ∨ k ∈ s.base.map Prod.fst) (p : Key × VersionEntry) (hmem : p ∈ s.chain)
    (hleast : ∀ k, s.Pending k → p.1 ≤ k) :
    Round r n stop s p.1 (.ok (entryValue r.pages p.2))
      ⟨s.base.filter fun q => q.1 ≠ p.1, s.chain.filter fun q => q.1 ≠ p.1, history⟩ := by
  have hnot : p.1 ∉ history := fun hk => hm.history_apart (hsub.subset hk) (mem_map_of_mem hmem)
  refine hm.round hsub hnot (fun k hk _ => hkeep k hk) (.inr (.inl (mem_map_of_mem hmem))) hleast fun _ => ?_
  unfold LeafNode.getMvcc Storage.getMvcc
  rw [hm.chain p hmem]

/-- **One round** takes the least key, and shows for it what the point lookup finds. -/
theorem next_spec (hm : Merging r n stop s) :
    match s.next r n with
    | none => ∀ k, ¬ s.Pending k
    | some (key, value, s') => Round r n stop s key value s' := by
  obtain ⟨history, historyKey, htie, hsub, hkeep, hhead, hnone⟩ := hm.dropTie
  have hspec := mergeSource_spec (s.base.head?.map Prod.fst) (s.chain.head?.map Prod.fst) historyKey
  have hhist := hm.historySorted.sublist hsub
  have hleast := hm.least hsub hkeep (fun x hx => (hhead x hx).1) hnone
  unfold Sources.next
  rw [htie]
  cases hms : mergeSource (s.base.head?.map Prod.fst) (s.chain.head?.map Prod.fst) historyKey with
  | none =>
    rw [hms] at hspec
    obtain ⟨hb, hc, hh⟩ := hspec
    have hb : s.base = [] := by simpa using hb
    have hc : s.chain = [] := by simpa using hc
    rintro k (hk | hk | hk)
    · rw [hb] at hk; cases hk
    · rw [hc] at hk; cases hk
    · rcases hkeep k hk with hk | hk
      · obtain ⟨b, hb', -⟩ := hnone hh k hk
        rw [hb] at hb'; cases hb'
      · rw [hb] at hk; cases hk
  | some p =>
    obtain ⟨source, key⟩ := p
    rw [hms] at hspec
    obtain ⟨hb, hc, hh, hsrc⟩ := hspec
    have hleast := hleast key hb hc hh
    cases source with
    | base =>
      obtain ⟨hbk, hck⟩ := hsrc
      have hnot := hm.head_not_history hsub hhead hnone hbk hh
      obtain ⟨p, hp, rfl⟩ := map_eq_some_iff.1 hbk
      obtain ⟨base, hbase⟩ := head?_eq_some_iff.1 hp
      have hmem : p ∈ s.base := by rw [hbase]; exact mem_cons_self
      have hsorted := hm.baseSorted
      have hpend : s.Pending p.1 := .inl (mem_map_of_mem hmem)
      simp only [hbase]
      rw [hbase] at hsorted
      have hround : Round r n stop s p.1 (Sources.baseValue r n p.1 p.2) _ :=
        hm.round hsub hnot (fun k hk _ => hkeep k hk) hpend hleast fun hin => by
          unfold Sources.baseValue LeafNode.getMvcc Storage.getMvcc Sources.probed
          rw [hm.not_visible hpend hin hck, hm.base p hmem]
      rwa [filter_ne_of_lt hm.chainSorted hck, hbase, filter_ne_head hsorted] at hround
    | chain =>
      obtain ⟨hck, hbk⟩ := hsrc
      obtain ⟨p, hp, rfl⟩ := map_eq_some_iff.1 hck
      obtain ⟨chain, hchain⟩ := head?_eq_some_iff.1 hp
      have hsorted := hm.chainSorted
      rw [hchain] at hsorted
      simp only [hchain]
      have hround := hm.round_chain hsub hkeep p (by rw [hchain]; exact mem_cons_self) hleast
      rwa [filter_ne_of_lt hm.baseSorted hbk, hchain, filter_ne_head hsorted] at hround
    | both =>
      obtain ⟨hbk, hck⟩ := hsrc
      obtain ⟨q, hq, hqk⟩ := map_eq_some_iff.1 hbk
      obtain ⟨p, hp, rfl⟩ := map_eq_some_iff.1 hck
      obtain ⟨base, hbase⟩ := head?_eq_some_iff.1 hq
      obtain ⟨chain, hchain⟩ := head?_eq_some_iff.1 hp
      have hsorted := hm.chainSorted
      have hsorted' := hm.baseSorted
      rw [hchain] at hsorted
      rw [hbase] at hsorted'
      simp only [hchain, hbase]
      have hround := hm.round_chain hsub hkeep p (by rw [hchain]; exact mem_cons_self) hleast
      rw [hchain, hbase, filter_ne_head hsorted] at hround
      rwa [← hqk, filter_ne_head hsorted', hqk] at hround
    | historyCandidate =>
      obtain ⟨hhk, hbk, hck⟩ := hsrc
      obtain ⟨hx, -⟩ := hhead key hhk
      cases history with
      | nil => cases hx
      | cons y rest =>
        cases hx
        have hmem : key ∈ s.history := hsub.subset mem_cons_self
        have hpend : s.Pending key := .inr (.inr hmem)
        have hnot : key ∉ rest := fun hk => absurd ((pairwise_cons.1 hhist).1 _ hk) (lt_irrefl _)
        have hrest : ∀ k ∈ s.history, k ≠ key → k ∈ rest ∨ k ∈ s.base.map Prod.fst := fun k hk hne =>
          (hkeep k hk).imp_left fun hk => (mem_cons.1 hk).resolve_left hne
        have hround : Round r n stop s key ((Sources.probed r key).map (rowOrCell r.pages none)) _ :=
          hm.round ((sublist_cons_self _ _).trans hsub) hnot hrest hpend hleast fun _ => by
            unfold LeafNode.getMvcc Storage.getMvcc Sources.probed
            rw [(hm.history key hmem).1, (hm.history key hmem).2, hm.not_cell hpend hbk]
            rfl
        rwa [filter_ne_of_lt hm.chainSorted hck, filter_ne_of_lt hm.baseSorted hbk] at hround

end Merging

theorem endExcludesKey_mono {stop : Bound} {k k' : Key} (hle : k ≤ k') (h : endExcludesKey stop k = true) :
    endExcludesKey stop k' = true := by
  cases stop with
  | included e => simp only [endExcludesKey, decide_eq_true_eq] at h ⊢; exact h.trans_le hle
  | excluded e => simp only [endExcludesKey, decide_eq_true_eq] at h ⊢; exact h.trans hle
  | unbounded => cases h

/-- **The merge** visits the pending keys up to the end bound, in order, with what the point lookup finds. -/
theorem merge_spec {r : Reader} {n : LeafNode} {stop : Bound} {s : Sources} (hm : Merging r n stop s)
    (hfits : ∀ k, s.Pending k → endExcludesKey stop k = false → RowsFit (r.rows k)) {fuel : ℕ} (hfuel : s.size < fuel) :
    ∃ visited stopped, s.merge r n stop fuel = .ok (visited, stopped) ∧ visited.Pairwise (fun a b => a.1 < b.1) ∧
      (∀ k v, (k, v) ∈ visited ↔ s.Pending k ∧ endExcludesKey stop k = false ∧ n.getMvcc r k = .ok (some v)) ∧
      (stopped = true ↔ ∃ k, s.Pending k ∧ endExcludesKey stop k = true) := by
  induction fuel generalizing s with
  | zero => exact absurd hfuel (Nat.not_lt_zero _)
  | succ fuel ih =>
    have hnext := hm.next_spec
    rw [Sources.merge]
    cases hn : s.next r n with
    | none =>
      rw [hn] at hnext
      refine ⟨[], false, rfl, List.Pairwise.nil, fun k v => ⟨fun h => (by cases h), fun h => absurd h.1 (hnext k)⟩,
        fun h => (by cases h), ?_⟩
      rintro ⟨k, hk, -⟩
      exact absurd hk (hnext k)
    | some p =>
      obtain ⟨key, value, rest⟩ := p
      rw [hn] at hnext
      have hround : Round r n stop s key value rest := hnext
      simp only
      split_ifs with hend
      · refine ⟨[], true, rfl, List.Pairwise.nil, fun k v => ⟨fun h => (by cases h), fun h => ?_⟩,
          fun _ => ⟨key, hround.pending, hend⟩, fun _ => rfl⟩
        have := endExcludesKey_mono (hround.least k h.1) hend
        rw [h.2.1] at this; cases this
      · have hend : endExcludesKey stop key = false := by simpa using hend
        obtain ⟨visited, stopped, hmerge, hs, hmem, hstop⟩ := ih hround.merging
          (fun k hk => hfits k ((hround.rest k).1 hk).1) (Nat.lt_of_lt_of_le hround.size (Nat.le_of_lt_succ hfuel))
        -- the lookup of a key whose rows fit does not fail
        obtain ⟨found, hfound⟩ : ∃ found, n.getMvcc r key = .ok found :=
          ⟨_, getMvcc_fits (hfits key hround.pending hend)⟩
        obtain rfl : value = .ok found := (hround.value hend).trans hfound
        have hlater : ∀ p ∈ visited, key < p.1 := by
          intro p hp
          obtain ⟨hpend, hne⟩ := (hround.rest p.1).1 ((hmem p.1 p.2).1 hp).1
          exact lt_of_le_of_ne (hround.least _ hpend) (Ne.symm hne)
        rw [hmerge]
        refine ⟨_, stopped, rfl, ?_, fun k v => ?_, fun h => ?_,
          fun ⟨k, hp, hk⟩ => hstop.2 ⟨k, (hround.rest k).2 ⟨hp, ?_⟩, hk⟩⟩
        · cases found with
          | none => exact hs
          | some w => exact pairwise_cons.2 ⟨hlater, hs⟩
        · -- the row of this key, and the rows after it
          have hrow : (k, v) ∈ (found.elim visited fun v => (key, v) :: visited) ↔
              (k = key ∧ found = some v) ∨ (k, v) ∈ visited := by
            cases found with
            | none => simp
            | some w =>
              rw [elim_some, mem_cons, Prod.mk.injEq, Option.some.injEq]
              exact or_congr_left (and_congr_right fun _ => eq_comm)
          rw [hrow, hmem, hround.rest]
          constructor
          · rintro (⟨rfl, hv⟩ | ⟨⟨hp, -⟩, hrest⟩)
            · exact ⟨hround.pending, hend, hv ▸ hfound⟩
            · exact ⟨hp, hrest⟩
          · rintro ⟨hp, hin, hv⟩
            by_cases hk : k = key
            · subst hk
              rw [hfound, Except.ok.injEq] at hv
              exact .inl ⟨rfl, hv⟩
            · exact .inr ⟨⟨hp, hk⟩, hin, hv⟩
        · obtain ⟨k, hp, hk⟩ := hstop.1 h
          exact ⟨k, ((hround.rest k).1 hp).1, hk⟩
        · rintro rfl
          rw [hend] at hk
          cases hk

end Mqlite.Btree
