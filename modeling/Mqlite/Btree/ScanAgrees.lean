/-
The range scan visits what the point lookup finds.

- `scan_spec`: on one leaf, the keys the leaf holds inside the bounds, with what the point lookup finds;
- `scanFrom_spec`: the walk along the sibling links adds this up, by induction over the leaves that are left;
- `scanFrom_panics`: with the bounds the wrong way round, it panics if it gets to a leaf with chains;
- `scan_agrees_iff`: if the history rows fit, the scan visits exactly what the point lookup finds, in ascending order,
  if and only if it gets through and no key inside the bounds lives in the history store only.

A key with a version in the history store, but without base cell and chain, is found by the point lookup and missed by
the scan (`scan_misses_folded_key`).
-/
import Mqlite.Btree.Scan
import Mqlite.Storage.Synth

namespace Mqlite.Btree

open Lib Mvcc Storage List OrdMap LeafNode Nat

/-! ## Where a leaf starts -/

section Sorted

variable {β : Type} {l : List (Key × β)}

theorem drop_findIdx_le (h : l.Pairwise fun a b => a.1 < b.1) (key : Key) :
    l.drop (l.findIdx fun p => key ≤ p.1) = l.filter fun p => key ≤ p.1 := by
  induction l with
  | nil => rfl
  | cons q l ih =>
    obtain ⟨hq, hl⟩ := pairwise_cons.1 h
    rw [findIdx_cons]
    by_cases hle : key ≤ q.1
    · rw [decide_eq_true hle, cond_true, drop_zero, eq_comm, filter_eq_self]
      exact forall_mem_cons.2 ⟨decide_eq_true hle, fun p hp => decide_eq_true (hle.trans (hq p hp).le)⟩
    · rw [decide_eq_false hle, cond_false, drop_succ_cons, ih hl, filter_cons_of_neg (by simpa using hle)]

/-- a key that is there comes first among those from it on -/
theorem filter_le_of_mem (h : l.Pairwise fun a b => a.1 < b.1) {p : Key × β} (hp : p ∈ l) :
    l.filter (fun q => p.1 ≤ q.1) = p :: l.filter fun q => p.1 < q.1 := by
  induction l with
  | nil => cases hp
  | cons q l ih =>
    obtain ⟨hq, hl⟩ := pairwise_cons.1 h
    rcases mem_cons.1 hp with rfl | hp
    · rw [filter_cons_of_pos (by simp), filter_cons_of_neg (by simp)]
      congr 1
      exact filter_congr fun x hx => by simp [hq x hx, (hq x hx).le]
    · have hlt := hq p hp
      rw [filter_cons_of_neg (by simpa using hlt), filter_cons_of_neg (by simpa using hlt.le), ih hl hp]

end Sorted

namespace LeafNode

variable {n : LeafNode}

theorem drop_baseStartIndex (start : Bound) :
    n.cells.entries.drop (n.baseStartIndex start) = n.cells.entries.filter fun p => startAdmits start p.1 := by
  have hs := n.cells.sorted
  cases start with
  | unbounded => simp [baseStartIndex, startAdmits]
  | included key =>
    have hindex : n.baseStartIndex (.included key) = n.cells.entries.findIdx fun p => key ≤ p.1 := by
      simp only [baseStartIndex, binarySearch]
      split_ifs <;> rfl
    rw [hindex, drop_findIdx_le hs]
    rfl
  | excluded key =>
    cases hget : n.cells.get? key with
    | none =>
      simp only [baseStartIndex, binarySearch, hget, Option.isSome_none, Bool.false_eq_true, if_false]
      rw [drop_findIdx_le hs]
      refine filter_congr fun p hp => decide_eq_decide.2 ⟨fun hle => lt_of_le_of_ne hle ?_, le_of_lt⟩
      rintro rfl
      rw [get?_eq_some_iff.2 hp] at hget; cases hget
    | some v =>
      simp only [baseStartIndex, binarySearch, hget, Option.isSome_some, if_true]
      have hmem := get?_eq_some_iff.1 hget
      rw [← drop_drop, drop_findIdx_le hs, filter_le_of_mem hs hmem]
      rfl

/-! ## One leaf -/

variable {r : Reader} {start stop : Bound}

/-- the chains inside the bounds -/
def inRange (n : LeafNode) (start stop : Bound) : List (Key × Chain) :=
  n.deltas.entries.filter fun p => inBounds start stop p.1

variable {k : Key}

theorem mem_inRange {c : Chain} :
    (k, c) ∈ n.inRange start stop ↔ n.deltas.get? k = some c ∧ inBounds start stop k = true := by
  rw [inRange, mem_filter, get?_eq_some_iff]

theorem inRange_sorted : (n.inRange start stop).Pairwise fun a b => a.1 < b.1 := n.deltas.sorted.filter _

theorem chainOf_eq {c : Chain} (h : n.deltas.get? k = some c) : n.chainOf k = c := by
  rw [chainOf, h, Option.getD_some]

theorem isSome_of_visibleAt {e : VersionEntry} (h : visibleAt r.frontier r.view (n.chainOf k) = some e) :
    (n.deltas.get? k).isSome = true := by
  cases hget : n.deltas.get? k with
  | some c => rfl
  | none =>
    -- an empty chain shows nothing
    rw [chainOf, hget] at h
    cases h

theorem mem_visibleRange {e : VersionEntry} : (k, e) ∈ visibleRange r (n.inRange start stop) ↔
    (n.deltas.get? k).isSome = true ∧ inBounds start stop k = true ∧
      visibleAt r.frontier r.view (n.chainOf k) = some e := by
  unfold visibleRange
  rw [mem_filterMap]
  constructor
  · rintro ⟨⟨k', c⟩, hmem, hmap⟩
    obtain ⟨e', he, heq⟩ := Option.map_eq_some_iff.1 hmap
    cases heq
    obtain ⟨hget, hin⟩ := mem_inRange.1 hmem
    exact ⟨by rw [hget]; rfl, hin, by rw [chainOf_eq hget]; exact he⟩
  · rintro ⟨hsome, hin, hv⟩
    obtain ⟨c, hget⟩ := Option.isSome_iff_exists.1 hsome
    rw [chainOf_eq hget] at hv
    exact ⟨(k, c), mem_inRange.2 ⟨hget, hin⟩, by simp only [hv]; rfl⟩

theorem mem_historyCandidateKeys : k ∈ historyCandidateKeys r (n.inRange start stop) ↔
    (n.deltas.get? k).isSome = true ∧ inBounds start stop k = true ∧ visibleAt r.frontier r.view (n.chainOf k) = none ∧
      historyIsCandidate r.view.readTs (n.chainOf k) = true := by
  unfold historyCandidateKeys
  rw [mem_filterMap]
  constructor
  · rintro ⟨⟨k', c⟩, hmem, hif⟩
    obtain ⟨hget, hin⟩ := mem_inRange.1 hmem
    split_ifs at hif with hv hc
    cases hif
    rw [chainOf_eq hget]
    exact ⟨by rw [hget]; rfl, hin, by simpa using hv, hc⟩
  · rintro ⟨hsome, hin, hv, hc⟩
    obtain ⟨c, hget⟩ := Option.isSome_iff_exists.1 hsome
    rw [chainOf_eq hget] at hv hc
    exact ⟨(k, c), mem_inRange.2 ⟨hget, hin⟩, by simp [hv, hc]⟩

theorem visibleRange_sorted : (visibleRange r (n.inRange start stop)).Pairwise fun a b => a.1 < b.1 := by
  refine pairwise_filterMap.2 (inRange_sorted.imp fun {a b} hab p hp q hq => ?_)
  obtain ⟨e, -, rfl⟩ := Option.map_eq_some_iff.1 hp
  obtain ⟨e', -, rfl⟩ := Option.map_eq_some_iff.1 hq
  exact hab

theorem historyCandidateKeys_sorted : (historyCandidateKeys r (n.inRange start stop)).Pairwise (· < ·) := by
  refine pairwise_filterMap.2 (inRange_sorted.imp fun {a b} hab k hk k' hk' => ?_)
  split_ifs at hk hk'
  cases hk
  cases hk'
  exact hab

/-- the sources a leaf is scanned with -/
def sources (r : Reader) (n : LeafNode) (start stop : Bound) : Sources :=
  ⟨n.cells.entries.filter fun p => startAdmits start p.1, visibleRange r (n.inRange start stop),
    historyCandidateKeys r (n.inRange start stop)⟩

theorem startAdmits_of_inBounds (h : inBounds start stop k = true) : startAdmits start k = true :=
  (Bool.and_eq_true_iff.1 h).1

theorem pending_sources :
    (n.sources r start stop).Pending k ↔ ((n.cells.get? k).isSome = true ∧ startAdmits start k = true) ∨
    ((n.deltas.get? k).isSome = true ∧ inBounds start stop k = true ∧
      ((visibleAt r.frontier r.view (n.chainOf k)).isSome = true ∨
        historyIsCandidate r.view.readTs (n.chainOf k) = true)) := by
  have hbase : k ∈ (n.sources r start stop).base.map Prod.fst ↔ (n.cells.get? k).isSome = true ∧
      startAdmits start k = true := by
    rw [mem_map, Option.isSome_iff_exists]
    constructor
    · rintro ⟨p, hp, rfl⟩
      obtain ⟨hp, hadm⟩ := mem_filter.1 hp
      exact ⟨⟨p.2, get?_eq_some_iff.2 hp⟩, hadm⟩
    · rintro ⟨⟨v, hv⟩, hadm⟩
      exact ⟨(k, v), mem_filter.2 ⟨get?_eq_some_iff.1 hv, hadm⟩, rfl⟩
  have hchain : k ∈ (n.sources r start stop).chain.map Prod.fst ↔ (n.deltas.get? k).isSome = true ∧
      inBounds start stop k = true ∧ (visibleAt r.frontier r.view (n.chainOf k)).isSome = true := by
    rw [mem_map]
    constructor
    · rintro ⟨p, hp, rfl⟩
      obtain ⟨hsome, hin, hv⟩ := mem_visibleRange.1 hp
      exact ⟨hsome, hin, by rw [hv]; rfl⟩
    · rintro ⟨hsome, hin, hv⟩
      obtain ⟨e, he⟩ := Option.isSome_iff_exists.1 hv
      exact ⟨(k, e), mem_visibleRange.2 ⟨hsome, hin, he⟩, rfl⟩
  unfold Sources.Pending
  rw [hbase, hchain]
  refine or_congr_right ?_
  constructor
  · rintro (⟨hsome, hin, hv⟩ | hhist)
    · exact ⟨hsome, hin, .inl hv⟩
    · obtain ⟨hsome, hin, -, hc⟩ := mem_historyCandidateKeys.1 hhist
      exact ⟨hsome, hin, .inr hc⟩
  · rintro ⟨hsome, hin, hor⟩
    cases hv : visibleAt r.frontier r.view (n.chainOf k) with
    | some e => exact .inl ⟨hsome, hin, rfl⟩
    | none =>
      rw [hv] at hor
      exact .inr (mem_historyCandidateKeys.2 ⟨hsome, hin, hv, hor.resolve_left (by simp)⟩)

theorem Pending.startAdmits (h : (n.sources r start stop).Pending k) : Btree.startAdmits start k = true := by
  rcases pending_sources.1 h with ⟨-, hadm⟩ | ⟨-, hin, -⟩
  · exact hadm
  · exact startAdmits_of_inBounds hin

theorem sources_merging : Merging r n stop (n.sources r start stop) where
  baseSorted := n.cells.sorted.filter _
  chainSorted := visibleRange_sorted
  historySorted := historyCandidateKeys_sorted
  base := fun p hp => get?_eq_some_iff.2 (mem_filter.1 hp).1
  chain := fun p hp => (mem_visibleRange.1 hp).2.2
  history := fun k hk => (mem_historyCandidateKeys.1 hk).2.2
  visible := fun k e hp hend hv =>
    mem_visibleRange.2 ⟨isSome_of_visibleAt hv, by rw [inBounds, Pending.startAdmits hp, hend]; rfl, hv⟩
  cell := fun k v hp hv => mem_filter.2 ⟨get?_eq_some_iff.1 hv, Pending.startAdmits hp⟩

/-- a key the leaf holds and the lookup finds comes from one of the sources -/
theorem pending_of_getMvcc {v : Bytes} (hin : inBounds start stop k = true) (hholds : n.holds k)
    (hget : n.getMvcc r k = .ok (some v)) : (n.sources r start stop).Pending k := by
  rw [pending_sources]
  cases hcell : n.cells.get? k with
  | some w => exact .inl ⟨rfl, startAdmits_of_inBounds hin⟩
  | none =>
    have hsome : (n.deltas.get? k).isSome = true := hholds.resolve_left (by simp [hcell])
    refine .inr ⟨hsome, hin, ?_⟩
    by_contra hor
    rw [not_or, Bool.not_eq_true, Bool.not_eq_true, Option.isSome_eq_false_iff, Option.isNone_iff_eq_none] at hor
    rw [getMvcc, Storage.getMvcc, hor.1, hor.2, hcell] at hget
    cases hget

/-- the history rows of the keys inside the bounds fit -/
def FitsBetween (r : Reader) (start stop : Bound) : Prop := ∀ k, inBounds start stop k = true → RowsFit (r.rows k)

/-- **One leaf.** -/
theorem scan_spec (hfits : FitsBetween r start stop) (hok : n.deltas.entries = [] ∨ inverted start stop = false) :
    ∃ visited stopped, n.scan r start stop = .ok (visited, stopped) ∧ visited.Pairwise (fun a b => a.1 < b.1) ∧
      (∀ k v, (k, v) ∈ visited ↔ inBounds start stop k = true ∧ n.holds k ∧ n.getMvcc r k = .ok (some v)) ∧
      (stopped = true ↔ ∃ k, (n.cells.get? k).isSome = true ∧ startAdmits start k = true ∧
        endExcludesKey stop k = true) := by
  have hrange : n.deltaRange start stop = .ok (n.inRange start stop) := by
    refine if_neg fun h => ?_
    rcases hok with hok | hok
    · exact h.1 hok
    · rw [hok] at h
      cases h.2
  have hscan : n.scan r start stop = (n.sources r start stop).merge r n stop ((n.sources r start stop).size + 1) := by
    rw [scan, hrange, sources, ← drop_baseStartIndex]
  have hbounds : ∀ k, (n.sources r start stop).Pending k → endExcludesKey stop k = false →
      inBounds start stop k = true := by
    intro k hp hend
    rw [inBounds, Pending.startAdmits hp, hend]
    rfl
  obtain ⟨visited, stopped, hmerge, hs, hmem, hstop⟩ := merge_spec (sources_merging (r := r) (n := n))
    (fun k hp hend => hfits k (hbounds k hp hend)) (lt_add_one _)
  have hholds : ∀ k, (n.sources r start stop).Pending k → n.holds k := by
    intro k hp
    rcases pending_sources.1 hp with ⟨hcell, -⟩ | ⟨hchain, -⟩
    · exact .inl hcell
    · exact .inr hchain
  refine ⟨visited, stopped, hscan.trans hmerge, hs, fun k v => ?_, ?_⟩
  · rw [hmem]
    constructor
    · rintro ⟨hp, hend, hget⟩
      exact ⟨hbounds k hp hend, hholds k hp, hget⟩
    · rintro ⟨hin, hh, hget⟩
      refine ⟨pending_of_getMvcc hin hh hget, ?_, hget⟩
      simpa using (Bool.and_eq_true_iff.1 hin).2
  · refine hstop.trans (exists_congr fun k => ?_)
    constructor
    · rintro ⟨hp, hend⟩
      rcases pending_sources.1 hp with ⟨hcell, hadm⟩ | ⟨-, hin, -⟩
      · exact ⟨hcell, hadm, hend⟩
      · rw [inBounds, hend, Bool.not_true, Bool.and_false] at hin
        cases hin
    · rintro ⟨hcell, hadm, hend⟩
      exact ⟨pending_sources.2 (.inl ⟨hcell, hadm⟩), hend⟩

end LeafNode

/-! ## The walk -/

/-- one of the leaves holds the key, and the lookup there finds v -/
def Finds (r : Reader) (store : PageStore) (leaves : List ℕ) (k : Key) (v : Bytes) : Prop :=
  ∃ q ∈ leaves, ∃ n, store q = some (.leaf n) ∧ n.holds k ∧ n.getMvcc r k = .ok (some v)

/-- from the first leaf on there are no chains, up to a leaf with a base cell that the start bound admits -/
def Unchained (store : PageStore) (start : Bound) : List ℕ → Prop
  | [] => True
  | page :: rest => ∀ n, store page = some (.leaf n) → n.deltas.entries = [] ∧
      ((∀ k, (n.cells.get? k).isSome = true → startAdmits start k = false) → Unchained store start rest)

variable {start stop : Bound} {k : Key} {r : Reader} {fuel : ℕ} {t : BTree} {leaves : List ℕ}

/-- beyond a start bound that is above the end, everything is above the end -/
theorem excluded_of_inverted (h : inverted start stop = true) (hk : startAdmits start k = true) :
    endExcludesKey stop k = true := by
  cases start <;> cases stop
    <;> simp only [inverted, startAdmits, endExcludesKey, decide_eq_true_eq, Bool.false_eq_true] at h hk ⊢
  · exact h.trans_le hk
  · exact h.le.trans hk
  · exact h.trans hk
  · exact (h.trans_lt hk).le

variable {store : PageStore} {rest : List ℕ}

theorem finds_cons {page : ℕ} {n : LeafNode} (hn : store page = some (.leaf n)) {v : Bytes} :
    Finds r store (page :: rest) k v ↔ (n.holds k ∧ n.getMvcc r k = .ok (some v)) ∨ Finds r store rest k v := by
  unfold Finds
  simp only [mem_cons, exists_eq_or_imp, hn, Option.some.injEq, Page.leaf.injEq, exists_eq_left']

/-- **The walk** over the leaves that are left. -/
theorem scanFrom_spec {prev page : ℕ} (hfits : FitsBetween r start stop)
    (hlinks : Siblings store prev (page :: rest)) (hne : ∀ q ∈ rest, q ≠ 0) (hasc : Ascends store (page :: rest))
    (hok : inverted start stop = false ∨ Unchained store start (page :: rest)) (hfuel : rest.length < fuel) :
    ∃ visited, scanFrom r store start stop fuel page = .ok visited ∧ visited.Pairwise (fun a b => a.1 < b.1) ∧
      ∀ k v, (k, v) ∈ visited ↔ inBounds start stop k = true ∧ Finds r store (page :: rest) k v := by
  induction rest generalizing prev page fuel with
  | nil =>
    obtain ⟨fuel, rfl⟩ := exists_eq_succ_of_ne_zero (ne_of_gt (zero_lt_of_lt hfuel))
    obtain ⟨⟨n, hn, -, hnext⟩, -⟩ := hlinks
    obtain ⟨visited, stopped, hscan, hs, hmem, -⟩ := scan_spec hfits (hok.symm.imp_left fun h => (h n hn).1)
    refine ⟨visited, ?_, hs, fun k v => ?_⟩
    · simp only [scanFrom, hn, hscan]
      exact if_pos (.inr hnext)
    · rw [hmem, finds_cons hn, or_iff_left]
      rintro ⟨q, hq, -⟩
      cases hq
  | cons next rest ih =>
    obtain ⟨fuel, rfl⟩ := exists_eq_succ_of_ne_zero (ne_of_gt (zero_lt_of_lt hfuel))
    obtain ⟨⟨n, hn, -, hnext⟩, hlinks⟩ := hlinks
    obtain ⟨hsmall, hasc⟩ := pairwise_cons.1 hasc
    obtain ⟨visited, stopped, hscan, hs, hmem, hstop⟩ := scan_spec hfits (hok.symm.imp_left fun h => (h n hn).1)
    have hnz : n.nextLeafPage ≠ 0 := by
      rw [hnext]
      exact hne next mem_cons_self
    simp only [scanFrom, hn, hscan]
    by_cases hst : stopped = true
    · rw [if_pos (.inl hst)]
      refine ⟨visited, rfl, hs, fun k v => ?_⟩
      rw [hmem, finds_cons hn]
      refine and_congr_right fun hin => ⟨.inl, fun h => h.resolve_right ?_⟩
      -- the leaves to the right hold keys above the one that is above the end
      rintro ⟨q, hq, m, hm, hk, -⟩
      obtain ⟨k₀, hk₀, -, hend⟩ := hstop.1 hst
      have hlt := hsmall q hq k₀ k ⟨n, hn, .inl hk₀⟩ ⟨m, hm, hk⟩
      rw [inBounds, endExcludesKey_mono hlt.le hend, Bool.not_true, Bool.and_false] at hin
      cases hin
    · -- with the bounds the wrong way round, there was no base cell to stop at
      have hok' : inverted start stop = false ∨ Unchained store start (next :: rest) := by
        cases hinv : inverted start stop with
        | false => exact .inl rfl
        | true =>
          refine .inr (((hok.resolve_left (by rw [hinv]; decide)) n hn).2 fun k hk => ?_)
          cases hadm : startAdmits start k with
          | false => rfl
          | true => exact absurd (hstop.2 ⟨k, hk, hadm, excluded_of_inverted hinv hadm⟩) hst
      obtain ⟨later, hlater, hls, hlmem⟩ :=
        ih hlinks (fun q hq => hne q (mem_cons_of_mem _ hq)) hasc hok' (lt_of_succ_lt_succ hfuel)
      rw [if_neg (not_or.2 ⟨hst, hnz⟩), hnext, headD_cons, hlater]
      refine ⟨visited ++ later, rfl, ?_, fun k v => ?_⟩
      · refine pairwise_append.2 ⟨hs, hls, fun p hp q hq => ?_⟩
        obtain ⟨-, hp, -⟩ := (hmem p.1 p.2).1 hp
        obtain ⟨-, x, hx, m, hm, hq, -⟩ := (hlmem q.1 q.2).1 hq
        exact hsmall x hx p.1 q.1 ⟨n, hn, hp⟩ ⟨m, hm, hq⟩
      · rw [mem_append, hmem, hlmem, finds_cons hn, and_or_left]

/-- `BTreeMap::range` panics, if the walk gets to a leaf with chains -/
theorem scanFrom_panics {prev page : ℕ} (hfits : FitsBetween r start stop)
    (hlinks : Siblings store prev (page :: rest)) (hne : ∀ q ∈ rest, q ≠ 0) (hinv : inverted start stop = true)
    (hchained : ¬ Unchained store start (page :: rest)) (hfuel : rest.length < fuel) :
    scanFrom r store start stop fuel page = .error .panic := by
  induction rest generalizing prev page fuel with
  | nil =>
    obtain ⟨fuel, rfl⟩ := exists_eq_succ_of_ne_zero (ne_of_gt (zero_lt_of_lt hfuel))
    obtain ⟨⟨n, hn, -, -⟩, -⟩ := hlinks
    have hdeltas : n.deltas.entries ≠ [] := by
      intro hnil
      refine hchained fun m hm => ?_
      rw [hn] at hm
      cases hm
      exact ⟨hnil, fun _ => trivial⟩
    simp only [scanFrom, hn, scan, deltaRange, if_pos (And.intro hdeltas hinv)]
  | cons next rest ih =>
    obtain ⟨fuel, rfl⟩ := exists_eq_succ_of_ne_zero (ne_of_gt (zero_lt_of_lt hfuel))
    obtain ⟨⟨n, hn, -, hnext⟩, hlinks⟩ := hlinks
    by_cases hdeltas : n.deltas.entries = []
    · have hrest : (∀ k, (n.cells.get? k).isSome = true → startAdmits start k = false) ∧
          ¬ Unchained store start (next :: rest) := by
        by_contra hnot
        refine hchained fun m hm => ?_
        rw [hn] at hm
        cases hm
        exact ⟨hdeltas, fun hcells => by_contra fun h => hnot ⟨hcells, h⟩⟩
      obtain ⟨visited, stopped, hscan, -, -, hstop⟩ := LeafNode.scan_spec hfits (.inl hdeltas)
      have hgo : ¬ (stopped = true ∨ n.nextLeafPage = 0) := by
        rintro (hst | hzero)
        · obtain ⟨k, hcell, hadm, -⟩ := hstop.1 hst
          rw [hrest.1 k hcell] at hadm
          cases hadm
        · rw [hnext] at hzero
          exact hne next mem_cons_self hzero
      simp only [scanFrom, hn, hscan, if_neg hgo]
      rw [hnext, headD_cons, ih hlinks (fun q hq => hne q (mem_cons_of_mem _ hq)) hrest.2 (lt_of_succ_lt_succ hfuel)]
      rfl
    · simp only [scanFrom, hn, scan, deltaRange, if_pos (And.intro hdeltas hinv)]

/-! ## The scan and the point lookup -/

/-- the key has neither base cell nor chain, and history shows a value for it -/
def OnlyInHistory (r : Reader) (store : PageStore) (leaves : List ℕ) (k : Key) : Prop :=
  (∀ q ∈ leaves, ¬ Holds store q k) ∧
    ((visibleEntry r.kind (r.rows k) r.view.readTs).bind (entryValue r.pages)).isSome = true

theorem getMvcc_of_holds (hs : Sound t leaves) {q : ℕ} (hq : q ∈ leaves) {n : LeafNode}
    (hn : t.store q = some (.leaf n)) (hk : n.holds k) : t.getMvcc r k = n.getMvcc r k := by
  rw [BTree.getMvcc, hs.subtree.find_of_holds hq ⟨n, hn, hk⟩, Option.bind_some, hn]

/-- on a leaf that does not hold the key, history is asked -/
theorem getMvcc_of_not_holds {n : LeafNode} (hfits : RowsFit (r.rows k)) (h : ¬ n.holds k) :
    n.getMvcc r k = .ok ((visibleEntry r.kind (r.rows k) r.view.readTs).bind (entryValue r.pages)) := by
  obtain ⟨hcell, hchain⟩ := not_or.1 h
  have hcell : n.cells.get? k = none := by simpa using hcell
  have hchain : n.chainOf k = [] := by
    rw [LeafNode.chainOf, Option.not_isSome_iff_eq_none.1 hchain, Option.getD_none]
  rw [LeafNode.getMvcc, getMvcc_fits hfits, getFitting, hcell, hchain]
  cases visibleEntry r.kind (r.rows k) r.view.readTs <;> simp [visibleAt, historyIsCandidate]

/-- a lookup that finds a value finds it in a leaf that holds the key, or in history -/
theorem finds_of_getMvcc (hs : Sound t leaves) (hfits : RowsFit (r.rows k)) {v : Bytes}
    (h : t.getMvcc r k = .ok (some v)) : Finds r t.store leaves k v ∨ OnlyInHistory r t.store leaves k := by
  by_cases hholds : ∃ q ∈ leaves, Holds t.store q k
  · obtain ⟨q, hq, n, hn, hk⟩ := hholds
    rw [getMvcc_of_holds hs hq hn hk] at h
    exact .inl ⟨q, hq, n, hn, hk, h⟩
  · refine .inr ⟨fun q hq hk => hholds ⟨q, hq, hk⟩, ?_⟩
    unfold BTree.getMvcc at h
    split at h
    next n hfind =>
      obtain ⟨q, left, right, hq, hleaves, -⟩ := hs.subtree.find k
      rw [hq] at hfind
      have hnot : ¬ n.holds k := fun hk => hholds ⟨q, by rw [hleaves]; simp, n, hfind, hk⟩
      rw [getMvcc_of_not_holds hfits hnot, Except.ok.injEq] at h
      rw [h]
      rfl
    next => cases h

/-- what lives in history only is found by the lookup -/
theorem getMvcc_of_onlyInHistory (hs : Sound t leaves) (hfits : RowsFit (r.rows k))
    (h : OnlyInHistory r t.store leaves k) : ∃ v, t.getMvcc r k = .ok (some v) := by
  obtain ⟨hnot, hvalue⟩ := h
  obtain ⟨v, hv⟩ := Option.isSome_iff_exists.1 hvalue
  obtain ⟨e, he, hev⟩ := Option.bind_eq_some_iff.1 hv
  obtain ⟨q, left, right, hq, hleaves, -⟩ := hs.subtree.find k
  obtain ⟨prev, ⟨n, hn, -, -⟩, -⟩ := (hleaves ▸ hs.siblings).right
  have hholds : ¬ n.holds k := fun hk => hnot q (by rw [hleaves]; simp) ⟨n, hn, hk⟩
  refine ⟨v, ?_⟩
  rw [BTree.getMvcc, hq, Option.bind_some, hn]
  simp only [getMvcc_of_not_holds hfits hholds, he, Option.bind_some, hev]

theorem startLeaf_spec (hs : Sound t leaves) (start : Bound) :
    ∃ q left right, t.startLeaf start = some q ∧ leaves = left ++ q :: right ∧
      ∀ p ∈ left, ∀ k, Holds t.store p k → startAdmits start k = false := by
  cases start with
  | unbounded =>
    obtain ⟨q, right, hq, hleaves⟩ := hs.subtree.leftmost
    exact ⟨q, [], right, hq, hleaves, fun p hp => by cases hp⟩
  | included key =>
    obtain ⟨q, left, right, hq, hleaves, hsmall, -⟩ := hs.subtree.find key
    exact ⟨q, left, right, hq, hleaves, fun p hp k hk => decide_eq_false (not_le.2 (hsmall p hp k hk))⟩
  | excluded key =>
    obtain ⟨q, left, right, hq, hleaves, hsmall, -⟩ := hs.subtree.find key
    exact ⟨q, left, right, hq, hleaves, fun p hp k hk => decide_eq_false (hsmall p hp k hk).asymm⟩

/-- taking ranges of chains does not panic on the way -/
def RangesOk (t : BTree) (leaves : List ℕ) (start stop : Bound) : Prop :=
  inverted start stop = false ∨ ∀ left page right, leaves = left ++ page :: right → t.startLeaf start = some page →
    Unchained t.store start (page :: right)

/-- what the scan visits, when it gets through -/
theorem rangeScan_spec {r : Reader} (hfits : FitsBetween r start stop) (hs : Sound t leaves)
    (hfuel : leaves.length ≤ fuel) (hok : RangesOk t leaves start stop) :
    ∃ visited, t.rangeScanMvccBounded r start stop fuel = .ok visited ∧ visited.Pairwise (fun a b => a.1 < b.1) ∧
      ∀ k v, (k, v) ∈ visited ↔ inBounds start stop k = true ∧ Finds r t.store leaves k v := by
  obtain ⟨page, left, right, hpage, rfl, hsmall⟩ := startLeaf_spec hs start
  obtain ⟨prev, hlinks⟩ := hs.siblings.right
  have hasc : Ascends t.store (page :: right) := (pairwise_append.1 hs.subtree.ascends).2.1
  have hne : ∀ q ∈ right, q ≠ 0 := fun q hq => hs.subtree.leaves_ne_zero q (by simp [hq])
  have hlen : right.length < fuel := by
    simp only [length_append, length_cons] at hfuel
    omega
  obtain ⟨visited, hscan, hsorted, hmem⟩ :=
    scanFrom_spec hfits hlinks hne hasc (hok.imp_right fun h => h left page right rfl hpage) hlen
  refine ⟨visited, ?_, hsorted, fun k v => ?_⟩
  · rw [BTree.rangeScanMvccBounded, hpage]
    exact hscan
  · rw [hmem]
    refine and_congr_right fun hin => ⟨fun ⟨q, hq, h⟩ => ⟨q, mem_append_right _ hq, h⟩, ?_⟩
    rintro ⟨q, hq, n, hn, hk, hval⟩
    refine ⟨q, (mem_append.1 hq).resolve_left fun hleft => ?_, n, hn, hk, hval⟩
    -- the leaves left of the first one hold keys that the start bound refuses
    rw [inBounds, hsmall q hleft k ⟨n, hn, hk⟩] at hin
    cases hin

/-- a scan that returns did not panic on the way -/
theorem rangesOk_of_ok {visited : List (Key × Bytes)} (hfits : FitsBetween r start stop)
    (hs : Sound t leaves) (hfuel : leaves.length ≤ fuel) (h : t.rangeScanMvccBounded r start stop fuel = .ok visited) :
    RangesOk t leaves start stop := by
  cases hinv : inverted start stop with
  | false => exact .inl hinv
  | true =>
    refine .inr fun left page right hleaves hpage => ?_
    by_contra hchained
    obtain ⟨prev, hlinks⟩ := (hleaves ▸ hs.siblings).right
    have hne : ∀ q ∈ right, q ≠ 0 := fun q hq => hs.subtree.leaves_ne_zero q (by simp [hleaves, hq])
    have hlen : right.length < fuel := by
      rw [hleaves, length_append, length_cons] at hfuel
      omega
    rw [BTree.rangeScanMvccBounded, hpage] at h
    simp only at h
    rw [scanFrom_panics hfits hlinks hne hinv hchained hlen] at h
    cases h

/-- **The range scan agrees with the point lookup**, where the history rows inside the bounds fit, if and only if no key
inside the bounds lives in history only and, with the bounds the wrong way round, it meets no chains. -/
theorem scan_agrees_iff (r : Reader) {t : BTree} {leaves : List ℕ} (start stop : Bound) (fuel : ℕ) (hs : Sound t leaves)
    (hfuel : leaves.length ≤ fuel) (hfits : FitsBetween r start stop) :
    (∃ visited, t.rangeScanMvccBounded r start stop fuel = .ok visited ∧ visited.Pairwise (fun a b => a.1 < b.1) ∧
      ∀ k v, (k, v) ∈ visited ↔ inBounds start stop k = true ∧ t.getMvcc r k = .ok (some v)) ↔
    RangesOk t leaves start stop ∧ ∀ k, inBounds start stop k = true → ¬ OnlyInHistory r t.store leaves k := by
  constructor
  · rintro ⟨visited, hscan, -, hmem⟩
    have hok := rangesOk_of_ok hfits hs hfuel hscan
    obtain ⟨visited', hscan', -, hmem'⟩ := rangeScan_spec hfits hs hfuel hok
    obtain rfl : visited = visited' := by
      rw [hscan] at hscan'
      exact Except.ok.inj hscan'
    refine ⟨hok, fun k hin hhist => ?_⟩
    obtain ⟨v, hv⟩ := getMvcc_of_onlyInHistory hs (hfits k hin) hhist
    obtain ⟨-, q, hq, n, hn, hk, -⟩ := (hmem' k v).1 ((hmem k v).2 ⟨hin, hv⟩)
    exact hhist.1 q hq ⟨n, hn, hk⟩
  · rintro ⟨hok, hhist⟩
    obtain ⟨visited, hscan, hsorted, hmem⟩ := rangeScan_spec hfits hs hfuel hok
    refine ⟨visited, hscan, hsorted, fun k v => ?_⟩
    rw [hmem]
    refine and_congr_right fun hin =>
      ⟨?_, fun hget => (finds_of_getMvcc hs (hfits k hin) hget).resolve_right (hhist k hin)⟩
    rintro ⟨q, hq, n, hn, hk, hget⟩
    rw [getMvcc_of_holds hs hq hn hk, hget]

/-! ## Trees of one leaf -/

def oneLeaf (cells : OrdMap Key VersionData) (deltas : OrdMap Key Chain) : BTree :=
  ⟨fun page => if page = 1 then some (.leaf ⟨cells, deltas, 0, 0⟩) else none, 1, 0⟩

theorem oneLeaf_sound (cells : OrdMap Key VersionData) (deltas : OrdMap Key Chain) :
    Sound (oneLeaf cells deltas) [1] where
  subtree := ⟨rfl, one_ne_zero, _, rfl, fun _ _ => ⟨fun _ h => (by cases h), fun _ h => (by cases h)⟩⟩
  siblings := ⟨⟨_, rfl, rfl, rfl⟩, trivial⟩

/-- a view at 15 -/
def readerAt15 (rows : Key → HistoryRows) : Reader := ⟨fun _ _ => [], ⟨20, 0⟩, ⟨⟨15, 0⟩, 9⟩, .primary, rows⟩

/-- committed at 10 -/
def chainAt10 : Chain := [⟨⟨10, 0⟩, Ts.MAX, 1, .committed, .inline [2], false⟩]

/-- a base cell and, for the next key, a chain; nothing in history -/
theorem scan_agrees_cell_and_chain :
    ∃ visited, (oneLeaf (OrdMap.empty.insert [7] (.inline [1]))
      (OrdMap.empty.insert [8] chainAt10)).rangeScanMvccBounded
        (readerAt15 fun _ => OrdMap.empty) (.included [7]) .unbounded 1 = .ok visited ∧
      ([7], [1]) ∈ visited ∧ ([8], [2]) ∈ visited := by
  obtain ⟨visited, hscan, -, hmem⟩ := (scan_agrees_iff (readerAt15 fun _ => empty) (.included [7]) .unbounded 1
    (oneLeaf_sound (empty.insert [7] (.inline [1])) (empty.insert [8] chainAt10)) (by decide)
    fun _ _ => rowsFit_empty).2
    ⟨.inl rfl, fun k _ h => (by cases h.2)⟩
  exact ⟨visited, hscan, (hmem _ _).2 ⟨by decide, rfl⟩, (hmem _ _).2 ⟨by decide, rfl⟩⟩

/-- inserted at 10, deleted at 20 -/
def deletedChain : OrdMap Key Chain := OrdMap.empty.insert [7]
  [⟨⟨20, 0⟩, Ts.MAX, 2, .committed, .inline [], true⟩, ⟨⟨10, 0⟩, ⟨20, 0⟩, 1, .committed, .inline [1], false⟩]

/-- **The scan misses a key that lives in history only.** A checkpoint at 30 folds the delete: the key leaves its leaf,
and its old version goes to history. The point lookup at 15 finds it there; the scan at 15 does not. (And with the
bounds the wrong way round the scan panics on the leaf that still has the chain.) -/
theorem scan_misses_folded_key :
    ∃ p history, synthesizePage ⟨OrdMap.empty, ⟨0, 0⟩⟩ deletedChain ⟨30, 0⟩ ⟨5, 0⟩ ⟨1, .primary⟩ = .ok p ∧
      commitSpillTxn (fun _ _ => OrdMap.empty) p.historySpill = .ok history ∧
      Sound (oneLeaf p.newBase.cells p.retainedChains) [1] ∧
      (oneLeaf p.newBase.cells p.retainedChains).getMvcc (readerAt15 (history ⟨1, .primary⟩)) [7] = .ok (some [1]) ∧
      (∀ fuel, (oneLeaf p.newBase.cells p.retainedChains).rangeScanMvccBounded (readerAt15 (history ⟨1, .primary⟩))
        .unbounded .unbounded (fuel + 1) = .ok []) ∧
      ∀ fuel, (oneLeaf OrdMap.empty deletedChain).rangeScanMvccBounded (readerAt15 fun _ => OrdMap.empty)
        (.included [9]) (.excluded [7]) (fuel + 1) = .error .panic :=
  ⟨_, _, rfl, rfl, oneLeaf_sound _ _, rfl, fun _ => rfl, fun _ => rfl⟩

end Mqlite.Btree
