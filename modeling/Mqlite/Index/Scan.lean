/-
Execution of an index scan (`execute_index_scan_from_snap` of `storage/paged_engine/snapshot_ops/read_exec.rs`).

The scan walks the entries within the bounds of the condition, one range after the other: a list of values has a range
for each of them. For each entry it fetches the document with the entry's `_id`, and keeps it if it passes the whole
filter, up to a number of matches. Nothing keeps track of the documents that were returned already.

`index_scan_once_iff`: when the result has no document twice. A document must have no two of its keys in the ranges, and
no key in two of them, unless the limit is reached before. An array with two elements in the range is enough
(`index_scan_repeats_document`).
-/
import Mqlite.Index.Maintain
import Mqlite.Index.Plans
import Mqlite.Lib.Sorted
import Mqlite.Query.PrimaryKey

namespace Mqlite.Index

open Lib Mvcc Keys Query List Option OrdMap

/-! ## The scan -/

/-- an index of the snapshot, with the entries that the view sees -/
structure ReadyIndex where
  entry : IndexEntry
  entries : Entries

inductive ScanError where
  | notInSnapshot (name : String)
  | query (e : QueryError)
deriving DecidableEq, Repr

/-- the ranges that are walked; those of a list include the start only -/
def scanRanges (ascending : Bool) : IndexCondition → List (Bytes → Bool)
  | .inList vals => vals.map fun v key => decide (boundPrefix v ascending ≤ key ∧ key < prefixNext v ascending)
  | condition => [fun key => decide (Within (indexBounds condition ascending) key)]

section Execute

variable (env : Env) (coll : Collection) (filter : Document) (matchLimit : Option ℕ)

/-- one range: the documents so far, and if the limit is reached -/
def fetchEntries : List Bson → List Pair → Except QueryError (List Pair × Bool)
  | [], docs => .ok (docs, false)
  | id :: ids, docs =>
    match fetchPrimaryPair env coll filter (encodeKey id) with
    | .error e => .error e
    | .ok none => fetchEntries ids docs
    | .ok (some pair) =>
      if matchLimit.any (· ≤ (docs ++ [pair]).length) then .ok (docs ++ [pair], true)
        else fetchEntries ids (docs ++ [pair])

def idsWithin (entries : Entries) (range : Bytes → Bool) : List Bson :=
  (entries.entries.filter fun p => range p.1).map Prod.snd

def scanEach (entries : Entries) : List (Bytes → Bool) → List Pair → Except QueryError (List Pair)
  | [], docs => .ok docs
  | range :: ranges, docs =>
    match fetchEntries env coll filter matchLimit (idsWithin entries range) docs with
    | .error e => .error e
    | .ok (docs, true) => .ok docs
    | .ok (docs, false) => scanEach entries ranges docs

def executeIndexScan (ready : List ReadyIndex) (indexName primaryField : String) (condition : IndexCondition) :
    Except ScanError (List Pair) :=
  match ready.find? fun idx => idx.entry.name = indexName with
  | none => .error (.notInSnapshot indexName)
  | some idx =>
    match scanEach env coll filter matchLimit idx.entries
      (scanRanges (scanAscending idx.entry primaryField) condition) [] with
    | .error e => .error (.query e)
    | .ok docs => .ok docs

end Execute

/-- the entries are the keys of the documents -/
def ReadyIndex.IsImage (idx : ReadyIndex) (env : Env) (coll : Collection) : Prop :=
  ∀ key id, idx.entries.get? key = some id ↔ ∃ p ∈ coll.docs.entries, key ∈ keysOf env idx.entry p.2 ∧ idOf p.2 = id

/-! ## One loop -/

section Loop

variable {env : Env} {coll : Collection} {filter : Document} {matchLimit : Option ℕ}

/-- how many matches are still taken, with m of them taken: at least one, because the limit is looked at after each -/
def capped {α : Type} (matchLimit : Option ℕ) (m : ℕ) (l : List α) : List α :=
  match matchLimit with
  | none => l
  | some n => l.take (max 1 (n - m))

theorem lookupKeys_ok {keys : List Bytes} {matched out : List Pair}
    (h : lookupKeys env coll filter matchLimit keys matched = .ok out) :
    out = matched ++ capped matchLimit matched.length (keys.filterMap (foundPair env coll filter)) := by
  induction keys generalizing matched with
  | nil =>
    cases h
    cases matchLimit <;> simp [capped]
  | cons key keys ih =>
    rw [lookupKeys] at h
    rcases @fetchPrimaryPair_cases env coll filter key with ⟨hfetch, -⟩ | ⟨e, -, hfetch⟩
    · rw [hfetch] at h
      rw [filterMap_cons]
      cases hfound : foundPair env coll filter key with
      | none =>
        rw [hfound] at h
        exact ih h
      | some pair =>
        rw [hfound] at h
        dsimp only at h ⊢
        split_ifs at h with hlimit
        · cases h
          cases matchLimit with
          | none => cases hlimit
          | some n =>
            have hone : max 1 (n - matched.length) = 1 := by
              simp only [any_some, length_append, length_singleton, decide_eq_true_eq] at hlimit
              omega
            rw [capped, hone, take_succ_cons, take_zero]
        · rw [ih h, append_assoc]
          cases matchLimit with
          | none => rfl
          | some n =>
            have hmore : max 1 (n - matched.length) = max 1 (n - (matched ++ [pair]).length) + 1 := by
              simp only [any_some, length_append, length_singleton, decide_eq_true_eq] at hlimit ⊢
              omega
            rw [capped, capped, hmore, take_succ_cons, singleton_append]
    · rw [hfetch] at h
      cases h

theorem lookupKeys_fetchEntries (ids : List Bson) (rest : List Bytes) (docs : List Pair) :
    lookupKeys env coll filter matchLimit (ids.map encodeKey ++ rest) docs =
      match fetchEntries env coll filter matchLimit ids docs with
      | .error e => .error e
      | .ok (docs, true) => .ok docs
      | .ok (docs, false) => lookupKeys env coll filter matchLimit rest docs := by
  induction ids generalizing docs with
  | nil => rfl
  | cons id ids ih =>
    rw [map_cons, cons_append, lookupKeys, fetchEntries]
    cases fetchPrimaryPair env coll filter (encodeKey id) with
    | error e => rfl
    | ok found =>
      cases found with
      | none => exact ih docs
      | some pair =>
        dsimp only
        split_ifs
        · rfl
        · exact ih (docs ++ [pair])

/-- the ranges one after the other are one list of keys -/
theorem scanEach_eq (entries : Entries) (ranges : List (Bytes → Bool)) (docs : List Pair) :
    scanEach env coll filter matchLimit entries ranges docs =
      lookupKeys env coll filter matchLimit
        (ranges.flatMap fun range => (idsWithin entries range).map encodeKey) docs := by
  induction ranges generalizing docs with
  | nil => rfl
  | cons range ranges ih =>
    rw [scanEach, flatMap_cons, lookupKeys_fetchEntries]
    cases fetchEntries env coll filter matchLimit (idsWithin entries range) docs with
    | error e => rfl
    | ok r =>
      obtain ⟨docs', reached⟩ := r
      cases reached with
      | true => rfl
      | false => exact ih docs'

end Loop

/-! ## Plans -/

section Plans

variable (env : Env) (coll : Collection) (filter : Document) (matchLimit : Option ℕ) (ready : List ReadyIndex)

/-- `btree_collscan`: all documents in the order of their keys -/
def executeCollscan : Except QueryError (List Pair) :=
  lookupKeys env coll filter matchLimit (coll.docs.entries.map Prod.fst) []

def executePlan : ScanPlan → Except ScanError (List Pair)
  | .primaryKeyLookup condition => (executePrimaryKeyLookup env coll filter matchLimit condition).mapError .query
  | .indexScan indexName primaryField condition =>
    executeIndexScan env coll filter matchLimit ready indexName primaryField condition
  | .collScan => (executeCollscan env coll filter matchLimit).mapError .query

/-- the plan comes by a document -/
def Reaches (p : Pair) : ScanPlan → Prop
  | .primaryKeyLookup condition => ∃ v ∈ condition.vals, encodeKey v = p.1
  | .indexScan indexName primaryField condition =>
    ∀ idx, (ready.find? fun idx => idx.entry.name = indexName) = some idx →
      ∃ range ∈ scanRanges (scanAscending idx.entry primaryField) condition, ∃ key, range key = true ∧
        idx.entries.get? key = some (idOf p.2)
  | .collScan => True

variable {env coll filter matchLimit ready}

theorem executeIndexScan_ok {indexName primaryField : String} {condition : IndexCondition} {docs : List Pair}
    (h : executeIndexScan env coll filter matchLimit ready indexName primaryField condition = .ok docs) :
    ∃ idx, (ready.find? fun idx => idx.entry.name = indexName) = some idx ∧
      lookupKeys env coll filter matchLimit
        ((scanRanges (scanAscending idx.entry primaryField) condition).flatMap fun range =>
        (idsWithin idx.entries range).map encodeKey) [] = .ok docs := by
  unfold executeIndexScan at h
  split at h
  · cases h
  next idx hfind =>
    split at h
    · cases h
    next hdocs =>
      cases h
      exact ⟨idx, hfind, by rw [← scanEach_eq]; exact hdocs⟩

/-- a plan without a limit finds the accepted documents under a list of keys, and the filter fails on none of them -/
theorem executePlan_ok {plan : ScanPlan} {docs : List Pair}
    (h : executePlan env coll filter none ready plan = .ok docs) :
    ∃ keys : List Bytes, docs = keys.filterMap (foundPair env coll filter) ∧
      (∀ key ∈ keys, ∀ e, ¬ FailsAt env coll filter key e) ∧
      ∀ p ∈ coll.docs.entries, Reaches ready p plan → p.1 ∈ keys := by
  cases plan with
  | primaryKeyLookup condition =>
    obtain ⟨keys, -, hkeys, ⟨hlookup, hnone⟩ | ⟨key, -, e, -, hlookup⟩⟩ :=
      @executePrimaryKeyLookup_cases env coll filter condition
    · rw [mapError_ok h] at hlookup
      exact ⟨keys, Except.ok.inj hlookup, hnone, fun p _ hp => (hkeys p.1).2 hp⟩
    · rw [mapError_ok h] at hlookup
      cases hlookup
  | indexScan indexName primaryField condition =>
    obtain ⟨idx, hfind, hlookup⟩ := executeIndexScan_ok h
    rcases @lookupKeys_cases env coll filter _ [] with ⟨hok, hnone⟩ | ⟨key, -, e, -, herror⟩
    · refine ⟨_, Except.ok.inj (hlookup.symm.trans hok), hnone, fun p hp hreach => ?_⟩
      obtain ⟨range, hrange, key, hkey, hget⟩ := hreach idx hfind
      obtain ⟨id, hid, hpkey⟩ := coll.keyed p hp
      rw [mem_flatMap]
      refine ⟨range, hrange, mem_map.2 ⟨idOf p.2, mem_map.2 ⟨(key, idOf p.2), ?_, rfl⟩, ?_⟩⟩
      · exact mem_filter.2 ⟨get?_eq_some_iff.1 hget, hkey⟩
      · rw [idOf, hid]
        exact hpkey
    · rw [herror] at hlookup
      cases hlookup
  | collScan =>
    have hlookup := mapError_ok h
    rcases @lookupKeys_cases env coll filter (coll.docs.entries.map Prod.fst) []
      with ⟨hok, hnone⟩ | ⟨key, -, e, -, herror⟩
    · exact ⟨_, Except.ok.inj (hlookup.symm.trans hok), hnone, fun p hp _ => mem_map_of_mem hp⟩
    · rw [executeCollscan, herror] at hlookup
      cases hlookup

end Plans

/-! ## Visits -/

/-- a place in the scan: the range, and the key in it -/
abbrev Place := ℕ ×ₗ Bytes

/-- the entries in the order of the scan, with their places -/
def visits (entries : Entries) (ranges : List (Bytes → Bool)) : List (Place × Bson) :=
  ranges.zipIdx.flatMap fun r => (entries.entries.filter fun p => r.1 p.1).map fun p => (toLex (r.2, p.1), p.2)

section Visits

variable {env : Env} {coll : Collection} {filter : Document} {entries : Entries} {ranges : List (Bytes → Bool)}

theorem mem_visits {place : Place} {id : Bson} : (place, id) ∈ visits entries ranges ↔
    ∃ range, ranges[(ofLex place).1]? = some range ∧ range (ofLex place).2 = true ∧
      entries.get? (ofLex place).2 = some id := by
  simp only [visits, List.mem_flatMap, List.mem_map, List.mem_filter, OrdMap.get?_eq_some_iff]
  constructor
  · rintro ⟨r, hr, p, ⟨hp, hrange⟩, heq⟩
    obtain ⟨rfl, rfl⟩ := Prod.mk.inj heq
    exact ⟨r.1, mk_mem_zipIdx_iff_getElem?.1 hr, hrange, hp⟩
  · rintro ⟨range, hr, hrange, hp⟩
    exact ⟨(range, (ofLex place).1), List.mk_mem_zipIdx_iff_getElem?.2 hr, _, ⟨hp, hrange⟩, rfl⟩

theorem visits_sorted : (visits entries ranges).Pairwise fun a b => a.1 < b.1 := by
  have hranges : ranges.zipIdx.Pairwise fun r q => r.2 < q.2 := by
    rw [← pairwise_map, zipIdx_map_snd]
    exact pairwise_lt_range'
  refine pairwise_flatMap.2 ⟨fun r _ => ?_, hranges.imp fun {r q} hlt a ha b hb => ?_⟩
  · rw [pairwise_map]
    refine (entries.sorted.filter _).imp fun {p q} hlt => ?_
    exact Prod.Lex.toLex_lt_toLex.2 (.inr ⟨rfl, hlt⟩)
  · obtain ⟨p, -, rfl⟩ := mem_map.1 ha
    obtain ⟨p', -, rfl⟩ := mem_map.1 hb
    exact Prod.Lex.toLex_lt_toLex.2 (.inl hlt)

theorem visits_keys : (visits entries ranges).map (fun v => encodeKey v.2) =
    ranges.flatMap fun range => (idsWithin entries range).map encodeKey := by
  unfold visits idsWithin
  rw [List.map_flatMap]
  simp only [List.map_map]
  conv_rhs => rw [← List.zipIdx_map_fst 0 ranges, List.flatMap_map]
  rfl

/-- the entry's document passes the filter -/
def matched (env : Env) (coll : Collection) (filter : Document) (v : Place × Bson) : Bool :=
  (foundPair env coll filter (encodeKey v.2)).isSome

/-- the matches before a place in the scan -/
def matchesBefore (env : Env) (coll : Collection) (filter : Document) (entries : Entries) (ranges : List (Bytes → Bool))
    (place : Place) : ℕ :=
  (visits entries ranges).countP fun v => decide (v.1 < place) && matched env coll filter v

/-- a document has a key at a place of the scan -/
def Hits (env : Env) (e : IndexEntry) (ranges : List (Bytes → Bool)) (place : Place) (doc : Document) : Prop :=
  (ofLex place).2 ∈ keysOf env e doc ∧ ∃ range ∈ ranges[(ofLex place).1]?, range (ofLex place).2 = true

theorem key_of_accepted {p : Pair} (h : p ∈ acceptedPairs env coll filter) : encodeKey (idOf p.2) = p.1 := by
  obtain ⟨id, hid, hkey⟩ := coll.keyed p (mem_of_mem_filter h)
  rw [idOf, hid]
  exact hkey

theorem accepted_inj {p q : Pair} (hp : p ∈ acceptedPairs env coll filter) (hq : q ∈ acceptedPairs env coll filter)
    (h : p.1 = q.1) :
    p = q := by
  have hget := get?_eq_some_iff.2 (mem_of_mem_filter hp)
  rw [h, get?_eq_some_iff.2 (mem_of_mem_filter hq)] at hget
  exact Prod.ext h (Option.some.inj hget).symm

theorem matched_iff {v : Place × Bson} :
    matched env coll filter v = true ↔ ∃ p ∈ acceptedPairs env coll filter, p.1 = encodeKey v.2 := by
  rw [matched, isSome_iff_exists]
  exact exists_congr fun p => by rw [mem_foundPair, and_comm]

/-- the matches of the scan, by their documents -/
theorem mem_matched {idx : ReadyIndex} (himage : idx.IsImage env coll) {v : Place × Bson} :
    v ∈ (visits idx.entries ranges).filter (matched env coll filter) ↔
      ∃ p ∈ acceptedPairs env coll filter, Hits env idx.entry ranges v.1 p.2 ∧ idOf p.2 = v.2 := by
  obtain ⟨place, id⟩ := v
  rw [mem_filter, mem_visits, matched_iff]
  constructor
  · rintro ⟨⟨range, hrange, hwithin, hget⟩, p, hp, hkey⟩
    obtain ⟨q, hq, hkeys, rfl⟩ := (himage _ _).1 hget
    obtain ⟨id, hid, hqkey⟩ := coll.keyed q hq
    -- the document of the entry and the match have the same key
    obtain rfl : q = p := by
      have hsame : q.1 = p.1 := by
        rw [hkey, ← hqkey, idOf, hid]
        rfl
      have hget := get?_eq_some_iff.2 hq
      rw [hsame, get?_eq_some_iff.2 (mem_of_mem_filter hp)] at hget
      exact Prod.ext hsame (Option.some.inj hget).symm
    exact ⟨q, hp, ⟨hkeys, range, hrange, hwithin⟩, rfl⟩
  · rintro ⟨p, hp, ⟨hkeys, range, hrange, hwithin⟩, rfl⟩
    exact ⟨⟨range, hrange, hwithin, (himage _ _).2 ⟨p, mem_of_mem_filter hp, hkeys, rfl⟩⟩, p, hp,
      (key_of_accepted hp).symm⟩

/-- the keys of the result -/
theorem found_keys (l : List (Place × Bson)) :
    ((l.map fun v => encodeKey v.2).filterMap (foundPair env coll filter)).map Prod.fst =
      (l.filter (matched env coll filter)).map fun v => encodeKey v.2 := by
  induction l with
  | nil => rfl
  | cons v l ih =>
    rw [map_cons, filterMap_cons, filter_cons, matched]
    cases hfound : foundPair env coll filter (encodeKey v.2) with
    | none => exact ih
    | some p =>
      simp only [isSome_some, if_true, map_cons]
      rw [(mem_foundPair.1 hfound).1, ih]

/-- among accepted documents, `_id` and key say the same -/
theorem nodup_ids_iff {docs : List Pair} (h : ∀ p ∈ docs, p ∈ acceptedPairs env coll filter) :
    (docs.map fun p => idOf p.2).Nodup ↔ (docs.map Prod.fst).Nodup := by
  rw [List.Nodup, List.Nodup, pairwise_map, pairwise_map]
  refine List.Pairwise.iff_of_mem fun {p q} hp hq => not_congr ⟨fun heq => ?_, fun heq => ?_⟩
  · rw [← key_of_accepted (h p hp), heq, key_of_accepted (h q hq)]
  · rw [accepted_inj (h p hp) (h q hq) heq]

theorem map_capped {α β : Type} (f : α → β) (matchLimit : Option ℕ) (m : ℕ) (l : List α) :
    (capped matchLimit m l).map f = capped matchLimit m (l.map f) := by
  cases matchLimit with
  | none => rfl
  | some n => exact map_take

theorem mem_of_capped {α : Type} {matchLimit : Option ℕ} {m : ℕ} {l : List α} {x : α} (h : x ∈ capped matchLimit m l) :
    x ∈ l := by
  cases matchLimit with
  | none => exact h
  | some n => exact mem_of_mem_take h

/-- what is kept of a list is a number of its first elements -/
theorem exists_capped {α : Type} (matchLimit : Option ℕ) (l : List α) : ∃ n, capped matchLimit 0 l = l.take n ∧
    ∀ k ≤ l.length, n ≤ k ↔ ∃ limit, matchLimit = some limit ∧ max 1 limit ≤ k := by
  cases matchLimit with
  | none =>
    exact ⟨l.length + 1, (take_of_length_le (Nat.le_succ _)).symm, fun k hk => by simpa using Nat.lt_succ_of_le hk⟩
  | some limit => exact ⟨max 1 limit, rfl, fun k _ => by simp⟩

end Visits

/-- **Each document once.** The result of an index scan has no `_id` twice if and only if a document that passes the
filter has no keys at two places of the scan, unless the limit is reached before the second. -/
theorem index_scan_once_iff (env : Env) (coll : Collection) (filter : Document) (matchLimit : Option ℕ)
    (ready : List ReadyIndex) (indexName primaryField : String) (condition : IndexCondition) (idx : ReadyIndex)
    (hfind : (ready.find? fun idx => idx.entry.name = indexName) = some idx) (himage : idx.IsImage env coll)
    (docs : List Pair)
    (hscan : executeIndexScan env coll filter matchLimit ready indexName primaryField condition = .ok docs) :
    (docs.map fun p => idOf p.2).Nodup ↔ ∀ p ∈ acceptedPairs env coll filter, ∀ a b : Place, a < b →
        Hits env idx.entry (scanRanges (scanAscending idx.entry primaryField) condition) a p.2 →
        Hits env idx.entry (scanRanges (scanAscending idx.entry primaryField) condition) b p.2 →
        ∃ limit, matchLimit = some limit ∧ max 1 limit ≤
          matchesBefore env coll filter idx.entries
            (scanRanges (scanAscending idx.entry primaryField) condition) b := by
  set ranges := scanRanges (scanAscending idx.entry primaryField) condition
  obtain ⟨idx', hfind', hscan⟩ := executeIndexScan_ok hscan
  obtain rfl : idx = idx' := Option.some.inj (hfind.symm.trans hfind')
  rw [← visits_keys] at hscan
  have hdocs : docs = capped matchLimit 0
      (((visits idx.entries ranges).map fun v => encodeKey v.2).filterMap (foundPair env coll filter)) :=
    lookupKeys_ok hscan
  have haccepted : ∀ p ∈ docs, p ∈ acceptedPairs env coll filter := by
    intro p hp
    rw [hdocs] at hp
    obtain ⟨key, -, hfound⟩ := mem_filterMap.1 (mem_of_capped hp)
    exact (mem_foundPair.1 hfound).2
  obtain ⟨n, htake, hn⟩ := exists_capped matchLimit ((visits idx.entries ranges).filter (matched env coll filter))
  rw [nodup_ids_iff haccepted, hdocs, map_capped, found_keys, ← map_capped, htake,
    @nodup_map_take_iff (Place × Bson) Bytes (fun a b => a.1 < b.1) _ _ _ n (visits_sorted.filter _)]
  have hbefore : ∀ place, ((visits idx.entries ranges).filter (matched env coll filter)).countP (fun v => v.1 < place) =
      matchesBefore env coll filter idx.entries ranges place := fun place => countP_filter
  constructor
  · intro hpairs p hp a b hlt ha hb
    have hle := hpairs (a, idOf p.2) ((mem_matched himage).2 ⟨p, hp, ha, rfl⟩) (b, idOf p.2)
      ((mem_matched himage).2 ⟨p, hp, hb, rfl⟩) hlt rfl
    rw [hn _ countP_le_length, hbefore] at hle
    exact hle
  · intro hplaces v hv w hw hlt heq
    obtain ⟨p, hp, ha, hv⟩ := (mem_matched himage).1 hv
    obtain ⟨q, hq, hb, hw⟩ := (mem_matched himage).1 hw
    obtain rfl : p = q := accepted_inj hp hq (by rw [← key_of_accepted hp, ← key_of_accepted hq, hv, hw, heq])
    rw [hn _ countP_le_length, hbefore]
    exact hplaces p hp v.1 w.1 hlt ha hb

/-! ## One document -/

theorem isImage_of_entries {env : Env} {coll : Collection} {idx : ReadyIndex} (hentries : idx.entries.entries =
    coll.docs.entries.flatMap fun p => (keysOf env idx.entry p.2).map fun key => (key, idOf p.2)) :
    idx.IsImage env coll := by
  intro key id
  rw [get?_eq_some_iff, hentries]
  simp [and_comm, eq_comm]

def fiveAndSeven : Document := [("_id", .int32 1), ("a", .array [.int32 5, .int32 7])]

def onlyArray : Collection :=
  ⟨⟨[(encodeKey (.int32 1), fiveAndSeven)], by decide⟩, by simp [fiveAndSeven, Document.get]⟩

def keyOnA (v : Bson) : Bytes := encodeCompoundKey [(v, true), (.int32 1, true)]

def indexOnA : ReadyIndex where
  entry := ⟨"a_1", [("a", .int32 1)], false, false, none⟩
  entries := ⟨[(keyOnA (.int32 5), .int32 1), (keyOnA (.int32 7), .int32 1)], by decide⟩

theorem indexOnA_isImage : indexOnA.IsImage noLibraries onlyArray :=
  isImage_of_entries rfl

/-- one of the elements is within the bounds -/
theorem index_scan_once_equality : indexOnA.IsImage noLibraries onlyArray ∧ ∃ docs,
    executeIndexScan noLibraries onlyArray [("a", .int32 5)] none [indexOnA] "a_1" "a" (.eq (.int32 5)) = .ok docs ∧
      (docs.map fun p => idOf p.2).Nodup := by
  refine ⟨indexOnA_isImage, _, rfl,
    (index_scan_once_iff noLibraries onlyArray [("a", .int32 5)] none [indexOnA] "a_1" "a"
    (.eq (.int32 5)) indexOnA rfl indexOnA_isImage _ rfl).2 ?_⟩
  intro p hp a b hlt ha hb
  obtain rfl := mem_singleton.1 (mem_of_mem_filter hp)
  -- the only place is that of 5 in the only range
  have honly : ∀ place, Hits noLibraries indexOnA.entry (scanRanges (scanAscending indexOnA.entry "a") (.eq (.int32 5)))
    place fiveAndSeven →
      place = toLex (0, keyOnA (.int32 5)) := by
    intro place hhits
    obtain ⟨⟨i, key⟩, rfl⟩ := toLex.surjective place
    obtain ⟨hkey, range, hrange, hwithin⟩ := hhits
    obtain rfl : i = 0 := Nat.lt_one_iff.1 (List.getElem?_eq_some_iff.1 hrange).1
    cases hrange
    rcases mem_pair.1 hkey with rfl | rfl
    · rfl
    · exact absurd (of_decide_eq_true hwithin) (by decide)
  rw [honly a ha, honly b hb] at hlt
  exact absurd hlt (lt_irrefl _)

/-- two elements within the range -/
theorem index_scan_repeats_document : selectPlan [("a", .document [("$gte", .int32 3)])] [indexOnA.entry.planned] =
      .indexScan "a_1" "a" (.range none (some (.int32 3)) none none) ∧ indexOnA.IsImage noLibraries onlyArray ∧
    executeIndexScan noLibraries onlyArray [("a", .document [("$gte", .int32 3)])] none [indexOnA] "a_1" "a"
      (.range none (some (.int32 3)) none none) =
        .ok [(encodeKey (.int32 1), fiveAndSeven), (encodeKey (.int32 1), fiveAndSeven)] :=
  ⟨rfl, indexOnA_isImage, rfl⟩

end Mqlite.Index
