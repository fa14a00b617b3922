/-
Lookups by primary key (`execute_primary_key_lookup_from_snap` of `storage/paged_engine/snapshot_ops/read_exec.rs`).

The planner answers a filter with an equality or a list of values for `_id` by fetching the documents under the encoded
keys of these values, each of which then has to pass the whole filter.

`primary_key_lookup_exact_iff`: when this returns what a scan of the whole collection returns, or fails with the filter
on a document. Filter equality on `_id` has to be equality of encoded keys, which regular expression literals and arrays
break.

The collection is what a view sees of the data tree: documents by the encoded key of their `_id`.
-/
import Mqlite.Lib.OrdMap
import Mqlite.Query.Planner

namespace Mqlite.Query

open Lib Mvcc Keys List

/-- documents by encoded `_id` -/
structure Collection where
  docs : OrdMap Bytes Document
  keyed : ∀ p ∈ docs.entries, ∃ id, p.2.get "_id" = some id ∧ encodeKey id = p.1

abbrev Pair := Bytes × Document

section Lookup

variable (env : Env) (coll : Collection) (filter : Document)

def fetchPrimaryPair (key : Bytes) : Except QueryError (Option Pair) :=
  match coll.docs.get? key with
  | none => .ok none
  | some doc =>
    match evalFilter env doc filter with
    | .error e => .error e
    | .ok true => .ok (some (key, doc))
    | .ok false => .ok none

/-- the loop over the keys of a list, up to a number of matches -/
def lookupKeys (matchLimit : Option ℕ) : List Bytes → List Pair → Except QueryError (List Pair)
  | [], matched => .ok matched
  | key :: keys, matched =>
    match fetchPrimaryPair env coll filter key with
    | .error e => .error e
    | .ok none => lookupKeys matchLimit keys matched
    | .ok (some pair) =>
      if matchLimit.any (· ≤ (matched ++ [pair]).length) then .ok (matched ++ [pair])
      else lookupKeys matchLimit keys (matched ++ [pair])

/-- on a sorted list `dedup` and Vec::dedup are the same -/
def executePrimaryKeyLookup (matchLimit : Option ℕ) : PrimaryKeyCondition → Except QueryError (List Pair)
  | .eq id => (fetchPrimaryPair env coll filter (encodeKey id)).map Option.toList
  | .inList vals => lookupKeys env coll filter matchLimit ((vals.map encodeKey).insertionSort (· ≤ ·)).dedup []

/-- what a scan of the collection returns -/
def acceptedPairs : List Pair := coll.docs.entries.filter fun p => evalFilter env p.2 filter = .ok true

/-! ## One key -/

/-- the pair under a key, if the filter accepts it -/
def foundPair (key : Bytes) : Option Pair :=
  (coll.docs.get? key).bind fun doc => if evalFilter env doc filter = .ok true then some (key, doc) else none

/-- there is a document under the key, and evaluation fails on it -/
def FailsAt (key : Bytes) (e : QueryError) : Prop :=
  ∃ doc, coll.docs.get? key = some doc ∧ evalFilter env doc filter = .error e

variable {env coll filter}

theorem fetchPrimaryPair_cases (key : Bytes) :
    (fetchPrimaryPair env coll filter key = .ok (foundPair env coll filter key) ∧
      ∀ e, ¬ FailsAt env coll filter key e) ∨
      ∃ e, FailsAt env coll filter key e ∧ fetchPrimaryPair env coll filter key = .error e := by
  unfold fetchPrimaryPair foundPair FailsAt
  cases hget : coll.docs.get? key with
  | none => exact .inl ⟨rfl, by simp⟩
  | some doc =>
    cases heval : evalFilter env doc filter with
    | error e => exact .inr ⟨e, ⟨doc, rfl, heval⟩, by simp [heval]⟩
    | ok b => cases b with
      | true | false => exact .inl ⟨by simp [heval], by simp [heval]⟩

theorem mem_foundPair {key : Bytes} {p : Pair} :
    foundPair env coll filter key = some p ↔ p.1 = key ∧ p ∈ acceptedPairs env coll filter := by
  unfold foundPair acceptedPairs
  rw [mem_filter, ← OrdMap.get?_eq_some_iff, decide_eq_true_eq, Option.bind_eq_some_iff]
  constructor
  · rintro ⟨doc, hget, hp⟩
    split_ifs at hp with heval
    cases hp
    exact ⟨rfl, hget, heval⟩
  · rintro ⟨rfl, hget, heval⟩
    exact ⟨p.2, hget, by rw [if_pos heval]⟩

/-! ## A list of keys -/

/-- the loop finds what there is under the keys, or fails at one of them -/
theorem lookupKeys_cases (keys : List Bytes) (matched : List Pair) :
    (lookupKeys env coll filter none keys matched = .ok (matched ++ keys.filterMap (foundPair env coll filter)) ∧
        ∀ key ∈ keys, ∀ e, ¬ FailsAt env coll filter key e) ∨
      ∃ key ∈ keys, ∃ e, FailsAt env coll filter key e ∧ lookupKeys env coll filter none keys matched = .error e := by
  induction keys generalizing matched with
  | nil => exact .inl ⟨by simp [lookupKeys], by simp⟩
  | cons key keys ih =>
    rw [lookupKeys, filterMap_cons]
    rcases @fetchPrimaryPair_cases env coll filter key with ⟨hfetch, hnone⟩ | ⟨e, hfail, hfetch⟩
    · -- what holds of the keys that are left holds of all
      have hlater : ∀ matched' : List Pair,
          (lookupKeys env coll filter none keys matched' =
            .ok (matched' ++ keys.filterMap (foundPair env coll filter)) ∧
            ∀ key' ∈ key :: keys, ∀ e, ¬ FailsAt env coll filter key' e) ∨
          ∃ key' ∈ key :: keys, ∃ e, FailsAt env coll filter key' e ∧
            lookupKeys env coll filter none keys matched' = .error e :=
        fun matched' => (ih matched').imp (fun h => ⟨h.1, forall_mem_cons.2 ⟨hnone, h.2⟩⟩)
          fun ⟨key', hkey', h⟩ => ⟨key', mem_cons_of_mem _ hkey', h⟩
      rw [hfetch]
      cases foundPair env coll filter key with
      | none => exact hlater matched
      | some pair =>
        have := hlater (matched ++ [pair])
        rw [append_assoc] at this
        exact this
    · exact .inr ⟨key, mem_cons_self, e, hfail, by rw [hfetch]⟩

/-- keys find exactly the accepted documents if and only if they include their keys -/
theorem filterMap_foundPair_perm {keys : List Bytes} (hkeys : keys.Nodup) :
    (keys.filterMap (foundPair env coll filter)).Perm (acceptedPairs env coll filter) ↔
      ∀ p ∈ acceptedPairs env coll filter, p.1 ∈ keys := by
  have hsorted : coll.docs.entries.Nodup := coll.docs.sorted.imp fun h => by rintro rfl; exact lt_irrefl _ h
  have hfound : (keys.filterMap (foundPair env coll filter)).Nodup :=
    hkeys.filterMap fun k k' p hk hk' => (mem_foundPair.1 hk).1.symm.trans (mem_foundPair.1 hk').1
  have haccepted : (acceptedPairs env coll filter).Nodup := hsorted.filter _
  rw [perm_ext_iff_of_nodup hfound haccepted]
  simp only [mem_filterMap, mem_foundPair]
  constructor
  · intro h p hp
    obtain ⟨key, hkey, rfl, -⟩ := (h p).2 hp
    exact hkey
  · exact fun h p => ⟨fun ⟨key, _, _, hp⟩ => hp, fun hp => ⟨p.1, h p hp, rfl, hp⟩⟩

/-! ## What the filter asks of `_id` -/

/-- the values that the condition names -/
def PrimaryKeyCondition.vals : PrimaryKeyCondition → List Bson
  | .eq id => [id]
  | .inList vals => vals

theorem executePrimaryKeyLookup_cases (condition : PrimaryKeyCondition) :
    ∃ keys : List Bytes, keys.Nodup ∧ (∀ key, key ∈ keys ↔ ∃ v ∈ condition.vals, encodeKey v = key) ∧
      ((executePrimaryKeyLookup env coll filter none condition = .ok (keys.filterMap (foundPair env coll filter)) ∧
          ∀ key ∈ keys, ∀ e, ¬ FailsAt env coll filter key e) ∨
        ∃ key ∈ keys, ∃ e, FailsAt env coll filter key e ∧
          executePrimaryKeyLookup env coll filter none condition = .error e) := by
  cases condition with
  | eq id =>
    refine ⟨[encodeKey id], nodup_singleton _, by simp [PrimaryKeyCondition.vals, eq_comm], ?_⟩
    rcases @fetchPrimaryPair_cases env coll filter (encodeKey id) with ⟨hfetch, hnone⟩ | ⟨e, hfail, hfetch⟩
    · refine .inl ⟨?_, forall_mem_singleton.2 hnone⟩
      rw [executePrimaryKeyLookup, hfetch, filterMap_cons]
      cases foundPair env coll filter (encodeKey id) <;> rfl
    · exact .inr ⟨_, mem_singleton.2 rfl, e, hfail, by rw [executePrimaryKeyLookup, hfetch]; rfl⟩
  | inList vals =>
    refine ⟨_, nodup_dedup _, fun key => ?_,
      @lookupKeys_cases env coll filter ((vals.map encodeKey).insertionSort (· ≤ ·)).dedup []⟩
    rw [mem_dedup, mem_insertionSort, mem_map]
    rfl

theorem getNestedField_id (doc : Document) : getNestedField doc "_id" = doc.get "_id" := by
  have hsegments : segments "_id" = ["_id"] := by decide
  rfl

/-- for a scalar, the filter's equality is equality of keys -/
theorem matchesValue_scalar {id target : Bson} (hscalar : ∀ arr, id ≠ .array arr) (h : matchesValue id target = true) :
    encodeKey id = encodeKey target := by
  rcases Bool.or_eq_true_iff.1 h with heq | helem
  · exact of_decide_eq_true heq
  · cases id with
    | array arr => exact absurd rfl (hscalar arr)
    | _ => cases helem

theorem selectPlan_primaryKeyLookup {indexes : List IndexMeta} {condition : PrimaryKeyCondition}
    (h : selectPlan filter indexes = .primaryKeyLookup condition) :
    extractPrimaryKeyCondition filter = some condition := by
  unfold selectPlan at h
  split at h
  next c hc =>
    cases h
    exact hc
  · induction indexes with
    | nil => cases h
    | cons idx indexes ih =>
      rw [selectIndex] at h
      split at h
      · exact ih h
      · split_ifs at h
        · split at h
          · cases h
          · exact ih h
        · exact ih h

/-- the key of an accepted document is that of one of the values -/
theorem named_of_accepted {condition : PrimaryKeyCondition} {doc : Document} {id : Bson}
    (hcondition : extractPrimaryKeyCondition filter = some condition)
    (hliteral : ∀ re, filter.get "_id" ≠ some (.regularExpression re)) (hid : doc.get "_id" = some id)
    (hscalar : ∀ arr, id ≠ .array arr) (hmatch : evalFilter env doc filter = .ok true) :
    ∃ v ∈ condition.vals, encodeKey id = encodeKey v := by
  unfold extractPrimaryKeyCondition at hcondition
  split at hcondition
  next v hextract =>
    cases hcondition
    have haccepts := extract_accepts hmatch (by decide) hliteral hextract
    rw [getNestedField_id, hid] at haccepts
    exact ⟨v, mem_singleton.2 rfl, matchesValue_scalar hscalar haccepts⟩
  next vals hextract =>
    cases hcondition
    have haccepts := extract_accepts hmatch (by decide) hliteral hextract
    rw [getNestedField_id, hid] at haccepts
    obtain ⟨v, hv, hmatches⟩ := any_eq_true.1 haccepts
    exact ⟨v, hv, matchesValue_scalar hscalar hmatches⟩
  · cases hcondition

end Lookup

/-- **Primary key lookups.** A lookup returns the accepted pairs of the collection, each once, or fails with the filter
on some document, if and only if the filter fails on a document that the condition names, or else the condition names
the key of every accepted document whose `_id` is an array, and of every accepted document if it is a regular expression
literal. -/
theorem primary_key_lookup_exact_iff (env : Env) (coll : Collection) (filter : Document) (indexes : List IndexMeta)
    (condition : PrimaryKeyCondition) (hplan : selectPlan filter indexes = .primaryKeyLookup condition) :
    ((∃ pairs, executePrimaryKeyLookup env coll filter none condition = .ok pairs ∧
      pairs.Perm (acceptedPairs env coll filter)) ∨
      ∃ e, (∃ p ∈ coll.docs.entries, evalFilter env p.2 filter = .error e) ∧
        executePrimaryKeyLookup env coll filter none condition = .error e) ↔
    (∃ v ∈ condition.vals, ∃ e, FailsAt env coll filter (encodeKey v) e) ∨ ∀ p ∈ acceptedPairs env coll filter,
        ((∃ re, filter.get "_id" = some (.regularExpression re)) ∨ ∃ arr, p.2.get "_id" = some (.array arr)) →
          ∃ v ∈ condition.vals, encodeKey v = p.1 := by
  obtain ⟨keys, hnodup, hkeys, hcases⟩ := @executePrimaryKeyLookup_cases env coll filter condition
  rcases hcases with ⟨hlookup, hnone⟩ | ⟨key, hkey, e, hfail, hlookup⟩
  · have hnamed : ¬ ∃ v ∈ condition.vals, ∃ e, FailsAt env coll filter (encodeKey v) e := by
      rintro ⟨v, hv, e, hfail⟩
      exact hnone _ ((hkeys _).2 ⟨v, hv, rfl⟩) e hfail
    rw [or_iff_right hnamed, hlookup]
    simp only [Except.ok.injEq, exists_eq_left', reduceCtorEq, and_false, exists_false, or_false]
    rw [filterMap_foundPair_perm hnodup]
    constructor
    · exact fun h p hp _ => (hkeys p.1).1 (h p hp)
    · intro h p hp
      rw [hkeys]
      by_cases hspecial : (∃ re, filter.get "_id" = some (.regularExpression re)) ∨
        ∃ arr, p.2.get "_id" = some (.array arr)
      · exact h p hp hspecial
      · obtain ⟨hliteral, harray⟩ := not_or.1 hspecial
        obtain ⟨hentry, hmatch⟩ := mem_filter.1 hp
        obtain ⟨id, hid, hkey⟩ := coll.keyed p hentry
        have hscalar : ∀ arr, id ≠ .array arr := by
          rintro arr rfl
          exact harray ⟨arr, hid⟩
        obtain ⟨v, hv, hsame⟩ :=
          named_of_accepted (selectPlan_primaryKeyLookup hplan) (not_exists.1 hliteral) hid hscalar
          (of_decide_eq_true hmatch)
        exact ⟨v, hv, by rw [← hkey, hsame]⟩
  · obtain ⟨v, hv, rfl⟩ := (hkeys key).1 hkey
    obtain ⟨doc, hget, heval⟩ := id hfail
    exact iff_of_true (.inr ⟨e, ⟨_, OrdMap.get?_eq_some_iff.1 hget, heval⟩, hlookup⟩) (.inl ⟨v, hv, e, hfail⟩)

theorem primary_key_lookup_exact_list :
    let docs : List Pair :=
      [(encodeKey (.int32 1), [("_id", .int32 1)]), (encodeKey (.int32 2), [("_id", .int32 2), ("x", .int32 5)])]
    let coll : Collection := ⟨⟨docs, by decide⟩, by simp [docs, Document.get]⟩
    let filter : Document := [("_id", .document [("$in", .array [.int64 2, .int32 1, .int32 2])]), ("x", .int32 5)]
    let condition : PrimaryKeyCondition := .inList [.int64 2, .int32 1, .int32 2]
    selectPlan filter [] = .primaryKeyLookup condition ∧
      ((∃ pairs, executePrimaryKeyLookup noLibraries coll filter none condition = .ok pairs ∧
          pairs.Perm (acceptedPairs noLibraries coll filter)) ∨
        ∃ e, (∃ p ∈ coll.docs.entries, evalFilter noLibraries p.2 filter = .error e) ∧
          executePrimaryKeyLookup noLibraries coll filter none condition = .error e) := by
  refine ⟨rfl, (primary_key_lookup_exact_iff noLibraries _ _ [] _ rfl).2 (.inr fun p hp => ?_)⟩
  have hentry := (mem_filter.1 hp).1
  simp only [mem_cons, not_mem_nil, or_false] at hentry
  rintro (⟨re, h⟩ | ⟨arr, h⟩)
  · cases h
  · rcases hentry with rfl | rfl
    all_goals cases h

/-- equal to an element of the array, for the filter; and a regular expression taken for an equality -/
theorem primary_key_lookup_misses :
    let docs : List Pair := [(encodeKey (.string "a"), [("_id", .string "a")]),
      (encodeKey (.array [.int32 1, .int32 2]), [("_id", .array [.int32 1, .int32 2])])]
    let coll : Collection := ⟨⟨docs, by decide⟩, by simp [docs, Document.get]⟩
    let literal : Env := ⟨fun pattern _ => .ok fun s => s = pattern, fun _ _ => .error .panic⟩
    let re : Bson := .regularExpression ⟨"a", ""⟩
    (selectPlan [("_id", .int32 1)] [] = .primaryKeyLookup (.eq (.int32 1)) ∧
      executePrimaryKeyLookup noLibraries coll [("_id", .int32 1)] none (.eq (.int32 1)) = .ok [] ∧
      (acceptedPairs noLibraries coll [("_id", .int32 1)]).length = 1) ∧
    selectPlan [("_id", re)] [] = .primaryKeyLookup (.eq re) ∧
      executePrimaryKeyLookup literal coll [("_id", re)] none (.eq re) = .ok [] ∧
      (acceptedPairs literal coll [("_id", re)]).length = 1 := by
  refine ⟨⟨rfl, rfl, by decide⟩, rfl, rfl, by decide⟩

end Mqlite.Query
