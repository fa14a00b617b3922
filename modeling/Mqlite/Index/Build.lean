/-
Keys and scan bounds of secondary indexes (`storage/secondary_index.rs`, `storage/paged_engine/index_read_helpers.rs`).

An index entry's key is the compound key of the indexed values and `_id`. A document with an array in one of the fields
has one entry for each element; two arrays are refused; a missing field counts as null, but a sparse index leaves the
document out.

- `buildIndexKeys_leading`: a document without empty and parallel arrays has an entry for each value of its leading
  field;
- `mem_buildIndexKeys`: a key is made of one value of each field and the `_id`;
- `within_iff`: an entry is within the bounds of a scan if and only if its value passes the condition, as long as the
  encodings that are compared are no proper prefixes of each other;
- `found_iff`: what a scan finds; `entries_iff`: when there is anything to find.
-/
import Mqlite.Keys.Order
import Mqlite.Query.Planner

namespace Mqlite.Index

open Lib Mvcc Keys Query List

/-! ## Indexes -/

/-- what the catalog says about an index, as far as planner and maintenance use it -/
structure IndexEntry where
  name : String
  keyPattern : Document
  unique : Bool
  sparse : Bool
  partialFilterExpression : Option Document

def IndexEntry.planned (e : IndexEntry) : IndexMeta := ⟨e.name, e.keyPattern, e.partialFilterExpression⟩

inductive IndexError where
  | parallelArrays
  | arrayFieldIdxBroken
  | query (e : QueryError)
  | duplicateKey
  | noSuchDocument
deriving DecidableEq, Repr

/-- unlike a filter's path, an index path goes through embedded documents only -/
def extractPath (doc : Document) : List String → Option Bson
  | [] => none
  | [last] => doc.get last
  | head :: next :: rest =>
    match doc.get head with
    | some (.document nested) => extractPath nested (next :: rest)
    | _ => none

def extractFieldValue (doc : Document) (path : String) : Option Bson := extractPath doc (segments path)

/-- everything but -1 is ascending -/
def isAscending : Bson → Bool
  | .int32 n => n ≠ -1
  | .int64 n => n ≠ -1
  | _ => true

def docMatchesPartialFilter (env : Env) (doc : Document) (e : IndexEntry) : Result :=
  match e.partialFilterExpression with
  | none => .ok true
  | some pfe => evalFilter env doc pfe

/-! ## Keys -/

def isArray : Option Bson → Bool
  | some (.array _) => true
  | _ => false

def isEmptyArray : Option Bson → Bool
  | some (.array []) => true
  | _ => false

variable {val : Option Bson} {fields : List (Option Bson × Bool)} {i : ℕ} {idx : Option ℕ} {doc keyPattern : Document}
  {docId : Bson} {multikey sparse : Bool} {keys : List Bytes} {k : Bytes}

theorem isArray_iff : isArray val = true ↔ ∃ arr, val = some (.array arr) := by
  constructor
  · intro h
    unfold isArray at h
    split at h
    next arr => exact ⟨arr, rfl⟩
    · cases h
  · rintro ⟨arr, rfl⟩
    rfl

/-- the values of the indexed fields with their directions -/
def indexFields (doc keyPattern : Document) : List (Option Bson × Bool) :=
  keyPattern.map fun p => (extractFieldValue doc p.1, isAscending p.2)

/-- the loop that looks for the array, from field i on -/
def arrayFieldIdx : List (Option Bson × Bool) → ℕ → Option ℕ → Except IndexError (Option ℕ)
  | [], _, found => .ok found
  | (val, _) :: rest, i, found =>
    if isArray val then if found.isSome then .error .parallelArrays else arrayFieldIdx rest (i + 1) (some i)
    else arrayFieldIdx rest (i + 1) found

/-- the key of one entry; `elem` takes the place of the array -/
def entryKey (fields : List (Option Bson × Bool)) (docId : Bson) (arrIdx : Option ℕ) (elem : Bson) : Bytes :=
  encodeCompoundKey ((fields.zipIdx.map fun p => (if some p.2 = arrIdx then elem else p.1.1.getD .null, p.1.2)) ++
    [(docId, true)])

def buildIndexKeys (doc keyPattern : Document) (docId : Bson) (sparse : Bool) : Except IndexError (List Bytes × Bool) :=
  let fields := indexFields doc keyPattern
  if sparse && fields.any (fun p => p.1.isNone) then .ok ([], false)
  else match arrayFieldIdx fields 0 none with
    | .error e => .error e
    | .ok (some arrIdx) =>
      match fields[arrIdx]? with
      | some (some (.array arr), _) => .ok (arr.map fun elem => entryKey fields docId (some arrIdx) elem, true)
      | _ => .error .arrayFieldIdxBroken
    | .ok none => .ok ([entryKey fields docId none .null], false)

/-! ## Bounds -/

/-- encoded value and separator -/
def boundPrefix (val : Bson) (ascending : Bool) : Bytes := encodeCompoundKey [(val, ascending)] ++ [COMPOUND_SEP]

/-- the same with the separator increased by one -/
def prefixNext (val : Bson) (ascending : Bool) : Bytes := encodeCompoundKey [(val, ascending)] ++ [COMPOUND_SEP + 1]

/-- by the operator that allows equality, if there is one, otherwise by the other -/
def pick {α : Type} (allowing excluding : Option Bson) (f g : Bson → α) : Option α :=
  match allowing, excluding with
  | some v, _ => some (f v)
  | none, some v => some (g v)
  | none, none => none

def indexBounds (condition : IndexCondition) (ascending : Bool) : Option Bytes × Option Bytes :=
  match condition with
  | .eq v => (some (boundPrefix v ascending), some (prefixNext v ascending))
  | .any => (none, none)
  | .inList _ => (none, none)
  | .range gt gte lt lte =>
    if ascending then
      (pick gte gt (boundPrefix · true) (prefixNext · true), pick lte lt (prefixNext · true) (boundPrefix · true))
    else (pick lte lt (boundPrefix · false) (prefixNext · false),
      pick gte gt (prefixNext · false) (boundPrefix · false))

/-- the scan includes both ends -/
def Within (bounds : Option Bytes × Option Bytes) (key : Bytes) : Prop :=
  (∀ start ∈ bounds.1, start ≤ key) ∧ ∀ stop ∈ bounds.2, key ≤ stop

instance (bounds : Option Bytes × Option Bytes) (key : Bytes) : Decidable (Within bounds key) :=
  inferInstanceAs (Decidable (_ ∧ _))

theorem within_unbounded (key : Bytes) : Within (none, none) key :=
  ⟨fun _ h => (Option.not_mem_none _ h).elim, fun _ h => (Option.not_mem_none _ h).elim⟩

/-! ## Entries of a document -/

/-- the values that a field of an index has entries for -/
def indexedValues : Option Bson → List Bson
  | some (.array arr) => arr
  | val => [val.getD .null]

theorem indexedValues_scalar (h : isArray val = false) : indexedValues val = [val.getD .null] := by
  unfold indexedValues
  split
  · cases h
  · rfl

theorem exists_indexedValue (h : isEmptyArray val = false) : ∃ x, x ∈ indexedValues val := by
  unfold indexedValues
  split
  next arr =>
    refine exists_mem_of_ne_nil arr ?_
    rintro rfl
    cases h
  · exact ⟨_, mem_singleton.2 rfl⟩

theorem not_empty_of_mem {x : Bson} (h : x ∈ indexedValues val) : isEmptyArray val = false := by
  unfold isEmptyArray
  split
  · cases h
  · rfl

/-- no array is empty, and there are no two arrays -/
structure Indexable (fields : List (Option Bson × Bool)) : Prop where
  nonempty : ∀ p ∈ fields, isEmptyArray p.1 = false
  single : (fields.filter fun p => isArray p.1).length ≤ 1

/-- the loop finds the array, if there is one -/
theorem arrayFieldIdx_ok {fields : List (Option Bson × Bool)} {i : ℕ} {found : Option ℕ}
    (h : (fields.filter fun p => isArray p.1).length + found.toList.length ≤ 1) :
    ∃ idx, arrayFieldIdx fields i found = .ok idx ∧ (idx = found ∧ (∀ p ∈ fields, isArray p.1 = false) ∨
        ∃ j p, idx = some (i + j) ∧ fields[j]? = some p ∧ isArray p.1 = true ∧
          ∀ q ∈ fields.take j, isArray q.1 = false) := by
  induction fields generalizing i found with
  | nil => exact ⟨found, rfl, .inl ⟨rfl, fun p hp => by cases hp⟩⟩
  | cons p fields ih =>
    rw [arrayFieldIdx]
    cases harr : isArray p.1 with
    | true =>
      simp only [filter_cons, harr, if_true, length_cons] at h
      have hrest : fields.filter (fun p => isArray p.1) = [] := eq_nil_of_length_eq_zero (by omega)
      obtain rfl : found = none := by
        cases found with
        | none => rfl
        | some k => simp at h
      obtain ⟨idx, hidx, hcase⟩ := @ih (i + 1) (some i) (by simp [hrest])
      refine ⟨idx, hidx, .inr ⟨0, p, ?_, rfl, harr, fun q hq => by cases hq⟩⟩
      rcases hcase with ⟨rfl, -⟩ | ⟨j, q, -, hq, hqarr, -⟩
      · rfl
      · exact absurd hqarr (filter_eq_nil_iff.1 hrest q (mem_of_getElem? hq))
    | false =>
      simp only [filter_cons, harr, Bool.false_eq_true, if_false] at h
      obtain ⟨idx, hidx, hcase⟩ := ih (i := i + 1) h
      refine ⟨idx, hidx, ?_⟩
      rcases hcase with ⟨rfl, hnone⟩ | ⟨j, q, rfl, hq, hqarr, hbefore⟩
      · exact .inl ⟨rfl, forall_mem_cons.2 ⟨harr, hnone⟩⟩
      · exact .inr ⟨j + 1, q, by rw [Nat.add_right_comm, Nat.add_assoc], hq, hqarr, forall_mem_cons.2 ⟨harr, hbefore⟩⟩

theorem encodeCompoundKey_ne_nil {l : List (Bson × Bool)} (h : l ≠ []) : encodeCompoundKey l ≠ [] := by
  obtain ⟨p, l, rfl⟩ := exists_cons_of_ne_nil h
  have hfield : encodeField p.1 p.2 ≠ [] := by
    unfold encodeField
    rw [encodeInto_eq]
    split_ifs <;> simp
  cases l with
  | nil => exact hfield
  | cons q l =>
    rw [encodeCompoundKey_cons p (by simp)]
    simp

/-- a key starts with the value of the leading field -/
theorem entryKey_leading (p : Option Bson × Bool) (fields : List (Option Bson × Bool)) (docId : Bson)
    (arrIdx : Option ℕ) (elem : Bson) : ∃ tail, tail ≠ [] ∧ entryKey (p :: fields) docId arrIdx elem =
      encodeField (if some 0 = arrIdx then elem else p.1.getD .null) p.2 ++ COMPOUND_SEP :: tail := by
  unfold entryKey
  rw [zipIdx_cons, map_cons, cons_append, encodeCompoundKey_cons _ (by simp)]
  exact ⟨_, encodeCompoundKey_ne_nil (by simp), rfl⟩

/-- **A document without empty and parallel arrays has an entry for each value of the leading field.** -/
theorem buildIndexKeys_leading {doc keyPattern : Document} {docId : Bson} {sparse : Bool} {field : String} {dir : Bson}
    {rest : Document} (hpattern : keyPattern = (field, dir) :: rest) (hfields : Indexable (indexFields doc keyPattern))
    (hsparse : sparse = true → ∀ p ∈ indexFields doc keyPattern, p.1.isSome = true) :
    ∃ keys multikey, buildIndexKeys doc keyPattern docId sparse = .ok (keys, multikey) ∧
      ∀ x ∈ indexedValues (extractFieldValue doc field), ∃ k ∈ keys, ∃ tail, tail ≠ [] ∧
        k = encodeField x (isAscending dir) ++ COMPOUND_SEP :: tail := by
  have hcons : indexFields doc keyPattern = (extractFieldValue doc field, isAscending dir) :: indexFields doc rest := by
    rw [hpattern]; rfl
  have hpresent : (sparse && (indexFields doc keyPattern).any fun p => p.1.isNone) = false := by
    cases sparse with
    | false => rfl
    | true =>
      rw [Bool.true_and, any_eq_false]
      exact fun p hp => by simpa using Option.isSome_iff_ne_none.1 (hsparse rfl p hp)
  unfold buildIndexKeys
  simp only [hpresent, Bool.false_eq_true, if_false]
  obtain ⟨idx, hidx, hcase⟩ := @arrayFieldIdx_ok _ 0 none hfields.single
  rw [hidx]
  rcases hcase with ⟨rfl, hnone⟩ | ⟨j, q, rfl, hq, hqarr, hbefore⟩
  -- no array: one entry
  · refine ⟨_, _, rfl, fun x hx => ⟨_, mem_singleton.2 rfl, ?_⟩⟩
    have hlead := hnone (extractFieldValue doc field, isAscending dir) (hcons ▸ mem_cons_self)
    rw [indexedValues_scalar hlead, mem_singleton] at hx
    rw [hx, hcons]
    exact entryKey_leading _ _ docId none .null
  -- an array: one entry for each element, which stand at the front if the array does
  · obtain ⟨v, asc⟩ := q
    obtain ⟨arr, rfl⟩ := isArray_iff.1 hqarr
    simp only [Nat.zero_add, hq]
    refine ⟨_, _, rfl, fun x hx => ?_⟩
    cases j with
    | zero =>
      rw [hcons] at hq
      obtain ⟨hv, -⟩ := Prod.mk.inj (Option.some.inj hq)
      rw [hv] at hx
      refine ⟨_, mem_map_of_mem hx, ?_⟩
      rw [hcons]
      exact entryKey_leading _ _ docId (some 0) x
    | succ j =>
      have hlead := hbefore (extractFieldValue doc field, isAscending dir) (by rw [hcons]; exact mem_cons_self)
      rw [indexedValues_scalar hlead, mem_singleton] at hx
      obtain ⟨elem, helem⟩ : ∃ elem, elem ∈ arr := by
        refine exists_mem_of_ne_nil _ fun hnil => ?_
        have hempty := hfields.nonempty _ (mem_of_getElem? hq)
        rw [hnil] at hempty
        cases hempty
      refine ⟨_, mem_map_of_mem helem, ?_⟩
      rw [hx, hcons]
      exact entryKey_leading _ _ docId (some (j + 1)) elem

theorem arrayFieldIdx_found {x : ℕ} (h : arrayFieldIdx fields i (some x) = .ok idx) :
    idx = some x ∧ ∀ p ∈ fields, isArray p.1 = false := by
  induction fields generalizing i with
  | nil =>
    cases h
    exact ⟨rfl, fun p hp => by cases hp⟩
  | cons p fields ih =>
    rw [arrayFieldIdx] at h
    cases harr : isArray p.1 with
    | true => rw [harr] at h; cases h
    | false =>
      rw [harr] at h
      obtain ⟨hidx, hrest⟩ := ih h
      exact ⟨hidx, forall_mem_cons.2 ⟨harr, hrest⟩⟩

/-- a field with an array is the one that the loop finds -/
theorem arrayFieldIdx_unique {j : ℕ} {p : Option Bson × Bool}
    (h : arrayFieldIdx fields i none = .ok idx) (hp : fields[j]? = some p) (harr : isArray p.1 = true) :
    idx = some (i + j) := by
  induction fields generalizing i j with
  | nil => cases hp
  | cons q fields ih =>
    rw [arrayFieldIdx] at h
    cases hq : isArray q.1 with
    | true =>
      rw [hq] at h
      obtain ⟨hidx, hrest⟩ := arrayFieldIdx_found h
      cases j with
      | zero => exact hidx
      | succ j =>
        rw [hrest p (mem_of_getElem? hp)] at harr
        cases harr
    | false =>
      rw [hq] at h
      cases j with
      | zero =>
        cases hp
        rw [hq] at harr
        cases harr
      | succ j => rw [ih h hp, Nat.add_right_comm, Nat.add_assoc]

/-- the values in the place of the fields -/
theorem entryKey_eq (doc keyPattern : Document) (docId : Bson) (arrIdx : Option ℕ) (elem : Bson) :
    entryKey (indexFields doc keyPattern) docId arrIdx elem = encodeCompoundKey
      (((indexFields doc keyPattern).zipIdx.map fun p => if some p.2 = arrIdx then elem else p.1.1.getD .null).zip
        (keyPattern.map fun p => isAscending p.2) ++ [(docId, true)]) := by
  have hdirs : (keyPattern.map fun p => isAscending p.2) = (indexFields doc keyPattern).zipIdx.map fun p => p.1.2 := by
    rw [← Function.comp_def Prod.snd Prod.fst, ← map_map, zipIdx_map_fst, indexFields, map_map]
    rfl
  rw [entryKey, hdirs, zip_map']

/-- **Shape of the keys.** A key is the compound key of one value of each field, and the `_id`. -/
theorem mem_buildIndexKeys (h : buildIndexKeys doc keyPattern docId sparse = .ok (keys, multikey)) (hk : k ∈ keys) :
    ∃ vs : List Bson, vs.length = keyPattern.length ∧
      (∀ (j : ℕ) v p, vs[j]? = some v → (indexFields doc keyPattern)[j]? = some p → v ∈ indexedValues p.1) ∧
      k = encodeCompoundKey (vs.zip (keyPattern.map fun p => isAscending p.2) ++ [(docId, true)]) := by
  unfold buildIndexKeys at h
  dsimp only at h
  split_ifs at h
  · cases h
    cases hk
  · split at h
    · cases h
    next arrIdx hidx =>
      split at h
      next arr asc hget =>
        cases h
        obtain ⟨elem, helem, rfl⟩ := mem_map.1 hk
        refine ⟨_, by simp [indexFields], fun j v p hv hp => ?_, entryKey_eq doc keyPattern docId (some arrIdx) elem⟩
        simp only [getElem?_map, getElem?_zipIdx, hp, Option.map_some, Nat.zero_add, Option.some.injEq] at hv
        subst hv
        split_ifs with hj
        · subst hj
          rw [hget] at hp
          cases hp
          exact helem
        · have hscalar : isArray p.1 = false := by
            cases harr : isArray p.1 with
            | false => rfl
            | true =>
              have hfound := arrayFieldIdx_unique hidx hp harr
              rw [Nat.zero_add] at hfound
              exact absurd (Option.some.inj hfound).symm hj
          rw [indexedValues_scalar hscalar]
          exact mem_singleton.2 rfl
      · cases h
    next hidx =>
      cases h
      obtain rfl := mem_singleton.1 hk
      refine ⟨_, by simp [indexFields], fun j v p hv hp => ?_, entryKey_eq doc keyPattern docId none .null⟩
      simp only [getElem?_map, getElem?_zipIdx, hp, Option.map_some, reduceCtorEq, if_false, Option.some.injEq] at hv
      subst hv
      have hscalar : isArray p.1 = false := by
        cases harr : isArray p.1 with
        | false => rfl
        | true => cases arrayFieldIdx_unique hidx hp harr
      rw [indexedValues_scalar hscalar]
      exact mem_singleton.2 rfl

/-! ## When a document has entries -/

theorem arrayFieldIdx_single (h : arrayFieldIdx fields i none = .ok idx) :
    (fields.filter fun p => isArray p.1).length ≤ 1 := by
  induction fields generalizing i with
  | nil => exact Nat.zero_le _
  | cons p fields ih =>
    rw [arrayFieldIdx] at h
    cases hp : isArray p.1 with
    | true =>
      rw [hp] at h
      have hrest : fields.filter (fun p => isArray p.1) = [] :=
        filter_eq_nil_iff.2 fun q hq => by rw [(arrayFieldIdx_found h).2 q hq]; decide
      simp [hp, hrest]
    | false =>
      rw [hp] at h
      simpa [filter_cons, hp] using ih h

/-- a document with an entry has neither empty nor parallel arrays, and no field missing in a sparse index -/
theorem indexable_of_mem (h : buildIndexKeys doc keyPattern docId sparse = .ok (keys, multikey)) (hk : k ∈ keys) :
    Indexable (indexFields doc keyPattern) ∧ (sparse = true → ∀ p ∈ indexFields doc keyPattern, p.1.isSome = true) := by
  obtain ⟨vs, hlen, hvs, -⟩ := mem_buildIndexKeys h hk
  refine ⟨⟨fun p hp => ?_, ?_⟩, fun hsparse p hp => ?_⟩
  · obtain ⟨j, hj⟩ := mem_iff_getElem?.1 hp
    have hlt : j < vs.length := by
      rw [hlen]
      simpa [indexFields] using (List.getElem?_eq_some_iff.1 hj).1
    exact not_empty_of_mem (hvs j _ p (List.getElem?_eq_getElem hlt) hj)
  · unfold buildIndexKeys at h
    dsimp only at h
    split_ifs at h
    · cases h
      cases hk
    · split at h
      · cases h
      next hidx => exact arrayFieldIdx_single hidx
      next hidx => exact arrayFieldIdx_single hidx
  · unfold buildIndexKeys at h
    dsimp only at h
    split_ifs at h with hmissing
    · cases h
      cases hk
    · rw [hsparse, Bool.true_and, Bool.not_eq_true, any_eq_false] at hmissing
      simpa [Option.isSome_iff_ne_none] using hmissing p hp

/-! ## Entries within the bounds -/

/-- none of the encodings is a proper prefix of the other -/
def PrefixFree (x v : Bson) : Prop :=
  (encodeKey x <+: encodeKey v → encodeKey x = encodeKey v) ∧ (encodeKey v <+: encodeKey x → encodeKey x = encodeKey v)

instance (x v : Bson) : Decidable (PrefixFree x v) := inferInstanceAs (Decidable (_ ∧ _))

/-- the values that a condition compares with -/
def compared : IndexCondition → List Bson
  | .eq val => [val]
  | .range gt gte lt lte => gt.toList ++ gte.toList ++ (lt.toList ++ lte.toList)
  | _ => []

/-- what the bounds of a scan ask of one value; of two operators for one end, only the one that allows equality
counts -/
def passes (x : Bson) : IndexCondition → Bool
  | .eq val => bsonEq x val
  | .range gt gte lt lte =>
    (pick gte gt (fun v => decide (compareBson x v ≠ .lt)) fun v => decide (compareBson x v = .gt)).getD true &&
      (pick lte lt (fun v => decide (compareBson x v ≠ .gt)) fun v => decide (compareBson x v = .lt)).getD true
  | _ => true

/-- how the fields of two values compare, by the comparison that the filter makes -/
def directed (ascending : Bool) (c : Ordering) : Ordering := if ascending then c else c.swap

section Bounds

variable {x v : Bson} {ascending : Bool} {tail : Bytes}

section

variable (h : PrefixFree x v)

include h

theorem coded_directed (ascending : Bool) :
    Coded (directed ascending (compareBson x v)) (encodeField x ascending) (encodeField v ascending) := by
  have hcoded : Coded (compareBson x v) (encodeInto x) (encodeInto v) := Coded.of_not_isPrefix h.1 h.2
  cases ascending with
  | true => exact hcoded
  | false => exact hcoded.map_anti notByte_anti

theorem boundPrefix_le :
    boundPrefix v ascending ≤ encodeField x ascending ++ COMPOUND_SEP :: tail ↔
      directed ascending (compareBson x v) ≠ .lt :=
  (coded_directed h ascending).sep_le_iff

theorem prefixNext_le :
    prefixNext v ascending ≤ encodeField x ascending ++ COMPOUND_SEP :: tail ↔
      directed ascending (compareBson x v) = .gt :=
  (coded_directed h ascending).next_le_iff (by decide)

theorem le_prefixNext :
    encodeField x ascending ++ COMPOUND_SEP :: tail ≤ prefixNext v ascending ↔
      directed ascending (compareBson x v) ≠ .gt :=
  (coded_directed h ascending).le_next_iff (by decide)

theorem le_boundPrefix (htail : tail ≠ []) :
    encodeField x ascending ++ COMPOUND_SEP :: tail ≤ boundPrefix v ascending ↔
      directed ascending (compareBson x v) = .lt :=
  (coded_directed h ascending).le_sep_iff htail

end

theorem swap_eq_iff {c d : Ordering} : c.swap = d ↔ c = d.swap := by
  cases c <;> cases d <;> decide

theorem directed_ne_iff {c : Ordering} : directed ascending c ≠ .lt ∧ directed ascending c ≠ .gt ↔ c = .eq := by
  cases ascending <;> cases c <;> decide

/-- one end of a range: the bound by bytes, against the comparison of values -/
theorem pick_iff {allowing excluding : Option Bson} {f g : Bson → Bytes} {p q : Bson → Bool} {P : Bytes → Prop}
    (hf : ∀ v ∈ allowing, P (f v) ↔ p v = true) (hg : ∀ v ∈ excluding, P (g v) ↔ q v = true) :
    (∀ b ∈ pick allowing excluding f g, P b) ↔ (pick allowing excluding p q).getD true = true := by
  cases allowing with
  | some v => simpa [pick] using hf v rfl
  | none =>
    cases excluding with
    | some v => simpa [pick] using hg v rfl
    | none => simp [pick]

/-- **Bounds.** An entry is within the bounds of a scan if and only if its value passes the condition. -/
theorem within_iff {c : IndexCondition} (hfree : ∀ v ∈ compared c, PrefixFree x v) (htail : tail ≠ []) :
    Within (indexBounds c ascending) (encodeField x ascending ++ COMPOUND_SEP :: tail) ↔ passes x c = true := by
  cases c with
  | any | inList vals => exact iff_of_true (within_unbounded _) rfl
  | eq val =>
    have hval := hfree val (mem_singleton.2 rfl)
    have hbounds : Within (indexBounds (.eq val) ascending) (encodeField x ascending ++ COMPOUND_SEP :: tail) ↔
        directed ascending (compareBson x val) ≠ .lt ∧ directed ascending (compareBson x val) ≠ .gt := by
      simp only [Within, indexBounds, Option.mem_def, Option.some.injEq, forall_eq']
      exact and_congr (boundPrefix_le hval) (le_prefixNext hval)
    rw [hbounds, directed_ne_iff]
    exact ⟨fun h => decide_eq_true (Coded.eq_of_cmp_eq h),
      fun h => by rw [compareBson, of_decide_eq_true h, (Coded.refl _).cmp_eq]⟩
  | range gt gte lt lte =>
    simp only [compared, forall_mem_append, Option.mem_toList] at hfree
    obtain ⟨⟨rgt, rgte⟩, rlt, rlte⟩ := hfree
    rw [passes, Bool.and_eq_true]
    cases ascending with
    | true =>
      refine and_congr (pick_iff (fun v hv => ?_) fun v hv => ?_) (pick_iff (fun v hv => ?_) fun v hv => ?_)
      · rw [boundPrefix_le (rgte v hv), decide_eq_true_eq]; rfl
      · rw [prefixNext_le (rgt v hv), decide_eq_true_eq]; rfl
      · rw [le_prefixNext (rlte v hv), decide_eq_true_eq]; rfl
      · rw [le_boundPrefix (rlt v hv) htail, decide_eq_true_eq]; rfl
    -- on a descending field the order is reversed, and so are the operators
    | false =>
      rw [and_comm]
      refine and_congr (pick_iff (fun v hv => ?_) fun v hv => ?_) (pick_iff (fun v hv => ?_) fun v hv => ?_)
      · rw [boundPrefix_le (rlte v hv), decide_eq_true_eq]; exact not_congr swap_eq_iff
      · rw [prefixNext_le (rlt v hv), decide_eq_true_eq]; exact swap_eq_iff
      · rw [le_prefixNext (rgte v hv), decide_eq_true_eq]; exact not_congr swap_eq_iff
      · rw [le_boundPrefix (rgt v hv) htail, decide_eq_true_eq]; exact swap_eq_iff

end Bounds

/-- **What a scan finds.** A document has an entry within the bounds if and only if it has entries at all and one of the
values of the leading field passes the condition. -/
theorem found_iff {doc keyPattern : Document} {docId : Bson} {sparse : Bool} {field : String} {dir : Bson}
    {rest : Document} {c : IndexCondition} (hpattern : keyPattern = (field, dir) :: rest)
    (hfree : ∀ x ∈ indexedValues (extractFieldValue doc field), ∀ v ∈ compared c, PrefixFree x v) :
    (∃ keys multikey, buildIndexKeys doc keyPattern docId sparse = .ok (keys, multikey) ∧
        ∃ k ∈ keys, Within (indexBounds c (isAscending dir)) k) ↔
      Indexable (indexFields doc keyPattern) ∧ (sparse = true → ∀ p ∈ indexFields doc keyPattern, p.1.isSome = true) ∧
        ∃ x ∈ indexedValues (extractFieldValue doc field), passes x c = true := by
  constructor
  · rintro ⟨keys, multikey, hbuild, k, hk, hwithin⟩
    obtain ⟨hfields, hpresent⟩ := indexable_of_mem hbuild hk
    -- the key starts with a value of the leading field
    obtain ⟨vs, hlen, hvs, rfl⟩ := mem_buildIndexKeys hbuild hk
    subst hpattern
    obtain ⟨x, vs, rfl⟩ := exists_cons_of_length_eq_add_one hlen
    have hx := hvs 0 x _ rfl rfl
    rw [map_cons, zip_cons_cons, cons_append, encodeCompoundKey_cons _ (by simp)] at hwithin
    exact ⟨hfields, hpresent, x, hx, (within_iff (hfree x hx) (encodeCompoundKey_ne_nil (by simp))).1 hwithin⟩
  · rintro ⟨hfields, hpresent, x, hx, hpasses⟩
    obtain ⟨keys, multikey, hbuild, hentries⟩ :=
      @buildIndexKeys_leading doc keyPattern docId sparse field dir rest hpattern
      hfields hpresent
    obtain ⟨k, hk, tail, htail, rfl⟩ := hentries x hx
    exact ⟨keys, multikey, hbuild, _, hk, (within_iff (hfree x hx) htail).2 hpasses⟩

/-- a document has entries if and only if it has neither empty nor parallel arrays, and no field missing in a sparse
index -/
theorem entries_iff {field : String} {dir : Bson} {rest : Document} (hpattern : keyPattern = (field, dir) :: rest) :
    (∃ keys multikey, buildIndexKeys doc keyPattern docId sparse = .ok (keys, multikey) ∧ keys ≠ []) ↔
      Indexable (indexFields doc keyPattern) ∧
        (sparse = true → ∀ p ∈ indexFields doc keyPattern, p.1.isSome = true) := by
  constructor
  · rintro ⟨keys, multikey, hbuild, hne⟩
    obtain ⟨k, hk⟩ := exists_mem_of_ne_nil keys hne
    exact indexable_of_mem hbuild hk
  · rintro ⟨hfields, hpresent⟩
    have hlead :=
      hfields.nonempty (extractFieldValue doc field, isAscending dir) (by rw [hpattern]; exact mem_cons_self)
    obtain ⟨x, hx⟩ := exists_indexedValue hlead
    obtain ⟨keys, multikey, hbuild, k, hk, -⟩ := (@found_iff doc keyPattern docId sparse field dir rest .any hpattern
      fun _ _ v hv => by cases hv).2
      ⟨hfields, hpresent, x, hx, rfl⟩
    exact ⟨keys, multikey, hbuild, ne_nil_of_mem hk⟩

end Mqlite.Index
