/-
What index plans find: filter evaluator, planner, index keys and scan bounds together.

A plan is complete for a document if the document, when the filter accepts it, has an entry in the index that the plan
scans, within the bounds of the scan. The residual filter then decides, so nothing else matters for the result.

- `index_scan_finds_scalar_iff`: the leading field holds no array;
- `index_scan_finds_array_iff`: it holds an array. An operator asks for some element, each operator for its own, while
  the scan wants one element between both ends;
- `sparse_index_finds_iff`: the index is sparse. Then a filter must not accept a missing field;
- `index_path_through_array_iff`: the path of the leading field meets an array. The index then has null.

All of them need the document to have entries at all: an empty array in any field of a compound index leaves it without.
Counterexamples stand behind each theorem.
-/
import Mqlite.Index.Build

namespace Mqlite.Index

open Lib Mvcc Keys Query List Option Bool Document

/-! ## The index of a plan -/

/-- the direction that the executor looks up -/
def scanAscending (e : IndexEntry) (primaryField : String) : Bool :=
  match e.keyPattern.get primaryField with
  | some dir => isAscending dir
  | none => true

variable {e : IndexEntry} {field : String} {doc filter : Document} {env : Env} {path : List String}

theorem scanAscending_leading {dir : Bson} {rest : Document}
    (h : e.keyPattern = (field, dir) :: rest) : scanAscending e field = isAscending dir := by
  simp [scanAscending, h, Document.get]

/-- the index that the plan names is led by the plan's field, the filter covers its filter expression, and the condition
is the filter's on the field -/
theorem plan_index {indexes : List IndexEntry} {name : String} {condition : IndexCondition}
    (hplan : selectPlan filter (indexes.map IndexEntry.planned) = .indexScan name field condition)
    (hnames : (indexes.map IndexEntry.name).Nodup) (he : e ∈ indexes) (hname : e.name = name) :
    (∃ dir rest, e.keyPattern = (field, dir) :: rest) ∧ filterCoversPfe filter e.partialFilterExpression = true ∧
      extractFieldCondition filter field = some condition := by
  obtain ⟨idx, hidx, hidxname, hkeys, hpfe, hextract⟩ := selectPlan_indexScan hplan
  obtain ⟨e', he', rfl⟩ := mem_map.1 hidx
  obtain rfl : e' = e := inj_on_of_nodup_map hnames he' he (hidxname.trans hname.symm)
  exact ⟨hkeys, hpfe, hextract⟩

/-! ## Partial indexes -/

/-- the conditions of the filter expression that the filter has in another spelling only (the planner compares documents
up to the order of their fields) hold of the document as well -/
def PfeHolds (env : Env) (filter doc : Document) (e : IndexEntry) : Prop :=
  ∀ pfe ∈ e.partialFilterExpression, ∀ p ∈ pfe, filter.get p.1 ≠ some p.2 → evalTopLevel env p.2 p.1 doc = .ok true

theorem evalFields_ok (h : ∀ p ∈ filter, evalTopLevel env p.2 p.1 doc = .ok true) :
    evalFields env filter doc = .ok true := by
  induction filter with
  | nil => rfl
  | cons q filter ih =>
    obtain ⟨hq, hrest⟩ := forall_mem_cons.1 h
    rw [evalFields, hq]
    exact ih hrest

theorem no_collation (h : evalFilter env doc filter = .ok true) : filter.containsKey "collation" = false := by
  unfold evalFilter guardCollation at h
  split_ifs at h with hkey
  · cases h
  · simpa using hkey

/-- when an accepted document is a member of the index -/
theorem member_iff (hcovers : filterCoversPfe filter e.partialFilterExpression = true)
    (hmatch : evalFilter env doc filter = .ok true) :
    docMatchesPartialFilter env doc e = .ok true ↔ PfeHolds env filter doc e := by
  unfold docMatchesPartialFilter PfeHolds
  cases hsome : e.partialFilterExpression with
  | none => simp
  | some pfe =>
    rw [hsome, filterCoversPfe, List.all_eq_true] at hcovers
    have hcollation : pfe.containsKey "collation" = false := by
      cases hget : pfe.get "collation" with
      | none => simp [containsKey, hget]
      | some v =>
        have hcovered := hcovers _ (mem_of_get hget)
        have hfilter := no_collation hmatch
        rw [containsKey, isSome_eq_false_iff, isNone_iff_eq_none] at hfilter
        rw [hfilter] at hcovered
        cases hcovered
    simp only [mem_def, Option.some.injEq, forall_eq']
    unfold evalFilter guardCollation
    rw [hcollation]
    constructor
    · exact fun h p hp _ => evalFields_true h p hp
    · intro h
      refine evalFields_ok fun p hp => ?_
      by_cases hliteral : filter.get p.1 = some p.2
      · exact evalFilter_true hmatch p (mem_of_get hliteral)
      · exact h p hp hliteral

/-! ## Paths -/

/-- the path meets no array before its end -/
def throughDocuments (doc : Document) : List String → Bool
  | head :: next :: rest =>
    match doc.get head with
    | some (.document sub) => throughDocuments sub (next :: rest)
    | some (.array _) => false
    | _ => true
  | _ => true

/-- on such paths filter and index see the same value -/
theorem getNested_eq_extractPath (h : throughDocuments doc path = true) :
    getNested doc path = extractPath doc path := by
  induction path generalizing doc with
  | nil => rfl
  | cons head path ih =>
    cases path with
    | nil => rfl
    | cons next rest =>
      rw [throughDocuments] at h
      rw [getNested, extractPath]
      cases hget : doc.get head with
      | none => rfl
      | some v =>
        rw [hget] at h
        cases v with
        | document sub => exact ih h
        | array arr => cases h
        | _ => rfl

/-- a value that the index sees is reached through documents -/
theorem throughDocuments_of_extractPath {v : Bson} (h : extractPath doc path = some v) :
    throughDocuments doc path = true := by
  induction path generalizing doc with
  | nil => rfl
  | cons head path ih =>
    cases path with
    | nil => rfl
    | cons next rest =>
      rw [extractPath] at h
      rw [throughDocuments]
      split at h
      next sub hget =>
        rw [hget]
        exact ih h
      · cases h

/-! ## What passes the filter, value by value -/

section Values

variable {fieldValue : Option Bson} {c : IndexCondition}

/-- an operator is passed by some value of the field -/
theorem evalCmp_true {v : Bson} {direction : Ordering} {allowEqual : Bool}
    (h : evalCmp fieldValue v direction allowEqual = true) :
    ∃ x ∈ indexedValues fieldValue, compareBson x v = direction ∨ allowEqual = true ∧ compareBson x v = .eq := by
  cases fieldValue with
  | none => cases h
  | some val =>
    have helems : indexedValues (some val) = elements val := by cases val <;> rfl
    rw [helems]
    simpa [evalCmp] using h

/-- one end of a range is passed by some value of the field, as the bounds see that end -/
theorem exists_pick {direction : Ordering} (hdirection : direction ≠ .eq) {allowing excluding : Option Bson}
    (hne : indexedValues fieldValue ≠ [])
    (hexcluding : excluding.all (fun v => evalCmp fieldValue v direction false) = true)
    (hallowing : allowing.all (fun v => evalCmp fieldValue v direction true) = true) :
    ∃ x ∈ indexedValues fieldValue, (pick allowing excluding (fun v => decide (compareBson x v ≠ direction.swap))
      fun v => decide (compareBson x v = direction)).getD true = true := by
  cases allowing with
  | some v =>
    obtain ⟨x, hx, hcmp⟩ := evalCmp_true hallowing
    refine ⟨x, hx, decide_eq_true ?_⟩
    rcases hcmp with hcmp | ⟨-, hcmp⟩
    all_goals
      rw [hcmp]
      revert hdirection
      cases direction <;> decide
  | none =>
    cases excluding with
    | some v =>
      obtain ⟨x, hx, hcmp⟩ := evalCmp_true hexcluding
      rcases hcmp with hcmp | ⟨h, -⟩
      · exact ⟨x, hx, decide_eq_true hcmp⟩
      · cases h
    | none =>
      obtain ⟨x, hx⟩ := exists_mem_of_ne_nil _ hne
      exact ⟨x, hx, rfl⟩

/-- a field without array that passes the filter's condition passes the bounds with its one value -/
theorem passes_of_scalar (hscalar : isArray fieldValue = false) (h : c.accepts fieldValue = true) :
    passes (fieldValue.getD .null) c = true := by
  have hvalues := indexedValues_scalar hscalar
  cases c with
  | any | inList vals => rfl
  | eq val =>
    cases fieldValue with
    | none =>
      cases val with
      | null => rfl
      | _ => cases h
    | some x =>
      rcases or_eq_true_iff.1 h with heq | helem
      · exact heq
      · cases x with
        | array arr => cases hscalar
        | _ => cases helem
  | range gt gte lt lte =>
    simp only [IndexCondition.accepts, and_eq_true] at h
    obtain ⟨⟨⟨hgt, hgte⟩, hlt⟩, hlte⟩ := h
    have hne : indexedValues fieldValue ≠ [] := by rw [hvalues]; exact cons_ne_nil _ _
    obtain ⟨x, hx, hstart⟩ := exists_pick (by decide) hne hgt hgte
    obtain ⟨y, hy, hstop⟩ := exists_pick (by decide) hne hlt hlte
    rw [hvalues, mem_singleton] at hx hy
    subst hx hy
    exact and_eq_true_iff.2 ⟨hstart, hstop⟩

/-! ### Arrays -/

/-- a range with one end, or none -/
def oneSided : IndexCondition → Bool
  | .range gt gte lt lte => gt.isNone && gte.isNone || lt.isNone && lte.isNone
  | _ => true

/-- an array that passes the filter also passes as the bounds see it: an equality is not one with the whole array, and a
range with two ends has an element between them -/
def Elementwise (arr : List Bson) (c : IndexCondition) : Prop :=
  match c with
  | .eq val => bsonEq (.array arr) val = false
  | .range _ _ _ _ => oneSided c = true ∨ ∃ elem ∈ arr, passes elem c = true
  | _ => True

variable {arr : List Bson}

theorem length_encodeArray {elem : Bson} (h : elem ∈ arr) : (encodeInto elem).length ≤ (encodeArray arr).length := by
  induction arr with
  | nil => cases h
  | cons v arr ih =>
    rw [encodeArray, length_append, length_cons]
    rcases mem_cons.1 h with rfl | h
    · exact Nat.le_add_right _ _
    · have := ih h
      omega

/-- no element is equal to the array -/
theorem encodeKey_elem_ne {elem : Bson} (h : elem ∈ arr) : encodeKey elem ≠ encodeKey (.array arr) := by
  intro heq
  have hlen := length_encodeArray h
  have := congrArg List.length heq
  simp only [encodeKey, encodeInto, length_cons] at this
  omega

/-- what an accepted array needs to have an element within the bounds -/
theorem exists_passes_iff (hne : arr ≠ []) (h : c.accepts (some (.array arr)) = true) :
    (∃ elem ∈ arr, passes elem c = true) ↔ Elementwise arr c := by
  obtain ⟨first, hfirst⟩ := exists_mem_of_ne_nil arr hne
  cases c with
  | any | inList vals => exact iff_of_true ⟨first, hfirst, rfl⟩ trivial
  | eq val =>
    constructor
    · rintro ⟨elem, helem, hpasses⟩
      refine decide_eq_false fun hwhole => encodeKey_elem_ne helem ?_
      rw [hwhole]
      exact of_decide_eq_true hpasses
    · intro hwhole
      rcases or_eq_true_iff.1 h with heq | helem
      · rw [hwhole] at heq
        cases heq
      · exact any_eq_true.1 helem
  | range gt gte lt lte =>
    refine ⟨.inr, fun hside => ?_⟩
    rcases hside with hside | hsome
    · simp only [IndexCondition.accepts, and_eq_true] at h
      obtain ⟨⟨⟨hgt, hgte⟩, hlt⟩, hlte⟩ := h
      simp only [oneSided, or_eq_true, and_eq_true, isNone_iff_eq_none] at hside
      rcases hside with ⟨rfl, rfl⟩ | ⟨rfl, rfl⟩
      · obtain ⟨elem, helem, hstop⟩ := @exists_pick (some (.array arr)) .lt (by decide) lte lt hne hlt hlte
        exact ⟨elem, helem, and_eq_true_iff.2 ⟨rfl, hstop⟩⟩
      · obtain ⟨elem, helem, hstart⟩ := @exists_pick (some (.array arr)) .gt (by decide) gte gt hne hgt hgte
        exact ⟨elem, helem, and_eq_true_iff.2 ⟨hstart, rfl⟩⟩
    · exact hsome

end Values

/-! ## Scalars -/

/-- **Index plans and scalars.** An accepted document is a member of the index with an entry within the bounds of the
scan if and only if it has neither empty nor parallel arrays in the indexed fields, satisfies what the filter expression
of a partial index says in another order of fields, and, if the leading field is named like an operator, passes the
condition on it. The values compared must not have encodings that are prefixes of each other. -/
theorem index_scan_finds_scalar_iff (env : Env) (filter doc : Document) (docId : Bson) (indexes : List IndexEntry)
    (name field : String) (condition : IndexCondition)
    (hplan : selectPlan filter (indexes.map IndexEntry.planned) = .indexScan name field condition)
    (hnames : (indexes.map IndexEntry.name).Nodup) (e : IndexEntry) (he : e ∈ indexes) (hname : e.name = name)
    (hsparse : e.sparse = false) (hliteral : ∀ re, filter.get field ≠ some (.regularExpression re))
    (hpath : throughDocuments doc (segments field) = true) (hscalar : isArray (extractFieldValue doc field) = false)
    (hmatch : evalFilter env doc filter = .ok true)
    (hfree : ∀ v ∈ compared condition, PrefixFree ((extractFieldValue doc field).getD .null) v) :
    (docMatchesPartialFilter env doc e = .ok true ∧
      ∃ keys multikey, buildIndexKeys doc e.keyPattern docId e.sparse = .ok (keys, multikey) ∧
        ∃ k ∈ keys, Within (indexBounds condition (scanAscending e field)) k) ↔
    Indexable (indexFields doc e.keyPattern) ∧ PfeHolds env filter doc e ∧
      (startsWithDollar field = true → passes ((extractFieldValue doc field).getD .null) condition = true) := by
  obtain ⟨⟨dir, rest, hkeys⟩, hcovers, hextract⟩ := plan_index hplan hnames he hname
  have hvalues := indexedValues_scalar hscalar
  have hfound := @found_iff doc e.keyPattern docId e.sparse field dir rest condition hkeys
    (by rw [hvalues]; exact forall_mem_singleton.2 hfree)
  rw [member_iff hcovers hmatch, scanAscending_leading hkeys, hfound, hvalues]
  constructor
  · rintro ⟨hpfe, hfields, -, x, hx, hpasses⟩
    rw [mem_singleton.1 hx] at hpasses
    exact ⟨hfields, hpfe, fun _ => hpasses⟩
  · rintro ⟨hfields, hpfe, hdollar⟩
    refine ⟨hpfe, hfields, fun h => (by rw [hsparse] at h; cases h), _, mem_singleton.2 rfl, ?_⟩
    cases hfield : startsWithDollar field with
    | true => exact hdollar hfield
    | false =>
      have haccepts := extract_accepts hmatch hfield hliteral hextract
      rw [getNestedField, getNested_eq_extractPath hpath] at haccepts
      exact passes_of_scalar hscalar haccepts

theorem index_scan_finds_scalar_range :
    let filter : Document := [("a", .document [("$gte", .int32 5), ("$lt", .int32 9)]), ("s", .string "x")]
    let doc : Document := [("_id", .int32 1), ("a", .int32 7), ("s", .string "x"), ("b", .array [.int32 2, .int32 3])]
    let e : IndexEntry := ⟨"a_-1_b_1", [("a", .int32 (-1)), ("b", .int32 1)], false, false, some [("s", .string "x")]⟩
    let condition : IndexCondition := .range none (some (.int32 5)) (some (.int32 9)) none
    selectPlan filter [e.planned] = .indexScan e.name "a" condition ∧
      docMatchesPartialFilter noLibraries doc e = .ok true ∧
      ∃ keys multikey, buildIndexKeys doc e.keyPattern (.int32 1) e.sparse = .ok (keys, multikey) ∧
        ∃ k ∈ keys, Within (indexBounds condition (scanAscending e "a")) k := by
  refine ⟨rfl, (index_scan_finds_scalar_iff noLibraries
    [("a", .document [("$gte", .int32 5), ("$lt", .int32 9)]), ("s", .string "x")] _ _ [_] _ "a"
      _ rfl (nodup_singleton _) _
    (mem_singleton.2 rfl) rfl rfl ?_ (by decide) (by decide) (by decide) (by decide)).2
    ⟨⟨by decide, by decide⟩, ?_, fun h => (by revert h; decide)⟩⟩
  · intro re h
    cases h
  · intro pfe hpfe p hp hother
    cases hpfe
    cases mem_singleton.1 hp
    exact absurd rfl hother

/-- an empty array in the second field: no entry, although the filter accepts the document -/
theorem index_scan_misses_scalar :
    let filter : Document := [("a", .int32 1)]
    let doc : Document := [("_id", .int32 1), ("a", .int32 1), ("b", .array [])]
    let e : IndexEntry := ⟨"a_1_b_1", [("a", .int32 1), ("b", .int32 1)], false, false, none⟩
    selectPlan filter [e.planned] = .indexScan e.name "a" (.eq (.int32 1)) ∧
      evalFilter noLibraries doc filter = .ok true ∧
      throughDocuments doc (segments "a") = true ∧ isArray (extractFieldValue doc "a") = false ∧
      buildIndexKeys doc e.keyPattern (.int32 1) e.sparse = .ok ([], true) :=
  ⟨rfl, by decide, by decide, by decide, rfl⟩

/-! ## Arrays -/

/-- the planner takes a condition from the filter that the filter does not ask for: of a field named like an operator,
or a regular expression literal -/
def misread (filter : Document) (field : String) : Bool :=
  startsWithDollar field || match filter.get field with
    | some (.regularExpression _) => true
    | _ => false

theorem not_misread (h : ¬ misread filter field = true) :
    startsWithDollar field = false ∧ ∀ re, filter.get field ≠ some (.regularExpression re) := by
  rw [not_eq_true, misread, or_eq_false_iff] at h
  refine ⟨h.1, fun re hget => ?_⟩
  rw [hget] at h
  cases h.2

/-- **Index plans and arrays.** An accepted document has an entry within the bounds of the scan if and only if it has
neither empty nor parallel arrays and no field missing in a sparse index, and the filter asks for elements one by one:
not for the whole array, not with a range that no single element is in, and, where the planner misreads the filter, for
an element that passes the condition anyway. -/
theorem index_scan_finds_array_iff (env : Env) (filter doc : Document) (docId : Bson) (indexes : List IndexEntry)
    (name field : String) (condition : IndexCondition)
    (hplan : selectPlan filter (indexes.map IndexEntry.planned) = .indexScan name field condition)
    (hnames : (indexes.map IndexEntry.name).Nodup) (e : IndexEntry) (he : e ∈ indexes) (hname : e.name = name)
    (arr : List Bson) (harray : extractFieldValue doc field = some (.array arr))
    (hmatch : evalFilter env doc filter = .ok true)
    (hfree : ∀ elem ∈ arr, ∀ v ∈ compared condition, PrefixFree elem v) :
    (∃ keys multikey, buildIndexKeys doc e.keyPattern docId e.sparse = .ok (keys, multikey) ∧
      ∃ k ∈ keys, Within (indexBounds condition (scanAscending e field)) k) ↔
    Indexable (indexFields doc e.keyPattern) ∧
      (e.sparse = true → ∀ p ∈ indexFields doc e.keyPattern, p.1.isSome = true) ∧
      if misread filter field then ∃ elem ∈ arr, passes elem condition = true else Elementwise arr condition := by
  obtain ⟨⟨dir, rest, hkeys⟩, -, hextract⟩ := plan_index hplan hnames he hname
  have hvalues : indexedValues (extractFieldValue doc field) = arr := by rw [harray]; rfl
  have hfound :=
    @found_iff doc e.keyPattern docId e.sparse field dir rest condition hkeys (by rw [hvalues]; exact hfree)
  rw [scanAscending_leading hkeys, hfound, hvalues]
  refine and_congr_right fun hfields => and_congr_right fun _ => ?_
  split_ifs with hmisread
  · rfl
  · obtain ⟨hdollar, hliteral⟩ := not_misread hmisread
    have haccepts := extract_accepts hmatch hdollar hliteral hextract
    rw [getNestedField, getNested_eq_extractPath (throughDocuments_of_extractPath harray)] at haccepts
    change condition.accepts (extractFieldValue doc field) = true at haccepts
    rw [harray] at haccepts
    refine exists_passes_iff ?_ haccepts
    rintro rfl
    have hempty := hfields.nonempty (extractFieldValue doc field, isAscending dir) (by rw [hkeys]; exact mem_cons_self)
    rw [harray] at hempty
    cases hempty

theorem index_scan_finds_array_above :
    let doc : Document := [("_id", .int32 1), ("a", .array [.int32 1, .int32 7])]
    let e : IndexEntry := ⟨"a_1", [("a", .int32 1)], false, true, none⟩
    let condition : IndexCondition := .range (some (.int32 5)) none none none
    selectPlan [("a", .document [("$gt", .int32 5)])] [e.planned] = .indexScan e.name "a" condition ∧
      ∃ keys multikey, buildIndexKeys doc e.keyPattern (.int32 1) e.sparse = .ok (keys, multikey) ∧
        ∃ k ∈ keys, Within (indexBounds condition (scanAscending e "a")) k := by
  refine ⟨rfl, (index_scan_finds_array_iff noLibraries [("a", .document [("$gt", .int32 5)])] _ _ [_] _ "a" _ rfl
    (nodup_singleton _) _ (mem_singleton.2 rfl) rfl [.int32 1, .int32 7] rfl (by decide) (by decide)).2
    ⟨⟨by decide, by decide⟩, by decide, ?_⟩⟩
  exact .inl rfl

/-- one element passes `$gt` and another `$lt`, none is between -/
theorem index_scan_misses_array :
    let filter : Document := [("a", .document [("$gt", .int32 5), ("$lt", .int32 8)])]
    let doc : Document := [("_id", .int32 1), ("a", .array [.int32 1, .int32 10])]
    let e : IndexEntry := ⟨"a_1", [("a", .int32 1)], false, false, none⟩
    let condition : IndexCondition := .range (some (.int32 5)) none (some (.int32 8)) none
    selectPlan filter [e.planned] = .indexScan e.name "a" condition ∧ evalFilter noLibraries doc filter = .ok true ∧
      ∃ keys, buildIndexKeys doc e.keyPattern (.int32 1) e.sparse = .ok (keys, true) ∧
        ∀ k ∈ keys, ¬ Within (indexBounds condition (scanAscending e "a")) k :=
  ⟨rfl, by decide, _, rfl, by decide⟩

/-! ## Sparse indexes -/

/-- the condition names null, which a missing field is equal to -/
def asksForNull : IndexCondition → Bool
  | .eq val => isNull val
  | .inList vals => vals.any isNull
  | _ => false

/-- a range that is planned has an operand -/
theorem range_compared {gt gte lt lte : Option Bson}
    (h : extractFieldCondition filter field = some (.range gt gte lt lte)) :
    ∃ v, v ∈ compared (.range gt gte lt lte) := by
  unfold extractFieldCondition at h
  split at h
  · cases h
  next ops hget =>
    split_ifs at h
    · rcases extractOperatorCondition_cases h with ⟨v, hc, -⟩ | ⟨vals, hc, -⟩ | ⟨hc, hkeys⟩ | hc
      · cases hc
      · cases hc
      · cases hc
        simp only [compared, mem_append, mem_toList]
        rcases hkeys with hkey | hkey | hkey | hkey
        all_goals
          obtain ⟨v, hv⟩ := isSome_iff_exists.1 hkey
          refine ⟨v, ?_⟩
          simp [hv]
      · cases hc
    · cases h
  · cases h

/-- a condition of an index scan that does not name null is passed by present fields only -/
theorem present_of_accepted {c : IndexCondition}
    (hextract : extractFieldCondition filter field = some c) (hmatch : evalFilter env doc filter = .ok true)
    (hdollar : startsWithDollar field = false) (hnull : asksForNull c = false) :
    (getNestedField doc field).isSome = true := by
  by_cases hliteral : ∃ re, filter.get field = some (.regularExpression re)
  · obtain ⟨re, hget⟩ := hliteral
    have htop := evalFilter_true hmatch _ (mem_of_get hget)
    rw [evalTopLevel_field hdollar] at htop
    exact evalRegex_true htop
  · have haccepts := extract_accepts hmatch hdollar (fun re h => hliteral ⟨re, h⟩) hextract
    by_contra hnone
    rw [not_isSome_iff_eq_none] at hnone
    rw [hnone] at haccepts
    cases c with
    | eq val | inList vals => exact absurd haccepts (eq_false_iff.1 hnull)
    | any => cases haccepts
    -- no comparison is passed by a missing field
    | range gt gte lt lte =>
      obtain ⟨v, hv⟩ := range_compared hextract
      simp only [IndexCondition.accepts, Bool.and_eq_true, Option.all_eq_true] at haccepts
      obtain ⟨⟨⟨hgt, hgte⟩, hlt⟩, hlte⟩ := haccepts
      simp only [compared, mem_append, mem_toList] at hv
      rcases hv with (hv | hv) | hv | hv
      · cases hgt v hv
      · cases hgte v hv
      · cases hlt v hv
      · cases hlte v hv

/-- **Sparse indexes.** An accepted document is a member of a sparse index and has an entry in it if and only if it has
neither empty nor parallel arrays in the indexed fields, satisfies what the filter expression says in another order of
fields, has the other fields, is not matched through an array on the way to the leading field, and has the leading field
in case the filter does not see to that: a condition that names null, or a field named like an operator. -/
theorem sparse_index_finds_iff (env : Env) (filter doc : Document) (docId : Bson) (indexes : List IndexEntry)
    (name field : String) (condition : IndexCondition)
    (hplan : selectPlan filter (indexes.map IndexEntry.planned) = .indexScan name field condition)
    (hnames : (indexes.map IndexEntry.name).Nodup) (e : IndexEntry) (he : e ∈ indexes) (hname : e.name = name)
    (hsparse : e.sparse = true) (hmatch : evalFilter env doc filter = .ok true) :
    (docMatchesPartialFilter env doc e = .ok true ∧
      ∃ keys multikey, buildIndexKeys doc e.keyPattern docId e.sparse = .ok (keys, multikey) ∧ keys ≠ []) ↔
    Indexable (indexFields doc e.keyPattern) ∧ PfeHolds env filter doc e ∧
      (∀ p ∈ indexFields doc e.keyPattern.tail, p.1.isSome = true) ∧ throughDocuments doc (segments field) = true ∧
      (asksForNull condition = true ∨ startsWithDollar field = true → (extractFieldValue doc field).isSome = true) := by
  obtain ⟨⟨dir, rest, hkeys⟩, hcovers, hextract⟩ := plan_index hplan hnames he hname
  have hall : (∀ p ∈ indexFields doc e.keyPattern, p.1.isSome = true) ↔
      (extractFieldValue doc field).isSome = true ∧ ∀ p ∈ indexFields doc e.keyPattern.tail, p.1.isSome = true := by
    rw [hkeys]
    exact forall_mem_cons
  rw [member_iff hcovers hmatch, entries_iff hkeys, hall]
  constructor
  · rintro ⟨hpfe, hfields, hpresent⟩
    obtain ⟨hlead, hothers⟩ := hpresent hsparse
    obtain ⟨v, hv⟩ := isSome_iff_exists.1 hlead
    exact ⟨hfields, hpfe, hothers, throughDocuments_of_extractPath hv, fun _ => hlead⟩
  · rintro ⟨hfields, hpfe, hothers, hpath, hlead⟩
    refine ⟨hpfe, hfields, fun _ => ⟨?_, hothers⟩⟩
    by_cases hmissing : asksForNull condition = true ∨ startsWithDollar field = true
    · exact hlead hmissing
    · obtain ⟨hnull, hdollar⟩ := not_or.1 hmissing
      have hpresent := present_of_accepted hextract hmatch (eq_false_iff.2 hdollar) (eq_false_iff.2 hnull)
      rwa [getNestedField, getNested_eq_extractPath hpath] at hpresent

theorem sparse_index_finds_in :
    let filter : Document := [("a", .document [("$in", .array [.int32 5, .int32 7])])]
    let doc : Document := [("_id", .int32 1), ("a", .int32 7), ("b", .null)]
    let e : IndexEntry := ⟨"a_1_b_1", [("a", .int32 1), ("b", .int32 1)], false, true, none⟩
    selectPlan filter [e.planned] = .indexScan e.name "a" (.inList [.int32 5, .int32 7]) ∧
      docMatchesPartialFilter noLibraries doc e = .ok true ∧
      ∃ keys multikey, buildIndexKeys doc e.keyPattern (.int32 1) e.sparse = .ok (keys, multikey) ∧ keys ≠ [] := by
  refine ⟨rfl, (sparse_index_finds_iff noLibraries [("a", .document [("$in", .array [.int32 5, .int32 7])])] _ _
    [_] _ "a" _ rfl (nodup_singleton _) _ (mem_singleton.2 rfl) rfl rfl (by decide)).2
    ⟨⟨by decide, by decide⟩, ?_, by decide, by decide, fun _ => rfl⟩⟩
  intro pfe hpfe
  cases hpfe

/-- null is what a missing field is equal to, for the filter -/
theorem sparse_index_misses_null :
    let filter : Document := [("a", .null)]
    let doc : Document := [("_id", .int32 1)]
    let e : IndexEntry := ⟨"a_1", [("a", .int32 1)], false, true, none⟩
    selectPlan filter [e.planned] = .indexScan e.name "a" (.eq .null) ∧ evalFilter noLibraries doc filter = .ok true ∧
      buildIndexKeys doc e.keyPattern (.int32 1) e.sparse = .ok ([], false) :=
  ⟨rfl, by decide, rfl⟩

/-! ## Paths through arrays -/

/-- a path that meets an array before its end has no value for the index -/
theorem extractPath_throughArray (h : throughDocuments doc path = false) : extractPath doc path = none := by
  cases hget : extractPath doc path with
  | none => rfl
  | some v =>
    rw [throughDocuments_of_extractPath hget] at h
    cases h

/-- null is encoded by its type alone -/
theorem prefixFree_null (v : Bson) : PrefixFree .null v := by
  have hnull : encodeKey .null = [TYPE_NULL] := rfl
  constructor
  · intro hprefix
    cases v with
    | null | undefined => rfl
    | _ => exact absurd (cons_prefix_cons.1 hprefix).1 (by decide)
  · intro hprefix
    obtain ⟨b, payload, hv⟩ : ∃ b payload, encodeKey v = b :: payload := ⟨_, _, encodeInto_eq v⟩
    rw [hnull, hv] at hprefix ⊢
    obtain ⟨rfl, hpayload⟩ := cons_prefix_cons.1 hprefix
    rw [prefix_nil.1 hpayload]

/-- **Index plans and paths through arrays.** The filter follows a number into an array, the index does not: for the
index the field is missing. A document that the filter accepts has an entry within the bounds if and only if it has
neither empty nor parallel arrays in the indexed fields, and null is within the bounds. -/
theorem index_path_through_array_iff (env : Env) (filter doc : Document) (docId : Bson) (indexes : List IndexEntry)
    (name field : String) (condition : IndexCondition)
    (hplan : selectPlan filter (indexes.map IndexEntry.planned) = .indexScan name field condition)
    (hnames : (indexes.map IndexEntry.name).Nodup) (e : IndexEntry) (he : e ∈ indexes) (hname : e.name = name)
    (hsparse : e.sparse = false) (hpath : throughDocuments doc (segments field) = false) :
    (evalFilter env doc filter = .ok true →
      ∃ keys multikey, buildIndexKeys doc e.keyPattern docId e.sparse = .ok (keys, multikey) ∧
        ∃ k ∈ keys, Within (indexBounds condition (scanAscending e field)) k) ↔
    (evalFilter env doc filter = .ok true → Indexable (indexFields doc e.keyPattern) ∧
      passes .null condition = true) := by
  obtain ⟨⟨dir, rest, hkeys⟩, -, -⟩ := plan_index hplan hnames he hname
  have hvalues : indexedValues (extractFieldValue doc field) = [.null] := by
    rw [extractFieldValue, extractPath_throughArray hpath]
    rfl
  have hfound := @found_iff doc e.keyPattern docId e.sparse field dir rest condition hkeys
    (by rw [hvalues]; exact forall_mem_singleton.2 fun v _ => prefixFree_null v)
  refine imp_congr_right fun _ => ?_
  rw [scanAscending_leading hkeys, hfound, hvalues]
  constructor
  · rintro ⟨hfields, -, x, hx, hpasses⟩
    rw [mem_singleton.1 hx] at hpasses
    exact ⟨hfields, hpasses⟩
  · rintro ⟨hfields, hpasses⟩
    exact ⟨hfields, fun h => (by rw [hsparse] at h; cases h), .null, mem_singleton.2 rfl, hpasses⟩

/-- presence, which the filter asks of the second element, and a scan of the whole index -/
theorem index_path_through_array_exists :
    let filter : Document := [("a.1", .document [("$exists", .boolean true)])]
    let doc : Document := [("_id", .int32 1), ("a", .array [.int32 4, .int32 5])]
    let e : IndexEntry := ⟨"a.1_1", [("a.1", .int32 1)], false, false, none⟩
    selectPlan filter [e.planned] = .indexScan e.name "a.1" .any ∧ evalFilter noLibraries doc filter = .ok true ∧
      ∃ keys multikey, buildIndexKeys doc e.keyPattern (.int32 1) e.sparse = .ok (keys, multikey) ∧
        ∃ k ∈ keys, Within (indexBounds .any (scanAscending e "a.1")) k := by
  have haccepts : evalFilter noLibraries [("_id", .int32 1), ("a", .array [.int32 4, .int32 5])]
      [("a.1", .document [("$exists", .boolean true)])] = .ok true := by decide
  exact ⟨rfl, haccepts,
    (index_path_through_array_iff noLibraries [("a.1", .document [("$exists", .boolean true)])] _ _ [_] _ "a.1" _
    rfl (nodup_singleton _) _ (mem_singleton.2 rfl) rfl rfl (by decide)).2
    (fun _ => ⟨⟨by decide, by decide⟩, rfl⟩) haccepts⟩

/-- the filter finds 5 at the index 1 of the array, and the index has null -/
theorem index_path_misses_element :
    let filter : Document := [("a.1", .int32 5)]
    let doc : Document := [("_id", .int32 1), ("a", .array [.int32 4, .int32 5])]
    let e : IndexEntry := ⟨"a.1_1", [("a.1", .int32 1)], false, false, none⟩
    selectPlan filter [e.planned] = .indexScan e.name "a.1" (.eq (.int32 5)) ∧
      throughDocuments doc (segments "a.1") = false ∧ evalFilter noLibraries doc filter = .ok true ∧
      ∃ keys, buildIndexKeys doc e.keyPattern (.int32 1) e.sparse = .ok (keys, false) ∧
        ∀ k ∈ keys, ¬ Within (indexBounds (.eq (.int32 5)) (scanAscending e "a.1")) k :=
  ⟨rfl, by decide, by decide, [encodeCompoundKey [(.null, true), (.int32 1, true)]], by decide, by decide⟩

end Mqlite.Index
