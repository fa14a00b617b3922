/-
Operators that are built on equality: `$in`, `$nin` and `$all` (`query/filter/operators.rs`), and `$lookup` in its
equality form (`run_lookup`, `match_keys` and `keys_intersect` of `query/aggregate.rs`).

`$eq` accepts an array as a whole and by its elements. `$in` does the same for each value of its list. `$all` wants each
value among the elements, and `$lookup` compares the elements on both sides, so both miss an array that is equal as a
whole.

- `set_operators`: `$in` and `$nin` are combinations of `$eq`, and when `$all` is;
- `lookup_agrees_iff`: when the documents that `$lookup` attaches are those that `$eq` accepts. The keys of null,
  undefined and a missing field are the same, but `$eq` with undefined does not accept a missing field.
-/
import Mqlite.Update.PathLaws

namespace Mqlite.Query

open Mvcc Keys Update List

variable {env : Env} {doc : Document} {path : String} {vs : List Bson}

/-- a filter with one operator on one field -/
theorem evalFilter_operator {op : String} {arg : Bson} (hpath : startsWithDollar path = false)
    (hop : op ∈ ["$eq", "$in", "$nin", "$all"]) :
    evalFilter env doc [(path, .document [(op, arg)])] =
      if path = "collation" then badValue "Collation is not supported by mqlite"
        else evalSingleOp env arg op (getNestedField doc path) := by
  have htop : evalTopLevel env (.document [(op, arg)]) path doc = evalSingleOp env arg op (getNestedField doc path) :=
    evalTopLevel_operator hpath (by revert op; decide) (by rintro rfl; simp at hop) (by rintro rfl; simp at hop)
  rw [evalFilter, guardCollation, evalFields_singleton, htop]
  by_cases h : path = "collation" <;> simp [Document.containsKey, Document.get, h]

/-! ## Lists of values -/

/-- the first false or error ends the loop -/
def allM {α : Type} (f : α → Result) : List α → Result
  | [] => .ok true
  | a :: rest => do if ← f a then allM f rest else .ok false

theorem anyM_ok {α : Type} (f : α → Bool) (l : List α) : anyM (fun a => .ok (f a)) l = .ok (l.any f) := by
  induction l with
  | nil => rfl
  | cons a l ih =>
    rw [anyM, ih, any_cons]
    cases f a <;> rfl

theorem allM_ok {α : Type} (f : α → Bool) (l : List α) : allM (fun a => .ok (f a)) l = .ok (l.all f) := by
  induction l with
  | nil => rfl
  | cons a l ih =>
    rw [allM, ih, all_cons]
    cases f a <;> rfl

theorem evalIn_any (fieldValue : Option Bson) (vs : List Bson) :
    evalIn fieldValue (.array vs) = .ok (vs.any (evalEq fieldValue)) := by
  cases fieldValue <;> rfl

theorem evalAllElemMatch_none {cond : Document} (arr : List Bson) (h : cond.get "$elemMatch" = none) :
    evalAllElemMatch env cond arr = none := by
  induction cond with
  | nil => rfl
  | cons p cond ih =>
    obtain ⟨name, arg⟩ := p
    by_cases hname : name = "$elemMatch"
    · simp [Document.get, hname] at h
    · rw [evalAllElemMatch.eq_def]
      exact (if_neg hname).trans (ih (by simpa [Document.get, hname] using h))

theorem evalAll_all (arr : List Bson) (h : ∀ cond, .document cond ∈ vs → Document.get cond "$elemMatch" = none) :
    evalAll env vs arr = .ok (vs.all fun v => arr.any (bsonEq · v)) := by
  induction vs with
  | nil => rfl
  | cons v vs ih =>
    have hv : evalAll env (v :: vs) arr = if arr.any (bsonEq · v) then evalAll env vs arr else .ok false := by
      cases v with
      | document cond =>
        rw [evalAll, evalAllElemMatch_none arr (h cond mem_cons_self)]
        rfl
      | _ => rfl
    rw [hv, ih fun cond hc => h cond (mem_cons_of_mem _ hc), all_cons]
    cases arr.any (bsonEq · v) <;> rfl

theorem evalSingleOp_every (hvs : vs ≠ []) (h : ∀ cond, .document cond ∈ vs → Document.get cond "$elemMatch" = none)
    (value : Bson) :
    evalSingleOp env (.array vs) "$all" (some value) = .ok (vs.all fun v => (elements value).any (bsonEq · v)) := by
  cases value with
  | array arr => simp [evalSingleOp, hvs, evalAll_all arr h, elements]
  | _ => simp [evalSingleOp, hvs, elements]

/-- every value is accepted, but one of them only as the whole array -/
def WholeOnly (value : Bson) (vs : List Bson) : Prop :=
  (∀ v ∈ vs, matchesValue value v = true) ∧ ∃ v ∈ vs, (elements value).any (bsonEq · v) = false

theorem matchesValue_of_elements {value v : Bson} (h : (elements value).any (bsonEq · v) = true) :
    matchesValue value v = true := by
  cases value with
  | array arr => exact Bool.or_eq_true_iff.2 (.inr h)
  | _ => simpa [matchesValue, elements] using h

theorem all_elements_iff {value : Bson} :
    (vs.all fun v => (elements value).any (bsonEq · v)) = vs.all (matchesValue value) ↔ ¬ WholeOnly value vs := by
  rw [Bool.eq_iff_iff, all_eq_true, all_eq_true, WholeOnly]
  refine ⟨fun h ⟨hall, v, hv, hno⟩ => ?_,
    fun h => ⟨fun hall v hv => matchesValue_of_elements (hall v hv), fun hall v hv => ?_⟩⟩
  · rw [h.2 hall v hv] at hno
    cases hno
  · by_contra hno
    exact h ⟨hall, v, hv, Bool.eq_false_of_not_eq_true hno⟩

/-- **The set operators as combinations of `$eq`.** `$in` is always the disjunction over its list and `$nin` its
negation. `$all` on a path that is there is the conjunction, unless some value of its list is accepted only as the whole
array while all are; then it is false. -/
theorem set_operators (env : Env) (doc : Document) (path : String) (vs : List Bson)
    (hpath : startsWithDollar path = false)
    (hvs : vs ≠ []) (hplain : ∀ cond, .document cond ∈ vs → Document.get cond "$elemMatch" = none) :
    let eq := fun v => evalFilter env doc [(path, .document [("$eq", v)])]
    let op := fun name => evalFilter env doc [(path, .document [(name, .array vs)])]
    op "$in" = anyM eq vs ∧ op "$nin" = (anyM eq vs).map not ∧
      ∀ value, getNestedField doc path = some value →
        (op "$all" = allM eq vs ↔ path = "collation" ∨ ¬ WholeOnly value vs) ∧
        (path ≠ "collation" → WholeOnly value vs → op "$all" = .ok false) := by
  intro eq op
  have heq : eq = fun v => if path = "collation" then badValue "Collation is not supported by mqlite" else
      .ok (evalEq (getNestedField doc path) v) :=
    funext fun v => (evalFilter_operator hpath (by simp)).trans (by rw [evalSingleOp_eq])
  have hop : ∀ name ∈ ["$in", "$nin", "$all"], op name = _ :=
    fun name hname => evalFilter_operator hpath (mem_cons_of_mem _ hname)
  rw [hop "$in" (by simp), hop "$nin" (by simp), hop "$all" (by simp), heq]
  by_cases h : path = "collation"
  · -- every filter fails alike
    obtain ⟨v, rest, rfl⟩ := exists_cons_of_ne_nil hvs
    simp only [if_pos h]
    exact ⟨rfl, rfl, fun value _ => ⟨iff_of_true rfl (.inl h), fun hne => absurd h hne⟩⟩
  have hin : evalSingleOp env (.array vs) "$in" (getNestedField doc path) =
      .ok (vs.any (evalEq (getNestedField doc path))) := by
    simp [evalSingleOp, evalIn_any]
  have hnin : evalSingleOp env (.array vs) "$nin" (getNestedField doc path) =
      .ok !(vs.any (evalEq (getNestedField doc path))) := by
    simp [evalSingleOp, evalIn_any]
    rfl
  simp only [h, if_false, false_or, anyM_ok, allM_ok, hin, hnin]
  refine ⟨trivial, rfl, fun value hvalue => ?_⟩
  rw [hvalue, evalSingleOp_every hvs hplain, Except.ok.injEq]
  refine ⟨all_elements_iff, ?_⟩
  rintro - ⟨-, v, hv, hno⟩
  exact congrArg Except.ok (all_eq_false.2 ⟨v, hv, by simp [hno]⟩)

theorem set_operators_number :
    let doc : Document := [("a", .array [.int32 1])]
    evalFilter noLibraries doc [("a", .document [("$all", .array [.int32 1])])] =
      allM (fun v => evalFilter noLibraries doc [("a", .document [("$eq", v)])]) [.int32 1] := by
  obtain ⟨-, -, hall⟩ :=
    set_operators noLibraries [("a", .array [.int32 1])] "a" [.int32 1] rfl (cons_ne_nil _ _) (by simp)
  refine (hall _ rfl).1.2 (.inr ?_)
  rintro ⟨-, v, hv, hno⟩
  rw [mem_singleton.1 hv] at hno
  cases hno

/-- the list has the array of the document -/
theorem all_misses_whole_array :
    let doc : Document := [("a", .array [.int32 1, .int32 2])]
    evalFilter noLibraries doc [("a", .document [("$all", .array [.array [.int32 1, .int32 2]])])] = .ok false ∧
      evalFilter noLibraries doc [("a", .document [("$eq", .array [.int32 1, .int32 2])])] = .ok true :=
  ⟨rfl, rfl⟩

/-! ## Lookups -/

/-- the parsed stage; empty paths and paths that start with a dollar sign are refused -/
structure Lookup where
  fromCollection : String
  localField : String
  foreignField : String
  asField : String
  plain : ∀ path ∈ [localField, foreignField, asField], path ≠ "" ∧ startsWithDollar path = false

def matchKeys (doc : Document) (path : String) : List Bytes :=
  match getNestedField doc path with
  | none => [encodeKey .null]
  | some (.array (elem :: elems)) => (elem :: elems).map encodeKey
  | some value => [encodeKey value]

def keysIntersect (localKeys foreignKeys : List Bytes) : Bool :=
  localKeys.any fun lk => foreignKeys.any fun fk => lk = fk

/-- the recursion of `set_nested_overwrite`, which takes the path apart at its first dot -/
def overwriteAt (value : Bson) (doc : Document) : List String → Document
  | [] => doc
  | [head] => doc.insert head value
  | head :: next :: rest =>
    let needsDoc := match doc.get head with
      | some (.document _) => false
      | _ => true
    let doc := if needsDoc then doc.insert head (.document []) else doc
    match doc.get head with
    | some (.document child) => doc.insert head (.document (overwriteAt value child (next :: rest)))
    | _ => doc

def setNestedOverwrite (doc : Document) (path : String) (value : Bson) : Document :=
  overwriteAt value doc (segments path)

def runLookup {ε : Type} (lookup : Lookup) (docs : List Document) (resolveForeign : String → Except ε (List Document)) :
    Except ε (List Document) := do
  let foreignDocs ← resolveForeign lookup.fromCollection
  let foreignKeys := foreignDocs.map fun fdoc => matchKeys fdoc lookup.foreignField
  .ok (docs.map fun doc =>
    let localKeys := matchKeys doc lookup.localField
    let matched :=
      ((foreignDocs.zip foreignKeys).filter fun p => keysIntersect localKeys p.2).map fun p => .document p.1
    setNestedOverwrite doc lookup.asField (.array matched))

/-- each element of a non-empty array, otherwise the value, null when missing -/
def keyValues (doc : Document) (path : String) : List Bson :=
  match getNestedField doc path with
  | none => [.null]
  | some (.array (elem :: elems)) => elem :: elems
  | some value => [value]

/-- find accepts the foreign document for some value -/
def found (env : Env) (lookup : Lookup) (doc fdoc : Document) : Bool :=
  (keyValues doc lookup.localField).any fun v =>
    evalFilter env fdoc [(lookup.foreignField, .document [("$eq", v)])] = .ok true

/-- the answers differ: find refuses the filter, undefined meets a missing field, or an array is equal only as a
whole -/
def Differs (lookup : Lookup) (doc fdoc : Document) : Prop :=
  let values := keyValues doc lookup.localField
  let foreignValues := keyValues fdoc lookup.foreignField
  if lookup.foreignField = "collation" then ∃ v ∈ values, ∃ w ∈ foreignValues, bsonEq v w = true
  else match getNestedField fdoc lookup.foreignField with
    | none => .undefined ∈ values ∧ .null ∉ values
    | some value => (∃ v ∈ values, bsonEq v value = true) ∧ ∀ v ∈ values, ∀ w ∈ foreignValues, bsonEq v w = false

section Lookups

variable {lookup : Lookup} {fdoc : Document}

theorem insert_insert (doc : Document) (name : String) (v w : Bson) :
    (doc.insert name v).insert name w = doc.insert name w := by
  induction doc with
  | nil => simp [Document.insert]
  | cons p doc ih =>
    simp only [Document.insert]
    split_ifs with h
    · simp [Document.insert]
    · simp only [Document.insert, if_neg h, ih]

/-- the stage writes as a `$set` does -/
theorem overwriteAt_eq (value : Bson) (doc : Document) (segs : List String) :
    overwriteAt value doc segs = putAt (some value) doc segs := by
  induction segs generalizing doc with
  | nil => rfl
  | cons head rest ih =>
    cases rest with
    | nil => rfl
    | cons next rest =>
      rw [overwriteAt, putAt]
      by_cases hsub : ∃ sub, doc.get head = some (.document sub)
      · obtain ⟨sub, hget⟩ := hsub
        simp only [hget, Bool.false_eq_true, if_false, ih, subDocument_of_get hget]
      · have hneeds : (match doc.get head with
            | some (.document _) => false
            | _ => true) = true := by
          split
          next sub hget => exact absurd ⟨sub, hget⟩ hsub
          · rfl
        simp only [hneeds, if_true, Document.get_insert_self, insert_insert, ih, subDocument_of_not hsub]

theorem bsonEq_comm (v w : Bson) : bsonEq v w = bsonEq w v := decide_eq_decide.2 eq_comm

theorem bsonEq_null_iff {v : Bson} : bsonEq v .null = true ↔ v = .null ∨ v = .undefined := by
  refine ⟨fun h => ?_, by rintro (rfl | rfl) <;> rfl⟩
  -- the type byte tells
  have hhead : (encodeKey v).head? = some TYPE_NULL := by
    rw [of_decide_eq_true h]
    rfl
  cases v <;> simp only [encodeKey, encodeInto, head?_cons, Option.some.injEq, or_true, true_or] at hhead ⊢
    <;> cases hhead

theorem keysIntersect_iff {fields : String} : keysIntersect (matchKeys doc path) (matchKeys fdoc fields) = true ↔
    ∃ v ∈ keyValues doc path, ∃ w ∈ keyValues fdoc fields, bsonEq v w = true := by
  have hkeys : ∀ doc path, matchKeys doc path = (keyValues doc path).map encodeKey := by
    intro doc path
    unfold matchKeys keyValues
    split <;> rfl
  simp [keysIntersect, hkeys, bsonEq]

theorem found_iff : found env lookup doc fdoc = true ↔ lookup.foreignField ≠ "collation" ∧
    ∃ v ∈ keyValues doc lookup.localField, evalEq (getNestedField fdoc lookup.foreignField) v = true := by
  have hplain : startsWithDollar lookup.foreignField = false := (lookup.plain _ (by simp)).2
  simp only [found, any_eq_true, decide_eq_true_eq, evalFilter_operator hplain (by simp : "$eq" ∈ _), evalSingleOp_eq]
  by_cases h : lookup.foreignField = "collation" <;> simp [h, badValue]

theorem matchesValue_iff {value v : Bson} (h : getNestedField fdoc path = some value) :
    matchesValue value v = true ↔ bsonEq v value = true ∨ ∃ w ∈ keyValues fdoc path, bsonEq v w = true := by
  cases value with
  | array arr => cases arr <;> simp [matchesValue, keyValues, h, bsonEq_comm v]
  | _ => simp [matchesValue, keyValues, h, bsonEq_comm v]

theorem agrees_iff :
    keysIntersect (matchKeys doc lookup.localField) (matchKeys fdoc lookup.foreignField) = found env lookup doc fdoc ↔
    ¬ Differs lookup doc fdoc := by
  rw [Bool.eq_iff_iff, keysIntersect_iff, found_iff, Differs]
  by_cases h : lookup.foreignField = "collation"
  · simp [h]
  simp only [h, if_false, ne_eq, not_false_iff, true_and]
  cases hvalue : getNestedField fdoc lookup.foreignField with
  | none =>
    have hkeys : keyValues fdoc lookup.foreignField = [.null] := by rw [keyValues, hvalue]
    have hnull : ∀ v, evalEq none v = true ↔ v = .null := by
      intro v
      cases v <;> simp [evalEq, isNull]
    simp only [hkeys, mem_singleton, exists_eq_left, bsonEq_null_iff, hnull]
    grind
  | some value =>
    simp only [evalEq, matchesValue_iff hvalue]
    grind

theorem lookup_agrees_iff {ε : Type} (env : Env) (lookup : Lookup) (docs foreign : List Document)
    (resolveForeign : String → Except ε (List Document)) (h : resolveForeign lookup.fromCollection = .ok foreign) :
    runLookup lookup docs resolveForeign = .ok (docs.map fun doc =>
        setNestedOverwrite doc lookup.asField (.array ((foreign.filter (found env lookup doc)).map .document))) ↔
      ∀ doc ∈ docs, ∀ fdoc ∈ foreign, ¬ Differs lookup doc fdoc := by
  have hrun : runLookup lookup docs resolveForeign =
    .ok (docs.map fun doc => setNestedOverwrite doc lookup.asField (.array ((foreign.filter
      fun fdoc =>
        keysIntersect (matchKeys doc lookup.localField) (matchKeys fdoc lookup.foreignField)).map .document))) := by
    simp only [runLookup, h, ← map_prod_left_eq_zip, filter_map, map_map]
    rfl
  rw [hrun, Except.ok.injEq, map_inj_left]
  refine forall₂_congr fun doc hdoc => ?_
  have hput : Function.Injective (setNestedOverwrite doc lookup.asField) := by
    intro v w hvw
    have hget : ∀ v, getNested (setNestedOverwrite doc lookup.asField v) (segments lookup.asField) = some v :=
      fun v =>
        (congrArg (getNested · _) (overwriteAt_eq v doc _)).trans (getNested_putAt_self (segments_ne_nil _) nofun)
    exact Option.some.inj ((hget v).symm.trans (hvw ▸ hget w))
  rw [hput.eq_iff, Bson.array.injEq, map_inj_right fun _ _ hvw => Bson.document.inj hvw]
  constructor
  · intro hfilter fdoc hf
    have hmem := congrArg (fdoc ∈ ·) hfilter
    simp only [mem_filter, hf, true_and, eq_iff_iff] at hmem
    exact agrees_iff.1 (Bool.eq_iff_iff.2 hmem)
  · exact fun hagree => filter_congr fun fdoc hf => agrees_iff.2 (hagree fdoc hf)

/-- joins on the fields a and b -/
def lookupAB : Lookup := ⟨"other", "a", "b", "c", by decide⟩

theorem lookup_agrees_number :
    runLookup lookupAB [[("a", .int32 1)]] (fun _ => (.ok [[("b", .int64 1)]] : Except Unit _)) =
    .ok [[("a", .int32 1), ("c", .array [.document [("b", .int64 1)]])]] := by
  refine (lookup_agrees_iff noLibraries lookupAB [[("a", .int32 1)]] [[("b", .int64 1)]] _ rfl).2
    fun doc hdoc fdoc hf => ?_
  rw [mem_singleton.1 hdoc, mem_singleton.1 hf]
  rintro ⟨-, hno⟩
  exact absurd (hno (.int32 1) mem_cons_self (.int64 1) mem_cons_self) (by decide)

/-- an array of the local document has the foreign array as an element -/
theorem lookup_misses_whole_array :
    let doc : Document := [("a", .array [.array [.int32 1, .int32 2]])]
    let fdoc : Document := [("b", .array [.int32 1, .int32 2])]
    runLookup lookupAB [doc] (fun _ => (.ok [fdoc] : Except Unit _)) = .ok [doc ++ [("c", .array [])]] ∧
      found noLibraries lookupAB doc fdoc = true :=
  ⟨rfl, rfl⟩

end Lookups

end Mqlite.Query
