/-
Update paths (`update/mod.rs`: `UpdateContext`, `classify_segment`, `modify_nested` and the functions below it).

A path is a list of segments. A segment is a field name or one of the array operators: all elements, the element that
the query matched, the elements that an array filter accepts. `modify_nested` walks a path to every place it leads to
and applies an operation there.

The source changes the document through a mutable reference, so that a call that fails leaves what it had changed
before; every function here returns what is left, next to its result (`Outcome`). The result of a call that succeeds is
the list of array filters that were used so far.
-/
import Mqlite.Query.Filter

namespace Mqlite

/-! ## Documents -/

namespace Document

/-- in place if the name is there, at the end otherwise -/
def insert : Document → String → Bson → Document
  | [], name, v => [(name, v)]
  | (other, w) :: rest, name, v => if other = name then (name, v) :: rest else (other, w) :: insert rest name v

/-- the other fields keep their order -/
def remove (doc : Document) (name : String) : Document := doc.eraseP fun p => p.1 = name

section

variable (doc : Document) {name other : String} (v : Bson)

@[simp] theorem get_insert_self : (doc.insert name v).get name = some v := by
  induction doc with
  | nil => simp [insert, get]
  | cons p doc ih =>
    rw [insert]
    split_ifs with h
    · simp [get]
    · simpa [get, h] using ih

theorem get_insert_of_ne (h : other ≠ name) : (doc.insert name v).get other = doc.get other := by
  induction doc with
  | nil => simp [insert, get, h.symm]
  | cons p doc ih =>
    rw [insert]
    split_ifs with hp
    · simp [get, hp, h.symm]
    · by_cases hother : p.1 = other
      · simp [get, hother]
      · simpa [get, hother] using ih

theorem get_remove_of_ne (h : other ≠ name) : (doc.remove name).get other = doc.get other := by
  induction doc with
  | nil => rfl
  | cons p doc ih =>
    by_cases hp : p.1 = name
    · simp [remove, get, hp, h.symm]
    · by_cases hother : p.1 = other
      · simp [remove, get, hother, h]
      · simpa [remove, get, hp, hother, List.eraseP_cons] using ih

end

end Document

namespace Update

open Mqlite.Query

inductive UpdateError where
  | unsupportedOperator (operator : String)
  | internal (message : String)
  | documentValidationFailure (detail : String)
  | filter (e : QueryError)
deriving DecidableEq, Repr

/-- the libraries of the filter evaluator, and the debug text of a value -/
structure Env extends Query.Env where
  debug : Bson → String

/-! ## Array filters -/

structure UpdateContext where
  filter : Document
  arrayFilters : List (String × Document)

def firstSegment (key : String) : String := (segments key).headD key

/-- all keys have the same first segment -/
def checkIdentifier (identifier : String) : List String → Except UpdateError Unit
  | [] => .ok ()
  | key :: keys =>
    if firstSegment key = identifier then checkIdentifier identifier keys
    else .error (.internal ("Error parsing array filter: Expected a single top-level field name, found '" ++
      identifier ++ "' and '" ++ firstSegment key ++ "'"))

def parseArrayFilters : List Document → List (String × Document) → Except UpdateError (List (String × Document))
  | [], map => .ok map
  | [] :: _, _ => .error (.internal "Cannot use an expression without a top-level field name in arrayFilters")
  | (p :: fields) :: filters, map => do
    checkIdentifier (firstSegment p.1) (fields.map Prod.fst)
    if map.any fun q => q.1 = firstSegment p.1 then
      .error (.internal ("Found multiple array filters with the same top-level field name " ++ firstSegment p.1))
    else parseArrayFilters filters (map ++ [(firstSegment p.1, p :: fields)])

namespace UpdateContext

def new (filter : Document) (arrayFilters : Option (List Document)) : Except UpdateError UpdateContext := do
  let arrayFilters ← parseArrayFilters (arrayFilters.getD []) []
  .ok ⟨filter, arrayFilters⟩

variable (ctx : UpdateContext)

def filterFor (ident fullPath : String) : Except UpdateError Document :=
  match ctx.arrayFilters.find? fun p => p.1 = ident with
  | some p => .ok p.2
  | none => .error (.internal ("No array filter found for identifier '" ++ ident ++ "' in path '" ++ fullPath ++ "'"))

def ensureAllFiltersUsed (used : List String) : Except UpdateError Unit :=
  match ctx.arrayFilters.find? fun p => !used.contains p.1 with
  | some p => .error (.internal ("The array filter for identifier '" ++ p.1 ++ "' was not used in the update."))
  | none => .ok ()

end UpdateContext

def markUsed (used : List String) (ident : String) : List String :=
  if used.contains ident then used else used ++ [ident]

/-! ## Segments -/

def ALL_POSITIONAL : String := "$[]"

def POSITIONAL : String := "$"

inductive Segment where
  | field (name : String)
  | allPositional
  | positional
  | filtered (ident : String)
  | unsupported (segment : String)
deriving DecidableEq, Repr

def isValidArrayFilterIdentifier : List Char → Bool
  | [] => false
  | first :: rest => first.isLower && rest.all Char.isAlphanum

def classifySegment (segment : String) : Segment :=
  if segment = ALL_POSITIONAL then .allPositional
  else if segment = POSITIONAL then .positional
  else match segment.toList with
    | '$' :: '[' :: rest =>
      if rest.getLast? = some ']' then
        if isValidArrayFilterIdentifier rest.dropLast then .filtered (String.ofList rest.dropLast)
          else .unsupported segment
      else .field segment
    | _ => .field segment

def joinPath (parent segment : String) : String := if parent = "" then segment else parent ++ "." ++ segment

theorem classifySegment_field {segment name : String} (h : classifySegment segment = .field name) : name = segment := by
  unfold classifySegment at h
  split_ifs at h
  split at h
  · split_ifs at h
    exact (Segment.field.inj h).symm
  · exact (Segment.field.inj h).symm

/-! ## The matched element -/

variable (env : Env)

def missingArrayPrefix (path : String) : UpdateError :=
  .internal ("The path '" ++ path ++ "' must exist in the document in order to apply array updates.")

def nonArrayElement (field : String) (value : Bson) : UpdateError :=
  .internal ("Cannot apply array updates to non-array element " ++ field ++ ": " ++ env.debug value)

def positionalNoMatch : UpdateError := .internal "The positional operator did not find the match needed from the query."

def liftQuery (r : Query.Result) : Except UpdateError Bool := r.mapError .filter

/-- the element satisfies an array filter, as the value of a field with the filter's name -/
def arrayFilterMatches (ident : String) (condition : Document) (elem : Bson) : Except UpdateError Bool :=
  liftQuery (evalFilter env.toEnv [(ident, elem)] condition)

def dottedSuffix? (arrayPath key : String) : Option String :=
  let head := (arrayPath ++ ".").toList
  if head.isPrefixOf key.toList then some (String.ofList (key.toList.drop head.length)) else none

def restrictFilterToPath (filter : Document) (arrayPath : String) : Document :=
  filter.filter fun p => p.1 = arrayPath || (dottedSuffix? arrayPath p.1).isSome

/-- a condition on the array itself is asked of the array with this one element, one on a field of the elements of the
element -/
def positionalElementMatches (elem : Bson) (leaf arrayPath : String) : List (String × Bson) → Except UpdateError Bool
  | [] => .ok true
  | (key, condition) :: rest => do
    let matched ←
      if key = arrayPath then liftQuery (evalFilter env.toEnv [(leaf, .array [elem])] [(leaf, condition)])
      else match dottedSuffix? arrayPath key, elem with
        | some sub, .document elemDoc => liftQuery (evalFilter env.toEnv elemDoc [(sub, condition)])
        | _, _ => .ok false
    if matched then positionalElementMatches elem leaf arrayPath rest else .ok false

def findPositional (leaf arrayPath : String) (restricted : Document) : List Bson → ℕ → Except UpdateError ℕ
  | [], _ => .error positionalNoMatch
  | elem :: rest, index => do
    if ← positionalElementMatches env elem leaf arrayPath restricted then .ok index
    else findPositional leaf arrayPath restricted rest (index + 1)

def resolvePositionalIndex (ctx : UpdateContext) (doc : Document) (field arrayPath : String) : Except UpdateError ℕ :=
  let restricted := restrictFilterToPath ctx.filter arrayPath
  if restricted.isEmpty then .error positionalNoMatch
  else match doc.get field with
    | some (.array arr) => findPositional env ((segments arrayPath).getLastD arrayPath) arrayPath restricted arr 0
    | _ => .error positionalNoMatch

/-! ## Walking a path -/

/-- what is done at the end of a path: the value there (if any) gives the new one; none removes it -/
abbrev LeafOp := Option Bson → Except UpdateError (Option Bson)

/-- what a call leaves behind the reference it was given, and its result -/
abbrev Outcome (α : Type) := α × Except UpdateError (List String)

/-- the rest of a walk, from a document that is reached by the given path -/
abbrev Walk := String → Document → List String → Outcome Document

def applyLeaf (doc : Document) (field : String) (op : LeafOp) (used : List String) : Outcome Document :=
  match op (doc.get field) with
  | .ok (some newVal) => (doc.insert field newVal, .ok used)
  | .ok none => (doc.remove field, .ok used)
  | .error e => (doc, .error e)

/-- an element at the end of the path is replaced or removed; below it the walk goes on in a document, other elements
are skipped -/
def atElement (op : LeafOp) (after : Option Walk) (elemPath : String) (elem : Bson) (used : List String) :
    Outcome (Option Bson) :=
  match after, elem with
  | none, elem =>
    match op (some elem) with
    | .ok newVal => (newVal, .ok used)
    | .error e => (some elem, .error e)
  | some walk, .document elemDoc =>
    let (elemDoc, r) := walk elemPath elemDoc used
    (some (.document elemDoc), r)
  | some _, elem => (some elem, .ok used)

/-- the elements in order, up to the first error -/
def updateElements (f : Bson → List String → Outcome (Option Bson)) : List Bson → List String → Outcome (List Bson)
  | [], used => ([], .ok used)
  | elem :: rest, used =>
    match f elem used with
    | (elem, .error e) => (elem.toList ++ rest, .error e)
    | (elem, .ok used) =>
      let (rest, r) := updateElements f rest used
      (elem.toList ++ rest, r)

/-- an array operator's work on the value of its field -/
def onArray (field : String) (value : Bson) (f : List Bson → Outcome (List Bson)) : Outcome Bson :=
  match value with
  | .array arr =>
    let (arr, r) := f arr
    (.array arr, r)
  | value => (value, .error (nonArrayElement env field value))

def applyAllPositional (op : LeafOp) (value : Bson) (field elemPath : String) (after : Option Walk)
    (used : List String) : Outcome Bson :=
  onArray env field value fun arr => updateElements (atElement op after (joinPath elemPath ALL_POSITIONAL)) arr used

def applyFilteredPositional (op : LeafOp) (value : Bson) (field elemPath ident : String) (condition : Document)
    (after : Option Walk) (used : List String) : Outcome Bson :=
  onArray env field value fun arr => updateElements (fun elem used =>
    match arrayFilterMatches env ident condition elem with
    | .ok true => atElement op after (joinPath elemPath ("$[" ++ ident ++ "]")) elem used
    | .ok false => (some elem, .ok used)
    | .error e => (some elem, .error e)) arr used

def applyPositional (op : LeafOp) (value : Bson) (field elemPath : String) (index : ℕ) (after : Option Walk)
    (used : List String) :
    Outcome Bson :=
  onArray env field value fun arr =>
    match arr[index]? with
    | none => (arr, .error positionalNoMatch)
    | some elem =>
      let (elem, r) := atElement op after (joinPath elemPath POSITIONAL) elem used
      (arr.take index ++ elem.toList ++ arr.drop (index + 1), r)

/-- the value of a field, changed in place -/
def inField (doc : Document) (field missing : String) (f : Bson → Outcome Bson) : Outcome Document :=
  match doc.get field with
  | none => (doc, .error (missingArrayPrefix missing))
  | some value =>
    let (value, r) := f value
    (doc.insert field value, r)

/-- on to the next segment: an array operator means that the field holds the array; `after` is the path behind it, if
there is one -/
def descendField (ctx : UpdateContext) (fullPath : String) (op : LeafOp) (doc : Document) (parent field next : String)
    (inner : Walk) (after : Option Walk) (used : List String) : Outcome Document :=
  let path := joinPath parent field
  match classifySegment next with
  | .allPositional => inField doc field (joinPath path next) fun value =>
    applyAllPositional env op value field path after used
  | .filtered ident =>
    match ctx.filterFor ident fullPath with
    | .error e => (doc, .error e)
    | .ok condition => inField doc field (joinPath path next) fun value =>
        applyFilteredPositional env op value field path ident condition after (markUsed used ident)
  | .positional =>
    match resolvePositionalIndex env ctx doc field path with
    | .error e => (doc, .error e)
    | .ok index => inField doc field (joinPath path next) fun value =>
      applyPositional env op value field path index after used
  | .unsupported segment => (doc, .error (.unsupportedOperator segment))
  | .field _ =>
    match doc.get field with
    | some (.document nested) =>
      let (nested, r) := inner path nested used
      (doc.insert field (.document nested), r)
    | some _ =>
      -- a value that is not a document is overwritten, if the rest succeeds
      match inner path [] used with
      | (nested, .ok used) => (doc.insert field (.document nested), .ok used)
      | (_, .error e) => (doc, .error e)
    | none =>
      let (nested, r) := inner path [] used
      (doc.insert field (.document nested), r)

def modifyNestedInner (ctx : UpdateContext) (fullPath : String) (op : LeafOp) : List String → Walk
  | [], _, doc, used => (doc, .ok used)
  | head :: tail, parent, doc, used =>
    match classifySegment head with
    | .unsupported segment => (doc, .error (.unsupportedOperator segment))
    | .allPositional => (doc, .error (missingArrayPrefix (joinPath parent ALL_POSITIONAL)))
    | .positional | .filtered _ => (doc, .error (missingArrayPrefix (joinPath parent head)))
    | .field field =>
      match tail with
      | [] =>
        -- only the top-level `_id` is protected
        if parent = "" ∧ field = "_id" then (doc, .ok used) else applyLeaf doc field op used
      | next :: rest =>
        descendField env ctx fullPath op doc parent field next (modifyNestedInner ctx fullPath op (next :: rest))
          (if rest = [] then none else some (modifyNestedInner ctx fullPath op rest)) used

def countPositionalSegments (path : String) : ℕ :=
  (segments path).countP fun segment => classifySegment segment = .positional

def modifyNested (ctx : UpdateContext) (path : String) (op : LeafOp) (doc : Document) (used : List String) :
    Outcome Document :=
  if countPositionalSegments path > 1 then
    (doc, .error (.internal ("Too many positional (i.e. '$') elements found in path '" ++ path ++ "'")))
  else modifyNestedInner env ctx path op (segments path) "" doc used

/-! ## What a walk leaves alone -/

section Frame

variable {ctx : UpdateContext} {fullPath parent field next : String} {op : LeafOp} {doc : Document} {inner : Walk}
  {after : Option Walk} {used : List String} {name : String}

theorem get_applyLeaf (h : name ≠ field) : (applyLeaf doc field op used).1.get name = doc.get name := by
  unfold applyLeaf
  split
  · exact doc.get_insert_of_ne _ h
  · exact doc.get_remove_of_ne h
  · rfl

theorem get_inField {missing : String} {f : Bson → Outcome Bson} (h : name ≠ field) :
    (inField doc field missing f).1.get name = doc.get name := by
  unfold inField
  split
  · rfl
  · exact doc.get_insert_of_ne _ h

/-- a walk through a field changes no other one -/
theorem get_descendField (h : name ≠ field) :
    (descendField env ctx fullPath op doc parent field next inner after used).1.get name = doc.get name := by
  unfold descendField
  dsimp only
  split
  · exact get_inField h
  · split
    · rfl
    · exact get_inField h
  · split
    · rfl
    · exact get_inField h
  · rfl
  · split
    · exact doc.get_insert_of_ne _ h
    · split
      · exact doc.get_insert_of_ne _ h
      · rfl
    · exact doc.get_insert_of_ne _ h

end Frame

end Update

end Mqlite
