/-
Update operators and update pipelines (`update/mod.rs`, `update/pipeline.rs`).

An operator has a document of arguments, one for each path. For every operator but `$rename` an argument gives the
operation that `modify_nested` then does at its path; `$rename` reads one path and writes two.

The aggregation engine that runs a pipeline is a parameter; what a pipeline update makes of its result is not.
-/
import Mqlite.Update.Arith
import Mqlite.Update.Paths

namespace Mqlite.Update

open Query

/-- a document while it is updated, and the array filters used so far -/
structure Target where
  doc : Document
  used : List String

variable (env : Env) (ctx : UpdateContext)

def write (path : String) (op : LeafOp) (t : Target) : Except UpdateError Target :=
  match modifyNested env ctx path op t.doc t.used with
  | (doc, .ok used) => .ok ⟨doc, used⟩
  | (_, .error e) => .error e

/-- the loop that the operators share: an argument gives the operation at its path -/
def applyEach (parse : String → Bson → Except UpdateError LeafOp) (args : Document) (t : Target) :
    Except UpdateError Target :=
  args.foldlM (fun t p => do
    let op ← parse p.1 p.2
    write env ctx p.1 op t) t

/-! ## Fields and numbers -/

def setOp (value : Bson) : LeafOp := fun _ => .ok (some value)

def unsetOp : LeafOp := fun _ => .ok none

def applySet : Document → Target → Except UpdateError Target := applyEach env ctx fun _ value => .ok (setOp value)

def applyUnset : Document → Target → Except UpdateError Target := applyEach env ctx fun _ _ => .ok unsetOp

def applyArithmeticUpdate (op : String) (combine : F64 → F64 → F64) : Document → Target → Except UpdateError Target :=
  applyEach env ctx fun _ operand =>
    match operand.asF64 with
    | none => .error (.internal (op ++ ": value must be a number, got " ++ env.debug operand))
    | some operand => .ok fun current =>
        let currentN := (current.bind Bson.asF64).getD (.ofInt 0)
        .ok (some (Bson.numericResult current (combine currentN operand)))

/-- replaced if the new value compares to the current one as the operator wants -/
def applyMinMax (target : Ordering) : Document → Target → Except UpdateError Target :=
  applyEach env ctx fun _ newVal => .ok fun current =>
  match current with
  | none => .ok (some newVal)
  | some cur => .ok (some (if compareBson newVal cur = target then newVal else cur))

def pathHasPositional (path : String) : Bool := (segments path).any fun segment =>
  match classifySegment segment with
  | .field _ => false
  | _ => true

/-- the value at the old path is removed there and set at the new one; without a value nothing happens -/
def renameOne (oldPath : String) (newName : Bson) (t : Target) : Except UpdateError Target :=
  match newName with
  | .string newPath =>
    if pathHasPositional oldPath || pathHasPositional newPath
      then .error (.internal "$rename does not allow array elements")
    else match getNestedField t.doc oldPath with
      | some val => do
        let t ← write env ctx oldPath unsetOp t
        write env ctx newPath (setOp val) t
      | none => .ok t
  | newName => .error (.internal ("$rename: new name must be a string, got " ++ env.debug newName))

def applyRename (args : Document) (t : Target) : Except UpdateError Target :=
  args.foldlM (fun t p => renameOne env ctx p.1 p.2 t) t

/-- the clock is read once for an operator -/
def applyCurrentDate (nowMs : Int64) : Document → Target → Except UpdateError Target := applyEach env ctx fun _ spec =>
  match spec with
  | .document typeDoc =>
    match Document.get typeDoc "$type" with
    | some (.string "timestamp") =>
      .ok (setOp (.timestamp ⟨(nowMs / 1000).toUInt64.toUInt32, (nowMs % 1000).toUInt64.toUInt32⟩))
    | _ => .ok (setOp (.dateTime nowMs))
  | _ => .ok (setOp (.dateTime nowMs))

/-! ## Arrays -/

def notAnArray (op path : String) : UpdateError := .internal (op ++ ": field '" ++ path ++ "' is not an array")

/-- an array, or an empty one where nothing is -/
def arrayOr (op path : String) : Option Bson → Except UpdateError (List Bson)
  | none => .ok []
  | some (.array arr) => .ok arr
  | some _ => .error (notAnArray op path)

def fieldOrNull (v : Bson) (field : String) : Bson :=
  match v with
  | .document d => (getNestedField d field).getD .null
  | _ => .null

def compareByFields : List (String × F64) → Bson → Bson → Ordering
  | [], _, _ => .eq
  | (field, dir) :: rest, a, b =>
    match compareBson (fieldOrNull a field) (fieldOrNull b field) with
    | .eq => compareByFields rest a b
    | ord => if (F64.ofInt 0).le dir then ord else ord.swap

/-- by a direction, or by fields of embedded documents; the sort is stable -/
def sortBsonArray (arr : List Bson) (spec : Bson) : Except UpdateError (List Bson) :=
  match spec.asF64, spec with
  | some d, _ =>
    if (F64.ofInt 0).le d then .ok (arr.mergeSort fun a b => compareBson a b != .gt)
    else .ok (arr.mergeSort fun a b => compareBson b a != .gt)
  | none, .document sortDoc =>
    let sortFields := sortDoc.map fun p => (p.1, p.2.asF64.getD (.ofInt 1))
    .ok (arr.mergeSort fun a b => compareByFields sortFields a b != .gt)
  | none, spec => .error (.internal ("$push $sort: invalid sort specification " ++ env.debug spec))

/-- the first n elements, or the last ones for negative n -/
def sliceBsonArray (arr : List Bson) (n : ℤ) : List Bson :=
  if 0 ≤ n then arr.take n.toNat else arr.drop (arr.length - n.natAbs)

/-- a negative position counts from the end -/
def insertAt (arr each : List Bson) (pos : ℤ) : List Bson :=
  let at' := if pos < 0 then (arr.length + pos).toNat else min pos.toNat arr.length
  arr.take at' ++ each ++ arr.drop at'

def pushModifiersOp (path : String) (modifiers : Document) : Except UpdateError LeafOp :=
  match modifiers.get "$each" with
  | some (.array eachVals) =>
    let position := ((modifiers.get "$position").bind Bson.asF64).map F64.toI64
    let sortSpec := modifiers.get "$sort"
    let slice := ((modifiers.get "$slice").bind Bson.asF64).map F64.toI64
    .ok fun current => do
      let arr ← arrayOr "$push" path current
      let arr := match position with
        | some pos => insertAt arr eachVals pos
        | none => arr ++ eachVals
      let arr ← match sortSpec with
        | some spec => sortBsonArray env arr spec
        | none => .ok arr
      .ok (some (.array (match slice with
        | some n => sliceBsonArray arr n
        | none => arr)))
  | _ => .error (.internal "$push: $each modifier must be an array")

def pushOp (path : String) (value : Bson) : LeafOp := fun current => do
  let arr ← arrayOr "$push" path current
  .ok (some (.array (arr ++ [value])))

def applyPush : Document → Target → Except UpdateError Target := applyEach env ctx fun path value =>
  match value with
  | .document modifier => if Document.containsKey modifier "$each" then pushModifiersOp env path modifier
      else .ok (pushOp path value)
  | value => .ok (pushOp path value)

/-- only an array is changed -/
def onArrayOnly (f : List Bson → Except UpdateError (List Bson)) : LeafOp := fun current =>
  match current with
  | some (.array arr) => do
    let arr ← f arr
    .ok (some (.array arr))
  | other => .ok other

/-- a filter that cannot be evaluated does not match -/
def matchesPullCondition (elem condition : Bson) : Except UpdateError Bool :=
  match condition, elem with
  | .document filterDoc, .document elemDoc =>
    match evalFilter env.toEnv elemDoc filterDoc with
    | .ok b => .ok b
    | .error .panic => .error (.filter .panic)
    | .error _ => .ok false
  | .document _, _ => .ok false
  | nonDoc, elem => .ok (elem.same nonDoc)

def pullElements (condition : Bson) : List Bson → Except UpdateError (List Bson)
  | [] => .ok []
  | elem :: rest => do
    let pulled ← matchesPullCondition env elem condition
    let rest ← pullElements condition rest
    .ok (if pulled then rest else elem :: rest)

def applyPull : Document → Target → Except UpdateError Target := applyEach env ctx fun _ condition =>
  .ok (onArrayOnly (pullElements env condition))

def applyPullAll : Document → Target → Except UpdateError Target := applyEach env ctx fun path values =>
  match values with
  | .array values => .ok (onArrayOnly fun arr => .ok (arr.filter fun elem => !values.any fun v => v.same elem))
  | values => .error (.internal ("$pullAll: argument for '" ++ path ++ "' must be an array, got " ++ env.debug values))

def addToSet (arr : List Bson) : List Bson → List Bson
  | [] => arr
  | elem :: rest => addToSet (if arr.any fun v => v.same elem then arr else arr ++ [elem]) rest

def addToSetElements : Bson → List Bson
  | .document modifier =>
    match Document.get modifier "$each" with
    | some (.array eachArr) => eachArr
    | _ => [.document modifier]
  | value => [value]

def applyAddToSet : Document → Target → Except UpdateError Target :=
  applyEach env ctx fun path value => .ok fun current => do
  let arr ← arrayOr "$addToSet" path current
  .ok (some (.array (addToSet arr (addToSetElements value))))

def applyPop : Document → Target → Except UpdateError Target := applyEach env ctx fun _ dir =>
  match dir.asF64 with
  | none => .error (.internal ("$pop: value must be 1 or -1, got " ++ env.debug dir))
  | some dirN => .ok (onArrayOnly fun arr => .ok (if (F64.ofInt 1).le dirN then arr.dropLast else arr.tail))

/-! ## Bits -/

inductive BitOpKind where
  | and
  | or
  | xor
deriving DecidableEq, Repr

structure BitOp where
  kind : BitOpKind
  operand : Int64
  isI64 : Bool

def parseBitOp (key : String) (val : Bson) : Except UpdateError BitOp := do
  let kind ←
    if key = "and" then .ok BitOpKind.and
    else if key = "or" then .ok .or
    else if key = "xor" then .ok .xor
    else .error (.internal ("The $bit modifier only supports 'and', 'or', and 'xor', not '" ++ key ++
      "' which is an unknown operator: \x7b" ++ key ++ ": " ++ env.debug val ++ "\x7d"))
  match val with
  | .int32 n => .ok ⟨kind, n.toInt64, false⟩
  | .int64 n => .ok ⟨kind, n, true⟩
  | val =>
    .error (.internal ("The $bit modifier field must be an Integer(s): \x7b" ++ key ++ ": " ++ env.debug val ++ "\x7d"))

def parseBitOps (opsDoc : Document) : Except UpdateError (List BitOp) :=
  if opsDoc.isEmpty then .error (.internal "You must pass in at least one bit operation")
  else opsDoc.mapM fun p => parseBitOp env p.1 p.2

def BitOp.apply (acc : Int64) (op : BitOp) : Int64 :=
  match op.kind with
  | .and => acc &&& op.operand
  | .or => acc ||| op.operand
  | .xor => acc ^^^ op.operand

/-- 64 bits wide as soon as one of the operands is -/
def applyBitOps (ops : List BitOp) : LeafOp := fun current => do
  let (acc, isI64) ← match current with
    | none => .ok (0, false)
    | some (.int32 n) => .ok (n.toInt64, false)
    | some (.int64 n) => .ok (n, true)
    | some other =>
      .error (.internal ("Cannot apply $bit to a value of non-integral type. Current value: " ++ env.debug other))
  let acc := ops.foldl BitOp.apply acc
  .ok (some (if isI64 || ops.any BitOp.isI64 then .int64 acc else .int32 acc.toInt32))

def applyBit : Document → Target → Except UpdateError Target := applyEach env ctx fun path spec =>
  match spec with
  | .document opsDoc => do
    let ops ← parseBitOps env opsDoc
    .ok (applyBitOps env ops)
  | spec => .error (.internal ("$bit: argument for '" ++ path ++ "' must be a document, got " ++ env.debug spec))

/-! ## Update documents -/

inductive UpdateOperator where
  | set
  | unset
  | inc
  | mul
  | rename
  | min
  | max
  | push
  | pull
  | pullAll
  | addToSet
  | pop
  | bit
  | currentDate
  | setOnInsert
deriving DecidableEq, Repr

def UpdateOperator.ofName? (op : String) : Option UpdateOperator :=
  if op = "$set" then some .set
  else if op = "$unset" then some .unset
  else if op = "$inc" then some .inc
  else if op = "$mul" then some .mul
  else if op = "$rename" then some .rename
  else if op = "$min" then some .min
  else if op = "$max" then some .max
  else if op = "$push" then some .push
  else if op = "$pull" then some .pull
  else if op = "$pullAll" then some .pullAll
  else if op = "$addToSet" then some .addToSet
  else if op = "$pop" then some .pop
  else if op = "$bit" then some .bit
  else if op = "$currentDate" then some .currentDate
  else if op = "$setOnInsert" then some .setOnInsert
  else none

def applyOperator (nowMs : Int64) (isInsert : Bool) (op : UpdateOperator) (args : Document) (t : Target) :
    Except UpdateError Target :=
  match op with
  | .set => applySet env ctx args t
  | .unset => applyUnset env ctx args t
  | .inc => applyArithmeticUpdate env ctx "$inc" F64.add args t
  | .mul => applyArithmeticUpdate env ctx "$mul" F64.mul args t
  | .rename => applyRename env ctx args t
  | .min => applyMinMax env ctx .lt args t
  | .max => applyMinMax env ctx .gt args t
  | .push => applyPush env ctx args t
  | .pull => applyPull env ctx args t
  | .pullAll => applyPullAll env ctx args t
  | .addToSet => applyAddToSet env ctx args t
  | .pop => applyPop env ctx args t
  | .bit => applyBit env ctx args t
  | .currentDate => applyCurrentDate env ctx nowMs args t
  | .setOnInsert => if isInsert then applySet env ctx args t else .ok t

def applyUpdateWithCtx (nowMs : Int64) (isInsert : Bool) (update : Document) (t : Target) : Except UpdateError Target :=
  update.foldlM (fun t p =>
    match UpdateOperator.ofName? p.1, p.2 with
    | some op, .document args => applyOperator env ctx nowMs isInsert op args t
    | some _, args =>
      .error (.internal ("update operator '" ++ p.1 ++ "' requires a document argument, got " ++ env.debug args))
    | none, _ =>
      if startsWithDollar p.1 then .error (.unsupportedOperator p.1)
      else .error (.internal ("invalid update operator '" ++ p.1 ++ "': top-level keys must start with '$'"))) t

def applyUpdate (nowMs : Int64) (doc update filter : Document) (arrayFilters : Option (List Document))
    (isInsert : Bool) :
    Except UpdateError Document := do
  let ctx ← UpdateContext.new filter arrayFilters
  let t ← applyUpdateWithCtx env ctx nowMs isInsert update ⟨doc, []⟩
  ctx.ensureAllFiltersUsed t.used
  .ok t.doc

def isOperatorUpdate (update : Document) : Bool := update.any fun p => startsWithDollar p.1

/-! ## Upserts -/

/-- an error is ignored, what the call has changed stays -/
def setPlainPath (base : Document) (path : String) (value : Bson) : Document :=
  (modifyNested env ⟨[], []⟩ path (setOp value) base []).1

/-- the equality conditions of a filter, as a document -/
def upsertBaseFromFilter (filter : Document) : Document :=
  filter.foldl (fun base p =>
    if startsWithDollar p.1 then base
    else if (match p.2 with
        | .document sub => sub.any fun q => startsWithDollar q.1
        | _ => false) then base
    else if p.1 = "_id" then base.insert "_id" p.2
    else setPlainPath env base p.1 p.2) []

/-! ## Pipelines -/

def ALLOWED_STAGES : List String := ["$addFields", "$set", "$project", "$unset", "$replaceRoot", "$replaceWith"]

def validateUpdatePipeline (pipeline : List Document) : Except UpdateError Unit :=
  pipeline.forM fun stage =>
    match stage with
    | [] => .error (.internal "Each element of an update pipeline must be a stage document")
    | [(name, _)] =>
      if ALLOWED_STAGES.contains name then .ok ()
        else .error (.internal (name ++ " is not allowed to be used within an update"))
    | _ => .error (.internal "An update pipeline stage must contain exactly one field")

/-- `_id` becomes the first field -/
def insertIdFirst (doc : Document) (id : Bson) : Document := ("_id", id) :: doc.filter fun p => p.1 ≠ "_id"

/-- two `_id`s are equal if their keys are -/
def idsEqual (a b : Bson) : Bool := Keys.encodeKey a = Keys.encodeKey b

def applyUpdatePipeline (run : Document → List Document → Except UpdateError Document) (doc : Document)
    (pipeline : List Document) :
    Except UpdateError Document := do
  validateUpdatePipeline pipeline
  let result ← run doc pipeline
  match doc.get "_id", result.get "_id" with
  | some original, some newId =>
    if idsEqual original newId then .ok result
    else .error (.documentValidationFailure
      "the (immutable) field '_id' was found to have been altered by the update pipeline")
  | some original, none => .ok (insertIdFirst result original)
  | none, _ => .ok result

end Mqlite.Update
