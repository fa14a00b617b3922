/-
The filter evaluator (`query/filter.rs`, `query/filter/operators.rs`, `query/filter/util.rs`).

A filter is a document of conditions, all of which must hold: field paths with a value or an operator document, and
logical operators at the top level. Values are compared by their encoded keys. On an array most operators ask for some
element.

The evaluator recurses over the filter. Where the source has a function that looks at its argument and passes it on
(`eval_filter` to its loop, `eval_operator_document` to its loop, `eval_elem_match`), the part before the loop is a
definition of its own here that gets the loop as an argument, so that every recursive call is on a part of the filter.

The regular expression library and the evaluator of `$expr` are parameters (`Env`). Panics are results: `%` panics on
the least integer and -1.
-/
import Mqlite.Keys.Encode

namespace Mqlite.Query

open Mvcc Keys

inductive QueryError where
  | unsupportedOperator (operator : String)
  | badValue (message : String)
  | notWhole (op : String) (value : F64)
  | library (message : String)
  | panic
deriving DecidableEq, Repr

abbrev Result := Except QueryError Bool

/-- regular expressions by pattern and flags, and `$expr` -/
structure Env where
  regex : String → List Char → Except QueryError (String → Bool)
  expr : Document → Bson → Result

/-- for filters without regular expressions and `$expr` -/
def noLibraries : Env := ⟨fun _ _ => .error .panic, fun _ _ => .error .panic⟩

/-! ## Paths -/

/-- the segments between dots -/
def splitDots : List Char → List (List Char)
  | [] => [[]]
  | c :: rest =>
    if c = '.' then [] :: splitDots rest
    else match splitDots rest with
      | [] => [[c]]
      | seg :: segs => (c :: seg) :: segs

def segments (path : String) : List String := (splitDots path.toList).map String.ofList

def digit? (c : Char) : Option ℕ := if '0' ≤ c ∧ c ≤ '9' then some (c.toNat - '0'.toNat) else none

def parseDigits : List Char → ℕ → Option ℕ
  | [], n => some n
  | c :: rest, n => (digit? c).bind fun d => parseDigits rest (n * 10 + d)

/-- `str::parse::<usize>`: digits, after an optional plus sign, of a value below 2^64 -/
def parseUsize (s : String) : Option ℕ :=
  let digits := match s.toList with
    | '+' :: rest => rest
    | other => other
  if digits = [] then none else (parseDigits digits 0).filter (· < 2 ^ 64)

/-- in an array, what is left of the path must be an index -/
def getNested (doc : Document) : List String → Option Bson
  | [] => none
  | [last] => doc.get last
  | head :: next :: rest =>
    match doc.get head with
    | some (.document sub) => getNested sub (next :: rest)
    | some (.array arr) => if rest = [] then (parseUsize next).bind (arr[·]?) else none
    | _ => none

def getNestedField (doc : Document) (path : String) : Option Bson := getNested doc (segments path)

/-! ## Values -/

def compareBson (a b : Bson) : Ordering := cmp (encodeKey a) (encodeKey b)

def bsonEq (a b : Bson) : Bool := encodeKey a = encodeKey b

def bsonTypeName : Bson → String
  | .double _ => "double"
  | .string _ => "string"
  | .document _ => "object"
  | .array _ => "array"
  | .binary _ => "binData"
  | .undefined => "undefined"
  | .objectId _ => "objectId"
  | .boolean _ => "bool"
  | .dateTime _ => "date"
  | .null => "null"
  | .regularExpression _ => "regex"
  | .dbPointer _ => "dbPointer"
  | .javaScriptCode _ => "javascript"
  | .symbol _ => "symbol"
  | .javaScriptCodeWithScope _ _ => "javascriptWithScope"
  | .int32 _ => "int"
  | .timestamp _ => "timestamp"
  | .int64 _ => "long"
  | .decimal128 _ => "decimal"
  | .minKey => "minKey"
  | .maxKey => "maxKey"

def badValue {α : Type} (message : String) : Except QueryError α := .error (.badValue message)

def notArray {α : Type} (op : String) (val : Bson) : Except QueryError α :=
  badValue (op ++ " must be an array, got: " ++ bsonTypeName val)

def notDocument {α : Type} (ctx : String) (val : Bson) : Except QueryError α :=
  badValue (ctx ++ " must be a document, got: " ++ bsonTypeName val)

def requireArray (op : String) (val : Bson) : Except QueryError (List Bson) :=
  match val with
  | .array arr => .ok arr
  | _ => notArray op val

def bsonToI64Strict (op : String) : Bson → Except QueryError ℤ
  | .int32 n => .ok n.toInt
  | .int64 n => .ok n.toInt
  | .double f => if f.isWhole ∧ f.truncAbs ≤ 2 ^ 63 then .ok f.toI64 else .error (.notWhole op f)
  | val => badValue (op ++ " must be a number, got: " ++ bsonTypeName val)

def bsonToBool (op : String) : Bson → Result
  | .boolean b => .ok b
  | .int32 n => .ok (n ≠ 0)
  | .int64 n => .ok (n ≠ 0)
  | .double f => .ok !f.isZero
  | val => badValue (op ++ " must be a boolean, got: " ++ bsonTypeName val)

/-- an array's elements, or the value itself -/
def elements : Bson → List Bson
  | .array arr => arr
  | val => [val]

/-! ## Operators that do not recurse -/

def isNull : Bson → Bool
  | .null => true
  | _ => false

/-- the value, or one of its elements, is equal to the target -/
def matchesValue (val target : Bson) : Bool :=
  bsonEq val target || match val with
    | .array arr => arr.any fun elem => bsonEq elem target
    | _ => false

def evalEq (fieldValue : Option Bson) (target : Bson) : Bool :=
  match fieldValue with
  | none => isNull target
  | some val => matchesValue val target

def evalCmp (fieldValue : Option Bson) (comparand : Bson) (direction : Ordering) (allowEqual : Bool) : Bool :=
  match fieldValue with
  | none => false
  | some val => (elements val).any fun elem =>
      compareBson elem comparand = direction || (allowEqual && compareBson elem comparand = .eq)

def evalIn (fieldValue : Option Bson) (arg : Bson) : Result := do
  let list ← requireArray "$in" arg
  .ok (match fieldValue with
    | none => list.any isNull
    | some val => list.any fun target => matchesValue val target)

def evalExists (fieldValue : Option Bson) (arg : Bson) : Result := do
  let wanted ← bsonToBool "$exists" arg
  .ok (fieldValue.isSome = wanted)

def bsonTypeId : Bson → ℤ
  | .double _ => 1
  | .string _ => 2
  | .document _ => 3
  | .array _ => 4
  | .binary _ => 5
  | .undefined => 6
  | .objectId _ => 7
  | .boolean _ => 8
  | .dateTime _ => 9
  | .null => 10
  | .regularExpression _ => 11
  | .dbPointer _ => 12
  | .javaScriptCode _ => 13
  | .symbol _ => 14
  | .javaScriptCodeWithScope _ _ => 15
  | .int32 _ => 16
  | .timestamp _ => 17
  | .int64 _ => 18
  | .decimal128 _ => 19
  | .minKey => -1
  | .maxKey => 127

def typeNameToId : String → Except QueryError ℤ
  | "double" => .ok 1
  | "string" => .ok 2
  | "object" => .ok 3
  | "array" => .ok 4
  | "binData" => .ok 5
  | "undefined" => .ok 6
  | "objectId" => .ok 7
  | "bool" => .ok 8
  | "date" => .ok 9
  | "null" => .ok 10
  | "regex" => .ok 11
  | "dbPointer" => .ok 12
  | "javascript" => .ok 13
  | "symbol" => .ok 14
  | "javascriptWithScope" => .ok 15
  | "int" => .ok 16
  | "timestamp" => .ok 17
  | "long" => .ok 18
  | "decimal" => .ok 19
  | "minKey" => .ok (-1)
  | "maxKey" => .ok 127
  | "number" => badValue "type alias 'number' is not supported in $type; use an array of type IDs instead"
  | other => badValue ("unknown $type name: \"" ++ other ++ "\"")

def typeMatches (val typeSpec : Bson) : Result :=
  match typeSpec with
  | .string name => do
    let expected ← typeNameToId name
    .ok (bsonTypeId val = expected)
  | .int32 id => .ok (bsonTypeId val = id.toInt)
  | .int64 id => .ok (bsonTypeId val = id.toInt)
  | .double id => .ok (bsonTypeId val = id.toI64)
  | _ => badValue "$type argument must be a type string, number, or array"

/-- the first true or error ends the loop -/
def anyM {α : Type} (f : α → Result) : List α → Result
  | [] => .ok false
  | a :: rest => do if ← f a then .ok true else anyM f rest

def evalType (fieldValue : Option Bson) (arg : Bson) : Result :=
  match fieldValue with
  | none => .ok false
  | some val => anyM (typeMatches val) (elements arg)

def evalSize (fieldValue : Option Bson) (arg : Bson) : Result := do
  let n ← bsonToI64Strict "$size" arg
  if n < 0 then badValue "$size must be a non-negative integer"
  else match fieldValue with
    | some (.array arr) => .ok ((arr.length : ℤ) = n)
    | _ => .ok false

def modFieldValueToI64 : Bson → Option ℤ
  | .int32 n => some n.toInt
  | .int64 n => some n.toInt
  | .double f => if f.isFinite then some f.toI64 else none
  | _ => none

def modOperandToI64 (val : Bson) : Except QueryError ℤ :=
  match modFieldValueToI64 val with
  | some n => .ok n
  | none => badValue "malformed mod, divisor and remainder must be numbers"

/-- truncated remainder of two `i64` -/
def remI64 (v divisor : ℤ) : Except QueryError ℤ :=
  if v = -2 ^ 63 ∧ divisor = -1 then .error .panic else .ok (v.tmod divisor)

def evalMod (fieldValue : Option Bson) (arg : Bson) : Result :=
  match arg with
  | .array [a, b] => do
    let divisor ← modOperandToI64 a
    let remainder ← modOperandToI64 b
    if divisor = 0 then badValue "divisor cannot be 0"
    else match fieldValue with
      | none => .ok false
      | some val =>
        anyM (fun v => do .ok ((← remI64 v divisor) = remainder)) ((elements val).filterMap modFieldValueToI64)
  | .array arr =>
    if arr.length < 2 then badValue "malformed mod, not enough elements"
      else badValue "malformed mod, too many elements"
  | _ => badValue "malformed mod, needs to be an array"

/-! ### Bits -/

inductive BitTest where
  | allSet
  | anySet
  | allClear
  | anyClear
deriving DecidableEq, Repr

def BitTest.opName : BitTest → String
  | .allSet => "$bitsAllSet"
  | .anySet => "$bitsAnySet"
  | .allClear => "$bitsAllClear"
  | .anyClear => "$bitsAnyClear"

/-- a number that is not negative and has no fractional part -/
def nonNegative? : Bson → Option ℕ
  | .int32 n => if 0 ≤ n.toInt then some n.toInt.toNat else none
  | .int64 n => if 0 ≤ n.toInt then some n.toInt.toNat else none
  | .double f => if f.isWhole ∧ (f.negative = false ∨ f.isZero) then some f.toU64 else none
  | _ => none

def numericMaskToU64 (arg : Bson) (op : String) : Except QueryError ℕ :=
  match nonNegative? arg with
  | some n => .ok n
  | none => badValue (op ++ " numeric mask must be a non-negative integer")

def bitPositionValue (elem : Bson) (op : String) : Except QueryError ℕ :=
  match nonNegative? elem with
  | some n => .ok n
  | none => badValue (op ++ " bit positions must be non-negative integers")

def bitPositionsFromBytes (bytes : Bytes) : List ℕ :=
  (List.range (bytes.length * 8)).filter fun p => ((bytes.getD (p / 8) 0).val).testBit (p % 8)

/-- the positions to test -/
def bitMask (arg : Bson) (test : BitTest) : Except QueryError (List ℕ) :=
  match arg with
  | .int32 _ | .int64 _ | .double _ => do
    let bits ← numericMaskToU64 arg test.opName
    .ok ((List.range 64).filter fun p => bits.testBit p)
  | .array arr => arr.mapM fun elem => bitPositionValue elem test.opName
  | .binary bin => .ok (bitPositionsFromBytes bin.bytes)
  | _ => badValue (test.opName ++ " takes an integer, array, or BinData mask")

/-- two's complement, continued by the sign -/
def signedBitSet (bits : ℤ) (position : ℕ) : Bool :=
  if 64 ≤ position then bits < 0 else (bits % 2 ^ 64).toNat.testBit position

def binaryBitSet (bytes : Bytes) (position : ℕ) : Bool :=
  match bytes[position / 8]? with
  | none => false
  | some byte => byte.val.testBit (position % 8)

def bitReader : Bson → Option (ℕ → Bool)
  | .int32 n => some (signedBitSet n.toInt)
  | .int64 n => some (signedBitSet n.toInt)
  | .double f => if f.isWhole ∧ f.truncAbs ≤ 2 ^ 63 then some (signedBitSet f.toI64) else none
  | .binary bin => some (binaryBitSet bin.bytes)
  | _ => none

def maskMatches (positions : List ℕ) (test : BitTest) (val : Bson) : Bool :=
  match bitReader val with
  | none => false
  | some isSet =>
    match test with
    | .allSet => positions.all isSet
    | .anySet => positions.any isSet
    | .allClear => positions.all fun p => !isSet p
    | .anyClear => positions.any fun p => !isSet p

def evalBits (fieldValue : Option Bson) (arg : Bson) (test : BitTest) : Result := do
  let positions ← bitMask arg test
  .ok (match fieldValue with
    | none => false
    | some val => (elements val).any (maskMatches positions test))

/-! ### Regular expressions -/

def buildRegex (env : Env) (pattern options : String) : Except QueryError (String → Bool) :=
  match options.toList.find? fun flag => !"imsxlu".toList.contains flag with
  | some other => badValue ("unknown $regex option '" ++ String.ofList [other] ++ "'")
  | none => env.regex pattern (options.toList.filter fun flag => "imsx".toList.contains flag)

def evalRegex (env : Env) (fieldValue : Option Bson) (pattern options : String) : Result := do
  let re ← buildRegex env pattern options
  .ok (match fieldValue with
    | some (.string s) => re s
    | some (.array arr) => arr.any fun elem => match elem with
      | .string s => re s
      | _ => false
    | _ => false)

/-! ## What comes before the loops -/

def hasOps (ops : Document) : Bool := ops.any fun p => startsWithDollar p.1

/-- `eval_filter` refuses a collation -/
def guardCollation (filter : Document) (loop : Result) : Result :=
  if filter.containsKey "collation" then badValue "Collation is not supported by mqlite" else loop

def regexPattern : Bson → Except QueryError String
  | .string s => .ok s
  | .regularExpression re => .ok re.pattern
  | _ => badValue "$regex must be a string or RegularExpression"

def regexOptions : Option Bson → Except QueryError String
  | some (.string s) => .ok s
  | some _ => badValue "$options must be a string"
  | none => .ok ""

/-- `eval_operator_document`: `$regex` with `$options` first; the loop skips them then -/
def operatorDocument (env : Env) (fieldValue : Option Bson) (ops : Document) (loop : Bool → Result) : Result :=
  match ops.get "$regex" with
  | some patternBson => do
    let pattern ← regexPattern patternBson
    let options ← regexOptions (ops.get "$options")
    if ← evalRegex env fieldValue pattern options then loop true else .ok false
  | none =>
    if ops.containsKey "$options" then badValue "$options is only valid when used with $regex" else loop false

/-- `eval_elem_match`: the elements one by one, under operators or under a filter of its own -/
def elemMatch (fieldValue : Option Bson) (cond : Document) (operators : Bson → Result) (filter : Document → Result) :
    Result :=
  match fieldValue with
  | some (.array arr) => anyM (fun elem =>
      if hasOps cond then operators elem
      else match elem with
        | .document sub => filter sub
        | _ => .ok false) arr
  | _ => .ok false

/-! ## The evaluator -/

variable (env : Env)

mutual

/-- the loop of `eval_filter` -/
def evalFields : List (String × Bson) → Document → Result
  | [], _ => .ok true
  | (key, condition) :: rest, doc => do
    if ← evalTopLevel condition key doc then evalFields rest doc else .ok false
termination_by structural filter => filter

/-- `eval_top_level`, with `eval_field_condition` for field paths -/
def evalTopLevel (condition : Bson) (key : String) (doc : Document) : Result :=
  if key = "$and" then
    match condition with
    | .array arr => evalLogicalAnd arr doc
    | other => notArray "$and" other
  else if key = "$or" then
    match condition with
    | .array arr => if arr.isEmpty then badValue "$or must have at least one element" else evalLogicalOr arr doc
    | other => notArray "$or" other
  else if key = "$nor" then
    match condition with
    | .array arr => if arr.isEmpty then badValue "$nor must have at least one element" else evalLogicalNor arr doc
    | other => notArray "$nor" other
  else if key = "$comment" then .ok true
  else if key = "$not" then badValue "$not cannot be used at the top level; use $nor instead"
  else if key = "$expr" then env.expr doc condition
  else if startsWithDollar key then .error (.unsupportedOperator key)
  else
    match condition with
    | .document ops =>
      if hasOps ops then
        operatorDocument env (getNestedField doc key) ops fun skip => evalOps ops skip (getNestedField doc key)
      else .ok (evalEq (getNestedField doc key) (.document ops))
    | .regularExpression re => evalRegex env (getNestedField doc key) re.pattern re.options
    | other => .ok (evalEq (getNestedField doc key) other)
termination_by structural condition

def evalLogicalAnd : List Bson → Document → Result
  | [], _ => .ok true
  | item :: rest, doc =>
    match item with
    | .document sub => do
      if ← guardCollation sub (evalFields sub doc) then evalLogicalAnd rest doc else .ok false
    | other => notDocument "$and array element" other
termination_by structural items => items

def evalLogicalOr : List Bson → Document → Result
  | [], _ => .ok false
  | item :: rest, doc =>
    match item with
    | .document sub => do
      if ← guardCollation sub (evalFields sub doc) then .ok true else evalLogicalOr rest doc
    | other => notDocument "$or array element" other
termination_by structural items => items

def evalLogicalNor : List Bson → Document → Result
  | [], _ => .ok true
  | item :: rest, doc =>
    match item with
    | .document sub => do
      if ← guardCollation sub (evalFields sub doc) then .ok false else evalLogicalNor rest doc
    | other => notDocument "$nor array element" other
termination_by structural items => items

/-- the loop of `eval_operator_document` -/
def evalOps : List (String × Bson) → Bool → Option Bson → Result
  | [], _, _ => .ok true
  | (op, arg) :: rest, skipRegexOptions, fieldValue =>
    if skipRegexOptions && (op = "$regex" || op = "$options") then evalOps rest skipRegexOptions fieldValue
    else do
      if ← evalSingleOp arg op fieldValue then evalOps rest skipRegexOptions fieldValue else .ok false
termination_by structural ops => ops

def evalSingleOp (arg : Bson) (op : String) (fieldValue : Option Bson) : Result :=
  if op = "$eq" then .ok (evalEq fieldValue arg)
  else if op = "$ne" then .ok !(evalEq fieldValue arg)
  else if op = "$gt" then .ok (evalCmp fieldValue arg .gt false)
  else if op = "$gte" then .ok (evalCmp fieldValue arg .gt true)
  else if op = "$lt" then .ok (evalCmp fieldValue arg .lt false)
  else if op = "$lte" then .ok (evalCmp fieldValue arg .lt true)
  else if op = "$in" then evalIn fieldValue arg
  else if op = "$nin" then do .ok !(← evalIn fieldValue arg)
  else if op = "$not" then
    match arg with
    | .document ops =>
      if ops.isEmpty then badValue "$not cannot have an empty sub-expression"
      else do .ok !(← operatorDocument env fieldValue ops fun skip => evalOps ops skip fieldValue)
    | other => notDocument "$not" other
  else if op = "$exists" then evalExists fieldValue arg
  else if op = "$type" then evalType fieldValue arg
  else if op = "$elemMatch" then
    match arg with
    | .document cond => elemMatch fieldValue cond
        (fun elem => operatorDocument env (some elem) cond fun skip => evalOps cond skip (some elem))
        (fun sub => guardCollation cond (evalFields cond sub))
    | other => notDocument "$elemMatch" other
  else if op = "$all" then
    match arg with
    | .array required =>
      if required.isEmpty then .ok false
      else match fieldValue with
        | none => .ok false
        | some (.array arr) => evalAll required arr
        | some scalar => .ok (required.all fun reqVal => bsonEq scalar reqVal)
    | other => notArray "$all" other
  else if op = "$size" then evalSize fieldValue arg
  else if op = "$mod" then evalMod fieldValue arg
  else if op = "$bitsAllSet" then evalBits fieldValue arg .allSet
  else if op = "$bitsAnySet" then evalBits fieldValue arg .anySet
  else if op = "$bitsAllClear" then evalBits fieldValue arg .allClear
  else if op = "$bitsAnyClear" then evalBits fieldValue arg .anyClear
  else .error (.unsupportedOperator op)
termination_by structural arg

/-- the loop of `eval_all` over an array field -/
def evalAll : List Bson → List Bson → Result
  | [], _ => .ok true
  | reqVal :: rest, arr => do
    let found ← match reqVal with
      | .document cond => (evalAllElemMatch cond arr).getD (.ok (arr.any fun elem => bsonEq elem (.document cond)))
      | other => .ok (arr.any fun elem => bsonEq elem other)
    if found then evalAll rest arr else .ok false
termination_by structural required => required

/-- an element of the form {$elemMatch: ..} in the list of `$all` -/
def evalAllElemMatch : List (String × Bson) → List Bson → Option Result
  | [], _ => none
  | (name, arg) :: rest, arr =>
    if name = "$elemMatch" then
      some (match arg with
        | .document cond => elemMatch (some (.array arr)) cond
            (fun elem => operatorDocument env (some elem) cond fun skip => evalOps cond skip (some elem))
            (fun sub => guardCollation cond (evalFields cond sub))
        | other => notDocument "$elemMatch" other)
    else evalAllElemMatch rest arr
termination_by structural cond => cond

end

def evalFilter (doc filter : Document) : Result := guardCollation filter (evalFields env filter doc)

variable {env}

/-- `eval_field_condition` -/
theorem evalTopLevel_field {condition : Bson} {key : String} {doc : Document} (h : startsWithDollar key = false) :
    evalTopLevel env condition key doc =
      match condition with
      | .document ops =>
        if hasOps ops then
          operatorDocument env (getNestedField doc key) ops fun skip => evalOps env ops skip (getNestedField doc key)
        else .ok (evalEq (getNestedField doc key) (.document ops))
      | .regularExpression re => evalRegex env (getNestedField doc key) re.pattern re.options
      | other => .ok (evalEq (getNestedField doc key) other) := by
  have hne : ∀ op : String, startsWithDollar op = true → key ≠ op := by
    rintro op hop rfl
    rw [h] at hop; cases hop
  rewrite [evalTopLevel.eq_def, if_neg (hne "$and" rfl), if_neg (hne "$or" rfl), if_neg (hne "$nor" rfl),
    if_neg (hne "$comment" rfl), if_neg (hne "$not" rfl), if_neg (hne "$expr" rfl), if_neg (by simp [h])]
  cases condition <;> rfl

theorem evalSingleOp_eq {arg : Bson} {fieldValue : Option Bson} :
    evalSingleOp env arg "$eq" fieldValue = .ok (evalEq fieldValue arg) := by
  rw [evalSingleOp.eq_def]; rfl

/-- the end of a loop that stops at the first false -/
theorem ifTrue_self (x : Result) : (do if ← x then .ok true else .ok false) = x := by
  rcases x with e | b
  · rfl
  · cases b <;> rfl

theorem evalFields_singleton (key : String) (condition : Bson) (doc : Document) :
    evalFields env [(key, condition)] doc = evalTopLevel env condition key doc := by
  simp only [evalFields]
  exact ifTrue_self _

/-- a field with one operator -/
theorem evalTopLevel_operator {key op : String} {arg : Bson} {doc : Document} (h : startsWithDollar key = false)
    (hop : startsWithDollar op = true) (hregex : op ≠ "$regex") (hoptions : op ≠ "$options") :
    evalTopLevel env (.document [(op, arg)]) key doc = evalSingleOp env arg op (getNestedField doc key) := by
  have hhas : hasOps [(op, arg)] = true := by simp [hasOps, hop]
  rw [evalTopLevel_field h]
  simp only [hhas, if_true, operatorDocument, Document.containsKey, Document.get, List.find?, hregex,
    hoptions, decide_false]
  exact ifTrue_self _

end Mqlite.Query
