/-
BSON values, as the `bson` crate represents them.

A document keeps its fields in order, each name once; `get` looks a name up. Equality of values (`PartialEq`, here
`same`) is not equality of representations: documents are compared without regard to the order of their fields, and
doubles as numbers, so NaN is not the same as itself and the two zeros are the same.

A double is given by its three bit fields. A decimal is only ever used through the double that its rendering parses to,
which is a library matter, so that double is part of the value here; of a DbPointer only its debug text is used.
-/
import Mqlite.Mvcc.Version

namespace Mqlite

open Mqlite.Mvcc List

/-! ## Doubles -/

/-- an IEEE 754 double: sign, biased exponent, fraction -/
structure F64 where
  negative : Bool
  exponent : Fin 2048
  fraction : Fin (2 ^ 52)
deriving DecidableEq, Repr

instance (priority := 2000) neZero_exponents : NeZero 2048 := ⟨by decide⟩
instance (priority := 2000) neZero_fractions : NeZero (2 ^ 52) := ⟨by decide⟩

namespace F64

variable (v : F64)

def isFinite : Bool := v.exponent ≠ 2047
def isNan : Bool := v.exponent = 2047 ∧ v.fraction ≠ 0
def isZero : Bool := v.exponent = 0 ∧ v.fraction = 0

/-- a finite value is ± mantissa · 2^(scale - 1075) -/
def mantissa : ℕ := if v.exponent = 0 then v.fraction else 2 ^ 52 + v.fraction
def scale : ℕ := max 1 v.exponent

/-- integer part of the absolute value of a finite double -/
def truncAbs : ℕ := if 1075 ≤ v.scale then v.mantissa * 2 ^ (v.scale - 1075) else v.mantissa / 2 ^ (1075 - v.scale)

/-- fractional part of the absolute value, in units of 2^-64, rounded down -/
def fractAbs : ℕ :=
  if 1075 ≤ v.scale then 0 else v.mantissa % 2 ^ (1075 - v.scale) * 2 ^ 64 / 2 ^ (1075 - v.scale)

/-- equality of doubles as numbers -/
def same (w : F64) : Bool := !v.isNan && (v == w || v.isZero && w.isZero)

/-- the value of a finite double without its fractional part -/
def trunc : ℤ := if v.negative then -(v.truncAbs : ℤ) else v.truncAbs

/-- a finite double without fractional part -/
def isWhole : Bool := v.isFinite && (1075 ≤ v.scale || v.mantissa % 2 ^ (1075 - v.scale) = 0)

/-- `as i64`: NaN is 0, what does not fit is cut -/
def toI64 : ℤ :=
  if v.isNan then 0
  else if !v.isFinite then if v.negative then -2 ^ 63 else 2 ^ 63 - 1
  else max (-2 ^ 63) (min (2 ^ 63 - 1) v.trunc)

/-- `as u64` -/
def toU64 : ℕ :=
  if v.isNan || v.negative then 0 else if !v.isFinite then 2 ^ 64 - 1 else min (2 ^ 64 - 1) v.truncAbs

end F64

/-! ## Values -/

structure Binary where
  subtype : Byte
  bytes : Bytes
deriving DecidableEq, Repr

structure ObjectId where
  bytes : Bytes
  length_eq : bytes.length = 12
deriving DecidableEq, Repr

structure Timestamp where
  time : UInt32
  increment : UInt32
deriving DecidableEq, Repr

structure Regex where
  pattern : String
  options : String
deriving DecidableEq, Repr

/-- sixteen bytes, and the double that the decimal's text parses to -/
structure Decimal128 where
  bytes : Bytes
  parsed : F64
deriving DecidableEq, Repr

inductive Bson where
  | double (v : F64)
  | string (s : String)
  | array (elems : List Bson)
  | document (fields : List (String × Bson))
  | boolean (b : Bool)
  | null
  | regularExpression (re : Regex)
  | javaScriptCode (code : String)
  | javaScriptCodeWithScope (code : String) (scope : List (String × Bson))
  | int32 (v : Int32)
  | int64 (v : Int64)
  | timestamp (ts : Timestamp)
  | binary (bin : Binary)
  | objectId (oid : ObjectId)
  | dateTime (millis : Int64)
  | symbol (s : String)
  | decimal128 (v : Decimal128)
  | undefined
  | maxKey
  | minKey
  | dbPointer (debugText : String)

/-- fields in order -/
abbrev Document := List (String × Bson)

namespace Document

def get (doc : Document) (name : String) : Option Bson := (doc.find? fun p => p.1 = name).map Prod.snd

def containsKey (doc : Document) (name : String) : Bool := (doc.get name).isSome

theorem mem_of_get {doc : Document} {name : String} {v : Bson} (h : doc.get name = some v) : (name, v) ∈ doc := by
  obtain ⟨p, hp, rfl⟩ := Option.map_eq_some_iff.1 h
  have hname : p.1 = name := by simpa using find?_some hp
  exact hname ▸ mem_of_find?_eq_some hp

end Document

namespace Bson

mutual

/-- `==` of values -/
def same : Bson → Bson → Bool
  | .double v, .double w => v.same w
  | .string s, .string t => s = t
  | .array a, .array b => sameElems a b
  | .document d, .document e => d.length = e.length && sameFields d e
  | .boolean b, .boolean c => b = c
  | .null, .null => true
  | .regularExpression re, .regularExpression re' => re = re'
  | .javaScriptCode c, .javaScriptCode c' => c = c'
  | .javaScriptCodeWithScope c d, .javaScriptCodeWithScope c' e => c = c' && (d.length = e.length && sameFields d e)
  | .int32 v, .int32 w => v = w
  | .int64 v, .int64 w => v = w
  | .timestamp t, .timestamp t' => t = t'
  | .binary b, .binary b' => b = b'
  | .objectId o, .objectId o' => o = o'
  | .dateTime m, .dateTime m' => m = m'
  | .symbol s, .symbol t => s = t
  | .decimal128 v, .decimal128 w => v = w
  | .undefined, .undefined => true
  | .maxKey, .maxKey => true
  | .minKey, .minKey => true
  | .dbPointer t, .dbPointer t' => t = t'
  | _, _ => false
termination_by structural v => v

def sameElems : List Bson → List Bson → Bool
  | [], [] => true
  | v :: a, w :: b => same v w && sameElems a b
  | _, _ => false
termination_by structural a => a

/-- every field of the first document is one of the second -/
def sameFields : List (String × Bson) → List (String × Bson) → Bool
  | [], _ => true
  | (name, v) :: d, e =>
    (match Document.get e name with
      | some w => same v w
      | none => false) && sameFields d e
termination_by structural d => d

end

end Bson

/-- the bytes of a string in UTF-8 -/
def asBytes (s : String) : Bytes := s.toUTF8.data.toList.map fun b => ⟨b.toNat, b.toNat_lt⟩

/-- a field name of an operator -/
def startsWithDollar (name : String) : Bool := name.toList.head? = some '$'

theorem asBytes_ne_nil {s : String} (h : s ≠ "") : asBytes s ≠ [] := by
  intro hnil
  have hdata : s.toByteArray.data = #[] := Array.toList_eq_nil_iff.1 (map_eq_nil_iff.1 hnil)
  exact h (String.toByteArray_inj.1 (ByteArray.ext hdata))

theorem asBytes_injective : Function.Injective asBytes := by
  intro s t h
  have hbyte : Function.Injective fun b : UInt8 => (⟨b.toNat, b.toNat_lt⟩ : Byte) := fun b c hbc =>
    UInt8.toNat_inj.1 (congrArg Fin.val hbc)
  have hdata : s.toByteArray.data = t.toByteArray.data := Array.toList_inj.1 (map_injective_iff.2 hbyte h)
  exact String.toByteArray_inj.1 (ByteArray.ext hdata)

end Mqlite
