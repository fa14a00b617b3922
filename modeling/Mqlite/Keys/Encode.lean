/-
The encoding of BSON values as index keys (`keys/mod.rs`): byte strings that are to be compared byte by byte.

A value is a type byte followed by what the type needs: numbers of all types 17 bytes (class, integer part, fractional
part, the parts inverted for negative numbers), strings escaped and closed by 00, documents as names and values closed
by 00, arrays as values that are each followed by 00, closed by 00. A compound key has its fields separated by 01; the
bytes of a descending field are inverted.

`encode_into` appends to a buffer; here it returns what it appends.
-/
import Mqlite.Bson
import Mqlite.Lib.PrefixCode

namespace Mqlite.Keys

open Lib Mvcc

def TYPE_MIN_KEY : Byte := 0x00
def TYPE_NULL : Byte := 0x05
def TYPE_NUMBER : Byte := 0x10
def TYPE_SYMBOL : Byte := 0x15
def TYPE_STRING : Byte := 0x20
def TYPE_OBJECT : Byte := 0x30
def TYPE_ARRAY : Byte := 0x40
def TYPE_BIN_DATA : Byte := 0x50
def TYPE_OBJECT_ID : Byte := 0x60
def TYPE_BOOLEAN : Byte := 0x70
def TYPE_DATE : Byte := 0x80
def TYPE_TIMESTAMP : Byte := 0x85
def TYPE_REGEXP : Byte := 0x90
def TYPE_MAX_KEY : Byte := 0xFF

def NUM_NAN : Byte := 0x00
def NUM_NEG : Byte := 0x40
def NUM_ZERO : Byte := 0x80
def NUM_POS : Byte := 0xC0

def COMPOUND_SEP : Byte := 0x01

/-! ## Numbers -/

/-- bitwise complement of a `u64` -/
def notU64 (n : ℕ) : ℕ := 2 ^ 64 - 1 - n

def encodeF64 (v : F64) : Bytes :=
  if v.isNan then NUM_NAN :: List.replicate 16 0x00
  else if v.isZero then NUM_ZERO :: List.replicate 16 0x00
  else if !v.isFinite then
    if v.negative then NUM_NEG :: List.replicate 16 0x00 else NUM_POS :: List.replicate 16 0xFF
  else
    -- the cast of the integer part saturates
    let intPart := min v.truncAbs (2 ^ 64 - 1)
    let fracPart := v.fractAbs
    if v.negative then NUM_NEG :: (beBytes 8 (notU64 intPart) ++ beBytes 8 (notU64 fracPart))
    else NUM_POS :: (beBytes 8 intPart ++ beBytes 8 fracPart)

def encodeI64 (v : Int64) : Bytes :=
  if v = 0 then NUM_ZERO :: List.replicate 16 0x00
  else if v < 0 then NUM_NEG :: (beBytes 8 (notU64 v.toInt.natAbs) ++ List.replicate 8 0xFF)
  else NUM_POS :: (beBytes 8 v.toInt.natAbs ++ List.replicate 8 0x00)

def encodeDecimal128 (v : Decimal128) : Bytes := encodeF64 v.parsed

/-- big-endian with the sign bit flipped -/
def encodeSignedI64Be (v : Int64) : Bytes := beBytes 8 (v.toUInt64 ^^^ 0x8000000000000000).toNat

/-! ## Strings and binaries -/

def escape (b : Byte) : Bytes := if b = 0x00 then [0x01, 0x01] else if b = 0x01 then [0x01, 0x02] else [b]

def encodeStringBytes (bytes : Bytes) : Bytes := bytes.flatMap escape ++ [0x00]

/-- the length is cut to 32 bits -/
def encodeBinary (bin : Binary) : Bytes := bin.subtype :: (beBytes 4 (bin.bytes.length % 2 ^ 32) ++ bin.bytes)

/-! ## Values -/

mutual

def encodeInto : Bson → Bytes
  | .minKey => [TYPE_MIN_KEY]
  | .null | .undefined => [TYPE_NULL]
  | .double v => TYPE_NUMBER :: encodeF64 v
  | .int32 v => TYPE_NUMBER :: encodeI64 v.toInt64
  | .int64 v => TYPE_NUMBER :: encodeI64 v
  | .decimal128 v => TYPE_NUMBER :: encodeDecimal128 v
  | .symbol s => TYPE_SYMBOL :: encodeStringBytes (asBytes s)
  | .string s => TYPE_STRING :: encodeStringBytes (asBytes s)
  | .document fields => TYPE_OBJECT :: encodeDocument fields
  | .array elems => TYPE_ARRAY :: encodeArray elems
  | .binary bin => TYPE_BIN_DATA :: encodeBinary bin
  | .objectId oid => TYPE_OBJECT_ID :: oid.bytes
  | .boolean b => [TYPE_BOOLEAN, if b then 0x01 else 0x00]
  | .dateTime millis => TYPE_DATE :: encodeSignedI64Be millis
  | .timestamp ts => TYPE_TIMESTAMP :: (beBytes 4 ts.time.toNat ++ beBytes 4 ts.increment.toNat)
  | .regularExpression re =>
    TYPE_REGEXP :: (encodeStringBytes (asBytes re.pattern) ++ encodeStringBytes (asBytes re.options))
  | .maxKey => [TYPE_MAX_KEY]
  | .javaScriptCode code => TYPE_STRING :: encodeStringBytes (asBytes code)
  | .javaScriptCodeWithScope code _ => TYPE_STRING :: encodeStringBytes (asBytes code)
  | .dbPointer debugText => TYPE_REGEXP :: encodeStringBytes (asBytes debugText)
termination_by structural v => v

def encodeDocument : List (String × Bson) → Bytes
  | [] => [0x00]
  | (name, v) :: rest => encodeStringBytes (asBytes name) ++ (encodeInto v ++ encodeDocument rest)
termination_by structural d => d

def encodeArray : List Bson → Bytes
  | [] => [0x00]
  | v :: rest => encodeInto v ++ 0x00 :: encodeArray rest
termination_by structural a => a

end

def encodeKey (value : Bson) : Bytes := encodeInto value

/-- bitwise complement of a byte -/
def notByte (b : Byte) : Byte := b.rev

/-- the bytes of one field of a compound key -/
def encodeField (value : Bson) (ascending : Bool) : Bytes :=
  if ascending then encodeInto value else (encodeInto value).map notByte

def encodeCompoundKey : List (Bson × Bool) → Bytes
  | [] => []
  | [(value, ascending)] => encodeField value ascending
  | (value, ascending) :: rest => encodeField value ascending ++ COMPOUND_SEP :: encodeCompoundKey rest

theorem encodeCompoundKey_cons (p : Bson × Bool) {l : List (Bson × Bool)} (h : l ≠ []) :
    encodeCompoundKey (p :: l) = encodeField p.1 p.2 ++ COMPOUND_SEP :: encodeCompoundKey l := by
  cases l with
  | nil => exact absurd rfl h
  | cons q l => rfl

end Mqlite.Keys
