/-
The byte order of encoded keys is the order of the values.

`compareValues` is the order that is meant: by type rank; numbers numerically, strings and object ids by their bytes,
binaries by subtype, length and bytes, arrays and documents lexicographically over elements or (name, value) pairs. A
number that is not an integer is compared by what its encoding keeps of it.

Two things break the encoding. The array terminator 00 is also the whole encoding of MinKey, so [] is a prefix of
[MinKey]; and the document terminator 00 is also the encoding of the empty field name, so the empty document is a prefix
of one with a field of that name. Two values are `clear` if their first difference is not of this kind (and no binary
has a length that does not fit 32 bits, and there is no DbPointer, which shares its type byte with regular expressions
but has one string instead of two). A value is `regular` if it has no MinKey in an array and no empty field name at all.

- `coded_value`: on values that are clear the encoding codes the order, in the sense of `Lib.Coded`;
- `encode_key_order`: so byte order is value order, and no key is a proper prefix of the other;
- `compound_key_order`: the same for compound keys, reversed on descending fields.
-/
import Mqlite.Keys.Encode

namespace Mqlite.Keys

open Lib Mvcc List Nat Bool Coded

/-! ## The order of values -/

/-- MinKey, null, numbers, symbols, strings, documents, arrays, binaries, object ids, booleans, dates, timestamps,
regular expressions, MaxKey -/
def typeRank : Bson → ℕ
  | .minKey => 0
  | .null | .undefined => 1
  | .double _ | .int32 _ | .int64 _ | .decimal128 _ => 2
  | .symbol _ => 3
  | .string _ | .javaScriptCode _ | .javaScriptCodeWithScope _ _ => 4
  | .document _ => 5
  | .array _ => 6
  | .binary _ => 7
  | .objectId _ => 8
  | .boolean _ => 9
  | .dateTime _ => 10
  | .timestamp _ => 11
  | .regularExpression _ | .dbPointer _ => 12
  | .maxKey => 13

def isNumber : Bson → Bool
  | .double _ | .int32 _ | .int64 _ | .decimal128 _ => true
  | _ => false

/-- the value of an integer -/
def intValue? : Bson → Option ℤ
  | .int32 v => some v.toInt
  | .int64 v => some v.toInt
  | _ => none

/-- what is kept of a number -/
def numberBytes : Bson → Bytes
  | .double v => encodeF64 v
  | .int32 v => encodeI64 v.toInt64
  | .int64 v => encodeI64 v
  | .decimal128 v => encodeDecimal128 v
  | _ => []

def compareNumbers (v w : Bson) : Ordering :=
  match intValue? v, intValue? w with
  | some n, some m => cmp n m
  | _, _ => cmp (numberBytes v) (numberBytes w)

def text : Bson → String
  | .symbol s | .string s | .javaScriptCode s | .javaScriptCodeWithScope s _ => s
  | _ => ""

/-- values of equal rank, documents and arrays apart -/
def compareScalars (v w : Bson) : Ordering :=
  match v, w with
  | .binary b, .binary c =>
    (cmp b.subtype c.subtype).then ((cmp b.bytes.length c.bytes.length).then (cmp b.bytes c.bytes))
  | .objectId o, .objectId p => cmp o.bytes p.bytes
  | .boolean b, .boolean c => cmp b c
  | .dateTime m, .dateTime k => cmp m.toInt k.toInt
  | .timestamp t, .timestamp u => (cmp t.time.toNat u.time.toNat).then (cmp t.increment.toNat u.increment.toNat)
  | .regularExpression r, .regularExpression s =>
    (cmp (asBytes r.pattern) (asBytes s.pattern)).then (cmp (asBytes r.options) (asBytes s.options))
  | v, w => if isNumber v then compareNumbers v w else cmp (asBytes (text v)) (asBytes (text w))

mutual

def compareValues (v w : Bson) : Ordering :=
  (cmp (typeRank v) (typeRank w)).then <|
    match v, w with
    | .document d, .document e => compareFields d e
    | .array a, .array b => compareElems a b
    | v, w => compareScalars v w
termination_by structural v

/-- lexicographically, a document that is an initial part of another comes first -/
def compareFields : List (String × Bson) → List (String × Bson) → Ordering
  | [], [] => .eq
  | [], _ :: _ => .lt
  | _ :: _, [] => .gt
  | (k, v) :: d, (l, w) :: e => (cmp (asBytes k) (asBytes l)).then ((compareValues v w).then (compareFields d e))
termination_by structural d => d

def compareElems : List Bson → List Bson → Ordering
  | [], [] => .eq
  | [], _ :: _ => .lt
  | _ :: _, [] => .gt
  | v :: a, w :: b => (compareValues v w).then (compareElems a b)
termination_by structural a => a

end

/-! ## Pairs whose encodings can be told apart -/

def Bson.isMinKey : Bson → Bool
  | .minKey => true
  | _ => false

mutual

/-- at the first difference none of the two values ends where the other has MinKey in an array, or an empty field name
in a document; and there is neither a binary of 2^32 bytes or more nor a DbPointer -/
def clear (v w : Bson) : Bool :=
  typeRank v ≠ typeRank w ||
    match v, w with
    | .document d, .document e => clearFields d e
    | .array a, .array b => clearElems a b
    | .binary b, .binary c => b.subtype ≠ c.subtype || (b.bytes.length < 2 ^ 32 && c.bytes.length < 2 ^ 32)
    | .dbPointer _, _ => false
    | _, .dbPointer _ => false
    | _, _ => true
termination_by structural v

def clearFields : List (String × Bson) → List (String × Bson) → Bool
  | [], [] => true
  | [], (l, _) :: _ => l ≠ ""
  | (k, _) :: _, [] => k ≠ ""
  | (k, v) :: d, (l, w) :: e => k ≠ l || (clear v w && (compareValues v w ≠ .eq || clearFields d e))
termination_by structural d => d

def clearElems : List Bson → List Bson → Bool
  | [], [] => true
  | [], w :: _ => !Bson.isMinKey w
  | v :: _, [] => !Bson.isMinKey v
  | v :: a, w :: b => clear v w && (compareValues v w ≠ .eq || clearElems a b)
termination_by structural a => a

end

/-! ### Regular values -/

mutual

/-- no MinKey in an array, no empty field name, no binary of 2^32 bytes or more, no DbPointer -/
def regular : Bson → Bool
  | .document d => regularFields d
  | .array a => regularElems a
  | .binary b => b.bytes.length < 2 ^ 32
  | .dbPointer _ => false
  | _ => true
termination_by structural v => v

def regularFields : List (String × Bson) → Bool
  | [] => true
  | (name, v) :: d => name ≠ "" && (regular v && regularFields d)
termination_by structural d => d

def regularElems : List Bson → Bool
  | [] => true
  | v :: a => !Bson.isMinKey v && (regular v && regularElems a)
termination_by structural a => a

end

/-! ## Numbers -/

theorem xor_two_pow {r i : ℕ} (h : r < 2 ^ i) : r ^^^ 2 ^ i = r + 2 ^ i := by
  have hor : 2 ^ i + r = 2 ^ i ||| r := by simpa only [mul_one] using two_pow_add_eq_or_of_lt h 1
  rw [add_comm, hor]
  refine eq_of_testBit_eq fun j => ?_
  by_cases hj : i = j
  · subst hj
    simp [testBit_lt_two_pow h]
  · simp [hj]

/-- flipping the sign bit adds 2^63 -/
theorem flip_sign (v : Int64) : ((v.toUInt64 ^^^ 0x8000000000000000).toNat : ℤ) = v.toInt + 2 ^ 63 := by
  have hxor : (v.toUInt64 ^^^ 0x8000000000000000).toNat = v.toBitVec.toNat ^^^ 2 ^ 63 := rfl
  have hint : v.toInt = v.toBitVec.toInt := rfl
  rw [hxor, hint, BitVec.toInt_eq_toNat_cond]
  by_cases h : v.toBitVec.toNat < 2 ^ 63
  · rw [xor_two_pow h, if_pos (by omega)]
    rfl
  · obtain ⟨r, hr⟩ := Nat.exists_eq_add_of_le' (not_lt.1 h)
    have hr' : r < 2 ^ 63 := by omega
    rw [hr, ← xor_two_pow hr', Nat.xor_assoc, Nat.xor_self, Nat.xor_zero, xor_two_pow hr']
    omega

theorem signedI64_below {v w : Int64} (h : v.toInt < w.toInt) : Below (encodeSignedI64Be v) (encodeSignedI64Be w) := by
  have hv := flip_sign v
  have hw := flip_sign w
  have hlt := w.toInt_lt
  exact beBytes_below (w := 8) (by omega) (by omega)

theorem eq_of_not_lt {v w : Int64} (h : ¬ v.toInt < w.toInt) (h' : ¬ w.toInt < v.toInt) : v = w :=
  Int64.toInt_inj.1 (le_antisymm (not_lt.1 h') (not_lt.1 h))

/-- the three forms of an integer -/
theorem encodeI64_eq (v : Int64) : encodeI64 v =
    if v.toInt = 0 then NUM_ZERO :: List.replicate 16 0x00
    else if v.toInt < 0 then NUM_NEG :: (beBytes 8 (notU64 v.toInt.natAbs) ++ List.replicate 8 0xFF)
    else NUM_POS :: (beBytes 8 v.toInt.natAbs ++ List.replicate 8 0x00) := by
  have hzero : v = 0 ↔ v.toInt = 0 := by rw [← Int64.toInt_inj]; rfl
  have hneg : v < 0 ↔ v.toInt < 0 := by rw [Int64.lt_iff_toInt_lt]; rfl
  simp only [encodeI64, hzero, hneg]

theorem i64_below {v w : Int64} (h : v.toInt < w.toInt) : Below (encodeI64 v) (encodeI64 w) := by
  have hv := v.le_toInt
  have hw := w.toInt_lt
  rw [encodeI64_eq, encodeI64_eq]
  split_ifs with hv0 hw0 hwn hvn hw0 hwn hw0 hwn
  · omega
  · omega
  · exact .head (by decide)
  · exact .head (by decide)
  · -- both negative: the smaller one has the greater absolute value
    refine .tail (Below.append (beBytes_below ?_ ?_) _ _) <;> unfold notU64 <;> omega
  · exact .head (by decide)
  · omega
  · omega
  · refine .tail (Below.append (beBytes_below ?_ ?_) _ _) <;> omega

theorem coded_i64 (v w : Int64) : Coded (cmp v.toInt w.toInt) (encodeI64 v) (encodeI64 w) :=
  of_cmp i64_below (fun h h' => congrArg _ (eq_of_not_lt h h')) i64_below

theorem length_encodeI64 (v : Int64) : (encodeI64 v).length = 17 := by
  unfold encodeI64
  split_ifs <;> simp

theorem length_encodeF64 (v : F64) : (encodeF64 v).length = 17 := by
  unfold encodeF64
  split_ifs <;> simp

variable {v w : Bson}

theorem length_numberBytes (h : isNumber v = true) : (numberBytes v).length = 17 := by
  cases v with
  | double v => exact length_encodeF64 v
  | int32 v => exact length_encodeI64 _
  | int64 v => exact length_encodeI64 v
  | decimal128 v => exact length_encodeF64 _
  | _ => cases h

/-- **Numbers.** Integers are coded numerically; other numbers have encodings of one length. -/
theorem coded_numbers (hv : isNumber v = true) (hw : isNumber w = true) :
    Coded (compareNumbers v w) (numberBytes v) (numberBytes w) := by
  have hlen := of_length ((length_numberBytes hv).trans (length_numberBytes hw).symm)
  cases v with
  | int32 n =>
    have hn := n.toInt_toInt64
    cases w with
    | int32 m =>
      have h := coded_i64 n.toInt64 m.toInt64
      rwa [hn, m.toInt_toInt64] at h
    | int64 m =>
      have h := coded_i64 n.toInt64 m
      rwa [hn] at h
    | _ => exact hlen
  | int64 n =>
    cases w with
    | int32 m =>
      have h := coded_i64 n m.toInt64
      rwa [m.toInt_toInt64] at h
    | int64 m => exact coded_i64 n m
    | _ => exact hlen
  | _ => exact hlen

/-! ## Strings and binaries -/

theorem escape_below {b c : Byte} (h : b < c) : Below (escape b) (escape c) := by
  unfold escape
  split_ifs with hb hc hc1 hb1 hc hc1 hc hc1
  · subst hb hc; exact absurd h (lt_irrefl _)
  · exact .tail (.head (by decide))
  · refine .head (Fin.lt_def.2 ?_)
    have := Fin.val_ne_of_ne hc
    have := Fin.val_ne_of_ne hc1
    omega
  · subst hb1 hc; exact absurd h (by decide)
  · subst hb1 hc1; exact absurd h (lt_irrefl _)
  · subst hb1
    exact .head h
  · subst hc; exact absurd h (not_lt_zero _)
  · subst hc1
    refine absurd h ?_
    simp [Fin.lt_def] at *
    omega
  · exact .head h

/-- no escape sequence starts with the terminator -/
theorem escape_pos (b : Byte) : ∃ x u, escape b = x :: u ∧ (0 : Byte) < x := by
  unfold escape
  split_ifs with h0
  · exact ⟨1, [1], rfl, by decide⟩
  · exact ⟨1, [2], rfl, by decide⟩
  · exact ⟨b, [], rfl, Nat.pos_of_ne_zero fun h => h0 (Fin.ext h)⟩

theorem encodeStringBytes_cons (b : Byte) (s : Bytes) :
    encodeStringBytes (b :: s) = escape b ++ encodeStringBytes s := by
  simp [encodeStringBytes]

/-- the terminator is below what a non-empty string starts with -/
theorem string_pos {s : Bytes} (h : s ≠ []) : ∃ x u, encodeStringBytes s = x :: u ∧ (0 : Byte) < x := by
  cases s with
  | nil => exact absurd rfl h
  | cons b s =>
    obtain ⟨x, u, hx, hpos⟩ := escape_pos b
    exact ⟨x, u ++ encodeStringBytes s, by rw [encodeStringBytes_cons, hx]; rfl, hpos⟩

theorem nul_below_string {s : Bytes} (h : s ≠ []) (u v : Bytes) : Below (0x00 :: u) (encodeStringBytes s ++ v) := by
  obtain ⟨x, u', hx, hpos⟩ := string_pos h
  rw [hx]
  exact .head hpos

/-- **Strings** are coded by their bytes. -/
theorem coded_string (s t : Bytes) : Coded (cmp s t) (encodeStringBytes s) (encodeStringBytes t) := by
  induction s generalizing t with
  | nil =>
    cases t with
    | nil => exact refl _
    | cons c t =>
      have := nul_below_string (cons_ne_nil c t) [] []
      rwa [append_nil] at this
  | cons b s ih =>
    cases t with
    | nil =>
      have := nul_below_string (cons_ne_nil b s) [] []
      rwa [append_nil] at this
    | cons c t =>
      have hletter : Coded (cmp b c) (escape b) (escape c) :=
        of_cmp escape_below (fun h h' => congrArg _ (le_antisymm (not_lt.1 h') (not_lt.1 h))) escape_below
      rw [encodeStringBytes_cons, encodeStringBytes_cons, cmp_cons]
      exact hletter.append (ih t)

/-! ## Values -/

/-- the type byte of a rank -/
def tagOf : ℕ → Byte
  | 0 => TYPE_MIN_KEY
  | 1 => TYPE_NULL
  | 2 => TYPE_NUMBER
  | 3 => TYPE_SYMBOL
  | 4 => TYPE_STRING
  | 5 => TYPE_OBJECT
  | 6 => TYPE_ARRAY
  | 7 => TYPE_BIN_DATA
  | 8 => TYPE_OBJECT_ID
  | 9 => TYPE_BOOLEAN
  | 10 => TYPE_DATE
  | 11 => TYPE_TIMESTAMP
  | 12 => TYPE_REGEXP
  | _ => TYPE_MAX_KEY

theorem tagOf_lt {r r' : ℕ} (hr' : r' ≤ 13) (h : r < r') : tagOf r < tagOf r' := by
  have hall : ∀ i : Fin 14, ∀ j : Fin 14, i < j → tagOf i < tagOf j := by decide
  exact hall ⟨r, by omega⟩ ⟨r', by omega⟩ h

theorem typeRank_le (v : Bson) : typeRank v ≤ 13 := by
  cases v <;> simp [typeRank]

/-- only MinKey starts with 00 -/
theorem tag_pos (h : Bson.isMinKey v = false) : 0 < tagOf (typeRank v) := by
  have hrank : 0 < typeRank v := by
    cases v <;> first | exact succ_pos _ | cases h
  exact tagOf_lt (typeRank_le v) hrank

/-- what follows the type byte -/
def payload (v : Bson) : Bytes := (encodeInto v).tail

theorem encodeInto_eq (v : Bson) : encodeInto v = tagOf (typeRank v) :: payload v := by
  cases v <;> rfl

/-- types first -/
theorem coded_ranked {c : Ordering} (h : typeRank v = typeRank w → Coded c (payload v) (payload w)) :
    Coded ((cmp (typeRank v) (typeRank w)).then c) (encodeInto v) (encodeInto w) := by
  rw [encodeInto_eq v, encodeInto_eq w]
  have htag : Coded (cmp (typeRank v) (typeRank w)) [tagOf (typeRank v)] [tagOf (typeRank w)] :=
    of_cmp (fun h => .head (tagOf_lt (typeRank_le w) h))
      (fun h h' => by rw [le_antisymm (not_lt.1 h') (not_lt.1 h)]) fun h => .head (tagOf_lt (typeRank_le v) h)
  exact htag.append_of_eq fun heq => h ((cmp_eq_eq_iff _ _).1 heq)

theorem isNumber_iff : isNumber v = true ↔ typeRank v = 2 := by
  cases v <;> simp [isNumber, typeRank]

theorem payload_number (h : isNumber v = true) : payload v = numberBytes v := by
  cases v <;> first | rfl | cases h

theorem compareScalars_number (h : isNumber v = true) : compareScalars v w = compareNumbers v w := by
  cases v <;> first | rfl | cases h

/-- values of equal rank, documents and arrays apart -/
theorem coded_scalars (h : clear v w = true) (hrank : typeRank v = typeRank w) (hdoc : typeRank v ≠ 5)
    (harr : typeRank v ≠ 6) : Coded (compareScalars v w) (payload v) (payload w) := by
  rw [clear.eq_def, or_eq_true, decide_eq_true_eq] at h
  replace h := h.resolve_left (not_ne_iff.2 hrank)
  by_cases hnum : isNumber v = true
  · have hnum' : isNumber w = true := isNumber_iff.2 (hrank ▸ isNumber_iff.1 hnum)
    rw [compareScalars_number hnum, payload_number hnum, payload_number hnum']
    exact coded_numbers hnum hnum'
  cases v with
  | document d => exact absurd rfl hdoc
  | array a => exact absurd rfl harr
  | dbPointer t => cases w <;> cases h
  | double n | int32 n | int64 n | decimal128 n => exact absurd rfl hnum
  | symbol s =>
    cases w with
    | symbol t => exact coded_string _ _
    | _ => simp [typeRank] at hrank
  | string s | javaScriptCode s | javaScriptCodeWithScope s scope =>
    cases w with
    | string t | javaScriptCode t | javaScriptCodeWithScope t scope' => exact coded_string _ _
    | _ => simp [typeRank] at hrank
  | binary b =>
    cases w with
    | binary c =>
      refine (letter b.subtype c.subtype).append_of_eq fun hsub => ?_
      obtain ⟨hb, hc⟩ : b.bytes.length < 2 ^ 32 ∧ c.bytes.length < 2 ^ 32 := by
        simpa [(cmp_eq_eq_iff _ _).1 hsub] using h
      rw [mod_eq_of_lt hb, mod_eq_of_lt hc]
      refine append_of_eq (coded_beBytes (w := 4) (by omega) (by omega)) fun heq => ?_
      exact of_length ((cmp_eq_eq_iff _ _).1 heq)
    | _ => simp [typeRank] at hrank
  | objectId o =>
    cases w with
    | objectId p => exact of_length (o.length_eq.trans p.length_eq.symm)
    | _ => simp [typeRank] at hrank
  | boolean b =>
    cases w with
    | boolean c => cases b <;> cases c <;> first | exact refl _ | exact .head (by decide)
    | _ => simp [typeRank] at hrank
  | dateTime m =>
    cases w with
    | dateTime k =>
      exact of_cmp signedI64_below (fun h h' => congrArg encodeSignedI64Be (eq_of_not_lt h h')) signedI64_below
    | _ => simp [typeRank] at hrank
  | timestamp t =>
    cases w with
    | timestamp u =>
      exact (coded_beBytes (w := 4) t.time.toNat_lt u.time.toNat_lt).append
        (coded_beBytes (w := 4) t.increment.toNat_lt u.increment.toNat_lt)
    | _ => simp [typeRank] at hrank
  | regularExpression r =>
    cases w with
    | regularExpression s => exact (coded_string _ _).append (coded_string _ _)
    | dbPointer t => cases h
    | _ => simp [typeRank] at hrank
  | null | undefined =>
    cases w with
    | null | undefined => exact refl _
    | _ => simp [typeRank] at hrank
  | minKey =>
    cases w with
    | minKey => exact refl _
    | _ => simp [typeRank] at hrank
  | maxKey =>
    cases w with
    | maxKey => exact refl _
    | _ => simp [typeRank] at hrank

/-- the terminator is below everything a field starts with -/
theorem nul_below_field {name : String} (h : name ≠ "") (v : Bson) (d : List (String × Bson)) :
    Below [0x00] (encodeDocument ((name, v) :: d)) := nul_below_string (asBytes_ne_nil h) [] _

/-- the terminator is below everything an element starts with -/
theorem nul_below_elem (h : Bson.isMinKey v = false) (a : List Bson) : Below [0x00] (encodeArray (v :: a)) := by
  rw [encodeArray, encodeInto_eq v]
  exact .head (tag_pos h)

theorem compareValues_eq (v w : Bson) : compareValues v w = (cmp (typeRank v) (typeRank w)).then (match v, w with
    | .document d, .document e => compareFields d e
    | .array a, .array b => compareElems a b
    | v, w => compareScalars v w) := by
  cases v <;> cases w <;> rfl

mutual

/-- **Values that are clear are coded by their encodings.** -/
theorem coded_value (v w : Bson) (h : clear v w = true) : Coded (compareValues v w) (encodeInto v) (encodeInto w) := by
  rw [compareValues_eq]
  refine coded_ranked fun hrank => ?_
  match v with
  | .document d =>
    cases w with
    | document e => exact coded_fields d e (by simpa [clear, typeRank] using h)
    | _ => simp [typeRank] at hrank
  | .array a =>
    cases w with
    | array b => exact coded_elems a b (by simpa [clear, typeRank] using h)
    | _ => simp [typeRank] at hrank
  | .double _ | .int32 _ | .int64 _ | .decimal128 _ | .symbol _ | .string _ | .javaScriptCode _
  | .javaScriptCodeWithScope _ _
  | .binary _ | .objectId _ | .boolean _ | .dateTime _ | .timestamp _ | .regularExpression _ | .dbPointer _ | .null
  | .undefined | .minKey | .maxKey => exact coded_scalars h hrank (by simp [typeRank]) (by simp [typeRank])
termination_by structural v

theorem coded_fields (d e : List (String × Bson)) (h : clearFields d e = true) :
    Coded (compareFields d e) (encodeDocument d) (encodeDocument e) := by
  match d, e with
  | [], [] => exact refl _
  | [], (l, w) :: e => exact nul_below_field (of_decide_eq_true h) w e
  | (k, v) :: d, [] => exact nul_below_field (of_decide_eq_true h) v d
  | (k, v) :: d, (l, w) :: e =>
    refine (coded_string _ _).append_of_eq fun hname => ?_
    have hkl : k = l := asBytes_injective (eq_of_cmp_eq hname)
    simp only [clearFields, hkl, ne_eq, not_true_eq_false, decide_false, Bool.false_or, Bool.and_eq_true] at h
    refine (coded_value v w h.1).append_of_eq fun heq => ?_
    exact coded_fields d e (by simpa [heq] using h.2)
termination_by structural d

theorem coded_elems (a b : List Bson) (h : clearElems a b = true) :
    Coded (compareElems a b) (encodeArray a) (encodeArray b) := by
  match a, b with
  | [], [] => exact refl _
  | [], w :: b => exact nul_below_elem (by simpa [clearElems] using h) b
  | v :: a, [] => exact nul_below_elem (by simpa [clearElems] using h) a
  | v :: a, w :: b =>
    simp only [clearElems, and_eq_true] at h
    refine (coded_value v w h.1).append_of_eq fun heq => ?_
    exact (coded_elems a b (by simpa [heq] using h.2)).cons 0x00
termination_by structural a

end

/-! ## Keys -/

/-- **Key order.** For values that are clear the byte order of keys is the order of values, and no key is a proper
prefix of the other. -/
theorem encode_key_order (a b : Bson) (h : clear a b = true) :
    cmp (encodeKey a) (encodeKey b) = compareValues a b ∧ (encodeKey a <+: encodeKey b → encodeKey a = encodeKey b) :=
  ⟨(coded_value a b h).cmp_eq, fun hp => (coded_value a b h).eq_of_isPrefix (hp.trans (prefix_append _ []))⟩

/-- arrays with MinKey and an empty field name, but not where the other one ends -/
theorem encode_key_order_arrays :
    clear (.array [.minKey, .document [("", .int32 (-1))]]) (.array [.minKey, .document [("", .int64 3)], .null]) =
      true ∧
    cmp (encodeKey (.array [.minKey, .document [("", .int32 (-1))]]))
      (encodeKey (.array [.minKey, .document [("", .int64 3)], .null])) = .lt :=
  ⟨by decide, (encode_key_order _ _ (by decide)).1.trans (by decide)⟩

/-- **MinKey in an array, and the empty field name.** [] is a proper prefix of [MinKey], so [[], 1] is above [[MinKey]];
the empty document is a proper prefix of {"": null}, so {a: {}, b: 1} is above {a: {"": null}}. -/
theorem array_terminator_is_min_key :
    encodeKey (.array []) <+: encodeKey (.array [.minKey]) ∧ encodeKey (.array []) ≠ encodeKey (.array [.minKey]) ∧
    compareValues (.array [.array [], .int32 1]) (.array [.array [.minKey]]) = .lt ∧
    cmp (encodeKey (.array [.array [], .int32 1])) (encodeKey (.array [.array [.minKey]])) = .gt ∧
    compareValues (.document [("a", .document []), ("b", .int32 1)]) (.document [("a", .document [("", .null)])]) =
      .lt ∧
    cmp (encodeKey (.document [("a", .document []), ("b", .int32 1)]))
      (encodeKey (.document [("a", .document [("", .null)])])) = .gt := by
  decide

/-! ## Compound keys -/

theorem notByte_anti : StrictAnti notByte := Fin.rev_strictAnti

/-- the order of one field -/
def compareDirected (v w : Bson) (ascending : Bool) : Ordering :=
  if ascending then compareValues v w else (compareValues v w).swap

/-- field by field, reversed on descending fields -/
def compareCompound : List Bool → List Bson → List Bson → Ordering
  | ascending :: directions, v :: vs, w :: ws =>
    (compareDirected v w ascending).then (compareCompound directions vs ws)
  | _, _, _ => .eq

theorem coded_field (h : clear v w = true) (ascending : Bool) :
    Coded (compareDirected v w ascending) (encodeField v ascending) (encodeField w ascending) := by
  cases ascending with
  | true => exact coded_value v w h
  | false => exact (coded_value v w h).map_anti notByte_anti

/-- the first values that differ are clear, and so are those before them -/
def clearLists : List Bson → List Bson → Bool
  | v :: vs, w :: ws => clear v w && (compareValues v w ≠ .eq || clearLists vs ws)
  | _, _ => true

theorem compareDirected_eq {ascending : Bool} (h : compareDirected v w ascending = .eq) : compareValues v w = .eq := by
  cases ascending with
  | true => exact h
  | false => simpa [compareDirected] using h

theorem coded_compound (directions : List Bool) (vs ws : List Bson) (hv : vs.length = directions.length)
    (hw : ws.length = directions.length) (h : clearLists vs ws = true) :
    Coded (compareCompound directions vs ws) (encodeCompoundKey (vs.zip directions))
      (encodeCompoundKey (ws.zip directions)) := by
  induction directions generalizing vs ws with
  | nil =>
    obtain rfl := length_eq_zero_iff.1 hv
    obtain rfl := length_eq_zero_iff.1 hw
    exact refl _
  | cons ascending directions ih =>
    cases vs with
    | nil => cases hv
    | cons v vs =>
      cases ws with
      | nil => cases hw
      | cons w ws =>
        simp only [clearLists, and_eq_true] at h
        have hfield := coded_field h.1 ascending
        cases directions with
        | nil =>
          simpa [compareCompound, encodeCompoundKey] using hfield
        | cons next directions =>
          have hrest : compareDirected v w ascending = .eq → _ := fun heq =>
            ih vs ws (Nat.succ.inj hv) (Nat.succ.inj hw) (by simpa [compareDirected_eq heq] using h.2)
          obtain ⟨v', vs, rfl⟩ := exists_cons_of_length_eq_add_one (Nat.succ.inj hv)
          obtain ⟨w', ws, rfl⟩ := exists_cons_of_length_eq_add_one (Nat.succ.inj hw)
          exact hfield.append_of_eq fun heq => (hrest heq).cons COMPOUND_SEP

/-- **Compound key order.** Comparing compound keys byte by byte is comparing the values field by field, reversed on
descending fields, if the first values that differ are clear. -/
theorem compound_key_order (directions : List Bool) (vs ws : List Bson) (hv : vs.length = directions.length)
    (hw : ws.length = directions.length) (h : clearLists vs ws = true) :
    cmp (encodeCompoundKey (vs.zip directions)) (encodeCompoundKey (ws.zip directions)) =
      compareCompound directions vs ws :=
  (coded_compound directions vs ws hv hw h).cmp_eq

/-- the first field ties, the second is descending -/
theorem compound_key_order_descending :
    cmp (encodeCompoundKey [(.string "a", true), (.int32 30, false)])
      (encodeCompoundKey [(.string "a", true), (.int32 25, false)]) = .lt :=
  (compound_key_order [true, false] [.string "a", .int32 30] [.string "a", .int32 25] rfl rfl (by decide)).trans
    (by decide)

/-- **A compound key with [] and [MinKey].** On a descending field [] must be above [MinKey]; it is below. -/
theorem compound_key_prefix_field :
    compareCompound [false, true] [.array [], .int32 1] [.array [.minKey], .int32 1] = .gt ∧
    cmp (encodeCompoundKey [(.array [], false), (.int32 1, true)])
      (encodeCompoundKey [(.array [.minKey], false), (.int32 1, true)]) = .lt := by
  decide

end Mqlite.Keys
