/-
The prefix range of a unique index (`compound_prefix_range_excluding_trailing_id` in `keys/mod.rs`): the indexed values
of an entry are found by skipping them in the encoded key, and the range holds the keys that continue like this one up
to `_id`.

The skipper works on offsets and undoes the inversion of descending fields byte by byte. `Reads` says what the bytes
from an offset on spell. `skip_value`: where they spell a regular value, the skipper stops right behind it.
`prefix_range_exact`: for regular values the range exists and holds exactly the keys with the same indexed values.

Every call reads at least one byte, so fuel for as many calls as there are bytes never runs out. Offsets do not
overflow.
-/
import Mqlite.Keys.Order
import Mqlite.Lib.Except
import Mathlib.Data.List.ModifyLast

namespace Mqlite.Keys

open Lib Mvcc List

/-! ## The skipper -/

inductive KeyError where
  | expected (context : String) (expected : Byte) (offset : ℕ) (got : Byte)
  | missing (context : String) (offset : ℕ)
  | truncated (offset : ℕ)
  | truncatedPayload (context : String) (offset : ℕ)
  | unknownType (ty : Byte) (offset : ℕ)
  | elementSeparatorMissing (offset : ℕ)
  | outOfFuel
deriving DecidableEq, Repr

def requireByte (bytes : Bytes) (offset : ℕ) (expected : Byte) (context : String) : Except KeyError Unit :=
  match bytes[offset]? with
  | some actual => if actual = expected then .ok () else .error (.expected context expected offset actual)
  | none => .error (.missing context offset)

def rawKeyByte (bytes : Bytes) (ascending : Bool) (offset : ℕ) : Except KeyError Byte :=
  match bytes[offset]? with
  | some byte => .ok (if ascending then byte else notByte byte)
  | none => .error (.truncated offset)

def checkedSkip (bytes : Bytes) (offset len : ℕ) (context : String) : Except KeyError ℕ :=
  if offset + len ≤ bytes.length then .ok (offset + len) else .error (.truncatedPayload context offset)

section Skip

variable (bytes : Bytes) (ascending : Bool)

def skipEncodedString : ℕ → ℕ → Except KeyError ℕ
  | 0, _ => .error .outOfFuel
  | fuel + 1, offset => do
    let raw ← rawKeyByte bytes ascending offset
    if raw = 0x00 then .ok (offset + 1) else skipEncodedString fuel (offset + 1)

/-- the next few bytes -/
def rawKeyBytes : ℕ → ℕ → Except KeyError Bytes
  | 0, _ => .ok []
  | count + 1, offset => do
    let raw ← rawKeyByte bytes ascending offset
    let rest ← rawKeyBytes count (offset + 1)
    .ok (raw :: rest)

def skipEncodedBinary (offset : ℕ) : Except KeyError ℕ := do
  let lenOffset ← checkedSkip bytes offset 1 "binary subtype"
  let lenEnd ← checkedSkip bytes lenOffset 4 "binary length"
  let lenBytes ← rawKeyBytes bytes ascending 4 lenOffset
  checkedSkip bytes lenEnd (ofBeBytes lenBytes) "binary bytes"

mutual

def skipEncodedValue : ℕ → ℕ → Except KeyError ℕ
  | 0, _ => .error .outOfFuel
  | fuel + 1, start => do
    let ty ← rawKeyByte bytes ascending start
    let offset := start + 1
    if ty = TYPE_MIN_KEY ∨ ty = TYPE_NULL ∨ ty = TYPE_MAX_KEY then .ok offset
    else if ty = TYPE_NUMBER then checkedSkip bytes offset 17 "number"
    else if ty = TYPE_SYMBOL ∨ ty = TYPE_STRING then skipEncodedString bytes ascending fuel offset
    else if ty = TYPE_OBJECT then skipEncodedDocument fuel offset
    else if ty = TYPE_ARRAY then skipEncodedArray fuel offset
    else if ty = TYPE_BIN_DATA then skipEncodedBinary bytes ascending offset
    else if ty = TYPE_OBJECT_ID then checkedSkip bytes offset 12 "object id"
    else if ty = TYPE_BOOLEAN then checkedSkip bytes offset 1 "boolean"
    else if ty = TYPE_DATE then checkedSkip bytes offset 8 "date"
    else if ty = TYPE_TIMESTAMP then checkedSkip bytes offset 8 "timestamp"
    else if ty = TYPE_REGEXP then do
      let afterPattern ← skipEncodedString bytes ascending fuel offset
      skipEncodedString bytes ascending fuel afterPattern
    else .error (.unknownType ty start)

def skipEncodedDocument : ℕ → ℕ → Except KeyError ℕ
  | 0, _ => .error .outOfFuel
  | fuel + 1, offset => do
    let raw ← rawKeyByte bytes ascending offset
    if raw = 0x00 then .ok (offset + 1)
    else do
      let afterName ← skipEncodedString bytes ascending fuel offset
      let afterValue ← skipEncodedValue fuel afterName
      skipEncodedDocument fuel afterValue

def skipEncodedArray : ℕ → ℕ → Except KeyError ℕ
  | 0, _ => .error .outOfFuel
  | fuel + 1, offset => do
    let raw ← rawKeyByte bytes ascending offset
    if raw = 0x00 then .ok (offset + 1)
    else do
      let afterValue ← skipEncodedValue fuel offset
      let sep ← rawKeyByte bytes ascending afterValue
      if sep ≠ 0x00 then .error (.elementSeparatorMissing afterValue) else skipEncodedArray fuel (afterValue + 1)

end

end Skip

/-! ## The range -/

/-- between two fields there is a separator -/
def skipSeparator (key : Bytes) (first : Bool) (offset : ℕ) : Except KeyError ℕ :=
  if first then .ok offset else do
    requireByte key offset COMPOUND_SEP "compound field separator"
    .ok (offset + 1)

/-- the loop over the fields; `first` is false once a field has been skipped -/
def skipFields (key : Bytes) : Bool → List Bool → ℕ → Except KeyError ℕ
  | _, [], offset => .ok offset
  | first, ascending :: directions, offset => do
    let offset ← skipSeparator key first offset
    let offset ← skipEncodedValue key ascending (key.length + 1) offset
    skipFields key false directions offset

/-- one more, but not above 255 -/
def saturatingSucc (b : Byte) : Byte := if h : b.val + 1 < 256 then ⟨b.val + 1, h⟩ else b

def compoundPrefixRangeExcludingTrailingId (key : Bytes) (fieldDirections : List Bool) :
    Except KeyError (Bytes × Bytes) := do
  let offset ← skipFields key true fieldDirections 0
  requireByte key offset COMPOUND_SEP "trailing _id separator"
  let start := key.take (offset + 1)
  .ok (start, start.modifyLast saturatingSucc)

/-! ## What an offset reads -/

def directed (ascending : Bool) (u : Bytes) : Bytes := if ascending then u else u.map notByte

@[simp] theorem length_directed (ascending : Bool) (u : Bytes) : (directed ascending u).length = u.length := by
  cases ascending <;> simp [directed]

theorem directed_append (ascending : Bool) (u v : Bytes) :
    directed ascending (u ++ v) = directed ascending u ++ directed ascending v := by
  cases ascending <;> simp [directed]

/-- from the offset on, the bytes spell u -/
def Reads (bytes : Bytes) (ascending : Bool) (offset : ℕ) (u : Bytes) : Prop :=
  directed ascending u <+: bytes.drop offset

namespace Reads

variable {bytes : Bytes} {ascending : Bool} {offset : ℕ} {x : Byte} {u v : Bytes}

theorem left (h : Reads bytes ascending offset (u ++ v)) : Reads bytes ascending offset u := by
  rw [Reads, directed_append] at h
  exact (prefix_append _ _).trans h

theorem right (h : Reads bytes ascending offset (u ++ v)) : Reads bytes ascending (offset + u.length) v := by
  obtain ⟨rest, hrest⟩ := h
  refine ⟨rest, ?_⟩
  rw [← drop_drop, ← hrest, directed_append, append_assoc, drop_left' (length_directed _ _)]

theorem tail (h : Reads bytes ascending offset (x :: u)) : Reads bytes ascending (offset + 1) u := right (u := [x]) h

theorem length_le (h : Reads bytes ascending offset u) : u.length ≤ bytes.length - offset := by
  have hle := List.IsPrefix.length_le h
  rwa [length_directed, length_drop] at hle

theorem head (h : Reads bytes ascending offset (x :: u)) : rawKeyByte bytes ascending offset = .ok x := by
  obtain ⟨rest, hrest⟩ := h
  have hget : bytes[offset]? = some (if ascending then x else notByte x) := by
    rw [← head?_drop, ← hrest]
    cases ascending <;> rfl
  rw [rawKeyByte, hget]
  cases ascending with
  | true => rfl
  | false => exact congrArg Except.ok (Fin.rev_rev x)

theorem skip (h : Reads bytes ascending offset u) (hu : u ≠ []) (context : String) :
    checkedSkip bytes offset u.length context = .ok (offset + u.length) := by
  have hpos := length_pos_iff.2 hu
  have hle := h.length_le
  exact if_pos (by omega)

theorem spelled (h : Reads bytes ascending offset u) : rawKeyBytes bytes ascending u.length offset = .ok u := by
  induction u generalizing offset with
  | nil => rfl
  | cons x u ih =>
    rw [length_cons, rawKeyBytes, h.head, ih h.tail]
    rfl

end Reads

/-! ## The skipper stops behind what it skips -/

section Spec

variable {bytes : Bytes} {ascending : Bool}

variable {u : Bytes} {offset : ℕ}

theorem skip_until_nul (fuel : ℕ) (hne : ∀ x ∈ u, x ≠ 0x00) (h : Reads bytes ascending offset (u ++ [0x00]))
    (hfuel : u.length < fuel) :
    skipEncodedString bytes ascending fuel offset = .ok (offset + (u ++ [0x00]).length) := by
  induction u generalizing offset fuel with
  | nil =>
    obtain ⟨fuel, rfl⟩ := Nat.exists_eq_add_one.2 hfuel
    rw [skipEncodedString, h.head]
    rfl
  | cons x u ih =>
    obtain ⟨fuel, rfl⟩ := Nat.exists_eq_add_one.2 (Nat.zero_lt_of_lt hfuel)
    have hrest := ih fuel (fun y hy => hne y (mem_cons_of_mem _ hy)) h.tail (Nat.lt_of_succ_lt_succ hfuel)
    rw [skipEncodedString, h.head]
    refine (if_neg (hne x mem_cons_self)).trans (hrest.trans ?_)
    simp only [length_append, length_cons, cons_append]
    congr 1
    omega

theorem skip_string {s : Bytes} (fuel : ℕ) (h : Reads bytes ascending offset (encodeStringBytes s))
    (hfuel : (encodeStringBytes s).length ≤ fuel) :
    skipEncodedString bytes ascending fuel offset = .ok (offset + (encodeStringBytes s).length) := by
  refine skip_until_nul fuel (fun x hx => ?_) h (by simpa [encodeStringBytes] using hfuel)
  obtain ⟨b, -, hb⟩ := mem_flatMap.1 hx
  unfold escape at hb
  split_ifs at hb with h0 h1
  · obtain rfl | rfl : x = 0x01 ∨ x = 0x01 := by simpa using hb
    all_goals decide
  · obtain rfl | rfl : x = 0x01 ∨ x = 0x02 := by simpa using hb
    all_goals decide
  · obtain rfl := mem_singleton.1 hb
    exact h0

theorem skip_binary {b : Binary} (hlen : b.bytes.length < 2 ^ 32) (h : Reads bytes ascending offset (encodeBinary b)) :
    skipEncodedBinary bytes ascending offset = .ok (offset + (encodeBinary b).length) := by
  unfold encodeBinary at h ⊢
  rw [Nat.mod_eq_of_lt hlen] at h ⊢
  have hsub : Reads bytes ascending offset [b.subtype] := Reads.left (u := [b.subtype]) h
  have hlenBytes := h.tail.left
  have hdata := h.tail.right
  have hspelled := hlenBytes.spelled
  rw [length_beBytes] at hspelled hdata
  have hskip := hsub.skip (by simp) "binary subtype"
  have hskip' := hlenBytes.skip (by simp [beBytes]) "binary length"
  rw [length_beBytes] at hskip'
  rw [length_singleton] at hskip
  have hdata' : checkedSkip bytes (offset + 1 + 4) b.bytes.length "binary bytes" =
      .ok (offset + 1 + 4 + b.bytes.length) := by
    have := h.tail.length_le
    rw [length_append, length_beBytes] at this
    exact if_pos (by omega)
  unfold skipEncodedBinary
  simp only [hskip, hskip', hspelled, bind, Except.bind, ofBeBytes_beBytes (w := 4) hlen, hdata', length_cons,
    length_append, length_beBytes]
  congr 1
  omega

theorem encodeDocument_length_pos (d : List (String × Bson)) : 0 < (encodeDocument d).length := by
  cases d with
  | nil => exact Nat.one_pos
  | cons p d => simp [encodeDocument, encodeStringBytes]

/-- a type byte and a payload of a fixed length -/
theorem skip_fixed {tag : Byte} {n : ℕ} (h : Reads bytes ascending offset (tag :: u)) (hn : u.length = n)
    (hpos : 0 < n) (context : String) :
    checkedSkip bytes (offset + 1) n context = .ok (offset + (tag :: u).length) := by
  subst hn
  rw [h.tail.skip (length_pos_iff.1 hpos) context, length_cons]
  congr 1
  omega

/-- a type byte and something the skipper of its own skips -/
theorem skip_tagged {tag : Byte} {r : Except KeyError ℕ} (h : r = .ok (offset + 1 + u.length)) :
    r = .ok (offset + (tag :: u).length) := by
  rw [h, length_cons]
  congr 1
  omega

mutual

/-- **The skipper stops right behind a regular value.** -/
theorem skip_value (v : Bson) (hv : regular v = true) {offset : ℕ} (fuel : ℕ)
    (h : Reads bytes ascending offset (encodeInto v)) (hfuel : (encodeInto v).length ≤ fuel) :
    skipEncodedValue bytes ascending fuel offset = .ok (offset + (encodeInto v).length) := by
  obtain ⟨fuel, rfl⟩ : ∃ n, fuel = n + 1 :=
    Nat.exists_eq_add_one.2 (by rw [encodeInto_eq] at hfuel; simp at hfuel; omega)
  have hhead : rawKeyByte bytes ascending offset = .ok (tagOf (typeRank v)) := by
    rw [encodeInto_eq] at h
    exact h.head
  rw [skipEncodedValue, hhead]
  match v with
  | .minKey | .null | .undefined | .maxKey => rfl
  | .double n => exact skip_fixed h (length_encodeF64 n) (by decide) _
  | .decimal128 n => exact skip_fixed h (length_encodeF64 _) (by decide) _
  | .int32 n => exact skip_fixed h (length_encodeI64 _) (by decide) _
  | .int64 n => exact skip_fixed h (length_encodeI64 n) (by decide) _
  | .symbol s | .string s | .javaScriptCode s | .javaScriptCodeWithScope s _ =>
    exact skip_tagged (skip_string fuel h.tail (Nat.le_of_succ_le_succ hfuel))
  | .document d => exact skip_tagged (skip_fields d hv fuel h.tail (Nat.le_of_succ_le_succ hfuel))
  | .array a => exact skip_tagged (skip_elems a hv fuel h.tail (Nat.le_of_succ_le_succ hfuel))
  | .binary b => exact skip_tagged (skip_binary (by simpa [regular] using hv) h.tail)
  | .objectId o => exact skip_fixed h o.length_eq (by decide) _
  | .boolean b => exact skip_fixed h rfl Nat.one_pos _
  | .dateTime m => exact skip_fixed h (length_beBytes 8 _) (by decide) _
  | .timestamp t => exact skip_fixed h (by simp) (by decide) _
  | .regularExpression r =>
    have hlen : (encodeStringBytes (asBytes r.pattern) ++ encodeStringBytes (asBytes r.options)).length ≤ fuel :=
      Nat.le_of_succ_le_succ hfuel
    rw [length_append] at hlen
    refine skip_tagged ?_
    have hpattern := skip_string fuel h.tail.left (by omega)
    have hoptions := skip_string fuel h.tail.right (by omega)
    rw [length_append, ← Nat.add_assoc, ← hoptions]
    exact bind_ok hpattern _
  | .dbPointer _ => cases hv
termination_by structural v

theorem skip_fields (d : List (String × Bson)) (hd : regularFields d = true) {offset : ℕ} (fuel : ℕ)
    (h : Reads bytes ascending offset (encodeDocument d)) (hfuel : (encodeDocument d).length ≤ fuel) :
    skipEncodedDocument bytes ascending fuel offset = .ok (offset + (encodeDocument d).length) := by
  match d with
  | [] =>
    obtain ⟨fuel, rfl⟩ := Nat.exists_eq_add_one.2 hfuel
    rw [skipEncodedDocument, h.head]
    rfl
  | (name, v) :: d =>
    simp only [regularFields, Bool.and_eq_true, decide_eq_true_eq] at hd
    rw [encodeDocument] at h hfuel ⊢
    obtain ⟨x, u, hx, hpos⟩ := string_pos (asBytes_ne_nil hd.1)
    have hname := (encodeDocument_length_pos d)
    have hlen : (encodeStringBytes (asBytes name)).length = u.length + 1 := by rw [hx]; rfl
    simp only [length_append] at hfuel ⊢
    obtain ⟨fuel, rfl⟩ := Nat.exists_eq_add_one.2 (show 0 < fuel by omega)
    have hhead : rawKeyByte bytes ascending offset = .ok x := by
      have hleft := h.left
      rw [hx] at hleft
      exact hleft.head
    have h1 := skip_string fuel h.left (by omega)
    have h2 := skip_value v hd.2.1 fuel h.right.left (by omega)
    have h3 := skip_fields d hd.2.2 fuel h.right.right (by omega)
    rw [skipEncodedDocument, hhead]
    refine (if_neg hpos.ne').trans ?_
    rw [← Nat.add_assoc, ← Nat.add_assoc, ← h3]
    exact (bind_ok h1 _).trans (bind_ok h2 _)
termination_by structural d

theorem skip_elems (a : List Bson) (ha : regularElems a = true) {offset : ℕ} (fuel : ℕ)
    (h : Reads bytes ascending offset (encodeArray a)) (hfuel : (encodeArray a).length ≤ fuel) :
    skipEncodedArray bytes ascending fuel offset = .ok (offset + (encodeArray a).length) := by
  match a with
  | [] =>
    obtain ⟨fuel, rfl⟩ := Nat.exists_eq_add_one.2 hfuel
    rw [skipEncodedArray, h.head]
    rfl
  | v :: a =>
    simp only [regularElems, Bool.and_eq_true, Bool.not_eq_true'] at ha
    rw [encodeArray] at h hfuel ⊢
    simp only [length_append, length_cons] at hfuel ⊢
    obtain ⟨fuel, rfl⟩ := Nat.exists_eq_add_one.2 (show 0 < fuel by omega)
    have hhead : rawKeyByte bytes ascending offset = .ok (tagOf (typeRank v)) := by
      have hleft := h.left
      rw [encodeInto_eq] at hleft
      exact hleft.head
    have h1 := skip_value v ha.2.1 fuel h.left (by omega)
    have h2 := h.right.head
    have h3 := skip_elems a ha.2.2 fuel h.right.tail (by omega)
    rw [skipEncodedArray, hhead]
    refine (if_neg (tag_pos ha.1).ne').trans ?_
    rw [show offset + ((encodeInto v).length + ((encodeArray a).length + 1)) =
      offset + (encodeInto v).length + 1 + (encodeArray a).length by omega, ← h3]
    exact (bind_ok h1 _).trans (bind_ok h2 _)
termination_by structural a

end

end Spec

/-! ## The range holds the keys with the same indexed values -/

theorem encodeField_eq (v : Bson) (ascending : Bool) : encodeField v ascending = directed ascending (encodeInto v) :=
  rfl

theorem encodeCompoundKey_snoc {l : List (Bson × Bool)} (h : l ≠ []) (id : Bson) :
    encodeCompoundKey (l ++ [(id, true)]) = encodeCompoundKey l ++ COMPOUND_SEP :: encodeInto id := by
  induction l with
  | nil => exact absurd rfl h
  | cons p l ih =>
    cases l with
    | nil => rfl
    | cons q l =>
      rw [cons_append, encodeCompoundKey_cons p (by simp), encodeCompoundKey_cons p (by simp), ih (by simp)]
      simp

theorem encodeCompoundKey_zip (v w : Bson) (vs : List Bson) (ascending next : Bool) (directions : List Bool) :
    encodeCompoundKey ((v :: w :: vs).zip (ascending :: next :: directions)) =
      encodeField v ascending ++ COMPOUND_SEP :: encodeCompoundKey ((w :: vs).zip (next :: directions)) := rfl

section Fields

variable {key : Bytes}

variable {offset : ℕ} {rest : Bytes}

/-- one field, and what comes after it -/
theorem skip_field {v : Bson} (hv : regular v = true) {ascending : Bool}
    (h : Reads key true offset (encodeField v ascending ++ rest)) :
    skipEncodedValue key ascending (key.length + 1) offset = .ok (offset + (encodeField v ascending).length) ∧
    Reads key true (offset + (encodeField v ascending).length) rest := by
  have hread : Reads key ascending offset (encodeInto v) := h.left
  have hle := hread.length_le
  refine ⟨?_, h.right⟩
  rw [encodeField_eq, length_directed]
  exact skip_value v hv _ hread (by omega)

theorem requireByte_ok {x : Byte} (h : Reads key true offset (x :: rest)) (context : String) :
    requireByte key offset x context = .ok () := by
  have hraw := h.head
  unfold rawKeyByte at hraw
  unfold requireByte
  cases hget : key[offset]? with
  | none => rw [hget] at hraw; cases hraw
  | some y =>
    rw [hget] at hraw
    injection hraw with hraw
    exact if_pos hraw

/-- all fields; behind the first one, each with its separator -/
theorem skipFields_ok (directions : List Bool) (vs : List Bson) (hlen : vs.length = directions.length)
    (hreg : ∀ v ∈ vs, regular v = true) (hne : directions ≠ []) (first : Bool)
    (h : Reads key true offset ((if first then [] else [COMPOUND_SEP]) ++
      (encodeCompoundKey (vs.zip directions) ++ rest))) :
    skipFields key first directions offset =
      .ok (offset + ((if first then [] else [COMPOUND_SEP]) ++ encodeCompoundKey (vs.zip directions)).length) := by
  induction directions generalizing vs first offset with
  | nil => exact absurd rfl hne
  | cons ascending directions ih =>
    obtain ⟨v, vs, rfl⟩ := exists_cons_of_length_eq_add_one hlen
    have hsep : skipSeparator key first offset = .ok (offset + (if first then [] else [COMPOUND_SEP]).length) := by
      cases first with
      | true => rfl
      | false => exact bind_ok (requireByte_ok h _) _
    have hbody := h.right
    rw [skipFields, bind_ok hsep]
    cases directions with
    | nil =>
      obtain rfl : vs = [] := length_eq_zero_iff.1 (Nat.succ.inj hlen)
      obtain ⟨hskip, -⟩ := skip_field (hreg v mem_cons_self) hbody
      rw [bind_ok hskip, length_append, ← Nat.add_assoc]
      rfl
    | cons next directions =>
      obtain ⟨w, vs, rfl⟩ := exists_cons_of_length_eq_add_one (Nat.succ.inj hlen)
      rw [encodeCompoundKey_zip, append_assoc] at hbody
      obtain ⟨hskip, hnext⟩ := skip_field (hreg v mem_cons_self) hbody
      rw [bind_ok hskip, ih (w :: vs) (Nat.succ.inj hlen) (fun v hv => hreg v (mem_cons_of_mem _ hv))
        (by simp) false hnext, encodeCompoundKey_zip]
      simp only [length_append, length_cons, Bool.false_eq_true, if_false, length_nil]
      congr 1
      omega

end Fields

variable {directions : List Bool} {vs : List Bson}

theorem zip_ne_nil (hne : directions ≠ []) (hlen : vs.length = directions.length) : vs.zip directions ≠ [] := by
  cases directions with
  | nil => exact absurd rfl hne
  | cons d directions =>
    obtain ⟨v, vs, rfl⟩ := exists_cons_of_length_eq_add_one hlen
    simp

/-- **The range** of a key: from the indexed values and the separator to the next separator. -/
theorem prefixRange_ok (directions : List Bool) (hne : directions ≠ []) (vs : List Bson)
    (hlen : vs.length = directions.length) (hreg : ∀ v ∈ vs, regular v = true) (id : Bson) :
    compoundPrefixRangeExcludingTrailingId (encodeCompoundKey (vs.zip directions ++ [(id, true)])) directions =
      .ok (encodeCompoundKey (vs.zip directions) ++ [COMPOUND_SEP],
        encodeCompoundKey (vs.zip directions) ++ [0x02]) := by
  have hkey := encodeCompoundKey_snoc (zip_ne_nil hne hlen) id
  have hread : Reads (encodeCompoundKey (vs.zip directions ++ [(id, true)])) true 0
      ((if true then [] else [COMPOUND_SEP]) ++
        (encodeCompoundKey (vs.zip directions) ++ COMPOUND_SEP :: encodeInto id)) := by
    rw [hkey]
    exact prefix_rfl
  have hfields := skipFields_ok directions vs hlen hreg hne true hread
  have hsep : Reads (encodeCompoundKey (vs.zip directions ++ [(id, true)])) true
    (0 + (encodeCompoundKey (vs.zip directions)).length)
      (COMPOUND_SEP :: encodeInto id) := Reads.right hread
  unfold compoundPrefixRangeExcludingTrailingId
  rw [bind_ok hfields]
  refine (bind_ok (requireByte_ok hsep _) _).trans ?_
  have hsplit : (encodeCompoundKey (vs.zip directions ++ [(id, true)])).take
      (0 + (encodeCompoundKey (vs.zip directions)).length + 1) = encodeCompoundKey (vs.zip directions) ++
        [COMPOUND_SEP] := by
    rw [hkey, append_cons, take_left' (by simp)]
  simp only [if_true, nil_append]
  rw [hsplit, modifyLast_concat]
  rfl

theorem compareCompound_eq {ws : List Bson} (hv : vs.length = directions.length)
    (hw : ws.length = directions.length) (hclear : clearLists vs ws = true)
    (h : compareCompound directions vs ws = .eq) :
    vs.map encodeKey = ws.map encodeKey := by
  induction directions generalizing vs ws with
  | nil => rw [length_eq_zero_iff.1 hv, length_eq_zero_iff.1 hw]
  | cons ascending directions ih =>
    obtain ⟨v, vs, rfl⟩ := exists_cons_of_length_eq_add_one hv
    obtain ⟨w, ws, rfl⟩ := exists_cons_of_length_eq_add_one hw
    obtain ⟨hfirst, hrest⟩ := Ordering.then_eq_eq.1 h
    have hcmp := compareDirected_eq hfirst
    simp only [clearLists, hcmp, ne_eq, not_true_eq_false, decide_false, Bool.false_or, Bool.and_eq_true] at hclear
    have hcoded := coded_value v w hclear.1
    rw [hcmp] at hcoded
    rw [map_cons, ih (Nat.succ.inj hv) (Nat.succ.inj hw) hclear.2 hrest]
    exact congrArg (· :: _) hcoded

/-- the encoding of a compound key depends on the encodings of its values only -/
theorem encodeCompoundKey_congr {ws : List Bson} (hv : vs.length = directions.length)
    (hw : ws.length = directions.length) (h : vs.map encodeKey = ws.map encodeKey) :
    encodeCompoundKey (vs.zip directions) = encodeCompoundKey (ws.zip directions) := by
  induction directions generalizing vs ws with
  | nil => rw [length_eq_zero_iff.1 hv, length_eq_zero_iff.1 hw]
  | cons ascending directions ih =>
    obtain ⟨v, vs, rfl⟩ := exists_cons_of_length_eq_add_one hv
    obtain ⟨w, ws, rfl⟩ := exists_cons_of_length_eq_add_one hw
    obtain ⟨hfirst, hrest⟩ := cons_eq_cons.1 h
    have hfield : encodeField v ascending = encodeField w ascending := congrArg (directed ascending) hfirst
    cases directions with
    | nil =>
      obtain rfl : vs = [] := length_eq_zero_iff.1 (Nat.succ.inj hv)
      obtain rfl : ws = [] := length_eq_zero_iff.1 (Nat.succ.inj hw)
      exact hfield
    | cons next directions =>
      obtain ⟨v', vs, rfl⟩ := exists_cons_of_length_eq_add_one (Nat.succ.inj hv)
      obtain ⟨w', ws, rfl⟩ := exists_cons_of_length_eq_add_one (Nat.succ.inj hw)
      have htail := ih (Nat.succ.inj hv) (Nat.succ.inj hw) hrest
      rw [encodeCompoundKey_zip, encodeCompoundKey_zip, htail, hfield]

/-- **The range of a list of values.** A key whose values are clear from them is in the range if and only if it has the
same encoded values. -/
theorem values_in_range_iff {ws : List Bson} (hne : directions ≠ []) (hv : vs.length = directions.length)
    (hw : ws.length = directions.length) (hclear : clearLists ws vs = true) (id : Bson) :
    encodeCompoundKey (vs.zip directions) ++ [COMPOUND_SEP] ≤ encodeCompoundKey (ws.zip directions ++ [(id, true)]) ∧
      encodeCompoundKey (ws.zip directions ++ [(id, true)]) < encodeCompoundKey (vs.zip directions) ++ [0x02] ↔
    ws.map encodeKey = vs.map encodeKey := by
  rw [encodeCompoundKey_snoc (zip_ne_nil hne hw)]
  have hcoded := coded_compound directions ws vs hw hv hclear
  constructor
  · rintro ⟨hge, hlt⟩
    refine compareCompound_eq hw hv hclear ?_
    -- keys whose indexed values differ are below the start or above the end
    cases hc : compareCompound directions ws vs with
    | eq => rfl
    | lt =>
      rw [hc] at hcoded
      exact absurd hge (not_le.2 (Below.append hcoded _ _).lt)
    | gt =>
      rw [hc] at hcoded
      exact absurd hlt (Below.append hcoded _ _).lt.asymm
  · intro h
    rw [encodeCompoundKey_congr hw hv h]
    refine ⟨?_, (Below.prepend _ (.head (by decide))).lt⟩
    have hle := le_append (encodeCompoundKey (vs.zip directions) ++ [COMPOUND_SEP]) (encodeInto id)
    rwa [append_assoc] at hle

/-- **The unique prefix range is exact**, for a key with regular values, and keys that are clear from it. -/
theorem prefix_range_exact (directions : List Bool) (hne : directions ≠ []) (vs : List Bson)
    (hlen : vs.length = directions.length) (hreg : ∀ v ∈ vs, regular v = true) (id : Bson) :
    ∃ start stop, compoundPrefixRangeExcludingTrailingId
      (encodeCompoundKey (vs.zip directions ++ [(id, true)])) directions =
        .ok (start, stop) ∧
      ∀ (ws : List Bson) (id' : Bson), ws.length = directions.length → clearLists ws vs = true →
        (start ≤ encodeCompoundKey (ws.zip directions ++ [(id', true)]) ∧
          encodeCompoundKey (ws.zip directions ++ [(id', true)]) < stop ↔ ws.map encodeKey = vs.map encodeKey) :=
  ⟨_, _, prefixRange_ok directions hne vs hlen hreg id,
    fun _ id' hws hclear => values_in_range_iff hne hlen hws hclear id'⟩

/-- the same value under another `_id` is in the range, another value is not -/
theorem prefix_range_exact_example :
    ∃ start stop, compoundPrefixRangeExcludingTrailingId
      (encodeCompoundKey [(.string "a", false), (.int32 1, true)]) [false] =
        .ok (start, stop) ∧
      (start ≤ encodeCompoundKey [(.string "a", false), (.int32 2, true)] ∧
        encodeCompoundKey [(.string "a", false), (.int32 2, true)] < stop) ∧
      ¬ (start ≤ encodeCompoundKey [(.string "ab", false), (.int32 2, true)] ∧
        encodeCompoundKey [(.string "ab", false), (.int32 2, true)] < stop) := by
  obtain ⟨start, stop, hok, hrange⟩ := prefix_range_exact [false] (by decide) [.string "a"] rfl (by decide) (.int32 1)
  refine ⟨start, stop, hok, (hrange [.string "a"] (.int32 2) rfl (by decide)).2 rfl, fun h => ?_⟩
  exact absurd ((hrange [.string "ab"] (.int32 2) rfl (by decide)).1 h) (by decide)

/-- **Values that are not skipped.** For an indexed document with an empty field name the call fails: the skipper takes
the empty name for the end of the document. The same happens with MinKey in an array, and with a DbPointer. -/
theorem prefix_range_fails :
    (compoundPrefixRangeExcludingTrailingId
      (encodeCompoundKey [(.document [("", .int32 1)], true), (.int32 1, true)]) [true]
      = .error (.expected "trailing _id separator" 0x01 2 0x10)) ∧
    (compoundPrefixRangeExcludingTrailingId (encodeCompoundKey [(.array [.minKey], true), (.int32 1, true)]) [true]
      = .error (.expected "trailing _id separator" 0x01 2 0x00)) ∧
    compoundPrefixRangeExcludingTrailingId (encodeCompoundKey [(.dbPointer "p", true), (.int32 1, true)]) [true]
      = .error (.expected "trailing _id separator" 0x01 7 0x00) := by
  decide

end Mqlite.Keys
