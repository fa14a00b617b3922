/-
Arithmetic on doubles, as `$inc` and `$mul` use it (`update/mod.rs`: `as_f64`, `numeric_result`).

Sums and products are computed exactly and then rounded once, to the nearest double, ties to even. The bits of a NaN
that an operation returns are not fixed by the language; nothing in the engine looks at them.
-/
import Mqlite.Bson

namespace Mqlite

namespace F64

/-! ## Rounding -/

def infinity (negative : Bool) : F64 := ⟨negative, 2047, 0⟩

def nan : F64 := ⟨false, 2047, Fin.ofNat _ (2 ^ 51)⟩

/-- the integer nearest to m / 2^s; of two, the even one -/
def shiftRoundEven (m s : ℕ) : ℕ :=
  let q := m / 2 ^ s
  let r := m % 2 ^ s
  if 2 * r < 2 ^ s ∨ 2 * r = 2 ^ s ∧ q % 2 = 0 then q else q + 1

/-- the double with the given mantissa (at most 2^53) and scale (at least 1, and 1 if the mantissa is below 2^52) -/
def pack (negative : Bool) (mantissa scale : ℕ) : F64 :=
  let (mantissa, scale) := if mantissa = 2 ^ 53 then (2 ^ 52, scale + 1) else (mantissa, scale)
  if mantissa < 2 ^ 52 then ⟨negative, 0, Fin.ofNat _ mantissa⟩
  else if 2047 ≤ scale then infinity negative
  else ⟨negative, Fin.ofNat _ scale, Fin.ofNat _ (mantissa - 2 ^ 52)⟩

/-- the double nearest to ± m · 2^e -/
def ofDyadic (negative : Bool) (m : ℕ) (e : ℤ) : F64 :=
  -- 53 bits are kept, fewer for subnormal values
  let scale := max 1 (e + m.size - 53 + 1075)
  let shift := scale - 1075 - e
  let mantissa := if 0 ≤ shift then shiftRoundEven m shift.toNat else m * 2 ^ (-shift).toNat
  pack negative mantissa scale.toNat

/-- `as f64` -/
def ofInt (n : ℤ) : F64 := ofDyadic (n < 0) n.natAbs 0

/-! ## Operations -/

variable (v w : F64)

/-- signed mantissa of a finite value -/
def signed : ℤ := if v.negative then -(v.mantissa : ℤ) else v.mantissa

def add : F64 :=
  if v.isNan || w.isNan then nan
  else if !v.isFinite then if !w.isFinite && v.negative != w.negative then nan else v
  else if !w.isFinite then w
  else
    let scale := min v.scale w.scale
    let sum := v.signed * 2 ^ (v.scale - scale) + w.signed * 2 ^ (w.scale - scale)
    if sum = 0 then ⟨v.negative && w.negative, 0, 0⟩ else ofDyadic (sum < 0) sum.natAbs (scale - 1075)

def mul : F64 :=
  let negative := v.negative != w.negative
  if v.isNan || w.isNan then nan
  else if !v.isFinite || !w.isFinite then if v.isZero || w.isZero then nan else infinity negative
  else ofDyadic negative (v.mantissa * w.mantissa) (v.scale + w.scale - 2150)

example : (ofInt 3).add (ofInt (-5)) = ofInt (-2) ∧ (ofInt 3).mul (ofInt (-5)) = ofInt (-15) := by decide

-- not every integer is a double
example : ofInt (2 ^ 53 + 1) = ofInt (2 ^ 53) ∧ ofInt (2 ^ 53 + 3) = ofInt (2 ^ 53 + 4) := by decide

/-- sign and magnitude as one number -/
def rank : ℤ :=
  let magnitude : ℤ := v.exponent.val * 2 ^ 52 + v.fraction.val
  if v.negative then -magnitude else magnitude

/-- `<=` -/
def le : Bool := !v.isNan && !w.isNan && v.rank ≤ w.rank

end F64

/-! ## Numbers in values -/

namespace Bson

def asF64 : Bson → Option F64
  | .int32 n => some (.ofInt n.toInt)
  | .int64 n => some (.ofInt n.toInt)
  | .double v => some v
  | _ => none

/-- of the type of the existing value, if the result fits it -/
def numericResult (existing : Option Bson) (result : F64) : Bson :=
  match existing with
  | some (.int32 _) =>
    if (F64.ofInt (-2 ^ 31)).le result && result.le (.ofInt (2 ^ 31 - 1)) && result.isWhole
      then .int32 (.ofInt result.trunc)
    else .double result
  | some (.int64 _) =>
    -- the upper bound is 2^63 as a double; the cast then cuts
    if (F64.ofInt (-2 ^ 63)).le result && result.le (.ofInt (2 ^ 63 - 1)) && result.isWhole
      then .int64 (.ofInt result.toI64)
    else .double result
  | _ => .double result

end Bson

end Mqlite
