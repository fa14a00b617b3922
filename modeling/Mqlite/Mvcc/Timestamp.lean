/-
Hybrid logical clock timestamps and the oracle that issues them (`mvcc/timestamp.rs`).

A timestamp is a 64-bit millisecond reading and a 32-bit logical counter, compared lexicographically; `Ts.MAX` is the
"infinity" a current version's `stop_ts` holds. The oracle keeps the last timestamp issued; `commit` reads the wall
clock and issues the next one, or fails when the logical counter is full and the wall clock has not moved on.

Results:
- `commit_gt`: an issued timestamp is strictly above the oracle's state, whatever the wall clock reads;
- `commit_sane`: as long as no clock has read the last representable millisecond, no issued timestamp is `Ts.MAX`.
-/
import Mathlib.Data.Prod.Lex
import Mathlib.Order.BoundedOrder.Basic
import Mathlib.Tactic

namespace Mqlite.Mvcc

/-! ## Timestamps -/

/-- 12-byte hybrid logical clock timestamp -/
structure Ts where
  physicalMs : UInt64
  logical : UInt32
deriving DecidableEq, Repr

namespace Ts

/-- the pair of readings, ordered lexicographically -/
def readings (t : Ts) : ℕ ×ₗ ℕ := toLex (t.physicalMs.toNat, t.logical.toNat)

theorem readings_injective : Function.Injective readings := by
  intro a b h
  cases a; cases b
  simp only [readings, EmbeddingLike.apply_eq_iff_eq, Prod.mk.injEq] at h
  simp [UInt64.toNat_inj.1 h.1, UInt32.toNat_inj.1 h.2]

instance : LinearOrder Ts := LinearOrder.lift' readings readings_injective

theorem lt_iff {a b : Ts} : a < b ↔ a.physicalMs.toNat < b.physicalMs.toNat ∨
    a.physicalMs.toNat = b.physicalMs.toNat ∧ a.logical.toNat < b.logical.toNat :=
  Prod.Lex.lt_iff

theorem le_iff {a b : Ts} : a ≤ b ↔ a.physicalMs.toNat < b.physicalMs.toNat ∨
    a.physicalMs.toNat = b.physicalMs.toNat ∧ a.logical.toNat ≤ b.logical.toNat :=
  Prod.Lex.le_iff

/-- logical infinity: greater than any real commit -/
def MAX : Ts := ⟨UInt64.ofNat (2 ^ 64 - 1), UInt32.ofNat (2 ^ 32 - 1)⟩

instance : OrderTop Ts where
  top := MAX
  le_top a := by
    have hp := a.physicalMs.toNat_lt
    have hl := a.logical.toNat_lt
    have hm : MAX.physicalMs.toNat = 2 ^ 64 - 1 ∧ MAX.logical.toNat = 2 ^ 32 - 1 := by decide
    rw [le_iff, hm.1, hm.2]
    omega

@[simp] theorem top_eq : (⊤ : Ts) = MAX := rfl

theorem le_max (t : Ts) : t ≤ MAX := le_top

end Ts

/-! ## The oracle -/

namespace TimestampOracle

/-- issue the next timestamp; `none` is `Error::TimestampExhausted`. `st` is the last timestamp issued, `wall` the
clock reading. -/
def commit (wall : UInt64) (st : Ts) : Option Ts :=
  if wall > st.physicalMs then some ⟨wall, 0⟩
  else if st.logical = UInt32.ofNat (2 ^ 32 - 1) then none
  else some ⟨st.physicalMs, st.logical + 1⟩

theorem commit_gt {wall : UInt64} {st t : Ts} (h : commit wall st = some t) : st < t := by
  unfold commit at h
  split_ifs at h with hw hl
  · cases h
    exact Ts.lt_iff.2 (.inl (UInt64.lt_iff_toNat_lt.1 hw))
  · cases h
    refine Ts.lt_iff.2 (.inr ⟨rfl, ?_⟩)
    -- the counter is not full, so adding one does not wrap
    have hne : st.logical.toNat ≠ 2 ^ 32 - 1 := fun he => hl (UInt32.toNat_inj.1 (he.trans (by decide)))
    have hlt := st.logical.toNat_lt
    rw [UInt32.toNat_add, show (1 : UInt32).toNat = 1 from rfl, Nat.mod_eq_of_lt (by omega)]
    omega

/-- a timestamp whose millisecond is not the last representable one -/
def Sane (t : Ts) : Prop := t.physicalMs < UInt64.ofNat (2 ^ 64 - 1)

instance (t : Ts) : Decidable (Sane t) := inferInstanceAs (Decidable (_ < _))

theorem Sane.lt_max {t : Ts} (h : Sane t) : t < Ts.MAX :=
  Ts.lt_iff.2 (.inl (UInt64.lt_iff_toNat_lt.1 h))

/-- no timestamp issued from sane readings is `Ts.MAX` -/
theorem commit_sane {wall : UInt64} {st t : Ts} (hw : wall < UInt64.ofNat (2 ^ 64 - 1)) (hs : Sane st)
    (h : commit wall st = some t) : Sane t := by
  unfold commit at h
  split_ifs at h
  · cases h; exact hw
  · cases h; exact hs

end TimestampOracle

end Mqlite.Mvcc
