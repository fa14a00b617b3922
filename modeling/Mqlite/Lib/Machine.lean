/-
32-bit unsigned arithmetic as systems code writes it: additions that report an overflow, subtractions that stop at 0,
and a word stored in four bytes, the lowest first. Each operation comes with the one equation over ℕ that its users
need.
-/
import Mathlib.Tactic

namespace Mqlite.Lib

open List

/-- for byte literals: a constant, so that they are one term in every module -/
instance (priority := 2000) neZero_256 : NeZero 256 := ⟨by decide⟩

/-- a + b, or `none` when the sum needs a 33rd bit -/
def checkedAdd (a b : UInt32) : Option UInt32 := if a.toNat + b.toNat < 2 ^ 32 then some (a + b) else none

/-- a - b, or 0 when b is the larger one -/
def saturatingSub (a b : UInt32) : UInt32 := if b ≤ a then a - b else 0

theorem checkedAdd_eq_some {a b c : UInt32} : checkedAdd a b = some c ↔ c.toNat = a.toNat + b.toNat := by
  rw [checkedAdd]
  split_ifs with h
  · rw [Option.some_inj, ← UInt32.toNat_inj, UInt32.toNat_add, Nat.mod_eq_of_lt h]
    exact eq_comm
  · have hc := c.toNat_lt
    simp only [false_iff]
    omega

theorem checkedAdd_eq_none {a b : UInt32} : checkedAdd a b = none ↔ 2 ^ 32 ≤ a.toNat + b.toNat := by
  rw [checkedAdd]
  split_ifs with h
  · simp only [false_iff]
    omega
  · simp only [true_iff]
    omega

theorem toNat_saturatingSub (a b : UInt32) : (saturatingSub a b).toNat = a.toNat - b.toNat := by
  rw [saturatingSub]
  split_ifs with h
  · exact UInt32.toNat_sub_of_le _ _ h
  · have hlt : a.toNat < b.toNat := by simpa [UInt32.le_iff_toNat_le] using h
    show 0 = _
    omega

/-- distinct words below n are at most n many -/
theorem length_le_of_nodup {l : List UInt32} {n : UInt32} (hl : l.Nodup) (h : ∀ a ∈ l, a < n) : l.length ≤ n.toNat := by
  have hnat : (l.map UInt32.toNat).Nodup := hl.map fun _ _ => UInt32.toNat_inj.1
  have hsub : (l.map UInt32.toNat).toFinset ⊆ Finset.range n.toNat := by
    intro k hk
    rw [mem_toFinset, mem_map] at hk
    obtain ⟨a, ha, rfl⟩ := hk
    exact Finset.mem_range.2 (UInt32.lt_iff_toNat_lt.1 (h a ha))
  have hcard := Finset.card_le_card hsub
  rwa [toFinset_card_of_nodup hnat, Finset.card_range, length_map] at hcard

/-- byte i of the word, the lowest first -/
def leByte (n : UInt32) (i : ℕ) : Fin 256 := ⟨n.toNat / 256 ^ i % 256, Nat.mod_lt _ (by decide)⟩

/-- the word whose four bytes are b 0, b 1, b 2, b 3 -/
def fromLeBytes (b : ℕ → Fin 256) : UInt32 :=
  UInt32.ofNat ((b 0).val + 256 * (b 1).val + 65536 * (b 2).val + 16777216 * (b 3).val)

/-- a buffer that starts with the four bytes of a word reads back as the word -/
theorem fromLeBytes_leByte {n : UInt32} {b : ℕ → Fin 256} (h : ∀ i < 4, b i = leByte n i) : fromLeBytes b = n := by
  have hn := n.toNat_lt
  apply UInt32.toNat_inj.1
  rw [fromLeBytes, h 0 (by decide), h 1 (by decide), h 2 (by decide), h 3 (by decide), UInt32.toNat_ofNat']
  simp only [leByte]
  omega

theorem fromLeBytes_congr {b c : ℕ → Fin 256} (h : ∀ i < 4, b i = c i) : fromLeBytes b = fromLeBytes c := by
  rw [fromLeBytes, fromLeBytes, h 0 (by decide), h 1 (by decide), h 2 (by decide), h 3 (by decide)]

end Mqlite.Lib
