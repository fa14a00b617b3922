/-
The first elements of a list in strict order.

- `mem_take_iff`: an element is among the first n if and only if fewer than n are below it;
- `nodup_map_take_iff`: when the first n elements have distinct images.
-/
import Mathlib.Tactic

namespace Mqlite.Lib

open List

section Sorted

variable {α β : Type} {lt : α → α → Prop} [DecidableRel lt] [Std.Asymm lt] {l : List α} {n : ℕ}

theorem countP_head {x : α} (hx : ∀ y ∈ l, lt x y) : (x :: l).countP (fun y => lt y x) = 0 := by
  refine countP_eq_zero.2 fun y hy => ?_
  rw [decide_eq_true_eq]
  rcases mem_cons.1 hy with rfl | hy
  · exact fun h => Std.Asymm.asymm _ _ h h
  · exact Std.Asymm.asymm _ _ (hx y hy)

theorem mem_take_iff (h : l.Pairwise lt) {b : α} : b ∈ l.take n ↔ b ∈ l ∧ l.countP (fun y => lt y b) < n := by
  induction l generalizing n with
  | nil => simp
  | cons x l ih =>
    obtain ⟨hx, hl⟩ := pairwise_cons.1 h
    cases n with
    | zero => simp
    | succ n =>
      rw [take_succ_cons, mem_cons, mem_cons, ih hl]
      by_cases hb : b = x
      · subst hb
        simp [countP_head hx]
      · by_cases hmem : b ∈ l
        · simp [hb, hmem, hx b hmem]
        · simp [hb, hmem]

theorem nodup_map_take_iff (h : l.Pairwise lt) (f : α → β) :
    ((l.take n).map f).Nodup ↔ ∀ a ∈ l, ∀ b ∈ l, lt a b → f a = f b → n ≤ l.countP (fun y => lt y b) := by
  induction l generalizing n with
  | nil => simp
  | cons x l ih =>
    obtain ⟨hx, hl⟩ := pairwise_cons.1 h
    -- below an element of the rest there is one element more
    have hcount : ∀ b ∈ l, (x :: l).countP (fun y => lt y b) = l.countP (fun y => lt y b) + 1 :=
      fun b hb => by simp [hx b hb]
    cases n with
    | zero => simp
    | succ n =>
      rw [take_succ_cons, map_cons, nodup_cons, ih hl, mem_map]
      constructor
      · rintro ⟨hfirst, hrest⟩ a ha b hb hlt heq
        rcases mem_cons.1 hb with rfl | hlater
        · rcases mem_cons.1 ha with rfl | ha
          · exact absurd hlt (Std.Asymm.asymm _ _ hlt)
          · exact absurd hlt (Std.Asymm.asymm _ _ (hx a ha))
        · rw [hcount b hlater]
          rcases mem_cons.1 ha with rfl | ha
          · by_contra hlow
            exact hfirst ⟨b, (mem_take_iff hl).2 ⟨hlater, by omega⟩, heq.symm⟩
          · exact Nat.succ_le_succ (hrest a ha b hlater hlt heq)
      · intro hpairs
        refine ⟨?_, fun a ha b hb hlt heq => ?_⟩
        · rintro ⟨b, hb, heq⟩
          obtain ⟨hb, hlow⟩ := (mem_take_iff hl).1 hb
          have := hpairs x mem_cons_self b (mem_cons_of_mem _ hb) (hx b hb) heq.symm
          rw [hcount b hb] at this
          omega
        · have := hpairs a (mem_cons_of_mem _ ha) b (mem_cons_of_mem _ hb) hlt heq
          rw [hcount b hb] at this
          omega

end Sorted

end Mqlite.Lib
