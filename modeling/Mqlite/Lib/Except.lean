/-
Computations that may fail: taking a sequence of them apart.
- `bind_eq_ok`: a sequence that returns consists of steps that return;
- `map_eq_ok`: so does one whose last step is a function;
- `bind_ok`: a first step that returns is followed by the rest;
- `mapError_ok`: with another error, what returns is the same;
- `foldlM_invariant`, `foldlM_reaches`: what every step of a loop keeps, and what one of its steps brings about;
- `foldlM_cost`: a loop adds no more than its steps do.
-/
import Mathlib.Tactic

namespace Mqlite.Lib

open List

variable {α β ε : Type}

variable {x : Except ε α}

theorem bind_eq_ok {f : α → Except ε β} {b : β} (h : (x >>= f) = .ok b) : ∃ a, x = .ok a ∧ f a = .ok b := by
  cases x with
  | error e => cases h
  | ok a => exact ⟨a, rfl, h⟩

theorem bind_ok {a : α} (h : x = .ok a) (f : α → Except ε β) : (x >>= f) = f a := by
  rw [h]
  rfl

theorem map_eq_ok {f : α → β} {b : β} (h : x.map f = .ok b) : ∃ a, x = .ok a ∧ f a = b := by
  cases x with
  | error e => cases h
  | ok a => exact ⟨a, rfl, Except.ok.inj h⟩

theorem mapError_ok {ε' : Type} {f : ε → ε'} {a : α} (h : x.mapError f = .ok a) : x = .ok a := by
  cases x with
  | error e => cases h
  | ok b =>
    cases h
    rfl

/-- a sequence that fails fails in its first step or after it -/
theorem bind_eq_error {f : α → Except ε β} {e : ε} (h : (x >>= f) = .error e) :
    x = .error e ∨ ∃ a, x = .ok a ∧ f a = .error e := by
  cases x with
  | error e' =>
    cases h
    exact .inl rfl
  | ok a => exact .inr ⟨a, rfl, h⟩

section Loops

variable {f : β → α → Except ε β} {P Q : β → Prop} {l : List α} {b b' : β}

/-- **Loop rule.** What every step keeps holds after the loop. -/
theorem foldlM_invariant (hstep : ∀ a ∈ l, ∀ b b', P b → f b a = .ok b' → P b') (hb : P b) (h : l.foldlM f b = .ok b') :
    P b' := by
  induction l generalizing b with
  | nil =>
    cases h
    exact hb
  | cons a l ih =>
    rw [foldlM_cons] at h
    obtain ⟨b₁, h₁, h⟩ := bind_eq_ok h
    exact ih (fun c hc => hstep c (mem_cons_of_mem _ hc)) (hstep a mem_cons_self _ _ hb h₁) h

/-- where the invariant holds each step adds at most its cost -/
theorem foldlM_cost {C : β → ℕ} {cost : α → ℕ}
    (hstep : ∀ a ∈ l, ∀ b b', P b → f b a = .ok b' → P b' ∧ C b' ≤ C b + cost a) (hb : P b)
    (h : l.foldlM f b = .ok b') : P b' ∧ C b' ≤ C b + (l.map cost).sum := by
  induction l generalizing b with
  | nil =>
    cases h
    exact ⟨hb, le_rfl⟩
  | cons a l ih =>
    rw [foldlM_cons] at h
    obtain ⟨b₁, h₁, h⟩ := bind_eq_ok h
    obtain ⟨hb₁, hle⟩ := hstep a mem_cons_self _ _ hb h₁
    obtain ⟨hb', hle'⟩ := ih (fun c hc => hstep c (mem_cons_of_mem _ hc)) hb₁ h
    rw [map_cons, sum_cons]
    exact ⟨hb', by omega⟩

/-- what one step brings about and the others keep holds after the loop -/
theorem foldlM_reaches (hQ : ∀ a ∈ l, ∀ b b', Q b → f b a = .ok b' → Q b')
    (hP : ∀ a ∈ l, ∀ b b', P b → f b a = .ok b' → P b') {a : α} (ha : a ∈ l)
    (hreach : ∀ b b', Q b → f b a = .ok b' → P b') (hb : Q b) (h : l.foldlM f b = .ok b') : P b' := by
  obtain ⟨l₁, l₂, rfl⟩ := append_of_mem ha
  rw [foldlM_append] at h
  obtain ⟨b₁, h₁, h⟩ := bind_eq_ok h
  rw [foldlM_cons] at h
  obtain ⟨b₂, h₂, h⟩ := bind_eq_ok h
  have hb₁ : Q b₁ := foldlM_invariant (fun c hc => hQ c (mem_append_left _ hc)) hb h₁
  exact foldlM_invariant (fun c hc => hP c (mem_append_right _ (mem_cons_of_mem _ hc))) (hreach _ _ hb₁ h₂) h

end Loops

end Mqlite.Lib
