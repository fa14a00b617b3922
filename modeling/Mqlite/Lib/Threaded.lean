/-
A stack threaded through the nodes it holds: each node stores the node below it, and a mark that is no node stands for
the end. The list is nowhere written down; `Threaded next stop head l` says that following the links from head visits
exactly the nodes of l and then reaches stop.

- `Threaded.unique`, `Threaded.nodup`: a head has at most one list, and a stack that reaches its end visits no node
  twice;
- `Threaded.frame`: links of nodes outside the stack do not matter;
- `Threaded.pop`, `Threaded.push`: what reading and writing one link does.
-/
import Mathlib.Tactic

namespace Mqlite.Lib

open List

variable {α : Type}

/-- the links from head visit the nodes of the list in order and then reach stop -/
def Threaded (next : α → α) (stop : α) : α → List α → Prop
  | head, [] => head = stop
  | head, x :: l => head = x ∧ x ≠ stop ∧ Threaded next stop (next x) l

variable {next next' : α → α} {stop head x : α} {l m : List α}

theorem Threaded.unique (hl : Threaded next stop head l) (hm : Threaded next stop head m) : l = m := by
  induction l generalizing head m with
  | nil =>
    cases m with
    | nil => rfl
    | cons y m => exact absurd (hm.1.symm.trans hl) hm.2.1
  | cons x l ih =>
    obtain ⟨rfl, hx, hl⟩ := hl
    cases m with
    | nil => exact absurd hm hx
    | cons y m =>
      obtain ⟨rfl, -, hm⟩ := hm
      rw [ih hl hm]

/-- from any node of the stack on, the rest is a stack -/
theorem Threaded.suffix (h : Threaded next stop head l) (hx : x ∈ l) :
    ∃ m, Threaded next stop x m ∧ m.length ≤ l.length := by
  induction l generalizing head with
  | nil => cases hx
  | cons y l ih =>
    rcases mem_cons.1 hx with rfl | hx
    · obtain ⟨rfl, hy, hl⟩ := h
      exact ⟨head :: l, ⟨rfl, hy, hl⟩, le_rfl⟩
    · obtain ⟨m, hm, hlen⟩ := ih h.2.2 hx
      exact ⟨m, hm, hlen.trans (Nat.le_succ _)⟩

/-- A stack that reaches its end has no cycle: a node met twice would start a longer and a shorter way to the end. -/
theorem Threaded.nodup (h : Threaded next stop head l) : l.Nodup := by
  induction l generalizing head with
  | nil => exact nodup_nil
  | cons x l ih =>
    refine nodup_cons.2 ⟨fun hx => ?_, ih h.2.2⟩
    obtain ⟨m, hm, hlen⟩ := h.2.2.suffix hx
    obtain ⟨rfl, -, -⟩ := id h
    rw [← h.unique hm, length_cons] at hlen
    omega

theorem Threaded.frame (hn : ∀ y ∈ l, next' y = next y) (h : Threaded next stop head l) :
    Threaded next' stop head l := by
  induction l generalizing head with
  | nil => exact h
  | cons x l ih =>
    refine ⟨h.1, h.2.1, ?_⟩
    rw [hn x mem_cons_self]
    exact ih (fun y hy => hn y (mem_cons_of_mem _ hy)) h.2.2

/-- popping: below the head lies the stack that starts at the head's link -/
theorem Threaded.pop (hh : head ≠ stop) (h : Threaded next stop head l) :
    ∃ m, l = head :: m ∧ Threaded next stop (next head) m := by
  cases l with
  | nil => exact absurd h hh
  | cons x m =>
    obtain ⟨rfl, -, hm⟩ := h
    exact ⟨m, rfl, hm⟩

/-- pushing: the new node stores the old head, and no node of the stack changes its link -/
theorem Threaded.push (hx : x ≠ stop) (hlink : next' x = head) (hn : ∀ y ∈ l, next' y = next y)
    (h : Threaded next stop head l) : Threaded next' stop x (x :: l) := by
  refine ⟨rfl, hx, ?_⟩
  rw [hlink]
  exact h.frame hn

/-- a stack that ends where another one starts continues into it -/
theorem Threaded.append {mid : α} (hs : stop ∉ l) (hl : Threaded next mid head l) (hm : Threaded next stop mid m) :
    Threaded next stop head (l ++ m) := by
  induction l generalizing head with
  | nil =>
    cases hl
    exact hm
  | cons x l ih =>
    refine ⟨hl.1, fun hx => hs (hx ▸ mem_cons_self), ?_⟩
    exact ih (fun hmem => hs (mem_cons_of_mem _ hmem)) hl.2.2

end Mqlite.Lib
