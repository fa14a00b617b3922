/-
Stacks of half-open intervals, newest in front: the general theory behind a multi-version chain. An item is current from
its `start` up to, not including, its `stop`; `⊤` is "still current".

- `Anchored A l`: every item of l ends at `⊤`, or where an item in front of it (or a time in A) starts. Nothing is said
  about the order of the starts.
- `Linked hi l`: the stack tiles the time below hi without gap or overlap: the first item ends at hi, each further item
  ends exactly where the item in front of it starts, and the starts descend.

Results:
- `find?_interval`: in an anchored stack the first item whose interval holds r is simply the first item that starts at
  or before r. This is the rule every snapshot argument uses: the ends of the intervals play no part in a lookup.
- `Anchored.push`, `Anchored.remove`: what pushing on top, and taking an item out and reopening the one it had closed,
  do.
- `Linked.anchored`, `Linked.pairwise`, `Linked.isChain`, `Linked.stop_ne_top`: a tiling is anchored, descends, is
  closed up, and only its first item is current.
-/
import Mathlib.Order.BoundedOrder.Basic
import Mathlib.Tactic

namespace Mqlite.Lib

open List Set

section Anchored

variable {ε τ : Type} [LinearOrder τ] [OrderTop τ] (start stop : ε → τ)

/-- every item ends at `⊤`, or where an item in front of it, or a time in A, starts -/
def Anchored : Set τ → List ε → Prop
  | _, [] => True
  | A, e :: l => (stop e = ⊤ ∨ stop e ∈ A) ∧ Anchored (insert (start e) A) l

variable {start stop}

/-! ## Anchored stacks -/

variable {A : Set τ} {l : List ε}

theorem Anchored.mono {B : Set τ} (hAB : A ⊆ B) (h : Anchored start stop A l) : Anchored start stop B l := by
  induction l generalizing A B with
  | nil => trivial
  | cons e l ih => exact ⟨h.1.imp_right (hAB ·), ih (insert_subset_insert hAB) h.2⟩

/-- a time no item ends at can be left out of the anchors -/
theorem Anchored.of_insert {x : τ} (h : Anchored start stop (insert x A) l) (hx : ∀ e ∈ l, stop e ≠ x) :
    Anchored start stop A l := by
  induction l generalizing A with
  | nil => trivial
  | cons e l ih =>
    refine ⟨h.1.imp_right fun hs => hs.resolve_left (hx e mem_cons_self), ?_⟩
    rw [Anchored, insert_comm] at h
    exact ih h.2 fun d hd => hx d (mem_cons_of_mem _ hd)

/-- items in front only add anchors -/
theorem anchored_append {m : List ε} : Anchored start stop A (l ++ m) ↔
      Anchored start stop A l ∧ Anchored start stop (A ∪ {t | ∃ e ∈ l, start e = t}) m := by
  induction l generalizing A with
  | nil => simp [Anchored]
  | cons e l ih =>
    have hset : insert (start e) A ∪ {t | ∃ d ∈ l, start d = t} = A ∪ {t | ∃ d ∈ e :: l, start d = t} := by
      ext t; simp only [mem_union, mem_insert_iff, mem_ofPred_eq, mem_cons]
      constructor
      · rintro ((rfl | h) | ⟨d, hd, rfl⟩)
        · exact .inr ⟨e, .inl rfl, rfl⟩
        · exact .inl h
        · exact .inr ⟨d, .inr hd, rfl⟩
      · rintro (h | ⟨d, rfl | hd, rfl⟩)
        · exact .inl (.inr h)
        · exact .inl (.inl rfl)
        · exact .inr ⟨d, hd, rfl⟩
    rw [cons_append, Anchored, Anchored, ih, hset, and_assoc]

/-- a change of the items that keeps their intervals keeps the anchors -/
theorem anchored_map {f : ε → ε} (hs : ∀ e, start (f e) = start e) (hp : ∀ e, stop (f e) = stop e)
    (h : Anchored start stop A l) : Anchored start stop A (l.map f) := by
  induction l generalizing A with
  | nil => trivial
  | cons e l ih =>
    refine ⟨hp e ▸ h.1, ?_⟩
    rw [hs]
    exact ih h.2

/-- the end of an item of an anchored stack: `⊤`, an outer anchor, or the start of an item -/
theorem Anchored.stop_mem (h : Anchored start stop A l) {e : ε} (he : e ∈ l) :
    stop e = ⊤ ∨ stop e ∈ A ∨ ∃ d ∈ l, stop e = start d := by
  induction l generalizing A with
  | nil => cases he
  | cons d l ih =>
    rcases mem_cons.1 he with rfl | he
    · exact h.1.imp_right .inl
    · rcases ih h.2 he with h1 | (h1 | h1) | ⟨x, hx, h1⟩
      · exact .inl h1
      · exact .inr (.inr ⟨d, mem_cons_self, h1⟩)
      · exact .inr (.inl h1)
      · exact .inr (.inr ⟨x, mem_cons_of_mem _ hx, h1⟩)

theorem Anchored.head_stop {e : ε} (h : Anchored start stop ∅ (e :: l)) : stop e = ⊤ :=
  h.1.resolve_right (notMem_empty _)

/-- **Push.** Ending the first item where a new item starts, and putting the new item in front. -/
theorem Anchored.push {e e' n : ε} {l : List ε} (h : Anchored start stop ∅ (e :: l)) (hs : start e' = start e)
    (he : stop e' = start n) (hn : stop n = ⊤) : Anchored start stop ∅ (n :: e' :: l) := by
  refine ⟨.inl hn, .inr (by simp [he]), ?_⟩
  rw [hs]
  exact h.2.mono (insert_subset_insert (empty_subset _))

/-- **Remove.** Taking p out, when no item behind it still ends where p starts. -/
theorem Anchored.remove {m m' : List ε} {p : ε} (h : Anchored start stop ∅ (l ++ p :: m))
    (hm : ∀ A, Anchored start stop A m → Anchored start stop A m') (hp : ∀ e ∈ m', stop e ≠ start p) :
    Anchored start stop ∅ (l ++ m') := by
  obtain ⟨h1, h2⟩ := anchored_append.1 h
  exact anchored_append.2 ⟨h1, (hm _ h2.2).of_insert hp⟩

/-- **Lookup.** In an anchored stack the first item whose interval holds r is the first item that starts at or before r
(`own`: items taken whatever their interval). -/
theorem find?_interval (own : ε → Bool) {r : τ} (hr : r < ⊤) (h : Anchored start stop A l) (hA : ∀ t ∈ A, r < t) :
    l.find? (fun e => own e || decide (start e ≤ r ∧ r < stop e)) =
      l.find? (fun e => own e || decide (start e ≤ r)) := by
  induction l generalizing A with
  | nil => rfl
  | cons e l ih =>
    have hstop : r < stop e := by
      rcases h.1 with h1 | h1
      · rw [h1]; exact hr
      · exact hA _ h1
    by_cases hown : own e = true ∨ start e ≤ r
    · rw [find?_cons_of_pos (by simpa [hstop] using hown), find?_cons_of_pos (by simpa using hown)]
    · rw [find?_cons_of_neg (by simpa [hstop] using hown), find?_cons_of_neg (by simpa using hown)]
      refine ih h.2 fun t ht => ?_
      rcases ht with rfl | ht
      · exact lt_of_not_ge fun hle => hown (.inr hle)
      · exact hA t ht

end Anchored

/-! ## Tilings -/

section Linked

variable {ε τ : Type} [LinearOrder τ] (start stop : ε → τ)

/-- the items tile the time below `hi`, newest first -/
def Linked : τ → List ε → Prop
  | _, [] => True
  | hi, e :: l => stop e = hi ∧ start e < hi ∧ Linked (start e) l

variable {start stop}

variable {hi : τ} {l : List ε} {e : ε}

/-- a change of the items that keeps their intervals keeps the tiling -/
theorem Linked.map {f : ε → ε} (hs : ∀ e, start (f e) = start e) (hp : ∀ e, stop (f e) = stop e)
    (h : Linked start stop hi l) : Linked start stop hi (l.map f) := by
  induction l generalizing hi with
  | nil => trivial
  | cons e l ih =>
    refine ⟨(hp e).trans h.1, (hs e).trans_lt h.2.1, ?_⟩
    rw [hs]
    exact ih h.2.2

section

variable (h : Linked start stop hi l)

include h

theorem Linked.start_lt (he : e ∈ l) : start e < hi := by
  induction l generalizing hi with
  | nil => cases he
  | cons d l ih =>
    rcases mem_cons.1 he with rfl | he
    · exact h.2.1
    · exact (ih h.2.2 he).trans h.2.1

theorem Linked.stop_le (he : e ∈ l) : stop e ≤ hi := by
  induction l generalizing hi with
  | nil => cases he
  | cons d l ih =>
    rcases mem_cons.1 he with rfl | he
    · exact h.1.le
    · exact (ih h.2.2 he).trans h.2.1.le

theorem Linked.pairwise : l.Pairwise fun a b => start b < start a := by
  induction l generalizing hi with
  | nil => exact List.Pairwise.nil
  | cons e l ih => exact pairwise_cons.2 ⟨fun _ hd => h.2.2.start_lt hd, ih h.2.2⟩

/-- each item of a tiling ends before everything in front of it starts -/
theorem Linked.apart : l.Pairwise fun a b => stop b ≤ start a := by
  induction l generalizing hi with
  | nil => exact List.Pairwise.nil
  | cons e l ih => exact pairwise_cons.2 ⟨fun _ hd => h.2.2.stop_le hd, ih h.2.2⟩

theorem Linked.proper (he : e ∈ l) : start e < stop e := by
  induction l generalizing hi with
  | nil => cases he
  | cons d l ih =>
    rcases mem_cons.1 he with rfl | he
    · exact h.1 ▸ h.2.1
    · exact ih h.2.2 he

theorem Linked.isChain : l.IsChain fun a b => stop b = start a := by
  induction l generalizing hi with
  | nil => exact List.IsChain.nil
  | cons e l ih =>
    cases l with
    | nil => exact List.IsChain.singleton e
    | cons d l => exact List.IsChain.cons_cons h.2.2.1 (ih h.2.2)

end

/-- the items in front tile the time down to the start of the last of them -/
theorem Linked.append_left {m : List ε} (h : Linked start stop hi (l ++ m)) : Linked start stop hi l := by
  induction l generalizing hi with
  | nil => trivial
  | cons e l ih => exact ⟨h.1, h.2.1, ih h.2.2⟩

/-- the items behind tile the time below some instant -/
theorem Linked.append_right {m : List ε} (h : Linked start stop hi (l ++ e :: m)) :
    Linked start stop (stop e) (e :: m) := by
  induction l generalizing hi with
  | nil => exact ⟨rfl, h.1 ▸ h.2.1, h.2.2⟩
  | cons d l ih => exact ih h.2.2

/-- only the first item of a tiling is current -/
theorem Linked.stop_ne_top [OrderTop τ] (h : Linked start stop hi (e :: l)) {d : ε} (hd : d ∈ l) : stop d ≠ ⊤ :=
  ne_top_of_le_ne_top (ne_top_of_lt h.2.1) (h.2.2.stop_le hd)

/-- a stack whose starts descend and whose items are closed up is a tiling -/
theorem linked_of_isChain (hhead : ∀ e ∈ l.head?, stop e = hi ∧ start e < hi)
    (hdesc : l.Pairwise fun a b => start b < start a) (hch : l.IsChain fun a b => stop b = start a) :
    Linked start stop hi l := by
  induction l generalizing hi with
  | nil => trivial
  | cons e l ih =>
    refine ⟨(hhead e rfl).1, (hhead e rfl).2, ih ?_ (pairwise_cons.1 hdesc).2 hch.tail⟩
    intro d hd
    cases l with
    | nil => cases hd
    | cons d' l =>
      cases hd
      exact ⟨hch.rel, (pairwise_cons.1 hdesc).1 d mem_cons_self⟩

end Linked

end Mqlite.Lib
