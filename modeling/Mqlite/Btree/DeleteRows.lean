/-
The children of one parent as a row, and what removing an entry or changing a separator makes of it.
-/
import Mqlite.Btree.Delete
import Mqlite.Btree.InsertPath

namespace Mqlite.Btree

open Lib Mvcc Storage List Option OrdMap Set InternalNode

/-! ## Rows in the parent -/

/-- the child on the far right -/
def lastChild : ℕ → Items → ℕ
  | first, [] => first
  | _, (_, child) :: items => lastChild child items

section Parent

variable {first : ℕ} {items l r : Items} {sep : Key} {child : ℕ}

theorem ofRow_append' (first : ℕ) (l r : Items) : ofRow first (l ++ r) =
    ⟨(ofRow first l).entries ++ (ofRow (lastChild first l) r).entries,
      (ofRow (lastChild first l) r).rightmostChild⟩ := by
  induction l generalizing first with
  | nil => rfl
  | cons e l ih => simp [ofRow, ih, lastChild]

theorem lastChild_concat (first : ℕ) (l : Items) (sep : Key) (child : ℕ) :
    lastChild first (l ++ [(sep, child)]) = child := by
  induction l generalizing first with
  | nil => rfl
  | cons e l ih => exact ih e.2

/-- a row's child by its index -/
theorem childAt_ofRow (first : ℕ) (l r : Items) : (ofRow first (l ++ r)).childAt l.length = lastChild first l := by
  rw [ofRow_append', childAt]
  rw [getElem?_append_right (length_ofRow first l).le, length_ofRow, Nat.sub_self]
  cases r with
  | nil | cons e r => rfl

theorem childAt_one (first : ℕ) (sep : Key) (right : ℕ) (r : Items) :
    (ofRow first ([] ++ (sep, right) :: r)).childAt (0 + 1) = right :=
  childAt_ofRow first [(sep, right)] r

theorem findChildIdx_ofRow {key : Key} (hl : ∀ e ∈ l, e.1 ≤ key) (hr : ∀ e ∈ r, key < e.1) :
    (ofRow first (l ++ r)).findChildIdx key = l.length := by
  have hkeys := map_fst_ofRow first (l ++ r)
  have hidx : (ofRow first (l ++ r)).findChildIdx key = ((ofRow first (l ++ r)).entries.map Prod.fst).findIdx fun k =>
      key < k := by
    rw [findIdx_map]
    rfl
  rw [hidx, hkeys, map_append, findIdx_append]
  have hleft : (l.map Prod.fst).findIdx (fun k => decide (key < k)) = l.length := by
    rw [findIdx_eq_length.2]
    · simp
    · simpa using hl
  rw [hleft]
  cases r with
  | nil => simp
  | cons e r => simp [findIdx_cons, hr e mem_cons_self]

theorem childFor_eq_lastChild {key : Key} (hl : ∀ e ∈ l, e.1 ≤ key) (hr : ∀ e ∈ r, key < e.1) :
    childFor first (l ++ r) key = lastChild first l := by
  induction l generalizing first with
  | nil =>
    cases r with
    | nil => rfl
    | cons e r => simp [childFor, hr e mem_cons_self, lastChild]
  | cons e l ih =>
    rw [forall_mem_cons] at hl
    rw [cons_append, childFor, if_neg (not_lt.2 hl.1), ih hl.2, lastChild]

theorem modify_append {α : Type} (l r : List α) (k : ℕ) (f : α → α) :
    (l ++ r).modify (l.length + k) f = l ++ r.modify k f := by
  induction l with
  | nil => simp
  | cons x l ih => simp [Nat.add_right_comm, ih]

/-- another separator -/
theorem setKey_ofRow (first : ℕ) (l : Items) (sep sep' : Key) (child : ℕ) (r : Items) :
    (ofRow first (l ++ (sep, child) :: r)).setKey l.length sep' = ofRow first (l ++ (sep', child) :: r) := by
  rw [ofRow_append, ofRow_append, setKey]
  simp only [mk.injEq, and_true]
  rw [← length_ofRow first l]
  exact modify_append _ _ 0 _

/-- the separator goes, and the child on its right with it -/
theorem removeEntry_setChild_ofRow (first : ℕ) (l : Items) (sep : Key) (child : ℕ) (r : Items) :
    ((ofRow first (l ++ (sep, child) :: r)).setChild (l.length + 1) (lastChild first l)).removeEntry l.length =
      ofRow first (l ++ r) := by
  have hset : (ofRow first (l ++ (sep, child) :: r)).setChild (l.length + 1) (lastChild first l) =
      ofRow first (l ++ (sep, lastChild first l) :: r) := by
    rw [setChild, length_ofRow, ofRow_append, ofRow_append]
    cases r with
    | nil => simp [ofRow]
    | cons e r =>
      have hlt : l.length + 1 < (l ++ (sep, child) :: e :: r).length := by simp
      rw [if_pos hlt, ← length_ofRow first l]
      simp only [mk.injEq]
      exact ⟨modify_append _ _ 1 _, rfl⟩
  rw [hset, ofRow_append, ofRow_append' first l r, removeEntry, ← length_ofRow first l]
  simp [eraseIdx_append_of_length_le]

end Parent

/-! ## Rows of leaves -/

/-- `Row` for leaves, which have no internal pages -/
def LeafRow (store : PageStore) : ℕ → Items → Option Key → Option Key → Prop
  | page, [], lo, hi => LeafAt store page lo hi
  | page, (sep, child) :: items, lo, hi => Between lo hi sep ∧ LeafAt store page lo (some sep) ∧
      LeafRow store child items (some sep) hi

section LeafRow

variable {store store' : PageStore} {first : ℕ} {items l r : Items} {lo hi : Option Key} {inner : Set ℕ}
  {leaves : List ℕ} {sep : Key} {child : ℕ}

theorem row_iff_leafRow : Row (Spans store 0) first items lo hi inner leaves ↔
    inner = ∅ ∧ leaves = first :: items.map Prod.snd ∧ LeafRow store first items lo hi := by
  induction items generalizing first lo inner leaves with
  | nil => exact Iff.rfl
  | cons e items ih =>
    constructor
    · rintro ⟨hsep, i₁, i₂, l₁, l₂, rfl, -, rfl, ⟨rfl, rfl, hat⟩, hrest⟩
      obtain ⟨rfl, rfl, hrow⟩ := ih.1 hrest
      exact ⟨union_empty _, rfl, hsep, hat, hrow⟩
    · rintro ⟨rfl, rfl, hsep, hat, hrow⟩
      exact ⟨hsep, ∅, ∅, [first], _, by simp, by simp, rfl, ⟨rfl, rfl, hat⟩, ih.2 ⟨rfl, rfl, hrow⟩⟩

theorem LeafRow.shrink (h : LeafRow store first items lo hi)
    (hleaf : ∀ q ∈ first :: items.map Prod.snd, Shrinks store store' q) :
    LeafRow store' first items lo hi := by
  have hrow := row_iff_leafRow.2 ⟨rfl, rfl, h⟩
  refine (row_iff_leafRow.1 (hrow.imp fun c lo hi i l hP hi' hl =>
    hP.shrink (fun p hp => absurd (hi' hp) (by simp)) ?_)).2.2
  exact fun q hq => hleaf q (hl hq)

/-- the row from one child on -/
theorem LeafRow.drop (h : LeafRow store first (l ++ r) lo hi) :
    ∃ lo', LeafRow store (lastChild first l) r lo' hi ∧ (l = [] → lo' = lo) ∧
    ∀ store' r', (∀ q ∈ (first :: l.map Prod.snd).dropLast, Shrinks store store' q) →
      LeafRow store' (lastChild first l) r' lo' hi → LeafRow store' first (l ++ r') lo hi := by
  induction l generalizing first lo with
  | nil => exact ⟨lo, h, fun _ => rfl, fun _ _ _ hr => hr⟩
  | cons e l ih =>
    obtain ⟨hsep, hat, hrest⟩ := h
    obtain ⟨lo', hrow, -, hplug⟩ := ih hrest
    refine ⟨lo', hrow, by simp, fun store' r' hsame hr =>
      ⟨hsep, hat.frame (hsame first (by simp)), hplug store' r' (fun q hq => hsame q ?_) hr⟩⟩
    exact mem_cons_of_mem _ hq

/-- the child in front of a row, with the range it has there -/
theorem LeafRow.head (h : LeafRow store first r lo hi) :
    ∃ hi', LeafAt store first lo hi' ∧ (hi' = hi ∨ ∃ s, hi' = some s ∧ Between lo hi s) ∧
    ∀ store' first' lo', (∀ x ∈ lo', ∀ y ∈ hi', x < y) → (∀ q ∈ r.map Prod.snd, Shrinks store store' q) →
      LeafAt store' first' lo' hi' → LeafRow store' first' r lo' hi := by
  cases r with
  | nil => exact ⟨hi, h, .inl rfl, fun _ _ _ _ _ hat => hat⟩
  | cons e r =>
    obtain ⟨hsep, hat, hrest⟩ := h
    exact ⟨some e.1, hat, .inr ⟨e.1, rfl, hsep⟩,
      fun store' first' lo' hlt hsame hat' => ⟨⟨fun x hx => hlt x hx e.1 rfl, hsep.2⟩, hat', hrest.shrink hsame⟩⟩

/-- **Two leaves side by side**: what they may be replaced by -/
structure Pair (store : PageStore) (first : ℕ) (l : Items) (sep : Key) (right : ℕ) (r : Items)
    (lo hi lo' hi' : Option Key) : Prop where
  between : Between lo' hi' sep
  leftAt : LeafAt store (lastChild first l) lo' (some sep)
  rightAt : LeafAt store right (some sep) hi'
  mergeLeft : ∀ store', (∀ q ∈ (first :: l.map Prod.snd).dropLast ++ r.map Prod.snd, Shrinks store store' q) →
    LeafAt store' (lastChild first l) lo' hi' → LeafRow store' first (l ++ r) lo hi
  mergeRight : l = [] → ∀ store', (∀ q ∈ r.map Prod.snd, Shrinks store store' q) → LeafAt store' right lo' hi' →
    LeafRow store' right r lo hi
  divide : ∀ store' sep', (∀ q ∈ (first :: l.map Prod.snd).dropLast ++ r.map Prod.snd, Shrinks store store' q) →
    Between lo' hi' sep' → LeafAt store' (lastChild first l) lo' (some sep') → LeafAt store' right (some sep') hi' →
    LeafRow store' first (l ++ (sep', right) :: r) lo hi

theorem LeafRow.pair (h : LeafRow store first (l ++ (sep, child) :: r) lo hi) :
    ∃ lo' hi', Pair store first l sep child r lo hi lo' hi' := by
  obtain ⟨lo', ⟨hsep, hleft, hrest⟩, hlo, hplug⟩ := h.drop
  obtain ⟨hi', hright, hhi, hhead⟩ := hrest.head
  have hsep' : Between lo' hi' sep := by
    rcases hhi with rfl | ⟨s, rfl, hs⟩
    · exact hsep
    · exact ⟨hsep.1, fun x hx => by cases hx; exact hs.1 sep rfl⟩
  have hwide : ∀ {k}, Between lo' hi' k → Between lo' hi k := by
    intro k hk
    rcases hhi with rfl | ⟨s, rfl, hs⟩
    · exact hk
    · exact ⟨hk.1, fun x hx => (hk.2 s rfl).trans (hs.2 x hx)⟩
  have hends : ∀ x ∈ lo', ∀ y ∈ hi', x < y := fun x hx y hy => (hsep'.1 x hx).trans (hsep'.2 y hy)
  refine ⟨lo', hi', hsep', hleft, hright, fun store' hsame hat => ?_, fun hnil store' hsame hat => ?_,
    fun store' sep' hsame hs hat hat' => ?_⟩
  · rw [forall_mem_append] at hsame
    exact hplug store' r hsame.1 (hhead store' _ lo' hends hsame.2 hat)
  · rw [← hlo hnil]
    exact hhead store' child lo' hends hsame hat
  · rw [forall_mem_append] at hsame
    refine hplug store' _ hsame.1 ⟨hwide hs, hat, hhead store' child (some sep') (fun x hx y hy => ?_) hsame.2 hat'⟩
    cases hx
    exact hs.2 y hy

end LeafRow

end Mqlite.Btree
