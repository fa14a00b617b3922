/-
Finite maps kept as a list of entries in strictly ascending key order: the model of an ordered map whose iteration
order matters (ranges, merges, "first key"). The order is a field of the structure, so every map is sorted and no
operation needs a well-formedness hypothesis.

Interface: `get?`, `empty`, `insert` (replaces), `erase`, `modify`, `ofList`, `filter`, iteration by `entries`.
- `get?_eq_some_iff`: looking a key up and finding its entry in the list are the same thing;
- `get?_insert`, `get?_erase`, `get?_modify`, `get?_empty`, `get?_filter`: the lookup lemmas, one per operation;
- `entries_ofList`: a list in order is the map of its entries.
-/
import Mathlib.Tactic

namespace Mqlite.Lib

open List

/-- an ordered map: its entries in strictly ascending key order -/
structure OrdMap (κ ν : Type) [LinearOrder κ] where
  entries : List (κ × ν)
  sorted : entries.Pairwise (fun a b => a.1 < b.1)
deriving DecidableEq

namespace OrdMap

variable {κ ν : Type} [LinearOrder κ]

def empty : OrdMap κ ν := ⟨[], List.Pairwise.nil⟩

def get? (m : OrdMap κ ν) (k : κ) : Option ν := (m.entries.find? fun p => p.1 = k).map Prod.snd

/-- insertion into a sorted entry list; an entry of the same key is replaced -/
def insertEntry (k : κ) (v : ν) : List (κ × ν) → List (κ × ν)
  | [] => [(k, v)]
  | p :: l => if k < p.1 then (k, v) :: p :: l else if k = p.1 then (k, v) :: l else p :: insertEntry k v l

variable {k : κ} {v : ν} {l : List (κ × ν)} {m : OrdMap κ ν}

theorem mem_insertEntry {p : κ × ν} (h : p ∈ insertEntry k v l) : p = (k, v) ∨ p ∈ l := by
  induction l with
  | nil => simpa [insertEntry] using h
  | cons q l ih =>
    rw [insertEntry] at h
    split_ifs at h
    · simpa using h
    · rcases mem_cons.1 h with h | h
      · exact .inl h
      · exact .inr (mem_cons_of_mem _ h)
    · rcases mem_cons.1 h with rfl | h
      · exact .inr mem_cons_self
      · exact (ih h).imp_right (mem_cons_of_mem _)

theorem insertEntry_sorted (k : κ) (v : ν) (h : l.Pairwise (fun a b => a.1 < b.1)) :
    (insertEntry k v l).Pairwise (fun a b => a.1 < b.1) := by
  induction l with
  | nil => simp [insertEntry]
  | cons p l ih =>
    obtain ⟨hp, hl⟩ := pairwise_cons.1 h
    rw [insertEntry]
    split_ifs with h1 h2
    · refine pairwise_cons.2 ⟨fun q hq => ?_, h⟩
      rcases mem_cons.1 hq with rfl | hq
      · exact h1
      · exact h1.trans (hp q hq)
    · exact pairwise_cons.2 ⟨fun q hq => h2 ▸ hp q hq, hl⟩
    · refine pairwise_cons.2 ⟨fun q hq => ?_, ih hl⟩
      rcases mem_insertEntry hq with rfl | hq
      · exact lt_of_le_of_ne (not_lt.1 h1) (Ne.symm h2)
      · exact hp q hq

def insert (m : OrdMap κ ν) (k : κ) (v : ν) : OrdMap κ ν := ⟨insertEntry k v m.entries, insertEntry_sorted k v m.sorted⟩

def erase (m : OrdMap κ ν) (k : κ) : OrdMap κ ν :=
  ⟨m.entries.filter fun p => p.1 ≠ k, m.sorted.filter _⟩

/-- change the value of k, if k is there -/
def modify (m : OrdMap κ ν) (k : κ) (f : ν → ν) : OrdMap κ ν :=
  ⟨m.entries.map fun p => if p.1 = k then (p.1, f p.2) else p, by
    refine List.pairwise_map.2 (m.sorted.imp fun {a b} hab => ?_)
    split_ifs <;> exact hab⟩

/-! ## Lookup -/

@[simp] theorem get?_empty (k : κ) : (empty : OrdMap κ ν).get? k = none := rfl

theorem find?_key_eq_some (h : l.Pairwise (fun a b => a.1 < b.1)) :
    l.find? (fun p => p.1 = k) = some (k, v) ↔ (k, v) ∈ l := by
  induction l with
  | nil => simp
  | cons p l ih =>
    obtain ⟨hp, hl⟩ := pairwise_cons.1 h
    by_cases hk : p.1 = k
    · rw [find?_cons_of_pos (by simpa using hk), mem_cons, Option.some.injEq]
      refine ⟨fun e => .inl e.symm, fun e => e.elim Eq.symm fun hm => ?_⟩
      exact absurd (hp _ hm) (by simp [hk])
    · rw [find?_cons_of_neg (by simpa using hk), ih hl, mem_cons]
      exact ⟨.inr, fun e => e.resolve_left fun e => hk (by rw [← e])⟩

theorem get?_eq_some_iff : m.get? k = some v ↔ (k, v) ∈ m.entries := by
  rw [← find?_key_eq_some m.sorted, get?, Option.map_eq_some_iff]
  constructor
  · rintro ⟨p, hp, rfl⟩
    have hk : p.1 = k := by simpa using find?_some hp
    rw [hp, ← hk]
  · exact fun h => ⟨_, h, rfl⟩

theorem get?_eq_none_iff : m.get? k = none ↔ ∀ v, (k, v) ∉ m.entries := by
  rw [Option.eq_none_iff_forall_ne_some]
  exact forall_congr' fun v => not_congr get?_eq_some_iff

theorem get?_insert (m : OrdMap κ ν) (k j : κ) (v : ν) :
    (m.insert k v).get? j = if j = k then some v else m.get? j := by
  obtain ⟨l, hl⟩ := m
  simp only [get?, insert]
  induction l with
  | nil =>
    by_cases h : j = k
    · simp [insertEntry, h]
    · simp [insertEntry, h, Ne.symm h]
  | cons p l ih =>
    specialize ih (pairwise_cons.1 hl).2
    rw [insertEntry]
    by_cases hj : j = k
    · subst hj
      simp only [if_true] at ih ⊢
      split_ifs with h1 h2
      · simp
      · simp
      · rw [find?_cons_of_neg (by simpa using Ne.symm h2), ih]
    · simp only [hj, if_false] at ih ⊢
      split_ifs with h1 h2
      · rw [find?_cons_of_neg (by simpa using Ne.symm hj)]
      · rw [find?_cons_of_neg (by simpa using Ne.symm hj), find?_cons_of_neg (by simpa [← h2] using Ne.symm hj)]
      · by_cases hp : p.1 = j
        · simp [hp]
        · rw [find?_cons_of_neg (by simpa using hp), ih, find?_cons_of_neg (by simpa using hp)]

theorem get?_erase (m : OrdMap κ ν) (k j : κ) : (m.erase k).get? j = if j = k then none else m.get? j := by
  by_cases hj : j = k
  · subst hj
    simp [get?_eq_none_iff, erase]
  · refine Option.ext fun v => ?_
    simp [get?_eq_some_iff, erase, hj]

theorem get?_modify (m : OrdMap κ ν) (k j : κ) (f : ν → ν) :
    (m.modify k f).get? j = if j = k then (m.get? j).map f else m.get? j := by
  refine Option.ext fun v => ?_
  by_cases hj : j = k
  · subst hj
    simp only [get?_eq_some_iff, modify, mem_map, if_true, Option.map_eq_some_iff]
    constructor
    · rintro ⟨p, hp, he⟩
      split_ifs at he with h
      · cases he; exact ⟨p.2, h ▸ hp, rfl⟩
      · subst he; exact absurd rfl h
    · rintro ⟨u, hu, rfl⟩
      exact ⟨(j, u), hu, by simp⟩
  · simp only [get?_eq_some_iff, modify, mem_map, if_neg hj]
    constructor
    · rintro ⟨p, hp, he⟩
      split_ifs at he with h
      · cases he; exact absurd h hj
      · exact he ▸ hp
    · exact fun h => ⟨(j, v), h, by simp [hj]⟩

/-- removing the first key leaves the rest of the entries -/
theorem entries_erase_head (h : m.entries = (k, v) :: l) : (m.erase k).entries = l := by
  have hs := m.sorted
  rw [h] at hs
  simp only [erase, h]
  rw [filter_cons_of_neg (by simp), filter_eq_self]
  exact fun p hp => decide_eq_true (ne_of_gt ((pairwise_cons.1 hs).1 p hp))

/-- the entry of the least key comes first -/
theorem head?_of_le (h : m.get? k = some v) (hle : ∀ j u, m.get? j = some u → k ≤ j) :
    m.entries.head? = some (k, v) := by
  have hs := m.sorted
  have hm := get?_eq_some_iff.1 h
  cases he : m.entries with
  | nil => rw [he] at hm; cases hm
  | cons p l =>
    rw [he] at hs hm
    rcases mem_cons.1 hm with rfl | hm
    · rfl
    · have hp : k ≤ p.1 := hle p.1 p.2 (get?_eq_some_iff.2 (he ▸ mem_cons_self))
      exact absurd ((pairwise_cons.1 hs).1 _ hm) (not_lt.2 hp)

/-- the entries whose keys satisfy p -/
def filter (m : OrdMap κ ν) (p : κ → Bool) : OrdMap κ ν := ⟨m.entries.filter fun e => p e.1, m.sorted.filter _⟩

theorem get?_filter (m : OrdMap κ ν) (p : κ → Bool) (k : κ) : (m.filter p).get? k = if p k then m.get? k else none := by
  refine Option.ext fun v => ?_
  rw [get?_eq_some_iff, filter, mem_filter, ← get?_eq_some_iff]
  cases p k <;> simp

/-! ### Lists in order -/

theorem insertEntry_perm (h : ∀ p ∈ l, p.1 ≠ k) : (insertEntry k v l).Perm ((k, v) :: l) := by
  induction l with
  | nil => exact List.Perm.refl _
  | cons p l ih =>
    rw [forall_mem_cons] at h
    rw [insertEntry, if_neg h.1.symm]
    split_ifs
    · exact List.Perm.refl _
    · exact ((ih h.2).cons p).trans (List.Perm.swap _ _ _)

/-- a new key adds one entry -/
theorem insert_perm (h : m.get? k = none) (v : ν) : (m.insert k v).entries.Perm ((k, v) :: m.entries) := by
  refine insertEntry_perm fun p hp heq => ?_
  subst heq
  exact get?_eq_none_iff.1 h p.2 hp

theorem insertEntry_of_forall_lt (h : ∀ p ∈ l, p.1 < k) : insertEntry k v l = l ++ [(k, v)] := by
  induction l with
  | nil => rfl
  | cons p l ih =>
    obtain ⟨hp, hl⟩ := forall_mem_cons.1 h
    rw [insertEntry, if_neg hp.asymm, if_neg hp.ne', ih hl, cons_append]

/-- the list inserted entry by entry -/
def ofList (l : List (κ × ν)) : OrdMap κ ν := l.foldl (fun m p => m.insert p.1 p.2) empty

theorem entries_foldl_insert (h : (m.entries ++ l).Pairwise fun a b => a.1 < b.1) :
    (l.foldl (fun m p => m.insert p.1 p.2) m).entries = m.entries ++ l := by
  induction l generalizing m with
  | nil => simp
  | cons p l ih =>
    have hlast : (m.insert p.1 p.2).entries = m.entries ++ [p] :=
      insertEntry_of_forall_lt fun q hq => (pairwise_append.1 h).2.2 q hq p mem_cons_self
    rw [foldl_cons, ih]
    · rw [hlast, append_assoc, singleton_append]
    · rwa [hlast, append_assoc, singleton_append]

/-- **A list in order** is the map of its entries. -/
theorem entries_ofList (h : l.Pairwise fun a b => a.1 < b.1) : (ofList l).entries = l :=
  entries_foldl_insert (m := empty) h

/-- two maps that agree on the entries satisfying p have the same entries satisfying p -/
theorem filter_eq_of_get? {m' : OrdMap κ ν} {p : κ × ν → Bool}
    (h : ∀ k v, p (k, v) = true → (m.get? k = some v ↔ m'.get? k = some v)) :
    m.entries.filter p = m'.entries.filter p := by
  refine (m.sorted.filter p).eq_of_mem_iff (m'.sorted.filter p) fun a => ?_
  simp only [mem_filter, ← get?_eq_some_iff (m := m), ← get?_eq_some_iff (m := m')]
  exact and_congr_left (h a.1 a.2)

theorem ext_get? {m' : OrdMap κ ν} (h : ∀ k, m.get? k = m'.get? k) : m.entries = m'.entries := by
  simpa using @filter_eq_of_get? _ _ _ m m' (fun _ => true) fun k v _ => by rw [h k]

theorem erase_of_get?_none (h : m.get? k = none) : (m.erase k).entries = m.entries := by
  refine ext_get? fun j => ?_
  rw [get?_erase]
  split_ifs with hj
  · rw [hj, h]
  · rfl

theorem entries_erase_insert (m : OrdMap κ ν) (k : κ) (v : ν) :
    ((m.insert k v).erase k).entries = (m.erase k).entries := by
  refine ext_get? fun j => ?_
  simp only [get?_erase, get?_insert]
  split_ifs <;> rfl

/-- the entry of a key, and the others -/
theorem erase_perm (h : m.get? k = some v) : m.entries.Perm ((k, v) :: (m.erase k).entries) := by
  have hsame : ((m.erase k).insert k v).entries = m.entries := by
    refine ext_get? fun j => ?_
    rw [get?_insert, get?_erase]
    split_ifs with hj
    · rw [hj, h]
    · rfl
  exact hsame ▸ insert_perm (by rw [get?_erase, if_pos rfl]) v

end OrdMap

end Mqlite.Lib
