/-
Order-preserving codes over strings of letters, compared lexicographically.

Comparing two strings of a code must not run off the end of one of them: what follows a code word would decide. `Below u
v` says that u and v differ somewhere and that at the first difference u has the smaller letter, so neither is a prefix
of the other. `Coded c u v` says that u and v tell the result c of a comparison: `Below` one way, the other way, or
equal.

`Coded` is closed under what codes are made of: concatenation (`Coded.append`, lexicographic combination), reversing the
alphabet (`Coded.map_anti`, the reversed comparison) and numbers of a fixed width (`coded_beBytes`,
`ofBeBytes_beBytes`). From it come the order of the code words (`Coded.cmp_eq`) and that no code word is a proper prefix
of another (`Coded.eq_of_isPrefix`).
-/
import Mathlib.Data.List.Lex
import Mqlite.Lib.Machine

namespace Mqlite.Lib

open List Nat

section Letters

variable {β : Type} [LinearOrder β]

/-- at the first difference u has the smaller letter -/
inductive Below : List β → List β → Prop
  | head {x y : β} {u v : List β} : x < y → Below (x :: u) (y :: v)
  | tail {x : β} {u v : List β} : Below u v → Below (x :: u) (x :: v)

namespace Below

variable {u v : List β}

/-- what follows does not matter -/
theorem append (h : Below u v) (s t : List β) : Below (u ++ s) (v ++ t) := by
  induction h with
  | head hxy => exact .head hxy
  | tail _ ih => exact .tail ih

theorem prepend (p : List β) (h : Below u v) : Below (p ++ u) (p ++ v) := by
  induction p with
  | nil => exact h
  | cons x p ih => exact .tail ih

theorem lt (h : Below u v) : u < v := by
  induction h with
  | head hxy => exact List.Lex.rel hxy
  | tail _ ih => exact List.Lex.cons ih

/-- a smaller string is below, unless it is a prefix -/
theorem of_lt (h : u < v) (hp : ¬ u <+: v) : Below u v := by
  induction u generalizing v with
  | nil => exact absurd nil_prefix hp
  | cons x u ih =>
    cases v with
    | nil => exact absurd h (not_lt_nil _)
    | cons y v =>
      rcases cons_lt_cons_iff.1 h with hxy | ⟨rfl, huv⟩
      · exact .head hxy
      · exact .tail (ih huv fun hp' => hp (cons_prefix_cons.2 ⟨rfl, hp'⟩))

/-- reversing the alphabet -/
theorem map_anti {f : β → β} (hf : StrictAnti f) (h : Below u v) : Below (v.map f) (u.map f) := by
  induction h with
  | head hxy => exact .head (hf hxy)
  | tail _ ih => exact .tail ih

end Below

open Below

/-- the two strings tell the result of a comparison -/
def Coded (c : Ordering) (u v : List β) : Prop :=
  match c with
  | .lt => Below u v
  | .eq => u = v
  | .gt => Below v u

namespace Coded

variable {c d : Ordering} {u v s t : List β}

theorem refl (u : List β) : Coded .eq u u := rfl

/-- code words one after the other: the second ones matter if the first ones are equal -/
theorem append_of_eq (h : Coded c u v) (h' : c = .eq → Coded d s t) : Coded (c.then d) (u ++ s) (v ++ t) := by
  cases c with
  | lt => exact append h s t
  | gt => exact append h t s
  | eq =>
    obtain rfl : u = v := h
    specialize h' rfl
    cases d with
    | lt | gt => exact prepend u h'
    | eq => exact congrArg (u ++ ·) h'

theorem append (h : Coded c u v) (h' : Coded d s t) : Coded (c.then d) (u ++ s) (v ++ t) := h.append_of_eq fun _ => h'

/-- the same letter in front -/
theorem cons (x : β) (h : Coded c u v) : Coded c (x :: u) (x :: v) := append (refl [x]) h

theorem map_anti {f : β → β} (hf : StrictAnti f) (h : Coded c u v) : Coded c.swap (u.map f) (v.map f) := by
  cases c with
  | lt | gt => exact map_anti hf h
  | eq => exact congrArg _ h

/-- the strings tell how x and y compare -/
theorem of_cmp {α : Type} [LT α] [DecidableLT α] {x y : α} (hlt : x < y → Below u v) (heq : ¬ x < y → ¬ y < x → u = v)
    (hgt : y < x → Below v u) : Coded (cmp x y) u v := by
  unfold cmp cmpUsing
  split_ifs with h h'
  · exact hlt h
  · exact hgt h'
  · exact heq h h'

theorem letter (x y : β) : Coded (cmp x y) [x] [y] :=
  of_cmp .head (fun h h' => congrArg (fun z => [z]) (le_antisymm (not_lt.1 h') (not_lt.1 h))) .head

theorem eq_of_cmp_eq (h : cmp u v = .eq) : u = v := by
  unfold cmp cmpUsing at h
  split_ifs at h with hlt hgt
  exact le_antisymm (not_lt.1 hgt) (not_lt.1 hlt)

theorem cmp_eq (h : Coded c u v) : cmp u v = c := by
  cases c with
  | lt => exact if_pos (lt h)
  | gt => exact (if_neg (lt h).asymm).trans (if_pos (lt h))
  | eq =>
    obtain rfl : u = v := h
    exact (if_neg (lt_irrefl u)).trans (if_neg (lt_irrefl u))

/-- words none of which is a proper prefix of the other -/
theorem of_not_isPrefix (h : u <+: v → u = v) (h' : v <+: u → u = v) : Coded (cmp u v) u v :=
  of_cmp (fun hlt => of_lt hlt fun hp => hlt.ne (h hp)) (fun h h' => le_antisymm (not_lt.1 h') (not_lt.1 h))
    fun hlt => of_lt hlt fun hp => hlt.ne' (h' hp)

/-- words of one length -/
theorem of_length (h : u.length = v.length) : Coded (cmp u v) u v :=
  of_not_isPrefix (fun hp => hp.eq_of_length h) fun hp => (hp.eq_of_length h.symm).symm

/-- whatever follows -/
theorem eq_of_isPrefix (h : Coded c u v) (hp : u <+: v ++ t) : u = v := by
  obtain ⟨s, hs⟩ := hp
  cases c with
  | lt => exact absurd hs (Below.append h s t).lt.ne
  | gt => exact absurd hs (Below.append h t s).lt.ne'
  | eq => exact h

end Coded

end Letters

theorem le_append {β : Type} [LinearOrder β] (u v : List β) : u ≤ u ++ v := by
  refine not_lt.1 fun h => ?_
  induction u with
  | nil => exact not_lt_nil _ h
  | cons x u ih =>
    rcases cons_lt_cons_iff.1 h with hx | ⟨-, hu⟩
    · exact lt_irrefl x hx
    · exact ih hu

/-! ## Separators

What starts with a code word u and a separator p, against a code word v with the same separator or a larger one. -/

section Separators

variable {β : Type} [LinearOrder β] {c : Ordering} {u v : List β} {p q : β} {t : List β}

theorem Coded.sep_le_iff (h : Coded c u v) : v ++ [p] ≤ u ++ p :: t ↔ c ≠ .lt := by
  cases c with
  | lt => exact iff_of_false (not_le.2 (Below.append h (p :: t) [p]).lt) (fun h => h rfl)
  | gt => exact iff_of_true (Below.append h [p] (p :: t)).lt.le (by decide)
  | eq =>
    obtain rfl : u = v := h
    have hle := le_append (u ++ [p]) t
    rw [append_assoc] at hle
    exact iff_of_true hle (by decide)

theorem Coded.next_le_iff (h : Coded c u v) (hpq : p < q) : v ++ [q] ≤ u ++ p :: t ↔ c = .gt := by
  cases c with
  | lt => exact iff_of_false (not_le.2 (Below.append h (p :: t) [q]).lt) (by decide)
  | gt => exact iff_of_true (Below.append h [q] (p :: t)).lt.le rfl
  | eq =>
    obtain rfl : u = v := h
    exact iff_of_false (not_le.2 (Below.prepend u (.head hpq)).lt) (by decide)

theorem Coded.le_next_iff (h : Coded c u v) (hpq : p < q) : u ++ p :: t ≤ v ++ [q] ↔ c ≠ .gt := by
  cases c with
  | lt => exact iff_of_true (Below.append h (p :: t) [q]).lt.le (by decide)
  | gt => exact iff_of_false (not_le.2 (Below.append h [q] (p :: t)).lt) (fun h => h rfl)
  | eq =>
    obtain rfl : u = v := h
    exact iff_of_true (Below.prepend u (.head hpq)).lt.le (by decide)

theorem Coded.le_sep_iff (h : Coded c u v) (ht : t ≠ []) : u ++ p :: t ≤ v ++ [p] ↔ c = .lt := by
  cases c with
  | lt => exact iff_of_true (Below.append h (p :: t) [p]).lt.le rfl
  | gt => exact iff_of_false (not_le.2 (Below.append h [p] (p :: t)).lt) (by decide)
  | eq =>
    obtain rfl : u = v := h
    obtain ⟨x, t, rfl⟩ := exists_cons_of_ne_nil ht
    refine iff_of_false (fun hle => ?_) (by decide)
    have hlt : u ++ [p] < u ++ p :: x :: t :=
      lt_of_le_of_ne (by simpa using le_append (u ++ [p]) (x :: t)) (by simp)
    exact absurd hlt (not_lt.2 hle)

end Separators

theorem cmp_cons {β : Type} [LinearOrder β] (x y : β) (u v : List β) :
    cmp (x :: u) (y :: v) = (cmp x y).then (cmp u v) := by
  unfold cmp cmpUsing
  simp only [cons_lt_cons_iff]
  rcases lt_trichotomy x y with h | rfl | h
  · simp [h]
  · simp
  · simp [h, h.ne', h.not_gt]

/-! ## Numbers of a fixed width -/

/-- the last w digits of n in base 256, most significant first -/
def beBytes : ℕ → ℕ → List (Fin 256)
  | 0, _ => []
  | w + 1, n => Fin.ofNat 256 (n / 256 ^ w) :: beBytes w n

@[simp] theorem length_beBytes (w n : ℕ) : (beBytes w n).length = w := by
  induction w with
  | zero => rfl
  | succ w ih => simp [beBytes, ih]

theorem beBytes_mod {w v : ℕ} (h : w ≤ v) (n : ℕ) : beBytes w (n % 256 ^ v) = beBytes w n := by
  induction w with
  | zero => rfl
  | succ w ih =>
    obtain ⟨k, rfl⟩ := Nat.exists_eq_add_of_le h
    rw [beBytes, ih (Nat.le_of_succ_le h)]
    congr 1
    apply Fin.ext
    simp only [Fin.ofNat]
    rw [pow_add, pow_succ, mul_assoc, mod_mul_right_div_self, mod_mul_right_mod]

theorem beBytes_below {w n m : ℕ} (hm : m < 256 ^ w) (h : n < m) : Below (beBytes w n) (beBytes w m) := by
  induction w generalizing n m with
  | zero => simp at hm; omega
  | succ w ih =>
    have hpos : 0 < 256 ^ w := by positivity
    have hdigit : m / 256 ^ w < 256 := Nat.div_lt_of_lt_mul (by rwa [← pow_succ])
    have hle : n / 256 ^ w ≤ m / 256 ^ w := Nat.div_le_div_right h.le
    rw [beBytes]
    rcases hle.lt_or_eq with hlt | heq
    · refine .head (Fin.lt_def.2 ?_)
      simp only [Fin.ofNat]
      rwa [mod_eq_of_lt hdigit, mod_eq_of_lt (hlt.trans hdigit)]
    · -- the same first digit: the rests decide
      rw [heq]
      refine .tail ?_
      rw [← beBytes_mod le_rfl n, ← beBytes_mod le_rfl m]
      refine ih (mod_lt m hpos) ?_
      have hn' := div_add_mod n (256 ^ w)
      have hm' := div_add_mod m (256 ^ w)
      rw [heq] at hn'
      omega

/-- **Numbers** of w digits are coded by their digits. -/
theorem coded_beBytes {w n m : ℕ} (hn : n < 256 ^ w) (hm : m < 256 ^ w) : Coded (cmp n m) (beBytes w n) (beBytes w m) :=
  Coded.of_cmp (beBytes_below hm) (fun h h' => congrArg _ (le_antisymm (not_lt.1 h') (not_lt.1 h))) (beBytes_below hn)

/-- the number that the digits stand for -/
def ofBeBytes (u : List (Fin 256)) : ℕ := u.foldl (fun n (b : Fin 256) => n * 256 + b.val) 0

theorem foldl_beBytes (w n acc : ℕ) :
    (beBytes w n).foldl (fun n (b : Fin 256) => n * 256 + b.val) acc = acc * 256 ^ w + n % 256 ^ w := by
  induction w generalizing acc with
  | zero => simp [beBytes, mod_one]
  | succ w ih =>
    rw [beBytes, foldl_cons, ih, pow_succ, mod_mul]
    simp only [Fin.ofNat]
    ring

theorem ofBeBytes_beBytes {w n : ℕ} (h : n < 256 ^ w) : ofBeBytes (beBytes w n) = n := by
  rw [ofBeBytes, foldl_beBytes, zero_mul, zero_add, mod_eq_of_lt h]

end Mqlite.Lib
