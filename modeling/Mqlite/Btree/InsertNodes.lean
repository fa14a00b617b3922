/-
What an insert does to the nodes above the leaf.

A node takes the promotions of one level in order, and is cut when it is full. A tier is the row of nodes that one node
has become so far; later promotions go to the node of the tier that their key belongs to.
-/
import Mqlite.Btree.InsertLeaf

namespace Mqlite.Btree

open Lib Mvcc Storage List OrdMap Nat Set InternalNode

/-! ## What happens to the nodes above -/

section Internal

variable {a : Allocator} {store store' : PageStore} {page first : ℕ} {items : Items} {key : Key} {child : ℕ}

variable {left out : Items} {c right : ℕ} {sep : Key} {split : Option (Key × ℕ)} {tier : KeyTier}

/-- behind smaller separators and before larger ones -/
theorem insertItem_mid {right : Items} (h : (left ++ (key, child) :: right).Pairwise fun a b => a.1 < b.1) :
    insertItem key child (left ++ right) = left ++ (key, child) :: right := by
  induction left with
  | nil =>
    cases right with
    | nil => rfl
    | cons e right =>
      rw [nil_append, pairwise_cons] at h
      rw [nil_append, insertItem, if_pos (h.1 e mem_cons_self), nil_append]
  | cons e left ih =>
    rw [cons_append, pairwise_cons] at h
    have he : e.1 < key := h.1 (key, child) (by simp)
    rw [cons_append, insertItem, if_neg he.asymm, ih h.2, cons_append]

/-- a key below the separator goes to its left -/
theorem insertItem_left {right : Items} (h : key < sep) :
    insertItem key child (left ++ (sep, c) :: right) = insertItem key child left ++ (sep, c) :: right := by
  induction left with
  | nil => simp [insertItem, h]
  | cons e left ih =>
    rw [cons_append, insertItem, insertItem, ih]
    split_ifs <;> rfl

/-- a key that is not below goes to its right -/
theorem insertItem_right {right : Items} (hleft : ∀ e ∈ left, e.1 < sep) (h : ¬ key < sep) :
    insertItem key child (left ++ (sep, c) :: right) = left ++ (sep, c) :: insertItem key child right := by
  induction left with
  | nil => rw [nil_append, insertItem, if_neg h, nil_append]
  | cons e left ih =>
    rw [forall_mem_cons] at hleft
    have he : ¬ key < e.1 := fun hlt => h (hlt.trans hleft.1)
    rw [cons_append, insertItem, if_neg he, ih hleft.2, cons_append]

/-- the page and new internal pages are written, nothing else -/
structure NodeChange (store store' : PageStore) (pages new : List ℕ) : Prop where
  fresh : ∀ p ∈ new, p ≠ 0 ∧ store p = none
  nodup : new.Nodup
  same : ∀ p, p ∉ pages → store p ≠ none → store' p = store p
  kept : ∀ p, store p ≠ none → store' p ≠ none

theorem NodeChange.mono {pages pages' new : List ℕ} (h : NodeChange store store' pages new) (hsub : pages ⊆ pages') :
    NodeChange store store' pages' new := { h with same := fun p hp => h.same p fun hpp => hp (hsub hpp) }

/-- **One promotion** into a node: the new row stays in the page or is cut into two. -/
theorem insertIntoInternal_ok (h : insertIntoInternal a store page key child = .ok (store', split))
    (hpage : store page = some (.internal (ofRow first items))) :
    Tier store' page split.toList first (insertItem key child items) ∧
      NodeChange store store' [page] (split.toList.map Prod.snd) := by
  obtain ⟨node, hread, h⟩ := bind_eq_ok h
  rw [readInternal_ok, hpage] at hread
  cases hread
  rw [withPromotion_ofRow] at h
  split_ifs at h with hroom
  · obtain ⟨store₁, hwrite, h⟩ := bind_eq_ok h
    cases h
    obtain ⟨-, rfl⟩ := writeInternal_ok.1 hwrite
    exact ⟨writePage_self _ _ _, by simp, by simp, fun p hp _ => writePage_of_ne _ (by simpa using hp),
      fun p hp => writePage_ne_none _ hp⟩
  · obtain ⟨left, sep, c, right, heq, hmid⟩ := exists_mid (insertItem_ne_nil key child items)
    rw [heq] at hmid h ⊢
    rw [splitMid_ofRow first left sep c right hmid] at h
    obtain ⟨⟨store₁, rightPage⟩, halloc, h⟩ := bind_eq_ok h
    obtain ⟨leftEnc, hleft, h⟩ := bind_eq_ok h
    obtain ⟨rightEnc, hright, h⟩ := bind_eq_ok h
    cases h
    obtain ⟨hne0, hnone, rfl⟩ := allocPage_ok halloc
    obtain ⟨-, rfl⟩ := encode_ok.1 hleft
    obtain ⟨-, rfl⟩ := encode_ok.1 hright
    have hpp : page ≠ rightPage := by
      rintro rfl
      rw [hpage] at hnone
      cases hnone
    refine ⟨⟨left, c, right, rfl, ?_, ?_⟩, by simp [hne0, hnone], by simp, fun p hp hsome => ?_,
      fun p hsome => writePage_ne_none _ (writePage_ne_none _ (writePage_ne_none _ hsome))⟩
    · rw [writePage_of_ne _ hpp, writePage_self]
    · rw [Tier, writePage_self]
    · have hpr : p ≠ rightPage := by
        rintro rfl
        exact hsome hnone
      rw [writePage_of_ne _ hpr, writePage_of_ne _ (by simpa using hp), writePage_of_ne _ hpr]

/-! ### Several promotions -/

theorem promotionTarget_cons (page : ℕ) (sep : Key) (right : ℕ) (out : Items) (key : Key) :
    promotionTarget page ((sep, right) :: out) key = if key < sep then page else promotionTarget right out key := by
  by_cases h : key < sep
  · simp [promotionTarget, findIdx_cons, h]
  · unfold promotionTarget
    rw [findIdx_cons]
    simp only [h, decide_false, cond_false]
    cases hidx : out.findIdx fun s => key < s.1 with
    | zero => simp
    | succ idx =>
      have hlt : idx < out.length := by
        have := @List.findIdx_le_length _ (fun s => decide (key < s.1)) out
        omega
      simp [getElem?_eq_getElem hlt]

theorem Tier.frame (h : Tier store page out first items) (hsame : ∀ p ∈ page :: out.map Prod.snd, store' p = store p) :
    Tier store' page out first items := by
  induction out generalizing page first items with
  | nil => rw [Tier, hsame page mem_cons_self]; exact h
  | cons e out ih =>
    obtain ⟨items₁, c, items₂, rfl, hpage, hrest⟩ := h
    rw [forall_mem_cons] at hsame
    exact ⟨items₁, c, items₂, rfl, hsame.1 ▸ hpage, ih hrest hsame.2⟩

theorem Tier.ne_none (h : Tier store page out first items) : ∀ p ∈ page :: out.map Prod.snd, store p ≠ none := by
  induction out generalizing page first items with
  | nil =>
    rw [Tier] at h
    simp [h]
  | cons e out ih =>
    obtain ⟨items₁, c, items₂, -, hpage, hrest⟩ := h
    exact forall_mem_cons.2 ⟨by simp [hpage], ih hrest⟩

theorem Tier.append {out' : Items} {items' : Items} (h : Tier store page out first items)
    (h' : Tier store right out' c items') :
    Tier store page (out ++ (sep, right) :: out') first (items ++ (sep, c) :: items') := by
  induction out generalizing page first items with
  | nil => exact ⟨items, c, items', rfl, h, h'⟩
  | cons e out ih =>
    obtain ⟨items₁, d, items₂, rfl, hpage, hrest⟩ := h
    exact ⟨items₁, d, items₂ ++ (sep, c) :: items', by simp, hpage, ih hrest⟩

/-- the nodes after a promotion -/
def outAfter (out : Items) (key : Key) : Option (Key × ℕ) → Items
  | none => out
  | some s => out.insertIdx (out.findIdx fun s => key < s.1) s

theorem outAfter_of_lt (h : key < sep) (split : Option (Key × ℕ)) :
    outAfter ((sep, right) :: out) key split = split.toList ++ (sep, right) :: out := by
  cases split <;> simp [outAfter, findIdx_cons, h]

theorem outAfter_of_not_lt (h : ¬ key < sep) (split : Option (Key × ℕ)) :
    outAfter ((sep, right) :: out) key split = (sep, right) :: outAfter out key split := by
  cases split <;> simp [outAfter, findIdx_cons, h]

theorem Tier.insert (htier : Tier store page out first items)
    (hsorted : items.Pairwise fun a b => a.1 < b.1) (hnodup : (page :: out.map Prod.snd).Nodup)
    (h : insertIntoInternal a store (promotionTarget page out key) key child = .ok (store', split)) :
    Tier store' page (outAfter out key split) first (insertItem key child items) ∧
      NodeChange store store' (page :: out.map Prod.snd) (split.toList.map Prod.snd) := by
  induction out generalizing page first items with
  | nil =>
    obtain ⟨ht, hchange⟩ := insertIntoInternal_ok h htier
    refine ⟨?_, hchange⟩
    cases split <;> exact ht
  | cons e out ih =>
    obtain ⟨sep, right⟩ := e
    have hsome := htier.ne_none
    obtain ⟨items₁, c, items₂, rfl, hpage, hrest⟩ := htier
    rw [promotionTarget_cons] at h
    rw [pairwise_append, pairwise_cons] at hsorted
    rw [nodup_cons] at hnodup
    by_cases hlt : key < sep
    · rw [if_pos hlt] at h
      obtain ⟨ht, hchange⟩ := insertIntoInternal_ok h hpage
      rw [outAfter_of_lt hlt, insertItem_left hlt]
      refine ⟨ht.append (hrest.frame fun p hp => ?_), hchange.mono (by simp)⟩
      refine hchange.same p (fun hpp => ?_) (hsome p (List.mem_cons_of_mem _ hp))
      rw [List.mem_singleton] at hpp
      exact hnodup.1 (hpp ▸ hp)
    · rw [if_neg hlt] at h
      obtain ⟨ht, hchange⟩ := ih hrest hsorted.2.1.2 hnodup.2 h
      rw [outAfter_of_not_lt hlt, insertItem_right (fun e he => hsorted.2.2 e he (sep, c) mem_cons_self) hlt]
      have hsame : store' page = store page := hchange.same page hnodup.1 (by simp [hpage])
      exact ⟨⟨items₁, c, _, rfl, hsame ▸ hpage, ht⟩, hchange.mono (subset_cons_self _ _)⟩

theorem map_outAfter_perm (out : Items) (key : Key) (split : Option (Key × ℕ)) :
    ((outAfter out key split).map Prod.snd).Perm (split.toList.map Prod.snd ++ out.map Prod.snd) := by
  cases split with
  | none => exact List.Perm.refl _
  | some s =>
    exact (perm_insertIdx s out findIdx_le_length).map _

/-- the new page is none of the old ones -/
theorem NodeChange.nodup_outAfter {pages : List ℕ} (h : NodeChange store store' pages (split.toList.map Prod.snd))
    (hsome : ∀ p ∈ page :: out.map Prod.snd, store p ≠ none) (hnodup : (page :: out.map Prod.snd).Nodup) (key : Key) :
    (page :: (outAfter out key split).map Prod.snd).Nodup := by
  rw [((map_outAfter_perm out key split).cons page).nodup_iff, ← perm_middle.nodup_iff, nodup_append]
  exact ⟨h.nodup, hnodup, fun p hp q hq heq => hsome q hq (heq ▸ (h.fresh p hp).2)⟩

/-- **Promotions.** The row with all of them inserted is spread over the page and new pages. -/
theorem insertPromotions_ok {promotions left right out out' : Items}
    (h : insertPromotions a page promotions store out = .ok (store', out'))
    (htier : Tier store page out first (left ++ right))
    (hsorted : (left ++ promotions ++ right).Pairwise fun a b => a.1 < b.1)
    (hnodup : (page :: out.map Prod.snd).Nodup) :
    Tier store' page out' first (left ++ promotions ++ right) ∧ (page :: out'.map Prod.snd).Nodup ∧
      (∀ p ∈ out'.map Prod.snd, p ∈ out.map Prod.snd ∨ p ≠ 0 ∧ store p = none) ∧
      (∀ p, p ∉ page :: out.map Prod.snd → store p ≠ none → store' p = store p) ∧ ∀ p, store p ≠ none →
        store' p ≠ none := by
  induction promotions generalizing left out store with
  | nil =>
    cases h
    exact ⟨by simpa using htier, hnodup, fun p hp => .inl hp, fun _ _ _ => rfl, fun _ hp => hp⟩
  | cons e promotions ih =>
    obtain ⟨key, child⟩ := e
    obtain ⟨⟨store₁, split⟩, h₁, h⟩ := bind_eq_ok h
    have hsorted₁ : (left ++ (key, child) :: right).Pairwise fun a b => a.1 < b.1 := by
      refine hsorted.sublist ?_
      rw [append_assoc]
      exact List.Sublist.append_left (List.Sublist.cons_cons _ (sublist_append_right _ _)) _
    have hsorted₀ : (left ++ right).Pairwise fun a b => a.1 < b.1 :=
      hsorted₁.sublist (List.Sublist.append_left (sublist_cons_self _ _) _)
    obtain ⟨ht, hchange⟩ := htier.insert hsorted₀ hnodup h₁
    rw [insertItem_mid hsorted₁] at ht
    have hnodup₁ := hchange.nodup_outAfter htier.ne_none hnodup key
    have hmem : ∀ p ∈ (outAfter out key split).map Prod.snd, p ∈ out.map Prod.snd ∨ p ≠ 0 ∧ store p = none := by
      intro p hp
      rcases mem_append.1 ((map_outAfter_perm out key split).subset hp) with hp | hp
      · exact .inr (hchange.fresh p hp)
      · exact .inl hp
    have ht' : Tier store₁ page (outAfter out key split) first (left ++ [(key, child)] ++ right) := by simpa using ht
    obtain ⟨hfinal, hnodup', hfresh, hsame, hkept⟩ := ih h ht' (by simpa using hsorted) hnodup₁
    refine ⟨by simpa using hfinal, hnodup', fun p hp => ?_, fun p hp hsome => ?_,
      fun p hsome => hkept p (hchange.kept p hsome)⟩
    · rcases hfresh p hp with hp | ⟨hp0, hnone⟩
      · exact hmem p hp
      · refine .inr ⟨hp0, ?_⟩
        by_contra hsome
        exact hchange.kept p hsome hnone
    · have hp₁ : p ∉ page :: (outAfter out key split).map Prod.snd := by
        rw [mem_cons, not_or] at hp ⊢
        refine ⟨hp.1, fun hmem' => ?_⟩
        rcases hmem p hmem' with hmem' | ⟨-, hnone⟩
        · exact hp.2 hmem'
        · exact hsome hnone
      rw [hsame p hp₁ (hchange.kept p hsome), hchange.same p hp hsome]

/-! ### The same, told by keys -/

/-- the separators of the page and of the pages it was split into -/
def TierKeys (store : PageStore) : ℕ → Items → KeyTier → Prop
  | page, [], tier => tier.2 = [] ∧ ∃ node, store page = some (.internal node) ∧ node.entries.map Prod.fst = tier.1
  | page, (sep, right) :: out, tier => ∃ row rest, tier.2 = (sep, row) :: rest ∧
      (∃ node, store page = some (.internal node) ∧ node.entries.map Prod.fst = tier.1) ∧
        TierKeys store right out (row, rest)

/-- the cut in the middle -/
theorem cutRow_mid {row left right : List Key} {mid : Key} (hbig : ¬ keysSize row ≤ PAGE_SIZE_INTERNAL)
    (hrow : row = left ++ mid :: right)
    (hmid : left.length = row.length / 2) : cutRow row = ((left, [(mid, right)]), [left, right]) := by
  have hdrop : row.drop (row.length / 2) = mid :: right := by rw [← hmid, hrow, drop_left]
  have htake : row.take (row.length / 2) = left := by rw [← hmid, hrow, take_left]
  rw [cutRow, if_neg hbig, hdrop, htake]

theorem insertIntoInternal_keys {node : InternalNode} (hnode : store page = some (.internal node)) :
    Outcome (insertIntoInternal a store page key child)
      (fun r => TierKeys r.1 page r.2.toList (cutRow (insertKey key (node.entries.map Prod.fst))).1)
      (Fit (cutRow (insertKey key (node.entries.map Prod.fst))).2) := by
  obtain ⟨first, items, rfl⟩ := exists_row node
  have hkeys : insertKey key ((ofRow first items).entries.map Prod.fst) =
      (insertItem key child items).map Prod.fst := by
    rw [map_fst_ofRow, map_fst_insertItem]
  have hread := readInternal_ok.2 hnode
  rw [insertIntoInternal, bind_ok hread, withPromotion_ofRow]
  by_cases hroom : (ofRow first items).canInsert key.length = true
  · rw [if_pos hroom]
    rw [canInsert_iff, hkeys] at hroom
    have hwrite : writeInternal store page (ofRow first (insertItem key child items)) = _ :=
      writeInternal_ok.2 ⟨by rwa [encodedSize_eq_keysSize, map_fst_ofRow], rfl⟩
    rw [bind_ok hwrite, hkeys, cutRow, if_pos hroom]
    exact ⟨⟨rfl, _, writePage_self _ _ _, map_fst_ofRow _ _⟩, by simp [Fit]⟩
  · rw [if_neg hroom]
    rw [canInsert_iff, hkeys] at hroom
    obtain ⟨left, sep, c, right, heq, hmid⟩ := exists_mid (insertItem_ne_nil key child items)
    rw [heq] at hmid
    have hcut :=
      @cutRow_mid _ (left.map Prod.fst) (right.map Prod.fst) sep hroom (by rw [heq]; simp)
        (by rw [heq]; simpa using hmid)
    rw [hkeys, hcut, heq, splitMid_ofRow first left sep c right hmid]
    cases halloc : allocPage a store with
    | error e => exact .inl (allocPage_error halloc)
    | ok r =>
      obtain ⟨store₁, rightPage⟩ := r
      obtain ⟨-, hnone, rfl⟩ := allocPage_ok halloc
      have hpp : page ≠ rightPage := by
        rintro rfl
        rw [hnode] at hnone
        cases hnone
      have hsizeL : (ofRow first left).encodedSize = keysSize (left.map Prod.fst) := by
        rw [encodedSize_eq_keysSize, map_fst_ofRow]
      have hsizeR : (ofRow c right).encodedSize = keysSize (right.map Prod.fst) := by
        rw [encodedSize_eq_keysSize, map_fst_ofRow]
      change Outcome (encode (ofRow first left) >>= _) _ _
      by_cases hl : keysSize (left.map Prod.fst) ≤ PAGE_SIZE_INTERNAL
      · rw [bind_ok (encode_ok.2 ⟨by rwa [hsizeL], rfl⟩)]
        by_cases hr : keysSize (right.map Prod.fst) ≤ PAGE_SIZE_INTERNAL
        · rw [bind_ok (encode_ok.2 ⟨by rwa [hsizeR], rfl⟩)]
          refine ⟨⟨_, _, rfl, ⟨ofRow first left, ?_, map_fst_ofRow _ _⟩, rfl, ofRow c right, writePage_self _ _ _,
            map_fst_ofRow _ _⟩, ?_⟩
          · simp only
            rw [writePage_of_ne _ hpp, writePage_self]
          · simp [Fit, hl, hr]
        · rw [encode, if_pos (by rw [hsizeR]; exact not_le.1 hr)]
          exact .inr ⟨by simp, fun hfit => hr (hfit _ (by simp))⟩
      · rw [encode, if_pos (by rw [hsizeL]; exact not_le.1 hl)]
        exact .inr ⟨by simp, fun hfit => hl (hfit _ (by simp))⟩

section

variable (h : TierKeys store page out tier)

include h

theorem TierKeys.keys : out.map Prod.fst = tier.2.map Prod.fst := by
  induction out generalizing page tier with
  | nil => rw [h.1]; rfl
  | cons e out ih =>
    obtain ⟨row, rest, hrest, -, htail⟩ := h
    rw [hrest, map_cons, map_cons, ih htail]

theorem TierKeys.ne_none : ∀ p ∈ page :: out.map Prod.snd, store p ≠ none := by
  induction out generalizing page tier with
  | nil =>
    obtain ⟨-, node, hnode, -⟩ := h
    simp [hnode]
  | cons e out ih =>
    obtain ⟨row, rest, -, ⟨node, hnode, -⟩, htail⟩ := h
    exact forall_mem_cons.2 ⟨by simp [hnode], ih htail⟩

theorem TierKeys.frame (hsame : ∀ p ∈ page :: out.map Prod.snd, store' p = store p) :
    TierKeys store' page out tier := by
  induction out generalizing page tier with
  | nil =>
    obtain ⟨hnil, node, hnode, hkeys⟩ := h
    exact ⟨hnil, node, (hsame page mem_cons_self).trans hnode, hkeys⟩
  | cons e out ih =>
    obtain ⟨row, rest, hrest, ⟨node, hnode, hkeys⟩, htail⟩ := h
    rw [forall_mem_cons] at hsame
    exact ⟨row, rest, hrest, ⟨node, hsame.1.trans hnode, hkeys⟩, ih htail hsame.2⟩

theorem TierKeys.append {out' : Items} {row : List Key} {rest : List (Key × List Key)}
    (h' : TierKeys store right out' (row, rest)) :
    TierKeys store page (out ++ (sep, right) :: out') (tier.1, tier.2 ++ (sep, row) :: rest) := by
  induction out generalizing page tier with
  | nil =>
    obtain ⟨hnil, hnode⟩ := h
    exact ⟨row, rest, by rw [hnil]; rfl, hnode, h'⟩
  | cons e out ih =>
    obtain ⟨row₁, rest₁, hrest, hnode, htail⟩ := h
    exact ⟨row₁, rest₁ ++ (sep, row) :: rest, by rw [hrest]; rfl, hnode, ih htail⟩

end

theorem insertIntoInternal_change {node : InternalNode} (hnode : store page = some (.internal node))
    (h : insertIntoInternal a store page key child = .ok (store', split)) :
    NodeChange store store' [page] (split.toList.map Prod.snd) := by
  obtain ⟨first, items, rfl⟩ := exists_row node
  exact (insertIntoInternal_ok h hnode).2

theorem TierKeys.insert (htier : TierKeys store page out tier) (hnodup : (page :: out.map Prod.snd).Nodup) :
    Outcome (insertIntoInternal a store (promotionTarget page out key) key child)
      (fun r => TierKeys r.1 page (outAfter out key r.2) (promoteKey key tier.1 tier.2).1 ∧
        NodeChange store r.1 (page :: out.map Prod.snd) (r.2.toList.map Prod.snd))
      (Fit (promoteKey key tier.1 tier.2).2) := by
  induction out generalizing page tier with
  | nil =>
    obtain ⟨hnil, node, hnode, hkeys⟩ := htier
    rw [hnil, ← hkeys]
    refine (insertIntoInternal_keys hnode).imp fun r hr ht => ⟨?_, insertIntoInternal_change hnode hr⟩
    obtain ⟨store₁, split⟩ := r
    cases split <;> exact ht
  | cons e out ih =>
    obtain ⟨sep, right⟩ := e
    have hsome := htier.ne_none
    obtain ⟨row, rest, hrest, ⟨node, hnode, hkeys⟩, htail⟩ := htier
    rw [nodup_cons] at hnodup
    rw [promotionTarget_cons, hrest, promoteKey]
    by_cases hlt : key < sep
    · rw [if_pos hlt, if_pos hlt, ← hkeys]
      refine (insertIntoInternal_keys hnode).imp fun r hr ht => ?_
      have hchange := insertIntoInternal_change hnode hr
      rw [outAfter_of_lt hlt]
      refine ⟨ht.append (htail.frame fun p hp => ?_), hchange.mono (by simp)⟩
      refine hchange.same p (fun hpp => ?_) (hsome p (List.mem_cons_of_mem _ hp))
      rw [List.mem_singleton] at hpp
      exact hnodup.1 (hpp ▸ hp)
    · rw [if_neg hlt, if_neg hlt]
      refine (ih htail hnodup.2).imp fun r hr ht => ?_
      obtain ⟨ht, hchange⟩ := ht
      rw [outAfter_of_not_lt hlt]
      have hsame : r.1 page = store page := hchange.same page hnodup.1 (by simp [hnode])
      exact ⟨⟨_, _, rfl, ⟨node, hsame.trans hnode, hkeys⟩, ht⟩, hchange.mono (subset_cons_self _ _)⟩

/-- **Promotions, by keys.** -/
theorem insertPromotions_keys {promotions out : Items} {tier : KeyTier} (htier : TierKeys store page out tier)
    (hnodup : (page :: out.map Prod.snd).Nodup) :
    Outcome (insertPromotions a page promotions store out)
      (fun r => TierKeys r.1 page r.2 (promoteKeys (promotions.map Prod.fst) tier).1)
      (Fit (promoteKeys (promotions.map Prod.fst) tier).2) := by
  induction promotions generalizing out tier store with
  | nil => exact ⟨htier, by simp [Fit, promoteKeys]⟩
  | cons e promotions ih =>
    obtain ⟨key, child⟩ := e
    rw [map_cons, promoteKeys, fit_append]
    refine (htier.insert hnodup).bind fun r hr hgood => ?_
    obtain ⟨ht, hchange⟩ := hgood
    exact ih ht (hchange.nodup_outAfter htier.ne_none hnodup key)

end Internal

end Mqlite.Btree
