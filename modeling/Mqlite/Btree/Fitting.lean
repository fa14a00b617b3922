/-
Properties that every written page keeps.

`Stable I`: a property of stores that survives writing a page that fits, and freeing one. Every call on a tree keeps
such a property (`TreeOp.exec_ends`), since each page goes through `encode` before it is written. Two of them are used:
- `PagesFit`: no leaf and no internal node is larger than its page;
- `Bounded`: pages are free from some number on. The allocator `Allocator.least` finds a page in such a store, so a call
  on it never fails for lack of pages.
-/
import Mqlite.Btree.Refines

namespace Mqlite.Btree

open Lib Mvcc Storage List LeafNode InternalNode

/-- the page is not larger than pages of its kind are -/
def Page.Fits : Page → Prop
  | .leaf n => n.usedBytes ≤ PAGE_SIZE_LEAF
  | .internal n => n.encodedSize ≤ PAGE_SIZE_INTERNAL
  | .overflow _ _ => True
  | .blank => True

structure Stable (I : PageStore → Prop) : Prop where
  write : ∀ store p x, I store → x.Fits → I (writePage store p x)
  free : ∀ store p, I store → I (freePage store p)

/-- the allocator may find no page although the property holds -/
def Full (I : PageStore → Prop) (a : Allocator) : Prop := ∃ store, I store ∧ a.alloc store = none

/-- how a call ends that started with the property -/
def Ends (I : PageStore → Prop) (full : Prop) {α : Type} (storeOf : α → PageStore) (r : Except TreeError α) : Prop :=
  match r with
  | .ok x => I (storeOf x)
  | .error e => e = .alloc → full

section Ends

variable {I : PageStore → Prop} {full : Prop} {α β : Type} {f : α → PageStore} {g : β → PageStore}
  {r : Except TreeError α} {k : α → Except TreeError β}

theorem Ends.bind (h : Ends I full f r) (hk : ∀ x, I (f x) → Ends I full g (k x)) : Ends I full g (r >>= k) := by
  cases r with
  | error e => exact h
  | ok x => exact hk x h

/-- reading changes nothing -/
theorem Ends.bind_read (h : r ≠ .error .alloc) (hk : ∀ x, r = .ok x → Ends I full g (k x)) :
    Ends I full g (r >>= k) := by
  cases r with
  | error e =>
    rintro rfl
    exact absurd rfl h
  | ok x => exact hk x rfl

theorem Ends.error {e : TreeError} (h : e ≠ .alloc) : Ends I full f (.error e) := fun heq => absurd heq h

theorem Ends.of_ok {x : α} (h : Ends I full f r) (hr : r = .ok x) : I (f x) := by
  rw [hr] at h
  exact h

end Ends

section Read

variable {store : PageStore} {page : ℕ}

theorem readLeaf_ne_alloc : readLeaf store page ≠ .error .alloc := by
  unfold readLeaf
  split <;> simp

theorem readInternal_ne_alloc : readInternal store page ≠ .error .alloc := by
  unfold readInternal
  split <;> simp

theorem LeafNode.encode_ne_alloc (n : LeafNode) : n.encode ≠ .error .alloc := by
  unfold LeafNode.encode
  split_ifs <;> simp

theorem InternalNode.encode_ne_alloc (n : InternalNode) : n.encode ≠ .error .alloc := by
  unfold encode
  split_ifs <;> simp

theorem LeafNode.encode_fits {n : LeafNode} {x : Page} (h : n.encode = .ok x) : x.Fits := by
  obtain ⟨hfit, rfl⟩ := encode_ok.1 h
  exact hfit

theorem InternalNode.encode_fits {n : InternalNode} {x : Page} (h : n.encode = .ok x) : x.Fits := by
  obtain ⟨hfit, rfl⟩ := encode_ok.1 h
  exact hfit

theorem packLoop_ne_alloc (cells current : List LeafCell) (currentUsed : ℕ) :
    packLoop cells current currentUsed ≠ .error .alloc := by
  induction cells generalizing current currentUsed with
  | nil => simp [packLoop]
  | cons cell cells ih =>
    rw [packLoop]
    split_ifs
    · simp
    · intro h
      rcases bind_eq_error h with h | ⟨groups, -, h⟩
      · exact ih _ _ h
      · cases h
    · simp
    · exact ih _ _

theorem splitGroups_ne_alloc (cells : List LeafCell) : splitGroups cells ≠ .error .alloc := by
  unfold splitGroups
  split
  · simp
  · exact packLoop_ne_alloc _ _ _

theorem readLeafForKey_ne_alloc (t : BTree) (key : Key) : t.readLeafForKey key ≠ .error .alloc := by
  unfold BTree.readLeafForKey
  split
  · simp
  · intro h
    rcases bind_eq_error h with h | ⟨n, -, h⟩
    · exact readLeaf_ne_alloc h
    · cases h

end Read

/-! ## Every call -/

section Calls

variable {I : PageStore → Prop} (hI : Stable I) {full : Prop} {a : Allocator} {store : PageStore} {page : ℕ}
include hI

theorem writeLeaf_ends (h : I store) (n : LeafNode) : Ends I full id (writeLeaf store page n) :=
  Ends.bind_read n.encode_ne_alloc fun x hx => hI.write store page x h (encode_fits hx)

theorem writeInternal_ends (h : I store) (n : InternalNode) : Ends I full id (writeInternal store page n) :=
  Ends.bind_read n.encode_ne_alloc fun x hx => hI.write store page x h (encode_fits hx)

theorem allocPage_ends (h : I store) : Ends I (Full I a) Prod.fst (allocPage a store) := by
  unfold allocPage
  cases hp : a.alloc store with
  | none => exact fun _ => ⟨store, h, hp⟩
  | some p => exact hI.write store p .blank h trivial

theorem allocPages_ends (n : ℕ) (h : I store) : Ends I (Full I a) Prod.fst (allocPages a n store) := by
  induction n generalizing store with
  | zero => exact h
  | succ n ih =>
    refine (allocPage_ends hI h).bind fun x hx => ?_
    exact (ih hx).bind fun y hy => hy

/-! ### Values -/

theorem writeChunks_stable (pages : List ℕ) (data : Bytes) (h : I store) : I (writeChunks pages data store) := by
  induction pages generalizing data with
  | nil => exact h
  | cons page pages ih => exact hI.write _ page _ (ih _) trivial

theorem storeValue_ends (value : Bytes) (h : I store) : Ends I (Full I a) Prod.fst (storeValue a store value) := by
  unfold storeValue
  split_ifs
  · refine Ends.bind (f := Prod.fst) ?_ fun x hx => hx
    exact (allocPages_ends hI _ h).bind fun y hy => writeChunks_stable hI _ _ hy
  · exact h

theorem freeChunks_ends (fuel cur : ℕ) (h : I store) : Ends I full id (freeChunks fuel cur store) := by
  induction fuel generalizing cur store with
  | zero =>
    unfold freeChunks
    split_ifs
    · exact h
    · exact Ends.error (by simp)
  | succ fuel ih =>
    unfold freeChunks
    split_ifs
    · exact h
    · dsimp only
      split
      · exact ih _ (hI.free store cur h)
      · exact Ends.error (by simp)

theorem freeValue_ends (cell : VersionData) (h : I store) : Ends I full id (freeValue store cell) := by
  cases cell with
  | inline bytes => exact h
  | overflow firstPage totalLength => exact freeChunks_ends hI _ _ h

/-! ### Insert -/

theorem relinkPrev_ends (prev : ℕ) (h : I store) : Ends I full id (relinkPrev store page prev) := by
  unfold relinkPrev
  split_ifs
  · exact h
  · exact Ends.bind_read readLeaf_ne_alloc fun n _ => writeLeaf_ends hI h _

theorem writeGroups_ends (separators : List Key) (deltas : OrdMap Key Chain) (oldNext i prev : ℕ) (pages : List ℕ)
    (groups : List (List LeafCell)) (h : I store) :
    Ends I full id (writeGroups separators deltas oldNext i prev pages groups store) := by
  induction pages generalizing i prev groups store with
  | nil => exact h
  | cons page pages ih =>
    cases groups with
    | nil => exact h
    | cons g groups => exact (writeLeaf_ends hI h _).bind fun store₁ h₁ => ih _ _ _ h₁

theorem insertLeaf_ends (key : Key) (value : VersionData) (h : I store) :
    Ends I (Full I a) Prod.fst (insertLeaf a store page key value) := by
  refine Ends.bind_read readLeaf_ne_alloc fun n _ => ?_
  split_ifs
  · exact Ends.error (by simp)
  · exact (writeLeaf_ends hI h _).bind fun store₁ h₁ => h₁
  · refine Ends.bind_read (splitGroups_ne_alloc _) fun groups _ => ?_
    refine (allocPages_ends hI _ h).bind fun r h₁ => ?_
    refine (relinkPrev_ends hI _ h₁).bind fun store₂ h₂ => ?_
    exact (writeGroups_ends hI _ _ _ _ _ _ _ h₂).bind fun store₃ h₃ => h₃

theorem insertIntoInternal_ends (key : Key) (child : ℕ) (h : I store) :
    Ends I (Full I a) Prod.fst (insertIntoInternal a store page key child) := by
  refine Ends.bind_read readInternal_ne_alloc fun node _ => ?_
  split_ifs
  · exact (writeInternal_ends hI h _).bind fun store₁ h₁ => h₁
  · split
    · exact Ends.error (by simp)
    · refine (allocPage_ends hI h).bind fun r h₁ => ?_
      refine Ends.bind_read (encode_ne_alloc _) fun left hleft => ?_
      refine Ends.bind_read (encode_ne_alloc _) fun right hright => ?_
      exact hI.write _ _ _ (hI.write _ _ _ h₁ (encode_fits hleft)) (encode_fits hright)

theorem insertPromotions_ends (promotions out : Items) (h : I store) :
    Ends I (Full I a) Prod.fst (insertPromotions a page promotions store out) := by
  induction promotions generalizing store out with
  | nil => exact h
  | cons e promotions ih =>
    exact (insertIntoInternal_ends hI _ _ h).bind fun r h₁ => ih _ h₁

theorem insertSubtree_ends (key : Key) (value : VersionData) (level : ℕ) (h : I store) :
    Ends I (Full I a) Prod.fst (insertSubtree a key value level page store) := by
  induction level generalizing page with
  | zero => exact insertLeaf_ends hI key value h
  | succ level ih =>
    refine Ends.bind_read readInternal_ne_alloc fun node _ => ih.bind fun r h₁ => ?_
    dsimp only
    split_ifs
    · exact h₁
    · exact insertPromotions_ends hI _ _ h₁

theorem growRoot_ends (fuel rootPage rootLevel : ℕ) (splits : Items) (h : I store) :
    Ends I (Full I a) Prod.fst (growRoot a fuel store rootPage rootLevel splits) := by
  induction fuel generalizing store rootPage rootLevel splits with
  | zero =>
    cases splits with
    | nil => exact h
    | cons e splits => exact Ends.error (by simp)
  | succ fuel ih =>
    cases splits with
    | nil => exact h
    | cons e splits =>
      refine (allocPage_ends hI h).bind fun r h₁ => ?_
      refine (writeInternal_ends hI h₁ _).bind fun store₂ h₂ => ?_
      exact (insertPromotions_ends hI _ _ h₂).bind fun r h₃ => ih _ _ _ h₃

theorem insertRoot_ends {t : BTree} (key : Key) (value : VersionData) (h : I t.store) :
    Ends I (Full I a) BTree.store (insertRoot a t key value) := by
  refine (insertSubtree_ends hI key value _ h).bind fun r h₁ => ?_
  exact (growRoot_ends hI _ _ _ _ h₁).bind fun r h₂ => h₂

theorem insert_ends {t : BTree} (key : Key) (value : Bytes) (h : I t.store) :
    Ends I (Full I a) (fun r => r.1.store) (t.insert a key value) := by
  refine (storeValue_ends hI value h).bind fun r h₁ => ?_
  have hroot := @insertRoot_ends I hI a { t with store := r.1 } key r.2 h₁
  dsimp only
  split
  next t₁ ht₁ => exact hroot.of_ok ht₁
  next => exact h₁
  next e _ he =>
    rw [he] at hroot
    exact hroot

/-! ### Delete -/

variable {t : BTree}

theorem removeFromParent_ends (parentPage separatorIdx : ℕ) (h : I t.store) :
    Ends I full BTree.store (removeFromParent t parentPage separatorIdx) := by
  refine Ends.bind_read readInternal_ne_alloc fun parent _ => ?_
  dsimp only
  split_ifs
  · exact hI.free _ _ h
  · exact (writeInternal_ends hI h _).bind fun store₁ h₁ => h₁

theorem relinkNext_ends (next : ℕ) (h : I store) : Ends I full id (relinkNext store page next) := by
  unfold relinkNext
  split_ifs
  · exact h
  · exact Ends.bind_read readLeaf_ne_alloc fun n _ => writeLeaf_ends hI h _

theorem mergeLeafIntoLeft_ends (parentPage childIdx leftPage : ℕ) (leftNode : LeafNode) (page : ℕ) (node : LeafNode)
    (h : I t.store) :
    Ends I full BTree.store (mergeLeafIntoLeft t parentPage childIdx leftPage leftNode page node) := by
  refine (relinkPrev_ends hI _ h).bind fun store₁ h₁ => ?_
  refine (writeLeaf_ends hI h₁ _).bind fun store₂ h₂ => ?_
  refine Ends.bind (f := id) (Ends.bind_read readInternal_ne_alloc fun parent _ =>
    writeInternal_ends hI (hI.free _ _ h₂) _) fun store₃ h₃ => ?_
  exact removeFromParent_ends hI _ _ h₃

theorem mergeLeafIntoRight_ends (parentPage page : ℕ) (node : LeafNode) (rightPage : ℕ) (rightNode : LeafNode)
    (h : I t.store) : Ends I full BTree.store (mergeLeafIntoRight t parentPage page node rightPage rightNode) := by
  refine (relinkNext_ends hI _ h).bind fun store₁ h₁ => ?_
  refine (writeLeaf_ends hI h₁ _).bind fun store₂ h₂ => ?_
  exact removeFromParent_ends hI _ _ (hI.free _ _ h₂)

theorem redistributeLeafPair_ends (leftPage : ℕ) (leftNode : LeafNode) (rightPage : ℕ) (rightNode : LeafNode)
    (parentPage separatorIdx : ℕ) (h : I t.store) :
    Ends I full BTree.store (redistributeLeafPair t leftPage leftNode rightPage rightNode parentPage separatorIdx) := by
  unfold redistributeLeafPair
  dsimp only
  split
  · exact Ends.error (by simp)
  · refine Ends.bind_read (encode_ne_alloc _) fun left hleft => ?_
    refine Ends.bind_read (encode_ne_alloc _) fun right hright => ?_
    refine Ends.bind_read readInternal_ne_alloc fun parent _ => ?_
    refine Ends.bind_read (encode_ne_alloc _) fun enc henc => ?_
    refine hI.write _ _ _ (hI.write _ _ _ (hI.write _ _ _ h ?_) ?_) (encode_fits henc)
    · exact encode_fits hleft
    · exact encode_fits hright

theorem handleLeafUnderflow_ends (page : ℕ) (node : LeafNode) (parentPage childIdx : ℕ) (h : I t.store) :
    Ends I full BTree.store (handleLeafUnderflow t page node parentPage childIdx) := by
  refine Ends.bind_read readInternal_ne_alloc fun parent _ => ?_
  split_ifs
  · refine Ends.bind_read readLeaf_ne_alloc fun left _ => ?_
    split_ifs
    · exact mergeLeafIntoLeft_ends hI _ _ _ _ _ _ h
    · exact redistributeLeafPair_ends hI _ _ _ _ _ _ h
  · refine Ends.bind_read readLeaf_ne_alloc fun right _ => ?_
    split_ifs
    · exact mergeLeafIntoRight_ends hI _ _ _ _ _ h
    · exact redistributeLeafPair_ends hI _ _ _ _ _ _ h
  · exact Ends.error (by simp)

theorem deleteFromLeaf_ends (page : ℕ) (key : Key) (path : Option (ℕ × ℕ)) (h : I t.store) :
    Ends I full (fun r => r.1.store) (deleteFromLeaf t page key path) := by
  refine Ends.bind_read readLeaf_ne_alloc fun n _ => ?_
  split
  · exact h
  · refine (freeValue_ends hI _ h).bind fun store₁ h₁ => (writeLeaf_ends hI h₁ _).bind fun store₂ h₂ => ?_
    split
    · exact h₂
    · split_ifs
      · refine Ends.bind (f := BTree.store) ?_ fun t₁ ht₁ => ht₁
        exact handleLeafUnderflow_ends hI _ _ _ _ h₂
      · exact h₂

theorem delete_ends {t : BTree} (key : Key) (h : I t.store) : Ends I full (fun r => r.1.store) (t.delete key) := by
  have hsub : ∀ level page path, Ends I full (fun r => r.1.store) (deleteSubtree t key level page path) := by
    intro level
    induction level with
    | zero => exact fun page path => deleteFromLeaf_ends hI page key path h
    | succ level ih => exact fun page path => Ends.bind_read readInternal_ne_alloc fun node _ => ih _ _
  exact hsub _ _ _

/-! ### All calls -/

theorem create_ends (h : I store) : Ends I (Full I a) BTree.store (BTree.create a store) := by
  refine (allocPage_ends hI h).bind fun r h₁ => ?_
  exact (writeLeaf_ends hI h₁ _).bind fun store₂ h₂ => h₂

theorem replaceExisting_ends (key : Key) (value : Bytes) (h : I t.store) :
    Ends I (Full I a) (fun r => r.1.store) (t.replaceExisting a key value) := by
  refine Ends.bind_read (readLeafForKey_ne_alloc t key) fun r _ => ?_
  dsimp only
  split
  · exact h
  · refine (storeValue_ends hI value h).bind fun s h₁ => ?_
    refine (freeValue_ends hI _ h₁).bind fun store₂ h₂ => ?_
    exact (writeLeaf_ends hI h₂ _).bind fun store₃ h₃ => h₃

end Calls

/-! ## Pages fit -/

def PagesFit (store : PageStore) : Prop := ∀ p x, store p = some x → x.Fits

theorem pagesFit_stable : Stable PagesFit := by
  refine ⟨fun store p x h hx q y hq => ?_, fun store p h q y hq => ?_⟩
  · rcases writePage_eq_some hq with ⟨-, rfl⟩ | ⟨-, hq⟩
    · exact hx
    · exact h q y hq
  · by_cases hqp : q = p
    · subst hqp
      rw [freePage_self] at hq
      cases hq
    · rw [freePage_of_ne hqp] at hq
      exact h q y hq

/-- a call leaves pages that fit -/
theorem TreeOp.step_pagesFit {t t' : BTree} {op : TreeOp} (h : op.step t = some t') (hfit : PagesFit t.store) :
    PagesFit t'.store := by
  obtain ⟨flag, hok⟩ := TreeOp.step_eq h
  cases op with
  | insert a key value => exact (insert_ends pagesFit_stable key value hfit).of_ok hok
  | replaceExisting a key value => exact (replaceExisting_ends pagesFit_stable key value hfit).of_ok hok
  | delete key => exact (@delete_ends _ pagesFit_stable True _ key hfit).of_ok hok

theorem usedBytes_le_of_mem {c : LeafCell} {cells : List LeafCell} (h : c ∈ cells) :
    usedBytesForCells [c] ≤ usedBytesForCells cells := by
  obtain ⟨l, r, rfl⟩ := append_of_mem h
  rw [usedBytes_singleton, usedBytes_perm perm_middle, usedBytes_cons, usedBytesForCells]
  omega

/-- a split succeeds when every cell fits a page of its own, and fails otherwise -/
theorem splitGroups_isOk_iff (cells : List LeafCell) :
    (∃ groups, splitGroups cells = .ok groups) ↔ ∀ c ∈ cells, usedBytesForCells [c] ≤ PAGE_SIZE_LEAF := by
  constructor
  · rintro ⟨groups, h⟩ c hc
    obtain ⟨rfl, hgood⟩ := splitGroups_ok h
    obtain ⟨g, hg, hcg⟩ := mem_flatten.1 hc
    exact (usedBytes_le_of_mem hcg).trans (hgood g hg).2
  · intro h
    unfold splitGroups
    split
    next splitAt hcut => exact ⟨_, rfl⟩
    next hnone => exact (packLoop_isOk_iff [] LEAF_HEADER_SIZE le_rfl fun _ => rfl).2 h

/-- **Leaf packing.** `pack_cells_multiway` returns unless a cell does not fit a page of its own; its groups are not
empty, fit a page each, and are the cells in their order. `choose_leaf_redistribution_split` finds a cut exactly if
there is one whose parts are not empty and fit a page each; the cut it finds is one of them, and none of them has a
smaller score. So the groups that `split_leaf` writes for a leaf that is too full are at least two, fit a page each, and
are the cells in their order. -/
theorem leaf_packing (cells : List LeafCell) :
    ((∃ groups, packCellsMultiway cells = .ok groups) ↔ ∀ c ∈ cells, usedBytesForCells [c] ≤ PAGE_SIZE_LEAF) ∧
    (∀ groups, packCellsMultiway cells = .ok groups →
      groups.flatten = cells ∧ ∀ g ∈ groups, g ≠ [] ∧ usedBytesForCells g ≤ PAGE_SIZE_LEAF) ∧
    (∀ originalLeftLen, ((∃ splitAt, chooseLeafRedistributionSplit cells originalLeftLen = some splitAt) ↔
      ∃ s, Fits cells s) ∧
      ∀ splitAt, chooseLeafRedistributionSplit cells originalLeftLen = some splitAt → Fits cells splitAt ∧
        ∃ best, cutScore cells originalLeftLen splitAt = some best ∧
          ∀ s, Fits cells s → ∃ score, cutScore cells originalLeftLen s = some score ∧ best ≤ score) ∧
    (PAGE_SIZE_LEAF < usedBytesForCells cells → ∀ groups, splitGroups cells = .ok groups →
      2 ≤ groups.length ∧ groups.flatten = cells ∧ ∀ g ∈ groups, usedBytesForCells g ≤ PAGE_SIZE_LEAF) := by
  refine ⟨packLoop_isOk_iff [] LEAF_HEADER_SIZE le_rfl fun _ => rfl, fun groups => packCellsMultiway_ok,
    fun originalLeftLen => ⟨?_, ?_⟩, ?_⟩
  · constructor
    · rintro ⟨splitAt, h⟩
      exact ⟨splitAt, (chooseLeafRedistributionSplit_some h).1⟩
    · rintro ⟨s, hs⟩
      cases h : chooseLeafRedistributionSplit cells originalLeftLen with
      | none => exact absurd hs (chooseLeafRedistributionSplit_none h s)
      | some splitAt => exact ⟨splitAt, rfl⟩
  · intro splitAt h
    obtain ⟨hfits, hbest⟩ := chooseLeafRedistributionSplit_some h
    obtain ⟨best, hscore⟩ := hfits.score originalLeftLen
    refine ⟨hfits, best, hscore, fun s hs => ?_⟩
    obtain ⟨score, hs'⟩ := hs.score originalLeftLen
    obtain ⟨b, hb, hle⟩ := hbest s hs score hs'
    rw [hscore] at hb
    cases hb
    exact ⟨score, hs', hle⟩
  · intro hfull groups h
    obtain ⟨hflat, hgood⟩ := splitGroups_ok h
    refine ⟨?_, hflat, fun g hg => (hgood g hg).2⟩
    subst hflat
    rcases groups with _ | ⟨g, _ | ⟨g', groups⟩⟩
    · exact absurd hfull (by decide)
    · rw [flatten_singleton] at hfull
      exact absurd (hgood g mem_cons_self).2 (not_le.2 hfull)
    · exact Nat.le_add_left 2 groups.length

section Leaf

variable {store : PageStore} {height root q : ℕ} {inner : Set ℕ} {leaves : List ℕ} {n : LeafNode} {key : Key}
  {cell : VersionData}

/-- the leaf behind one of the tree -/
theorem Linked.next {prev next : ℕ} (h : Linked store prev leaves next) (hq : q ∈ leaves)
    (hn : store q = some (.leaf n)) :
    n.nextLeafPage = next ∨ n.nextLeafPage ∈ leaves := by
  induction leaves generalizing prev with
  | nil => cases hq
  | cons page rest ih =>
    obtain ⟨⟨m, hm, -, hnext⟩, hrest⟩ := h
    rcases mem_cons.1 hq with rfl | hq
    · rw [hn] at hm
      cases hm
      cases rest with
      | nil => exact .inl hnext
      | cons page' rest => exact .inr (by rw [hnext]; simp)
    · exact (ih hrest hq).imp_right (mem_cons_of_mem _)

/-- the leaf before one of the tree -/
theorem Linked.prev {prev next : ℕ} (h : Linked store prev leaves next) (hq : q ∈ leaves)
    (hn : store q = some (.leaf n)) (hnodup : leaves.Nodup) : n.prevLeafPage = prev ∨ n.prevLeafPage ∈ leaves := by
  induction leaves generalizing prev with
  | nil => cases hq
  | cons page rest ih =>
    obtain ⟨⟨m, hm, hprev, -⟩, hrest⟩ := h
    rw [nodup_cons] at hnodup
    rcases mem_cons.1 hq with rfl | hq
    · rw [hn] at hm
      cases hm
      exact .inl hprev
    · rcases ih hrest hq hnodup.2 with h | h
      · exact .inr (by rw [h]; simp)
      · exact .inr (mem_cons_of_mem _ h)

/-- **A leaf of the tree takes every cell** that is not too large for a page of its own. -/
theorem Built.leafTakes_iff (h : Built store height root inner leaves) (hfit : PagesFit store) (hq : q ∈ leaves)
    (hn : store q = some (.leaf n)) (hnone : n.cells.get? key = none) :
    LeafTakes store n key cell ↔ usedBytesForCells [(key, cell)] ≤ PAGE_SIZE_LEAF := by
  have hperm := OrdMap.insert_perm hnone cell
  constructor
  · rintro (hroom | ⟨hgroups, -⟩)
    · have hroom := of_decide_eq_true hroom
      rw [← usedBytes_insert hnone] at hroom
      exact (usedBytes_le_of_mem (hperm.mem_iff.2 mem_cons_self)).trans hroom
    · exact (splitGroups_isOk_iff _).1 hgroups _ (hperm.mem_iff.2 mem_cons_self)
  · intro hcell
    refine .inr ⟨(splitGroups_isOk_iff _).2 fun c hc => ?_, (h.linked.next hq hn).imp id fun hmem => ?_⟩
    · rcases mem_cons.1 (hperm.mem_iff.1 hc) with rfl | hc
      · exact hcell
      · exact (usedBytes_le_of_mem hc).trans (hfit q _ hn)
    · obtain ⟨-, m, hm⟩ := h.spans.leaf _ hmem
      exact ⟨m, hm, hfit _ _ hm⟩

end Leaf

/-! ## Pages to spare -/

/-- all pages are free from some number on -/
def Bounded (store : PageStore) : Prop := ∃ N, ∀ p, N ≤ p → store p = none

theorem bounded_stable : Stable Bounded := by
  refine ⟨fun store p x h _ => ?_, fun store p h => ?_⟩
  · obtain ⟨N, hN⟩ := h
    refine ⟨max N (p + 1), fun q hq => ?_⟩
    rw [writePage_of_ne _ (by omega)]
    exact hN q (by omega)
  · obtain ⟨N, hN⟩ := h
    refine ⟨max N (p + 1), fun q hq => ?_⟩
    rw [freePage_of_ne (by omega)]
    exact hN q (by omega)

open Classical in
/-- the first free page -/
noncomputable def Allocator.least : Allocator where
  alloc store := if h : ∃ p, p ≠ 0 ∧ store p = none then some (Nat.find h) else none
  fresh store page h := by
    split_ifs at h with hex
    cases h
    exact Nat.find_spec hex

theorem not_full_least : ¬ Full Bounded Allocator.least := by
  rintro ⟨store, ⟨N, hN⟩, hnone⟩
  have hex : ∃ p, p ≠ 0 ∧ store p = none := ⟨N + 1, Nat.succ_ne_zero N, hN _ (Nat.le_succ N)⟩
  simp only [Allocator.least, dif_pos hex] at hnone
  cases hnone

end Mqlite.Btree
