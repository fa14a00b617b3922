/-
Folding deltas into the primary tree at a checkpoint (`storage/paged_engine/checkpoint_materialize.rs`, with the size
limits of `journal/wire/logical.rs`).

A commit is accepted when its keys and values are within the limits of the journal encoder. At a checkpoint the newest
version of each changed key is folded into the tree: a value replaces the one that is there or is inserted, a tombstone
deletes the key. The tree has limits of its own, and they are smaller: a replaced value has to fit the leaf it is in
(`replace_existing` does not split), a new cell has to fit a leaf page, and separators have to fit internal pages.

Result: `deltas_fold_iff`. Folding a list of deltas returns and leaves the tree with the updated contents if and only
if, in the tree that each delta meets, its step can be done (`Absorbs`). A value that grows in a full leaf cannot
(`grown_value_is_refused`).
-/
import Mqlite.Btree.DeleteReturns

namespace Mqlite.Btree

open Lib Mvcc Storage List Option TreeOp OrdMap LeafCell

/-! ## Deltas -/

def LOGICAL_TXN_MAX_KEY_BYTES : ℕ := 16384

def LOGICAL_TXN_MAX_VALUE_BYTES : ℕ := 16777216

/-- the newest version of a key (`none`: a tombstone); each call has an allocator of its own -/
structure CheckpointDelta where
  alloc : Allocator
  key : Key
  value : Option Bytes

namespace CheckpointDelta

/-- `validate_encode_limits` lets the operation through -/
def Journalable (d : CheckpointDelta) : Prop :=
  d.key.length ≤ LOGICAL_TXN_MAX_KEY_BYTES ∧ (d.value.getD []).length ≤ LOGICAL_TXN_MAX_VALUE_BYTES

instance (d : CheckpointDelta) : Decidable d.Journalable := inferInstanceAs (Decidable (_ ∧ _))

/-- the same on an ordered map -/
def apply (m : OrdMap Key Bytes) (d : CheckpointDelta) : OrdMap Key Bytes :=
  match d.value with
  | some value => m.insert d.key value
  | none => m.erase d.key

end CheckpointDelta

def applyPrimaryCheckpointDelta (t : BTree) (d : CheckpointDelta) : Except TreeError BTree :=
  match d.value with
  | some value => do
    let (t, replaced) ← t.replaceExisting d.alloc d.key value
    if replaced then .ok t
    else do
      let (t, inserted) ← t.insert d.alloc d.key value
      if inserted then .ok t else .error .duplicateKey
  | none => do
    let (t, _) ← t.delete d.key
    .ok t

def applyDeltas (t : BTree) (deltas : List CheckpointDelta) : Except TreeError BTree :=
  deltas.foldlM applyPrimaryCheckpointDelta t

/-! ## When a step can be done -/

/-- the leaf of the key has room for the new value in place of the old one, whose chain is not too long to be freed -/
def Replaceable (t : BTree) (key : Key) (old value : Bytes) : Prop :=
  ∃ q n, findLeaf t.store t.rootLevel t.rootPage key = some q ∧
  t.store q = some (.leaf n) ∧ usedBytesForCells (n.cells.insert key (cellFor value)).entries ≤ PAGE_SIZE_LEAF ∧
    old.length ≤ MAX_OVERFLOW_CHAIN_PAGES * OVERFLOW_PAGE_DATA

/-- the tree, with contents m, can take the delta -/
def Absorbs (t : BTree) (m : OrdMap Key Bytes) (d : CheckpointDelta) : Prop :=
  match d.value, m.get? d.key with
  | some value, some old => Replaceable t d.key old value
  | some value, none => Takes t d.key value ∧ t.rootLevel + t.newLevels d.key value < 256
  | none, _ => Deletable t m d.key

/-- a tree as the engine keeps it, with its contents -/
structure WellFormed (t : BTree) (m : OrdMap Key Bytes) : Prop where
  represents : Represents t m
  fit : PagesFit t.store
  short : Short m

section Steps

variable {t t' : BTree} {m : OrdMap Key Bytes} {a : Allocator} {key : Key} {old value : Bytes} {d : CheckpointDelta}

/-- the leaf of a key, with the cell that the map's value is stored in -/
theorem Represents.leaf (h : Represents t m) (key : Key) : ∃ q n, findLeaf t.store t.rootLevel t.rootPage key = some q ∧
    t.store q = some (.leaf n) ∧ (n.cells.get? key).isSome = (m.get? key).isSome := by
  obtain ⟨-, inner, leaves, chain, hbuilt, hholding⟩ := h
  obtain ⟨q, n, hfind, -, hn, hmem⟩ := hbuilt.find key
  refine ⟨q, n, hfind, hn, ?_⟩
  cases hget : n.cells.get? key with
  | none =>
    rw [hholding.absent fun d hd => by simp [hmem, hget] at hd]
    rfl
  | some cell =>
    obtain ⟨v, hv, -⟩ := hholding.stored key cell ((hmem cell).2 hget)
    rw [hv]
    rfl

theorem Represents.replace_absent (h : Represents t m) (hnone : m.get? key = none) :
    t.replaceExisting a key value = .ok (t, false) := by
  obtain ⟨q, n, hfind, hn, hsome⟩ := h.leaf key
  rw [hnone, isSome_none, isSome_eq_false_iff, isNone_iff_eq_none] at hsome
  exact replaceExisting_absent hfind hn hsome

/-- a cell's size does not depend on where its chain begins -/
theorem usedBytes_insert_congr {cells : OrdMap Key VersionData} {cell cell' : VersionData}
    (hsize : cellEncodedSize key cell = cellEncodedSize key cell') :
    usedBytesForCells (cells.insert key cell).entries = usedBytesForCells (cells.insert key cell').entries := by
  obtain ⟨l, hl⟩ := cells
  simp only [OrdMap.insert]
  clear hl
  induction l with
  | nil => simp [OrdMap.insertEntry, usedBytesForCells, encodedSize, hsize]
  | cons c l ih =>
    simp only [OrdMap.insertEntry]
    split_ifs
    · simp [usedBytesForCells, encodedSize, hsize]
    · simp [usedBytesForCells, encodedSize, hsize]
    · simp only [usedBytesForCells, map_cons, sum_cons, length_cons] at ih ⊢
      omega

/-- **When a replacement returns**, with pages to be had -/
theorem replaceExisting_isOk_iff (h : WellFormed t m) (hold : m.get? key = some old)
    (halloc : t.replaceExisting a key value ≠ .error .alloc) :
    (∃ t', t.replaceExisting a key value = .ok (t', true)) ↔ Replaceable t key old value := by
  obtain ⟨-, inner, leaves, chain, hbuilt, hholding⟩ := h.represents
  obtain ⟨q, n, hfind, hq, hn, hmem⟩ := hbuilt.find key
  have hreplaceable : Replaceable t key old value ↔
    usedBytesForCells (n.cells.insert key (cellFor value)).entries ≤ PAGE_SIZE_LEAF ∧
      old.length ≤ MAX_OVERFLOW_CHAIN_PAGES * OVERFLOW_PAGE_DATA :=
    leafFound_iff hfind hn
  obtain ⟨oldCell, hcell⟩ := hholding.present key old hold
  have hget := (hmem oldCell).1 hcell
  obtain ⟨v, hv, hst⟩ := hholding.stored key oldCell hcell
  rw [hold] at hv
  cases hv
  have hlength := hst.length_le_iff ((usedBytes_le_of_mem (get?_eq_some_iff.1 hget)).trans (h.fit q _ hn))
  rw [hreplaceable]
  rw [BTree.replaceExisting, bind_ok (readLeafForKey_ok hfind hn)] at halloc ⊢
  dsimp only at halloc ⊢
  rw [hget] at halloc ⊢
  dsimp only at halloc ⊢
  cases hstore : storeValue a t.store value with
  | error e =>
    rw [hstore, storeValue_error hstore] at halloc
    exact absurd rfl halloc
  | ok r =>
    obtain ⟨store₁, cell⟩ := r
    have hkeeps := storeValue_keeps hstore
    have hst₁ : Stored store₁ oldCell (chain key) old := hst.frame fun p hp => hkeeps p (hholding.ne_none hcell p hp)
    have hsize : usedBytesForCells (n.cells.insert key cell).entries =
        usedBytesForCells (n.cells.insert key (cellFor value)).entries :=
      usedBytes_insert_congr (storeValue_size hstore key)
    rw [bind_ok rfl]
    constructor
    · rintro ⟨t', ht'⟩
      obtain ⟨store₂, hfree, h₂⟩ := bind_eq_ok ht'
      obtain ⟨store₃, hwrite, -⟩ := bind_eq_ok h₂
      exact ⟨hsize ▸ (writeLeaf_ok.1 hwrite).1, hlength.1 (hst₁.free_isOk.1 ⟨store₂, hfree⟩)⟩
    · rintro ⟨hroom, hshort⟩
      obtain ⟨store₂, hfree⟩ := hst₁.free_isOk.2 (hlength.2 hshort)
      have hwrite :=
        (@writeLeaf_ok store₂ _ q { n with cells := n.cells.insert key cell }).2 ⟨hsize.trans_le hroom, rfl⟩
      rw [bind_ok hfree, bind_ok hwrite]
      exact ⟨_, rfl⟩

theorem replaceExisting_flag (h : Represents t m) {found : Bool}
    (hok : t.replaceExisting a key value = .ok (t', found)) :
    found = (m.get? key).isSome := by
  obtain ⟨q, n, hfind, hn, hsome⟩ := h.leaf key
  rw [BTree.replaceExisting, bind_ok (readLeafForKey_ok hfind hn)] at hok
  dsimp only at hok
  rw [← hsome]
  cases hget : n.cells.get? key with
  | none =>
    rw [hget] at hok
    cases hok
    rfl
  | some cell =>
    rw [hget] at hok
    obtain ⟨stored, -, h₁⟩ := bind_eq_ok hok
    obtain ⟨freed, -, h₂⟩ := bind_eq_ok h₁
    obtain ⟨written, -, h₃⟩ := bind_eq_ok h₂
    cases h₃
    rfl

theorem Short.insert (h : Short m) (hvalue : value.length < 2 ^ 32) : Short (m.insert key value) := by
  intro k v hk
  rw [get?_insert] at hk
  split_ifs at hk
  · cases hk
    exact hvalue
  · exact h k v hk

theorem Short.erase (h : Short m) : Short (m.erase key) := by
  intro k v hk
  rw [get?_erase] at hk
  split_ifs at hk
  exact h k v hk

/-- a call's error is the delta's error -/
theorem ne_alloc_of_bind {α β : Type} {x : Except TreeError α} {f : α → Except TreeError β}
    (h : (x >>= f) ≠ .error .alloc) :
    x ≠ .error .alloc := by
  rintro rfl
  exact h rfl

/-- **A delta that can be taken** is taken. -/
theorem Absorbs.step (h : Absorbs t m d) (hwf : WellFormed t m) (hd : d.Journalable)
    (halloc : applyPrimaryCheckpointDelta t d ≠ .error .alloc) :
    ∃ t₁, applyPrimaryCheckpointDelta t d = .ok t₁ ∧ WellFormed t₁ (d.apply m) := by
  obtain ⟨a, key, value⟩ := d
  rw [applyPrimaryCheckpointDelta] at halloc ⊢
  cases value with
  | none =>
    obtain ⟨⟨t₁, found⟩, hok⟩ := (delete_isOk_iff hwf.represents hwf.fit).2 h
    rw [bind_ok hok]
    exact ⟨t₁, rfl, delete_represents hok hwf.represents, (@delete_ends _ pagesFit_stable True t key hwf.fit).of_ok hok,
      hwf.short.erase⟩
  | some value =>
    have hvalue : value.length < 2 ^ 32 := lt_of_le_of_lt hd.2 (by decide)
    dsimp only at halloc ⊢
    rw [Absorbs] at h
    cases hold : m.get? key with
    | some old =>
      rw [hold] at h
      obtain ⟨t₁, hok⟩ := (replaceExisting_isOk_iff hwf hold (ne_alloc_of_bind halloc)).2 h
      have hrep := replaceExisting_represents hok hwf.represents
      rw [apply, if_pos (by rw [hold]; rfl)] at hrep
      rw [bind_ok hok]
      exact ⟨t₁, rfl, hrep, (replaceExisting_ends pagesFit_stable key value hwf.fit).of_ok hok, hwf.short.insert hvalue⟩
    | none =>
      rw [hold] at h
      obtain ⟨htakes, hlevel⟩ := h
      rw [bind_ok (hwf.represents.replace_absent hold)] at halloc ⊢
      dsimp only at halloc ⊢
      obtain ⟨⟨t₁, inserted⟩, hok⟩ := (insert_isOk_iff hwf.represents hwf.fit (ne_alloc_of_bind halloc)).2 htakes
      obtain ⟨-, -, -, -, -, hinserted, -⟩ := insert_built hok hwf.represents
      obtain rfl : inserted = true := by rw [hinserted, hold]; rfl
      have hrep := insert_represents hok hwf.represents hlevel
      rw [apply, if_neg (by simp [hold])] at hrep
      rw [bind_ok hok]
      exact ⟨t₁, rfl, hrep, (insert_ends pagesFit_stable key value hwf.fit).of_ok hok, hwf.short.insert hvalue⟩

/-- **A delta that was taken** could be, unless the tree has outgrown its root's level. -/
theorem absorbs_of_ok (hwf : WellFormed t m) {t₁ : BTree} (hok : applyPrimaryCheckpointDelta t d = .ok t₁) :
    Absorbs t m d ∨ Lost t₁ := by
  obtain ⟨a, key, value⟩ := d
  rw [Absorbs]
  cases value with
  | none =>
    obtain ⟨r, hr, -⟩ := bind_eq_ok hok
    exact .inl ((delete_isOk_iff hwf.represents hwf.fit).1 ⟨r, hr⟩)
  | some value =>
    obtain ⟨⟨t₂, found⟩, hreplace, hrest⟩ := bind_eq_ok hok
    have hflag := replaceExisting_flag hwf.represents hreplace
    cases hold : m.get? key with
    | some old =>
      obtain rfl : found = true := by rw [hflag, hold]; rfl
      exact .inl ((replaceExisting_isOk_iff hwf hold (by rw [hreplace]; simp)).1 ⟨t₂, hreplace⟩)
    | none =>
      rw [hwf.represents.replace_absent hold] at hreplace
      cases hreplace
      dsimp only at hrest
      obtain ⟨⟨t₃, inserted⟩, hinsert, hlast⟩ := bind_eq_ok hrest
      obtain ⟨grown, inner', leaves', -, hgrown, hinserted, hlevel', hbuilt', -⟩ := insert_built hinsert hwf.represents
      rw [hold, if_neg (by decide)] at hgrown
      obtain rfl : inserted = true := by rw [hinserted, hold]; rfl
      cases hlast
      by_cases hlevel : t.rootLevel + t.newLevels key value < 256
      · exact .inl ⟨(insert_isOk_iff hwf.represents hwf.fit (by rw [hinsert]; simp)).1 ⟨_, hinsert⟩, hlevel⟩
      · refine .inr ⟨_, inner', leaves', hbuilt', ?_⟩
        rw [hlevel']
        omega

theorem Lost.get (h : Lost t) (key : Key) : t.get key = .error .badPage := by
  rw [BTree.get, BTree.search, h.readLeafForKey key]
  rfl

theorem Lost.applyDelta (h : Lost t) (d : CheckpointDelta) : applyPrimaryCheckpointDelta t d = .error .badPage := by
  obtain ⟨a, key, value⟩ := d
  rw [applyPrimaryCheckpointDelta]
  cases value with
  | none =>
    rw [h.delete key]
    rfl
  | some value =>
    dsimp only
    rw [h.replaceExisting a key value]
    rfl

end Steps

/-! ## Lists of deltas -/

/-- a delta takes the tree and its contents one step further -/
def deltaStep (s : BTree × OrdMap Key Bytes) (d : CheckpointDelta) : Option (BTree × OrdMap Key Bytes) :=
  (applyPrimaryCheckpointDelta s.1 d).toOption.map fun t => (t, d.apply s.2)

section Lists

variable {t : BTree} {m : OrdMap Key Bytes} {deltas : List CheckpointDelta}

theorem deltaStep_ok {t₁ : BTree} {d : CheckpointDelta} (h : applyPrimaryCheckpointDelta t d = .ok t₁) :
    deltaStep (t, m) d = some (t₁, d.apply m) := by
  rw [deltaStep, h]
  rfl

theorem applyDeltas_cons (t : BTree) (d : CheckpointDelta) (deltas : List CheckpointDelta) :
    applyDeltas t (d :: deltas) = applyPrimaryCheckpointDelta t d >>= fun t₁ => applyDeltas t₁ deltas :=
  foldlM_cons

/-- if each delta can be taken in its turn, all are, and the contents are the updated ones -/
theorem applyDeltas_of_along (hwf : WellFormed t m) (hlimits : ∀ d ∈ deltas, d.Journalable)
    (halloc : applyDeltas t deltas ≠ .error .alloc) (h : Along deltaStep (fun s d => Absorbs s.1 s.2 d) (t, m) deltas) :
    ∃ t', applyDeltas t deltas = .ok t' ∧ WellFormed t' (deltas.foldl CheckpointDelta.apply m) := by
  induction deltas generalizing t m with
  | nil => exact ⟨t, rfl, hwf⟩
  | cons d deltas ih =>
    rw [applyDeltas_cons] at halloc ⊢
    obtain ⟨t₁, hok, hwf₁⟩ := Absorbs.step h.1 hwf (hlimits d mem_cons_self) (ne_alloc_of_bind halloc)
    rw [bind_ok hok] at halloc ⊢
    exact ih hwf₁ (fun e he => hlimits e (mem_cons_of_mem _ he)) halloc (h.2 _ (deltaStep_ok hok))

theorem along_of_applyDeltas (hwf : WellFormed t m) (hlimits : ∀ d ∈ deltas, d.Journalable) {t' : BTree}
    (hok : applyDeltas t deltas = .ok t') (hlost : ¬Lost t') :
    Along deltaStep (fun s d => Absorbs s.1 s.2 d) (t, m) deltas := by
  induction deltas generalizing t m with
  | nil => trivial
  | cons d deltas ih =>
    rw [applyDeltas_cons] at hok
    obtain ⟨t₁, hstep, hrest⟩ := bind_eq_ok hok
    -- a tree that is too high takes no further delta
    have hstanding : ¬Lost t₁ := by
      intro hl
      cases deltas with
      | nil =>
        cases hrest
        exact hlost hl
      | cons e deltas =>
        rw [applyDeltas_cons, hl.applyDelta e] at hrest
        cases hrest
    have habs := (absorbs_of_ok hwf hstep).resolve_right hstanding
    obtain ⟨t₂, hstep₂, hwf₁⟩ := habs.step hwf (hlimits d mem_cons_self) (by rw [hstep]; simp)
    rw [hstep] at hstep₂
    cases hstep₂
    exact Along.cons habs (deltaStep_ok hstep) (ih hwf₁ (fun e he => hlimits e (mem_cons_of_mem _ he)) hrest)

/-- **Folding deltas.** Let a tree be well formed with contents m, and let the deltas be ones the journal encoder
accepts. With pages to be had, folding them one by one returns and leaves a tree that reads as the updated contents if
and only if each delta can be taken by the tree it meets; the tree is well formed then. -/
theorem deltas_fold_iff (hwf : WellFormed t m) (hlimits : ∀ d ∈ deltas, d.Journalable)
    (halloc : applyDeltas t deltas ≠ .error .alloc) :
    ((∃ t', applyDeltas t deltas = .ok t' ∧ ∀ k, t'.get k = .ok ((deltas.foldl CheckpointDelta.apply m).get? k)) ↔
      Along deltaStep (fun s d => Absorbs s.1 s.2 d) (t, m) deltas) ∧
    (Along deltaStep (fun s d => Absorbs s.1 s.2 d) (t, m) deltas →
      ∃ t', applyDeltas t deltas = .ok t' ∧ WellFormed t' (deltas.foldl CheckpointDelta.apply m)) := by
  refine ⟨⟨?_, fun h => ?_⟩, applyDeltas_of_along hwf hlimits halloc⟩
  · rintro ⟨t', hok, hget⟩
    refine along_of_applyDeltas hwf hlimits hok fun hl => ?_
    have hread := hget []
    rw [hl.get] at hread
    cases hread
  · obtain ⟨t', hok, hwf'⟩ := applyDeltas_of_along hwf hlimits halloc h
    exact ⟨t', hok, hwf'.represents.get hwf'.short⟩

end Lists

/-- a new key, a new value for it, and a key that is not there -/
def threeDeltas : List CheckpointDelta := [⟨.upTo 8, [1], some [7]⟩, ⟨.upTo 8, [1], some [8]⟩, ⟨.upTo 8, [2], none⟩]

theorem deltas_fold_three_deltas : ∃ t₀, BTree.create (.upTo 8) (fun _ => none) = .ok t₀ ∧ WellFormed t₀ .empty ∧
    (∃ t', applyDeltas t₀ threeDeltas = .ok t') ∧
    ((∃ t', applyDeltas t₀ threeDeltas = .ok t' ∧
      ∀ k, t'.get k = .ok ((threeDeltas.foldl CheckpointDelta.apply .empty).get? k)) ↔
      Along deltaStep (fun s d => Absorbs s.1 s.2 d) (t₀, .empty) threeDeltas) := by
  obtain ⟨t₀, hcreate, hfold⟩ : ∃ t₀, BTree.create (.upTo 8) (fun _ => none) = .ok t₀ ∧
      ∃ t', applyDeltas t₀ threeDeltas = .ok t' :=
    ⟨_, rfl, _, rfl⟩
  have hfit : PagesFit t₀.store :=
    (@create_ends _ pagesFit_stable (.upTo 8) (fun _ => none) fun _ _ h => by cases h).of_ok hcreate
  have hwf : WellFormed t₀ .empty := ⟨create_represents hcreate, hfit, fun k v hk => by cases hk⟩
  refine ⟨t₀, hcreate, hwf, hfold, (deltas_fold_iff hwf ?_ ?_).1⟩
  · decide
  · obtain ⟨t', hok⟩ := hfold
    rw [hok]
    simp

section Refused

variable {t : BTree} {a : Allocator} {key : Key} {value : Bytes} {n : LeafNode}

/-- a value that is inserted into a root with room -/
theorem insert_room (hlevel : t.rootLevel = 0) (hn : t.store t.rootPage = some (.leaf n))
    (hnone : n.cells.get? key = none)
    (hinline : value.length ≤ OVERFLOW_THRESHOLD) (hroom : n.canInsert (encodedSize (key, .inline value)) = true) :
    t.insert a key value = .ok (⟨writePage t.store t.rootPage
        (.leaf { n with cells := n.cells.insert key (.inline value) }), t.rootPage, 0⟩, true) ∧
      t.newLevels key value = 0 := by
  have hcell : cellFor value = .inline value := if_neg (not_lt.2 hinline)
  constructor
  · rw [BTree.insert, bind_ok (storeValue_inline hinline)]
    dsimp only
    rw [insertRoot_room hlevel hn hnone hroom]
  · simp only [BTree.newLevels, BTree.growth, hlevel, hcell, pathPromotions, hn, leafPromotions, if_pos hroom]
    rfl

/-- a leaf with two values of 16000 bytes; one of them is to become 17000 bytes long -/
theorem grows_out_of_leaf {v w : Bytes} (hv : v.length = 16000) (hw : w.length = 17000) :
    ∃ t₀ t m, BTree.create .least (fun _ => none) = .ok t₀ ∧
      run step t₀ [.insert .least [1] v, .insert .least [2] v] = some t ∧ WellFormed t m ∧
        applyDeltas t [⟨.least, [2], some w⟩] = .error .leafTooLarge := by
  obtain ⟨t₀, hcreate, hlevel, hroot, hfit, -⟩ := create_least
  have hsize : ∀ (b : Byte) (x : Bytes), encodedSize ([b], .inline x) = 8 + x.length := by
    intro b x
    simp only [encodedSize, cellEncodedSize, length_singleton]
    omega
  -- both values go into the root leaf
  obtain ⟨hinsert₁, hlevels₁⟩ := @insert_room t₀ .least [1] v ⟨.empty, .empty, 0, 0⟩ hlevel hroot rfl
    (by rw [hv]; decide) (by rw [LeafNode.canInsert, hsize, hv]; decide)
  have hrep₁ := insert_represents hinsert₁ (create_represents hcreate) (by rw [hlevel, hlevels₁]; decide)
  have hfit₁ := (@insert_ends _ pagesFit_stable .least t₀ [1] v hfit).of_ok hinsert₁
  obtain ⟨hinsert₂, hlevels₂⟩ := @insert_room ⟨writePage t₀.store t₀.rootPage
      (.leaf ⟨empty.insert [1] (.inline v), .empty, 0, 0⟩), t₀.rootPage, 0⟩ .least [2] v
    ⟨empty.insert [1] (.inline v), .empty, 0, 0⟩ rfl (writePage_self _ _ _) rfl (by rw [hv]; decide) (by
      have hused := @usedBytes_insert [1] ⟨.empty, .empty, 0, 0⟩ rfl (.inline v)
      rw [LeafNode.canInsert, hsize, LeafNode.usedBytes, hused, hsize, hv]
      decide)
  have hrep₂ := insert_represents hinsert₂ hrep₁ (by rw [hlevels₂]; exact Nat.zero_lt_succ _)
  have hfit₂ := (@insert_ends _ pagesFit_stable .least _ [2] v hfit₁).of_ok hinsert₂
  have hshort : ∀ m : OrdMap Key Bytes, Short m → ∀ key, Short ((insert .least key v).apply m) := by
    intro m hm key
    rw [apply]
    split_ifs
    · exact hm
    · exact hm.insert (by rw [hv]; decide)
  refine ⟨t₀, _, _, hcreate, ?_, ⟨hrep₂, hfit₂, hshort _ (hshort _ (fun k x hk => by cases hk) _) _⟩, ?_⟩
  · rw [run_cons, step, exec, hinsert₁]
    change run step _ [_] = _
    rw [run_cons, step, exec, hinsert₂]
    rfl
  · -- the longer value does not fit beside the other one
    have hentries : (((empty.insert [1] (.inline v)).insert [2] (.inline v)).insert [2]
      (VersionData.inline w)).entries =
        [(([1] : Key), .inline v), ([2], .inline w)] := rfl
    have hlarge : usedBytesForCells
      (((empty.insert [1] (.inline v)).insert [2] (.inline v)).insert [2] (VersionData.inline w)).entries >
        PAGE_SIZE_LEAF := by
      rw [hentries]
      simp only [usedBytesForCells, map_cons, map_nil, length_cons, length_nil, hsize, hv, hw]
      decide
    rw [applyDeltas_cons, applyPrimaryCheckpointDelta]
    dsimp only
    rw [BTree.replaceExisting, bind_ok (readLeafForKey_ok rfl (writePage_self _ _ _))]
    dsimp only
    rw [show ((empty.insert [1] (.inline v)).insert [2] (VersionData.inline v)).get? ([2] : Key) =
      some (.inline v) from rfl]
    dsimp only
    rw [bind_ok (storeValue_inline (by rw [hw]; decide))]
    dsimp only [freeValue]
    rw [bind_ok rfl, writeLeaf, LeafNode.encode, LeafNode.usedBytes, if_pos hlarge]
    rfl

/-- the commit of the longer value is accepted, the checkpoint that folds it fails -/
theorem grown_value_is_refused : ∃ t₀ t m, BTree.create .least (fun _ => none) = .ok t₀ ∧
    run TreeOp.step t₀ [.insert .least [1] (zeros 16000), .insert .least [2] (zeros 16000)] = some t ∧ WellFormed t m ∧
      CheckpointDelta.Journalable ⟨.least, [2], some (zeros 17000)⟩ ∧
        applyDeltas t [⟨.least, [2], some (zeros 17000)⟩] = .error .leafTooLarge := by
  obtain ⟨t₀, t, m, hcreate, hrun, hwf, herror⟩ :=
    @grows_out_of_leaf (zeros 16000) (zeros 17000) length_replicate length_replicate
  refine ⟨t₀, t, m, hcreate, hrun, hwf, ?_, herror⟩
  constructor
  · decide
  · rw [getD_some, zeros, length_replicate]
    decide

end Refused

end Mqlite.Btree
