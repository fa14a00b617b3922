/-
Allocating, reading and writing pages, and overflow chains (`btree/store.rs`, `btree/overflow.rs`).

The allocator is arbitrary as long as it hands out pages that are not in use; it may also fail. A value above the
threshold is cut into chunks, one for each page of a chain; the leaf cell holds the first page and the length, in 32
bits.

`Chained` says that a chain of pages holds some bytes, `Stored` that a cell stands for a value.
- `storeValue_ok`: the cell that is made for a value stands for it; its chain is in fresh pages;
- `Stored.resolve`: reading the value of a cell gives the value, cut off at the length in the cell;
- `Stored.free`: freeing it frees exactly the pages of its chain.
The walks stop with an error after `MAX_OVERFLOW_CHAIN_PAGES` pages.
-/
import Mqlite.Btree.Node

namespace Mqlite.Btree

open Lib Mvcc Storage List Function Nat

/-! ## Pages -/

/-- hands out pages that are not in use, or fails -/
structure Allocator where
  alloc : PageStore → Option ℕ
  fresh : ∀ store page, alloc store = some page → page ≠ 0 ∧ store page = none

def writePage (store : PageStore) (page : ℕ) (p : Page) : PageStore := Function.update store page (some p)

def freePage (store : PageStore) (page : ℕ) : PageStore := Function.update store page none

def allocPage (a : Allocator) (store : PageStore) : Except TreeError (PageStore × ℕ) :=
  match a.alloc store with
  | none => .error .alloc
  | some page => .ok (writePage store page .blank, page)

def allocPages (a : Allocator) : ℕ → PageStore → Except TreeError (PageStore × List ℕ)
  | 0, store => .ok (store, [])
  | n + 1, store => do
    let (store, page) ← allocPage a store
    let (store, pages) ← allocPages a n store
    .ok (store, page :: pages)

def readLeaf (store : PageStore) (page : ℕ) : Except TreeError LeafNode :=
  match store page with
  | some (.leaf n) => .ok n
  | _ => .error .badPage

def readInternal (store : PageStore) (page : ℕ) : Except TreeError InternalNode :=
  match store page with
  | some (.internal n) => .ok n
  | _ => .error .badPage

def writeLeaf (store : PageStore) (page : ℕ) (n : LeafNode) : Except TreeError PageStore := do
  let p ← n.encode
  .ok (writePage store page p)

def writeInternal (store : PageStore) (page : ℕ) (n : InternalNode) : Except TreeError PageStore := do
  let p ← n.encode
  .ok (writePage store page p)

section Pages

variable {a : Allocator} {store store' : PageStore} {page p : ℕ}

@[simp] theorem writePage_self (store : PageStore) (page : ℕ) (x : Page) : writePage store page x page = some x :=
  update_self ..

theorem writePage_of_ne (x : Page) (h : p ≠ page) : writePage store page x p = store p := update_of_ne h ..

theorem writePage_eq_some {x y : Page} (h : writePage store page x p = some y) :
    p = page ∧ y = x ∨ p ≠ page ∧ store p = some y := by
  by_cases hp : p = page
  · rw [hp, writePage_self] at h
    exact .inl ⟨hp, (Option.some.inj h).symm⟩
  · exact .inr ⟨hp, (writePage_of_ne _ hp).symm.trans h⟩

theorem writePage_ne_none (x : Page) (h : store p ≠ none) : writePage store page x p ≠ none := by
  by_cases hp : p = page
  · rw [hp]
    simp
  · rwa [writePage_of_ne _ hp]

@[simp] theorem freePage_self (store : PageStore) (page : ℕ) : freePage store page page = none := update_self ..

theorem freePage_of_ne (h : p ≠ page) : freePage store page p = store p := update_of_ne h ..

theorem allocPage_ok (h : allocPage a store = .ok (store', page)) :
    page ≠ 0 ∧ store page = none ∧ store' = writePage store page .blank := by
  unfold allocPage at h
  cases hp : a.alloc store with
  | none => rw [hp] at h; cases h
  | some q =>
    rw [hp] at h
    cases h
    exact ⟨(a.fresh _ _ hp).1, (a.fresh _ _ hp).2, rfl⟩

/-- new pages are fresh, and nothing else changes -/
structure Allocated (store store' : PageStore) (pages : List ℕ) : Prop where
  nodup : pages.Nodup
  fresh : ∀ p ∈ pages, p ≠ 0 ∧ store p = none
  blank : ∀ p ∈ pages, store' p = some .blank
  same : ∀ p, p ∉ pages → store' p = store p

theorem allocPages_ok {n : ℕ} {pages : List ℕ} (h : allocPages a n store = .ok (store', pages)) :
    pages.length = n ∧ Allocated store store' pages := by
  induction n generalizing store pages with
  | zero =>
    cases h
    exact ⟨rfl, nodup_nil, by simp, by simp, fun _ _ => rfl⟩
  | succ n ih =>
    obtain ⟨⟨store₁, page⟩, h₁, h⟩ := bind_eq_ok h
    obtain ⟨⟨store₂, pages₂⟩, h₂, h⟩ := bind_eq_ok h
    cases h
    obtain ⟨hne, hnone, rfl⟩ := allocPage_ok h₁
    obtain ⟨hlen, hall⟩ := ih h₂
    have hnot : page ∉ pages₂ := by
      intro hp
      have := (hall.fresh page hp).2
      rw [writePage_self] at this
      cases this
    refine ⟨by simp [hlen], nodup_cons.2 ⟨hnot, hall.nodup⟩, forall_mem_cons.2 ⟨⟨hne, hnone⟩, fun p hp => ?_⟩,
      forall_mem_cons.2 ⟨?_, hall.blank⟩, fun p hp => ?_⟩
    · obtain ⟨hpne, hpnone⟩ := hall.fresh p hp
      have hpp : p ≠ page := fun heq => hnot (heq ▸ hp)
      rw [writePage_of_ne _ hpp] at hpnone
      exact ⟨hpne, hpnone⟩
    · rw [hall.same page hnot, writePage_self]
    · rw [mem_cons, not_or] at hp
      rw [hall.same p hp.2, writePage_of_ne _ hp.1]

theorem readLeaf_ok {n : LeafNode} : readLeaf store page = .ok n ↔ store page = some (.leaf n) := by
  unfold readLeaf
  split <;> simp_all

theorem readInternal_ok {n : InternalNode} : readInternal store page = .ok n ↔ store page = some (.internal n) := by
  unfold readInternal
  split <;> simp_all

theorem writeLeaf_ok {n : LeafNode} :
    writeLeaf store page n = .ok store' ↔ n.usedBytes ≤ PAGE_SIZE_LEAF ∧ store' = writePage store page (.leaf n) := by
  constructor
  · intro h
    obtain ⟨p, hp, h₁⟩ := bind_eq_ok h
    obtain ⟨hfit, rfl⟩ := LeafNode.encode_ok.1 hp
    cases h₁
    exact ⟨hfit, rfl⟩
  · rintro ⟨hfit, rfl⟩
    exact bind_ok (LeafNode.encode_ok.2 ⟨hfit, rfl⟩) _

theorem writeInternal_ok {n : InternalNode} : writeInternal store page n = .ok store' ↔
    n.encodedSize ≤ PAGE_SIZE_INTERNAL ∧ store' = writePage store page (.internal n) := by
  constructor
  · intro h
    obtain ⟨p, hp, h₁⟩ := bind_eq_ok h
    obtain ⟨hfit, rfl⟩ := InternalNode.encode_ok.1 hp
    cases h₁
    exact ⟨hfit, rfl⟩
  · rintro ⟨hfit, rfl⟩
    exact bind_ok (InternalNode.encode_ok.2 ⟨hfit, rfl⟩) _

end Pages

/-! ## Overflow chains -/

def OVERFLOW_HEADER_SIZE : ℕ := 20

def OVERFLOW_PAGE_DATA : ℕ := PAGE_SIZE_LEAF - OVERFLOW_HEADER_SIZE

def MAX_OVERFLOW_CHAIN_PAGES : ℕ := (2 ^ 32 - 1) / OVERFLOW_PAGE_DATA + 2

/-- the loop of `write_overflow_chain` over pages and chunks; a page's successor is known before it is written -/
def writeChunks : List ℕ → Bytes → PageStore → PageStore
  | [], _, store => store
  | page :: pages, data, store =>
    writePage (writeChunks pages (data.drop OVERFLOW_PAGE_DATA) store) page
      (.overflow (data.take OVERFLOW_PAGE_DATA) (pages.headD 0))

/-- only called with data -/
def writeOverflowChain (a : Allocator) (store : PageStore) (data : Bytes) : Except TreeError (PageStore × ℕ) := do
  let (store, pages) ← allocPages a ((data.length - 1) / OVERFLOW_PAGE_DATA + 1) store
  .ok (writeChunks pages data store, pages.headD 0)

/-- the walk, with the number of pages it may still visit -/
def readChunks (store : PageStore) : ℕ → ℕ → Except TreeError Bytes
  | fuel, cur =>
    if cur = 0 then .ok []
    else match fuel with
      | 0 => .error .overflowChainTooLong
      | fuel + 1 =>
        match store cur with
        | some (.overflow data next) =>
          if OVERFLOW_HEADER_SIZE + data.length > PAGE_SIZE_LEAF then .error .overflowPageTooLarge
          else do
            let rest ← readChunks store fuel next
            .ok (data ++ rest)
        | _ => .error .badPage

def readOverflowChain (store : PageStore) (firstPage totalLength : ℕ) : Except TreeError Bytes := do
  let bytes ← readChunks store MAX_OVERFLOW_CHAIN_PAGES firstPage
  .ok (bytes.take totalLength)

def freeChunks : ℕ → ℕ → PageStore → Except TreeError PageStore
  | fuel, cur, store =>
    if cur = 0 then .ok store
    else match fuel with
      | 0 => .error .overflowChainTooLong
      | fuel + 1 =>
        match store cur with
        | some (.overflow _ next) => freeChunks fuel next (freePage store cur)
        | _ => .error .badPage

def freeOverflowChain (store : PageStore) (firstPage : ℕ) : Except TreeError PageStore :=
  freeChunks MAX_OVERFLOW_CHAIN_PAGES firstPage store

/-- the value of a cell -/
def resolveCellValue (store : PageStore) : VersionData → Except TreeError Bytes
  | .inline bytes => .ok bytes
  | .overflow firstPage totalLength => readOverflowChain store firstPage totalLength

/-- the cell for a value; its length is kept in 32 bits -/
def storeValue (a : Allocator) (store : PageStore) (value : Bytes) : Except TreeError (PageStore × VersionData) :=
  if value.length > OVERFLOW_THRESHOLD then do
    let (store, firstPage) ← writeOverflowChain a store value
    .ok (store, .overflow firstPage (value.length % 2 ^ 32))
  else .ok (store, .inline value)

theorem storeValue_inline {a : Allocator} {store : PageStore} {value : Bytes} (h : value.length ≤ OVERFLOW_THRESHOLD) :
    storeValue a store value = .ok (store, .inline value) := if_neg (not_lt.2 h)

def freeValue (store : PageStore) : VersionData → Except TreeError PageStore
  | .inline _ => .ok store
  | .overflow firstPage _ => freeOverflowChain store firstPage

/-! ## Chains that hold a value -/

/-- the pages, from the first one on, hold the bytes -/
def Chained (store : PageStore) : List ℕ → Bytes → Prop
  | [], data => data = []
  | page :: pages, data => page ≠ 0 ∧ ∃ chunk rest, data = chunk ++ rest ∧ chunk.length ≤ OVERFLOW_PAGE_DATA ∧
      store page = some (.overflow chunk (pages.headD 0)) ∧ Chained store pages rest

section Chained

variable {a : Allocator} {store store' : PageStore} {pages : List ℕ} {data : Bytes}

theorem Chained.frame (h : Chained store pages data) (hsame : ∀ p ∈ pages, store' p = store p) :
    Chained store' pages data := by
  induction pages generalizing data with
  | nil => exact h
  | cons page pages ih =>
    obtain ⟨hne, chunk, rest, rfl, hlen, hpage, hrest⟩ := h
    rw [forall_mem_cons] at hsame
    exact ⟨hne, chunk, rest, rfl, hlen, hsame.1 ▸ hpage, ih hrest hsame.2⟩

theorem Chained.overflow (h : Chained store pages data) :
    ∀ p ∈ pages, ∃ chunk next, store p = some (.overflow chunk next) := by
  induction pages generalizing data with
  | nil => simp
  | cons page pages ih =>
    obtain ⟨-, chunk, rest, -, -, hpage, hrest⟩ := h
    exact forall_mem_cons.2 ⟨⟨chunk, _, hpage⟩, ih hrest⟩

theorem writeChunks_of_notMem {p : ℕ} (h : p ∉ pages) : writeChunks pages data store p = store p := by
  induction pages generalizing data with
  | nil => rfl
  | cons page pages ih =>
    rw [mem_cons, not_or] at h
    rw [writeChunks, writePage_of_ne _ h.1, ih h.2]

theorem chained_writeChunks (hnodup : pages.Nodup) (hne : ∀ p ∈ pages, p ≠ 0)
    (hlen : data.length ≤ pages.length * OVERFLOW_PAGE_DATA) :
    Chained (writeChunks pages data store) pages data := by
  induction pages generalizing data with
  | nil => exact length_eq_zero_iff.1 (by simpa using hlen)
  | cons page pages ih =>
    rw [nodup_cons] at hnodup
    rw [forall_mem_cons] at hne
    have hrest : (data.drop OVERFLOW_PAGE_DATA).length ≤ pages.length * OVERFLOW_PAGE_DATA := by
      rw [length_drop]
      simp only [length_cons, add_mul, one_mul] at hlen
      omega
    refine ⟨hne.1, data.take OVERFLOW_PAGE_DATA, data.drop OVERFLOW_PAGE_DATA, (take_append_drop _ _).symm, ?_, ?_, ?_⟩
    · rw [length_take]
      exact min_le_left _ _
    · rw [writeChunks, writePage_self]
    · refine (ih hnodup.2 hne.2 hrest).frame fun p hp => ?_
      have hne : p ≠ page := by
        rintro rfl
        exact hnodup.1 hp
      rw [writeChunks, writePage_of_ne _ hne]

section

variable (h : Chained store pages data)

include h

/-- **Reading a chain** gives what it holds. -/
theorem readChunks_eq {fuel : ℕ} (hfuel : pages.length ≤ fuel) : readChunks store fuel (pages.headD 0) = .ok data := by
  induction pages generalizing data fuel with
  | nil =>
    obtain rfl := h
    rw [readChunks.eq_def]
    rfl
  | cons page pages ih =>
    obtain ⟨hne, chunk, rest, rfl, hlen, hpage, hrest⟩ := h
    obtain ⟨fuel, rfl⟩ : ∃ f, fuel = f + 1 := ⟨fuel - 1, by simp at hfuel; omega⟩
    have hsmall : ¬ OVERFLOW_HEADER_SIZE + chunk.length > PAGE_SIZE_LEAF := by
      unfold OVERFLOW_PAGE_DATA OVERFLOW_HEADER_SIZE PAGE_SIZE_LEAF at *
      omega
    rw [readChunks.eq_def]
    simp only [headD_cons, hne, if_false, hpage, hsmall]
    exact bind_ok (ih hrest (by simpa using hfuel)) _

/-- **Freeing a chain** frees its pages and leaves the others. -/
theorem freeChunks_ok (hnodup : pages.Nodup) {fuel : ℕ} (hfree : freeChunks fuel (pages.headD 0) store = .ok store') :
    (∀ p ∈ pages, store' p = none) ∧ ∀ p, p ∉ pages → store' p = store p := by
  induction pages generalizing data fuel store with
  | nil =>
    rw [freeChunks.eq_def] at hfree
    cases hfree
    exact ⟨by simp, fun _ _ => rfl⟩
  | cons page pages ih =>
    obtain ⟨hne, chunk, rest, rfl, hlen, hpage, hrest⟩ := h
    rw [nodup_cons] at hnodup
    rw [freeChunks.eq_def] at hfree
    simp only [headD_cons, hne, if_false] at hfree
    cases fuel with
    | zero => cases hfree
    | succ fuel =>
      simp only [hpage] at hfree
      have hrest' : Chained (freePage store page) pages rest :=
        hrest.frame fun p hp => freePage_of_ne fun heq => hnodup.1 (heq ▸ hp)
      obtain ⟨hfreed, hsame⟩ := ih hrest' hnodup.2 hfree
      refine ⟨forall_mem_cons.2 ⟨?_, hfreed⟩, fun p hp => ?_⟩
      · rw [hsame page hnodup.1, freePage_self]
      · rw [mem_cons, not_or] at hp
        rw [hsame p hp.2, freePage_of_ne hp.1]

theorem freeChunks_isOk (hnodup : pages.Nodup) {fuel : ℕ} :
    (∃ store', freeChunks fuel (pages.headD 0) store = .ok store') ↔ pages.length ≤ fuel := by
  induction pages generalizing data fuel store with
  | nil =>
    rw [freeChunks.eq_def]
    simp
  | cons page pages ih =>
    obtain ⟨hne, chunk, rest, rfl, hlen, hpage, hrest⟩ := h
    rw [nodup_cons] at hnodup
    rw [freeChunks.eq_def]
    simp only [headD_cons, hne, if_false]
    cases fuel with
    | zero => simp
    | succ fuel =>
      have hrest' : Chained (freePage store page) pages rest :=
        hrest.frame fun p hp => freePage_of_ne fun heq => hnodup.1 (heq ▸ hp)
      simp only [hpage, length_cons, add_le_add_iff_right]
      exact ih hrest' hnodup.2

end

/-! ### Cells -/

/-- the cell stands for the value, whose chain is in these pages -/
def Stored (store : PageStore) : VersionData → List ℕ → Bytes → Prop
  | .inline bytes, pages, value => bytes = value ∧ pages = []
  | .overflow firstPage totalLength, pages, value => pages.headD 0 = firstPage ∧ totalLength = value.length % 2 ^ 32 ∧
      pages.length = (value.length - 1) / OVERFLOW_PAGE_DATA + 1 ∧ pages.Nodup ∧ Chained store pages value

variable {cell : VersionData} {value : Bytes}

/-- **A cell for a value.** A chain is written to fresh pages, which then hold the value. -/
theorem storeValue_ok (h : storeValue a store value = .ok (store', cell)) :
    ∃ pages, Stored store' cell pages value ∧ (∀ p ∈ pages, store p = none) ∧ ∀ p, p ∉ pages → store' p = store p := by
  unfold storeValue at h
  split_ifs at h with hbig
  · obtain ⟨⟨store₁, firstPage⟩, hwrite, h₁⟩ := bind_eq_ok h
    cases h₁
    obtain ⟨⟨store₂, pages⟩, h₂, hwrite⟩ := bind_eq_ok hwrite
    cases hwrite
    obtain ⟨hlen, hall⟩ := allocPages_ok h₂
    have hroom : value.length ≤ pages.length * OVERFLOW_PAGE_DATA := by
      have hdiv := lt_div_mul_add (show 0 < OVERFLOW_PAGE_DATA by decide) (a := value.length - 1)
      rw [hlen, add_mul]
      omega
    refine ⟨pages, ⟨rfl, rfl, hlen, hall.nodup, chained_writeChunks hall.nodup (fun p hp => (hall.fresh p hp).1) hroom⟩,
      fun p hp => (hall.fresh p hp).2, fun p hp => ?_⟩
    rw [writeChunks_of_notMem hp, hall.same p hp]
  · cases h
    exact ⟨[], ⟨rfl, rfl⟩, by simp, fun _ _ => rfl⟩

variable (h : Stored store cell pages value)

include h

theorem Stored.frame (hsame : ∀ p ∈ pages, store' p = store p) : Stored store' cell pages value := by
  cases cell with
  | inline bytes => exact h
  | overflow firstPage totalLength =>
    obtain ⟨hhead, hlen, hpages, hnodup, hchain⟩ := h
    exact ⟨hhead, hlen, hpages, hnodup, hchain.frame hsame⟩

theorem Stored.overflow : ∀ p ∈ pages, ∃ chunk next, store p = some (.overflow chunk next) := by
  cases cell with
  | inline bytes =>
    obtain ⟨-, rfl⟩ := h
    simp
  | overflow firstPage totalLength => exact h.2.2.2.2.overflow

/-- **The value of a cell** that is short enough for its length field. -/
theorem Stored.resolve (hshort : value.length < 2 ^ 32) : resolveCellValue store cell = .ok value := by
  cases cell with
  | inline bytes =>
    obtain ⟨rfl, -⟩ := h
    rfl
  | overflow firstPage totalLength =>
    obtain ⟨rfl, rfl, hpages, -, hchain⟩ := h
    have hfuel : pages.length ≤ MAX_OVERFLOW_CHAIN_PAGES := by
      have := Nat.div_le_div_right (c := OVERFLOW_PAGE_DATA) (show value.length - 1 ≤ 2 ^ 32 - 1 by omega)
      unfold MAX_OVERFLOW_CHAIN_PAGES
      omega
    rw [mod_eq_of_lt hshort]
    refine (bind_ok (readChunks_eq hchain hfuel) _).trans ?_
    rw [take_length]

theorem Stored.free (hfree : freeValue store cell = .ok store') :
    (∀ p ∈ pages, store' p = none) ∧ ∀ p, p ∉ pages → store' p = store p := by
  cases cell with
  | inline bytes =>
    obtain ⟨-, rfl⟩ := h
    cases hfree
    exact ⟨by simp, fun _ _ => rfl⟩
  | overflow firstPage totalLength =>
    obtain ⟨rfl, -, -, hnodup, hchain⟩ := h
    exact freeChunks_ok hchain hnodup hfree

theorem Stored.free_isOk : (∃ store', freeValue store cell = .ok store') ↔ pages.length ≤ MAX_OVERFLOW_CHAIN_PAGES := by
  cases cell with
  | inline bytes =>
    obtain ⟨-, rfl⟩ := h
    simp [freeValue]
  | overflow firstPage totalLength =>
    obtain ⟨rfl, -, -, hnodup, hchain⟩ := h
    exact freeChunks_isOk hchain hnodup

end Chained

end Mqlite.Btree
