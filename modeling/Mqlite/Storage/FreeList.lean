/-
The page allocator and its two free lists (`storage/allocator/free_list.rs`, `storage/file_io.rs`).

Every page number owns one 32 KB slot of the file, whatever the size of the page in it. The 4 KB and the 32 KB free
lists are stacks threaded through the free pages themselves: a free page holds the number of the next one in its first
four bytes, lowest byte first, and 0 ends the list. `allocate` pops the list of its size, or hands out the page number
at the end of the file; `free` writes the link into the page and then moves the head.

Each call does at most one page transfer, and the transfer may fail: a failed write may leave any bytes in the page it
was aimed at. The callers are modelled with the allocator (`AllocState`): they hold what was allocated and not yet
freed, free only what they hold, with the size they got it, and write only to pages they hold.

Result: `allocator_accounts_for_pages`. In every state such calls can reach, the lists end, share no page with each
other or with the callers, have the length the header counts, and together with the held pages and page 0 make up the
file; an allocation returns none of the pages in use.
-/
import Mqlite.Lib.Run
import Mqlite.Lib.Threaded
import Mqlite.Mvcc.Version

namespace Mqlite.Storage

open Lib Mvcc List Function

/-! ## Pages of the file -/

inductive PageSize where
  | small4k
  | large32k
deriving DecidableEq, Repr

instance lawfulBEq_sizedPage : LawfulBEq (UInt32 × PageSize) := inferInstance

def PageSize.bytes : PageSize → ℕ
  | .small4k => 4096
  | .large32k => 32768

/-- the bytes of the file; what lies past the end of the file reads as 0 -/
abbrev File := ℕ → Byte

/-- a page-sized I/O buffer, by offset -/
abbrev PageBuf := ℕ → Byte

/-- the outcome of one page transfer; a failed write leaves some bytes in the page -/
inductive IoResult where
  | ok
  | failed (left : PageBuf)

inductive AllocError where
  | internal (message : String)
  | diskFull (requiredBytes availableBytes : ℕ) (suggestion : String)
  | io

def fileOffset (pageNumber : UInt32) : ℕ := pageNumber.toNat * 32768

def readPage (file : File) (pageNumber : UInt32) (size : PageSize) : PageBuf :=
  fun i => if i < size.bytes then file (fileOffset pageNumber + i) else 0

def writePage (file : File) (pageNumber : UInt32) (size : PageSize) (buf : PageBuf) : File := fun j =>
  if fileOffset pageNumber ≤ j ∧ j < fileOffset pageNumber + size.bytes then buf (j - fileOffset pageNumber) else file j

/-- the file after a write of buf that ended as io says -/
def writeIo (io : IoResult) (file : File) (pageNumber : UInt32) (size : PageSize) (buf : PageBuf) : File :=
  match io with
  | .ok => writePage file pageNumber size buf
  | .failed left => writePage file pageNumber size left

/-! ## The header fields of the allocator and of the catalog root -/

structure FileHeader where
  catalogRootPage : UInt32
  freeListHead4k : UInt32
  freeListHead32k : UInt32
  totalPageCount : UInt32
  freePageCount4k : UInt32
  freePageCount32k : UInt32
  catalogRootBackup : UInt32
  catalogRootLevel : UInt8
deriving DecidableEq, Repr

namespace FileHeader

/-- the header of a new file: page 0 exists, nothing is free -/
def new : FileHeader := ⟨0, 0, 0, 1, 0, 0, 0, 0⟩

def freeListHead (h : FileHeader) : PageSize → UInt32
  | .small4k => h.freeListHead4k
  | .large32k => h.freeListHead32k

def freePageCount (h : FileHeader) : PageSize → UInt32
  | .small4k => h.freePageCount4k
  | .large32k => h.freePageCount32k

def setFreeListHead (h : FileHeader) (size : PageSize) (head : UInt32) : FileHeader :=
  match size with
  | .small4k => { h with freeListHead4k := head }
  | .large32k => { h with freeListHead32k := head }

def setFreePageCount (h : FileHeader) (size : PageSize) (count : UInt32) : FileHeader :=
  match size with
  | .small4k => { h with freePageCount4k := count }
  | .large32k => { h with freePageCount32k := count }

/-- both fields of one list -/
def withFreeList (h : FileHeader) (size : PageSize) (head count : UInt32) : FileHeader :=
  (h.setFreeListHead size head).setFreePageCount size count

variable {h : FileHeader} {size size' : PageSize} {n count : UInt32}

@[simp] theorem freePageCount_setFreeListHead :
    (h.setFreeListHead size n).freePageCount size' = h.freePageCount size' := by
  cases size <;> cases size' <;> rfl

@[simp] theorem freeListHead_withFreeList :
    (h.withFreeList size n count).freeListHead size' = if size' = size then n else h.freeListHead size' := by
  cases size <;> cases size' <;> rfl

@[simp] theorem freePageCount_withFreeList :
    (h.withFreeList size n count).freePageCount size' = if size' = size then count else h.freePageCount size' := by
  cases size <;> cases size' <;> rfl

@[simp] theorem totalPageCount_withFreeList : (h.withFreeList size n count).totalPageCount = h.totalPageCount := by
  cases size <;> rfl

end FileHeader

/-! ## The allocator -/

open FileHeader

structure PageAllocator where
  header : FileHeader
  file : File

namespace PageAllocator

def readFreeLink (a : PageAllocator) (pageNumber : UInt32) (size : PageSize) (io : IoResult) :
    Except AllocError UInt32 :=
  match io with
  | .ok => .ok (fromLeBytes (readPage a.file pageNumber size))
  | .failed _ => .error .io

/-- `next` in the first four bytes, the rest zeroed -/
def freeLinkBuf (next : UInt32) : PageBuf := fun i => if i < 4 then leByte next i else 0

def writeFreeLink (a : PageAllocator) (pageNumber next : UInt32) (size : PageSize) (io : IoResult) :
    Except AllocError Unit × PageAllocator :=
  (match io with
    | .ok => .ok ()
    | .failed _ => .error .io,
    { a with file := writeIo io a.file pageNumber size (freeLinkBuf next) })

def pageCountExhausted : AllocError :=
  .diskFull 4096 0 "page count exhausted (u32 overflow); database has reached maximum size"

def allocate (a : PageAllocator) (size : PageSize) (io : IoResult) : Except AllocError UInt32 × PageAllocator :=
  let freeHead := a.header.freeListHead size
  if freeHead ≠ 0 then
    match a.readFreeLink freeHead size io with
    | .error e => (.error e, a)
    | .ok next =>
      let header := a.header.setFreeListHead size next
      (.ok freeHead, { a with header := header.setFreePageCount size (saturatingSub (header.freePageCount size) 1) })
  else
    match checkedAdd a.header.totalPageCount 1 with
    | none => (.error pageCountExhausted, a)
    | some total => (.ok a.header.totalPageCount, { a with header := { a.header with totalPageCount := total } })

def countOverflow : PageSize → AllocError
  | .small4k => .internal "free_page_count_4k overflow"
  | .large32k => .internal "free_page_count_32k overflow"

def free (a : PageAllocator) (pageNumber : UInt32) (size : PageSize) (io : IoResult) :
    Except AllocError Unit × PageAllocator :=
  if pageNumber = 0 then (.error (.internal "cannot free page 0 (file header page)"), a)
  else if a.header.totalPageCount ≤ pageNumber then
    let total := a.header.totalPageCount
    (.error (.internal s!"cannot free page {pageNumber}: beyond end of file (total_page_count = {total})"), a)
  else
    match a.writeFreeLink pageNumber (a.header.freeListHead size) size io with
    | (.error e, a) => (.error e, a)
    | (.ok (), a) =>
      -- the head moves before the count is checked
      let header := a.header.setFreeListHead size pageNumber
      match checkedAdd (header.freePageCount size) 1 with
      | none => (.error (countOverflow size), { a with header := header })
      | some count => (.ok (), { a with header := header.setFreePageCount size count })

def allocate4k (a : PageAllocator) (io : IoResult) : Except AllocError UInt32 × PageAllocator := a.allocate .small4k io

def allocate32k (a : PageAllocator) (io : IoResult) : Except AllocError UInt32 × PageAllocator :=
  a.allocate .large32k io

def free4k (a : PageAllocator) (pageNumber : UInt32) (io : IoResult) : Except AllocError Unit × PageAllocator :=
  a.free pageNumber .small4k io

def free32k (a : PageAllocator) (pageNumber : UInt32) (io : IoResult) : Except AllocError Unit × PageAllocator :=
  a.free pageNumber .large32k io

end PageAllocator

/-! ## The links stored in the file -/

open PageAllocator

/-- the page number in the first four bytes of a page -/
def freeLink (file : File) (pageNumber : UInt32) : UInt32 := fromLeBytes fun i => file (fileOffset pageNumber + i)

theorem PageSize.four_le (size : PageSize) : 4 ≤ size.bytes := by cases size <;> decide

theorem PageSize.bytes_le (size : PageSize) : size.bytes ≤ 32768 := by cases size <;> decide

theorem readPage_link (file : File) (page : UInt32) (size : PageSize) :
    fromLeBytes (readPage file page size) = freeLink file page := by
  apply fromLeBytes_congr
  intro i hi
  exact if_pos (hi.trans_le size.four_le)

variable {file : File} {page : UInt32} {size : PageSize}

/-- slots are disjoint: a write to one page leaves the bytes of the slots of the others -/
theorem writePage_other {other : UInt32} {buf : PageBuf} (hne : other ≠ page) {i : ℕ}
    (hi : i < 32768) : writePage file page size buf (fileOffset other + i) = file (fileOffset other + i) := by
  have hn : other.toNat ≠ page.toNat := fun h => hne (UInt32.toNat_inj.1 h)
  have hs := size.bytes_le
  apply if_neg
  simp only [fileOffset]
  omega

theorem freeLink_writePage_other {other : UInt32} {buf : PageBuf} (hne : other ≠ page) :
    freeLink (writePage file page size buf) other = freeLink file other := by
  apply fromLeBytes_congr
  intro i hi
  exact writePage_other hne (by omega)

theorem freeLink_writePage_self {next : UInt32} :
    freeLink (writePage file page size (freeLinkBuf next)) page = next := by
  apply fromLeBytes_leByte
  intro i hi
  have hs := size.four_le
  rw [writePage, if_pos (by omega), Nat.add_sub_cancel_left]
  exact if_pos hi

/-! ## What one call can do -/

namespace PageAllocator

variable {a a' : PageAllocator} {size : PageSize} {io : IoResult}

/-- an allocation fails and changes nothing, pops the list of its size, or takes the page number at the end of the
file -/
theorem allocate_cases {r : Except AllocError UInt32} (h : a.allocate size io = (r, a')) :
    (∃ e, r = .error e ∧ a' = a) ∨ (a.header.freeListHead size ≠ 0 ∧ r = .ok (a.header.freeListHead size) ∧
      a' = ⟨a.header.withFreeList size (freeLink a.file (a.header.freeListHead size))
        (saturatingSub (a.header.freePageCount size) 1), a.file⟩) ∨
    (a.header.freeListHead size = 0 ∧ r = .ok a.header.totalPageCount ∧ ∃ total,
      total.toNat = a.header.totalPageCount.toNat + 1 ∧
        a' = { a with header := { a.header with totalPageCount := total } }) := by
  simp only [allocate] at h
  split_ifs at h with hhead
  · cases io with
    | failed left =>
      obtain ⟨rfl, rfl⟩ := Prod.mk.inj h
      exact .inl ⟨_, rfl, rfl⟩
    | ok =>
      simp only [readFreeLink, readPage_link, freePageCount_setFreeListHead] at h
      obtain ⟨rfl, rfl⟩ := Prod.mk.inj h
      exact .inr (.inl ⟨hhead, rfl, rfl⟩)
  · cases hadd : checkedAdd a.header.totalPageCount 1 with
    | none =>
      rw [hadd] at h
      obtain ⟨rfl, rfl⟩ := Prod.mk.inj h
      exact .inl ⟨_, rfl, rfl⟩
    | some total =>
      rw [hadd] at h
      obtain ⟨rfl, rfl⟩ := Prod.mk.inj h
      exact .inr (.inr ⟨not_not.1 hhead, rfl, total, checkedAdd_eq_some.1 hadd, rfl⟩)

variable {page : UInt32}

/-- a free is refused, fails after a write to the page it was to free, overflows the count, or pushes the page -/
theorem free_cases {r : Except AllocError Unit} (h : a.free page size io = (r, a')) :
    ((page = 0 ∨ a.header.totalPageCount ≤ page) ∧ (∃ e, r = .error e) ∧ a' = a) ∨
    (page ≠ 0 ∧ page < a.header.totalPageCount ∧
      ((∃ left, io = .failed left ∧ (∃ e, r = .error e) ∧ a' = { a with file := writePage a.file page size left }) ∨
      (io = .ok ∧ (a.header.freePageCount size).toNat = 2 ^ 32 - 1 ∧ (∃ e, r = .error e) ∧
        a' = ⟨a.header.setFreeListHead size page,
          writePage a.file page size (freeLinkBuf (a.header.freeListHead size))⟩) ∨
      (io = .ok ∧ r = .ok () ∧ ∃ count, count.toNat = (a.header.freePageCount size).toNat + 1 ∧
        a' = ⟨a.header.withFreeList size page count,
          writePage a.file page size (freeLinkBuf (a.header.freeListHead size))⟩))) := by
  rw [free] at h
  split_ifs at h with h0 htotal
  · obtain ⟨rfl, rfl⟩ := Prod.mk.inj h
    exact .inl ⟨.inl h0, ⟨_, rfl⟩, rfl⟩
  · obtain ⟨rfl, rfl⟩ := Prod.mk.inj h
    exact .inl ⟨.inr htotal, ⟨_, rfl⟩, rfl⟩
  refine .inr ⟨h0, UInt32.not_le.1 htotal, ?_⟩
  cases io with
  | failed left =>
    obtain ⟨rfl, rfl⟩ := Prod.mk.inj h
    exact .inl ⟨left, rfl, ⟨_, rfl⟩, rfl⟩
  | ok =>
    simp only [writeFreeLink, writeIo, freePageCount_setFreeListHead] at h
    cases hadd : checkedAdd (a.header.freePageCount size) 1 with
    | none =>
      rw [hadd] at h
      obtain ⟨rfl, rfl⟩ := Prod.mk.inj h
      have hmax := checkedAdd_eq_none.1 hadd
      have hlt := (a.header.freePageCount size).toNat_lt
      refine .inr (.inl ⟨rfl, ?_, ⟨_, rfl⟩, rfl⟩)
      change 2 ^ 32 ≤ _ + 1 at hmax
      omega
    | some count =>
      rw [hadd] at h
      obtain ⟨rfl, rfl⟩ := Prod.mk.inj h
      exact .inr (.inr ⟨rfl, rfl, count, checkedAdd_eq_some.1 hadd, rfl⟩)

/-- when a free succeeds: a page of the file other than page 0, a write that goes through, and a count with room -/
theorem free_isOk_iff : (∃ a', a.free page size io = (.ok (), a')) ↔
    page ≠ 0 ∧ page < a.header.totalPageCount ∧ io = .ok ∧ (a.header.freePageCount size).toNat + 1 < 2 ^ 32 := by
  rcases hr : a.free page size io with ⟨r, a'⟩
  obtain ⟨hpage, ⟨e, rfl⟩, -⟩ | ⟨h0, hlt,
    ⟨left, rfl, ⟨e, rfl⟩, -⟩ | ⟨-, hmax, ⟨e, rfl⟩, -⟩ | ⟨rfl, rfl, count, hcount, -⟩⟩ :=
    free_cases hr
  · refine iff_of_false (by simp) fun ⟨h0, hlt, _⟩ => ?_
    rcases hpage with rfl | hle
    · exact h0 rfl
    · exact UInt32.not_le.2 hlt hle
  · exact iff_of_false (by simp) fun ⟨_, _, hio, _⟩ => nomatch hio
  · refine iff_of_false (by simp) fun ⟨_, _, _, hroom⟩ => ?_
    omega
  · have hbound := count.toNat_lt
    exact iff_of_true ⟨a', rfl⟩ ⟨h0, hlt, rfl, hcount ▸ hbound⟩

/-- a free that succeeds pushes the page -/
theorem free_pushes (h : a.free page size io = (.ok (), a')) :
    ∃ count, count.toNat = (a.header.freePageCount size).toNat + 1 ∧
    a' = ⟨a.header.withFreeList size page count,
      writePage a.file page size (freeLinkBuf (a.header.freeListHead size))⟩ := by
  obtain ⟨-, ⟨e, he⟩, -⟩ | ⟨-, -, ⟨left, -, ⟨e, he⟩, -⟩ | ⟨-, -, ⟨e, he⟩, -⟩ | ⟨-, -, hpush⟩⟩ := free_cases h
  · cases he
  · cases he
  · cases he
  · exact hpush

end PageAllocator

/-! ## The allocator with its callers -/

/-- the allocator, and the pages its callers hold with the size they were allocated -/
structure AllocState where
  alloc : PageAllocator
  held : List (UInt32 × PageSize)

inductive AllocOp where
  | allocate (size : PageSize) (io : IoResult)
  | free (page : UInt32) (size : PageSize) (io : IoResult)
  | write (page : UInt32) (size : PageSize) (buf : PageBuf) (io : IoResult)

namespace AllocState

def pages (s : AllocState) : List UInt32 := s.held.map Prod.fst

/-- a new file: page 0 only, and nobody holds a page -/
def fresh (file : File) : AllocState := ⟨⟨FileHeader.new, file⟩, []⟩

/-- one call; `none` when the caller does not keep to the contract -/
def step (s : AllocState) : AllocOp → Option AllocState
  | .allocate size io =>
    match s.alloc.allocate size io with
    | (.ok page, a) => some ⟨a, (page, size) :: s.held⟩
    | (.error _, a) => some { s with alloc := a }
  | .free page size io =>
    if (page, size) ∈ s.held then
      match s.alloc.free page size io with
      | (.ok (), a) => some ⟨a, s.held.erase (page, size)⟩
      | (.error _, a) => some { s with alloc := a }
    else none
  | .write page size buf io =>
    if page ∈ s.pages then some { s with alloc.file := writeIo io s.alloc.file page size buf } else none

/-- The shape the allocator keeps its file in, with the two lists spelled out: they end, share no page with each other
or with the holders, have the counted length, and cover with the held pages and page 0 exactly the pages of the file. -/
structure Accounts (s : AllocState) (lists : PageSize → List UInt32) : Prop where
  threaded : ∀ size, Threaded (freeLink s.alloc.file) 0 (s.alloc.header.freeListHead size) (lists size)
  acyclic : ∀ size, (lists size).Nodup
  counted : ∀ size, (s.alloc.header.freePageCount size).toNat = (lists size).length
  disjoint : ∀ page, page ∈ lists .small4k → page ∉ lists .large32k
  notHeld : ∀ size, ∀ page ∈ lists size, page ∉ s.pages
  heldOnce : s.pages.Nodup
  headerPage : (0 : UInt32) ∉ s.pages
  covers : ∀ page, page < s.alloc.header.totalPageCount ↔ page = 0 ∨ page ∈ s.pages ∨ ∃ size, page ∈ lists size

theorem fresh_accounts (file : File) : (fresh file).Accounts fun _ => [] where
  threaded size := by cases size <;> rfl
  acyclic _ := nodup_nil
  counted size := by cases size <;> rfl
  disjoint _ h := by cases h
  notHeld _ _ h := by cases h
  heldOnce := nodup_nil
  headerPage := not_mem_nil
  covers page := by
    have hlt : page < 1 ↔ page.toNat < 1 := UInt32.lt_iff_toNat_lt
    have heq : page = 0 ↔ page.toNat = 0 := UInt32.toNat_inj.symm
    have hnone : ¬(page ∈ (fresh file).pages ∨ ∃ _ : PageSize, page ∈ ([] : List UInt32)) := by simp [fresh, pages]
    rw [or_iff_left hnone]
    exact hlt.trans (Nat.lt_one_iff.trans heq.symm)

variable {s t : AllocState} {lists : PageSize → List UInt32} {page : UInt32} {size : PageSize}

/-- the lists after a push or a pop on one of them -/
theorem Accounts.mem_update {l : List UInt32} :
    (∃ size', page ∈ Function.update lists size l size') ↔ page ∈ l ∨ ∃ size', size' ≠ size ∧ page ∈ lists size' := by
  constructor
  · rintro ⟨size', h⟩
    by_cases he : size' = size
    · subst he
      rw [update_self] at h
      exact .inl h
    · rw [update_of_ne he] at h
      exact .inr ⟨size', he, h⟩
  · rintro (h | ⟨size', he, h⟩)
    · exact ⟨size, by rwa [update_self]⟩
    · exact ⟨size', by rwa [update_of_ne he]⟩

/-- a page is on at most one of the lists -/
theorem Accounts.size_unique (h : s.Accounts lists) {size' : PageSize} (h1 : page ∈ lists size)
    (h2 : page ∈ lists size') :
    size = size' := by
  cases size <;> cases size'
  · rfl
  · exact absurd h2 (h.disjoint page h1)
  · exact absurd h1 (h.disjoint page h2)
  · rfl

/-- disjoint lists stay disjoint when one of them changes to pages that no other list has -/
theorem Accounts.disjoint_update {l : List UInt32} (hl : ∀ page ∈ l, ∀ size', size' ≠ size → page ∉ lists size')
    (page : UInt32) :
    page ∈ Function.update lists size l .small4k → page ∉ Function.update lists size l .large32k := by
  cases size
  · exact fun hp => hl page hp _ (by decide)
  · exact fun hp hp' => hl page hp' _ (by decide) hp

section

variable (h : s.Accounts lists)

include h

/-- popping the head of a list gives its page to the caller -/
theorem Accounts.pop (hhead : s.alloc.header.freeListHead size ≠ 0) :
    ∃ l, lists size = s.alloc.header.freeListHead size :: l ∧
      Accounts ⟨⟨s.alloc.header.withFreeList size (freeLink s.alloc.file (s.alloc.header.freeListHead size))
        (saturatingSub (s.alloc.header.freePageCount size) 1), s.alloc.file⟩, (s.alloc.header.freeListHead size,
          size) :: s.held⟩
        (Function.update lists size l) := by
  obtain ⟨l, hl, hthread⟩ := (h.threaded size).pop hhead
  have hnodup := h.acyclic size
  rw [hl] at hnodup
  have hmem : s.alloc.header.freeListHead size ∈ lists size := hl ▸ mem_cons_self
  have hsub : ∀ page ∈ l, page ∈ lists size := fun page hp => hl ▸ mem_cons_of_mem _ hp
  refine ⟨l, hl, ?_, ?_, ?_, ?_, ?_, ?_, ?_, ?_⟩
  · intro size'
    by_cases he : size' = size
    · subst he
      simpa using hthread
    · simpa [he] using h.threaded size'
  · intro size'
    by_cases he : size' = size
    · subst he
      simpa using (nodup_cons.1 hnodup).2
    · simpa [he] using h.acyclic size'
  · intro size'
    by_cases he : size' = size
    · subst he
      have hc := h.counted size'
      rw [hl] at hc
      simp only [freePageCount_withFreeList, if_true, update_self, toNat_saturatingSub, hc]
      rfl
    · simpa [he] using h.counted size'
  · exact Accounts.disjoint_update fun page hp size' hne hp' => hne (h.size_unique hp' (hsub page hp))
  · intro size' page hp hheld
    have hp' : page ∈ lists size' ∧ page ≠ s.alloc.header.freeListHead size := by
      by_cases he : size' = size
      · subst he
        rw [update_self] at hp
        exact ⟨hsub page hp, fun heq => (nodup_cons.1 hnodup).1 (heq ▸ hp)⟩
      · rw [update_of_ne he] at hp
        exact ⟨hp, fun heq => he (h.size_unique hp (heq ▸ hmem))⟩
    rcases mem_cons.1 hheld with heq | hheld
    · exact hp'.2 heq
    · exact h.notHeld size' page hp'.1 hheld
  · exact nodup_cons.2 ⟨h.notHeld size _ hmem, h.heldOnce⟩
  · intro h0
    rcases mem_cons.1 h0 with heq | h0
    · exact hhead heq.symm
    · exact h.headerPage h0
  · intro page
    have hsize : page ∈ lists size ↔ page = s.alloc.header.freeListHead size ∨ page ∈ l := by rw [hl, mem_cons]
    have hsplit : (∃ size', page ∈ lists size') ↔ page ∈ lists size ∨ ∃ size', size' ≠ size ∧ page ∈ lists size' := by
      rw [← Accounts.mem_update, update_eq_self]
    simp only [totalPageCount_withFreeList, h.covers, mem_update, hsplit, hsize, pages, map_cons, mem_cons, or_assoc]
    exact or_congr_right or_left_comm

/-- a list that is empty lets the file grow by the page number at its end -/
theorem Accounts.extend {total : UInt32} (htotal : total.toNat = s.alloc.header.totalPageCount.toNat + 1) :
    Accounts ⟨{ s.alloc with header := { s.alloc.header with totalPageCount := total } },
      (s.alloc.header.totalPageCount, size) :: s.held⟩ lists := by
  have hend : ¬(s.alloc.header.totalPageCount = 0 ∨ s.alloc.header.totalPageCount ∈ s.pages ∨
      ∃ size', s.alloc.header.totalPageCount ∈ lists size') := by
    rw [← h.covers]
    exact UInt32.lt_irrefl _
  rw [not_or, not_or, not_exists] at hend
  obtain ⟨h0, hheld, hlists⟩ := hend
  refine ⟨fun size' => ?_, h.acyclic, fun size' => ?_, h.disjoint, ?_, nodup_cons.2 ⟨hheld, h.heldOnce⟩, ?_, ?_⟩
  · have hthread := h.threaded size'
    cases size' <;> exact hthread
  · have hcount := h.counted size'
    cases size' <;> exact hcount
  · intro size' page hp hp'
    rcases mem_cons.1 hp' with rfl | hp'
    · exact hlists size' hp
    · exact h.notHeld size' page hp hp'
  · intro hp
    rcases mem_cons.1 hp with heq | hp
    · exact h0 heq.symm
    · exact h.headerPage hp
  · intro page
    have hlt : page < total ↔ page < s.alloc.header.totalPageCount ∨ page = s.alloc.header.totalPageCount := by
      rw [UInt32.lt_iff_toNat_lt, UInt32.lt_iff_toNat_lt, ← UInt32.toNat_inj]
      omega
    simp only [hlt, h.covers, pages, map_cons, mem_cons, or_assoc]
    exact or_congr_right (or_assoc.symm.trans or_comm)

/-- whatever a holder writes, or fails to write, into a page it holds, no link of a free page changes -/
theorem Accounts.write (hp : page ∈ s.pages) (size : PageSize) (buf : PageBuf) :
    Accounts { s with alloc.file := writePage s.alloc.file page size buf } lists := by
  refine ⟨fun size' => ?_, h.acyclic, h.counted, h.disjoint, h.notHeld, h.heldOnce, h.headerPage, h.covers⟩
  apply (h.threaded size').frame
  intro other hother
  exact freeLink_writePage_other fun heq => h.notHeld size' other hother (heq ▸ hp)

/-- pushing a held page takes it from its holder -/
theorem Accounts.push (hp : (page, size) ∈ s.held) {count : UInt32}
    (hcount : count.toNat = (s.alloc.header.freePageCount size).toNat + 1) :
    Accounts ⟨⟨s.alloc.header.withFreeList size page count,
      writePage s.alloc.file page size (freeLinkBuf (s.alloc.header.freeListHead size))⟩,
      s.held.erase (page, size)⟩ (Function.update lists size (page :: lists size)) := by
  have hpage : page ∈ s.pages := mem_map_of_mem hp
  have h0 : page ≠ 0 := fun heq => h.headerPage (heq ▸ hpage)
  have hfree : ∀ size', page ∉ lists size' := fun size' hmem => h.notHeld size' page hmem hpage
  have hlink : ∀ size', ∀ other ∈ lists size', freeLink (writePage s.alloc.file page size
      (freeLinkBuf (s.alloc.header.freeListHead size))) other = freeLink s.alloc.file other :=
    fun size' other hother => freeLink_writePage_other fun heq => hfree size' (heq ▸ hother)
  have hperm := (perm_cons_erase hp).map Prod.fst
  obtain ⟨hgone, hnodup⟩ := nodup_cons.1 (hperm.nodup h.heldOnce)
  have hmem : ∀ other, other ∈ (s.held.erase (page, size)).map Prod.fst ↔ other ∈ s.pages ∧ other ≠ page := by
    intro other
    rw [pages, hperm.mem_iff, map_cons, mem_cons]
    constructor
    · exact fun ho => ⟨.inr ho, fun heq => hgone (heq ▸ ho)⟩
    · exact fun ho => ho.1.resolve_left ho.2
  have hthreaded : ∀ size', Threaded
    (freeLink (writePage s.alloc.file page size (freeLinkBuf (s.alloc.header.freeListHead size)))) 0
      ((s.alloc.header.withFreeList size page count).freeListHead size')
        (Function.update lists size (page :: lists size) size') := by
    intro size'
    by_cases he : size' = size
    · subst he
      rw [update_self, freeListHead_withFreeList, if_pos rfl]
      exact (h.threaded size').push h0 freeLink_writePage_self (hlink size')
    · rw [update_of_ne he, freeListHead_withFreeList, if_neg he]
      exact (h.threaded size').frame (hlink size')
  refine ⟨hthreaded, fun size' => (hthreaded size').nodup, ?_, ?_, ?_, hnodup, ?_, ?_⟩
  · intro size'
    by_cases he : size' = size
    · subst he
      rw [update_self, freePageCount_withFreeList, if_pos rfl, hcount, h.counted, length_cons]
    · simpa [he] using h.counted size'
  · refine Accounts.disjoint_update fun other ho size' hne ho' => ?_
    rcases mem_cons.1 ho with rfl | ho
    · exact hfree size' ho'
    · exact hne (h.size_unique ho' ho)
  · intro size' other ho hheld
    obtain ⟨hheld, hne⟩ := (hmem other).1 hheld
    have ho' := mem_update.1 ⟨size', ho⟩
    rcases ho' with ho' | ⟨size'', -, ho'⟩
    · rcases mem_cons.1 ho' with rfl | ho'
      · exact hne rfl
      · exact h.notHeld size other ho' hheld
    · exact h.notHeld size'' other ho' hheld
  · exact fun h0' => h.headerPage ((hmem 0).1 h0').1
  · intro other
    have hsplit : (∃ size', other ∈ lists size') ↔ other ∈ lists size ∨ ∃ size', size' ≠ size ∧
        other ∈ lists size' := by
      rw [← Accounts.mem_update, update_eq_self]
    have hheld : other ∈ s.pages ↔ other = page ∨ other ∈ (s.held.erase (page, size)).map Prod.fst := by
      rw [hmem]
      by_cases heq : other = page
      · simp [heq, hpage]
      · simp [heq]
    simp only [totalPageCount_withFreeList, h.covers, mem_update, hsplit, hheld, mem_cons]
    simp only [or_assoc]
    exact or_congr_right or_left_comm

/-- while a page is held, the free pages of one size are fewer than 2 ^ 32 - 1, so their count cannot overflow -/
theorem Accounts.count_lt (hp : page ∈ s.pages) : (s.alloc.header.freePageCount size).toNat < 2 ^ 32 - 1 := by
  have hnodup : (page :: lists size).Nodup := nodup_cons.2 ⟨fun hmem => h.notHeld size page hmem hp, h.acyclic size⟩
  have hlen := length_le_of_nodup hnodup fun q hq => (h.covers q).2 <| by
    rcases mem_cons.1 hq with rfl | hq
    · exact .inr (.inl hp)
    · exact .inr (.inr ⟨size, hq⟩)
  have htotal := s.alloc.header.totalPageCount.toNat_lt
  rw [length_cons] at hlen
  rw [h.counted]
  omega

/-- **Step.** Every call of callers who keep to the contract keeps the accounts. -/
theorem step_accounts {op : AllocOp} (hstep : s.step op = some t) : ∃ lists', t.Accounts lists' := by
  cases op with
  | allocate size io =>
    rw [step] at hstep
    rcases hr : s.alloc.allocate size io with ⟨r, a⟩
    obtain ⟨e, rfl, rfl⟩ | ⟨hhead, rfl, rfl⟩ | ⟨-, rfl, total, htotal, rfl⟩ := allocate_cases hr
    · rw [hr] at hstep
      cases hstep
      exact ⟨lists, h⟩
    · rw [hr] at hstep
      cases hstep
      obtain ⟨l, -, hl⟩ := h.pop hhead
      exact ⟨_, hl⟩
    · rw [hr] at hstep
      cases hstep
      exact ⟨lists, h.extend htotal⟩
  | free page size io =>
    rw [step] at hstep
    split_ifs at hstep with hheld
    have hpage : page ∈ s.pages := mem_map_of_mem hheld
    rcases hr : s.alloc.free page size io with ⟨r, a⟩
    obtain ⟨-, ⟨e, rfl⟩, rfl⟩ | ⟨-, -, ⟨left, -, ⟨e, rfl⟩, rfl⟩ | ⟨-, hmax, -⟩ | ⟨-, rfl, count, hcount, rfl⟩⟩ :=
      free_cases hr
    · rw [hr] at hstep
      cases hstep
      exact ⟨lists, h⟩
    · rw [hr] at hstep
      cases hstep
      exact ⟨lists, h.write hpage size left⟩
    · exact absurd hmax (h.count_lt hpage).ne
    · rw [hr] at hstep
      cases hstep
      exact ⟨_, h.push hheld hcount⟩
  | write page size buf io =>
    rw [step] at hstep
    split_ifs at hstep with hpage
    cases hstep
    cases io
    · exact ⟨lists, h.write hpage size buf⟩
    · exact ⟨lists, h.write hpage size _⟩

end

/-- **The allocator accounts for every page.** From any accounted state, a new file for one, whatever sequence of calls
callers who keep to the contract make and whichever page transfers fail: the two lists are stacks that end, without a
page in common with each other or with the holders, of the length the header counts, and they make up the file together
with the held pages and page 0; and every allocation returns a page that is not page 0 and not held. -/
theorem allocator_accounts_for_pages {ops : List AllocOp} (h : s.Accounts lists) (hrun : run step s ops = some t) :
    (∃ lists', t.Accounts lists') ∧ ∀ size io page a, t.alloc.allocate size io = (.ok page, a) →
      page ≠ 0 ∧ page ∉ t.pages := by
  have haccounts : ∃ lists', t.Accounts lists' :=
    run_invariant_all (I := fun u => ∃ l, Accounts u l) (fun u op v ⟨l, hl⟩ hstep => step_accounts hl hstep)
      ⟨lists, h⟩ hrun
  refine ⟨haccounts, fun size io page a hr => ?_⟩
  obtain ⟨lists', h'⟩ := haccounts
  obtain ⟨e, he, -⟩ | ⟨hhead, he, -⟩ | ⟨-, he, -⟩ := allocate_cases hr
  · cases he
  · cases he
    obtain ⟨l, hl, -⟩ := (h'.threaded size).pop hhead
    exact ⟨hhead, h'.notHeld size _ (hl ▸ mem_cons_self)⟩
  · cases he
    have hend := mt (h'.covers _).2 (UInt32.lt_irrefl _)
    exact ⟨fun h0 => hend (.inl h0), fun hp => hend (.inr (.inl hp))⟩

/-- a new file, two allocations, a free whose write fails, the same free again, and an allocation that takes the page
back -/
theorem allocator_accounts_for_pages_five_calls : ∃ t, run step (fresh fun _ => 0) [.allocate .small4k .ok,
    .allocate .large32k .ok, .free 1 .small4k (.failed fun _ => 7), .free 1 .small4k .ok,
      .allocate .small4k .ok] = some t ∧
    t.pages = [1, 2] ∧ (∃ lists, t.Accounts lists) ∧
      ∀ size io page a, t.alloc.allocate size io = (.ok page, a) → page ≠ 0 ∧ page ∉ t.pages := by
  have hpages : (run step (fresh fun _ => 0) [.allocate .small4k .ok, .allocate .large32k .ok,
      .free 1 .small4k (.failed fun _ => 7), .free 1 .small4k .ok,
      .allocate .small4k .ok]).map pages = some [1, 2] := by
    decide
  obtain ⟨t, hrun, ht⟩ := Option.map_eq_some_iff.1 hpages
  exact ⟨t, hrun, ht, allocator_accounts_for_pages (fresh_accounts _) hrun⟩

end AllocState
end Mqlite.Storage
