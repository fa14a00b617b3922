/-
Structural page batches and their abort (`storage/structural_page_batch.rs`, `storage/handle/mod.rs`,
`storage/buffer_pool/flush.rs`).

A batch stages the bytes of the pages it writes, allocates pages from the live allocator, defers the frees of pages it
did not allocate, and changes the catalog root in the live header. An abort drops the staged bytes and the deferred
frees, frees what the batch allocated, queues again the deferred-free pages the batch had drained, and puts the catalog
root back.

The pages are seen on two levels: what a pin of a page shows (`inner.alloc.file`, through which the allocator reads and
writes its links), and what lies below the buffer pool (`disk`). Writing a page changes the first level; dropping a
frame makes the first level show the second one again. No page transfer fails here, and while the batch is open nobody
else acts.

Result: `abort_restores`. After an abort the pages that were allocated have their bytes, the allocated and the free
pages and the queued pages are the ones before the batch, and so is the catalog root, provided that
- the header holds what the batch's first change of the root left there, or what was there before (`RootUndone`);
- the links on disk lead from the last page the batch gives back through the others to the free list (`LinksOnDisk`):
  the abort drops the frame with the link right after it was written;
- no overflow image is written to a page of before the batch that the disk does not have (`CleanWrite`).
A page the batch added at the end of the file is not taken off again: it is free after the abort
(`added_page_becomes_free`).
-/
import Mqlite.Storage.DeferredFree

namespace Mqlite.Storage

open Lib Mvcc List AllocatorInner FileHeader PageAllocator

/-! ## The buffer pool handle -/

structure BufferPoolHandle where
  inner : AllocatorInner
  disk : File

namespace BufferPoolHandle

/-- what a pin of any page shows -/
def image (h : BufferPoolHandle) : File := h.inner.alloc.file

/-- drop the frame of a page, with what it held that was not on disk -/
def invalidatePage (h : BufferPoolHandle) (page : UInt32) (size : PageSize) : BufferPoolHandle :=
  { h with inner.alloc.file := writePage h.image page size (readPage h.disk page size) }

def allocPage (h : BufferPoolHandle) (size : PageSize) : Except AllocError UInt32 × BufferPoolHandle :=
  if h.inner.frozen then (.error AllocatorInner.freezeViolationError, h)
  else
    match h.inner.alloc.allocate size .ok with
    | (.error e, a) => (.error e, { h with inner.alloc := a })
    | (.ok page, a) =>
      let zeroed : PageAllocator := { a with file := writePage a.file page size fun _ => 0 }
      (.ok page, { h with inner.alloc := zeroed, inner.headerDirty := true })

def freePage (h : BufferPoolHandle) (page : UInt32) (size : PageSize) : Except AllocError Unit × BufferPoolHandle :=
  if h.inner.frozen then (.error AllocatorInner.freezeViolationError, h)
  else
    match h.inner.alloc.free page size .ok with
    | (.error e, a) => (.error e, { h with inner.alloc := a })
    | (.ok (), a) => (.ok (), { h with inner.alloc := a, inner.headerDirty := true })

end BufferPoolHandle

/-! ## The catalog root in the header -/

structure CatalogRootHeaderState where
  rootPage : UInt32
  rootBackup : UInt32
  rootLevel : UInt8
deriving DecidableEq, Repr

namespace CatalogRootHeaderState

def fromHeader (header : FileHeader) : CatalogRootHeaderState :=
  ⟨header.catalogRootPage, header.catalogRootBackup, header.catalogRootLevel⟩

def restoreInto (c : CatalogRootHeaderState) (header : FileHeader) : FileHeader :=
  { header with catalogRootPage := c.rootPage, catalogRootBackup := c.rootBackup, catalogRootLevel := c.rootLevel }

end CatalogRootHeaderState

structure HeaderChange where
  before : CatalogRootHeaderState
  after : CatalogRootHeaderState
deriving DecidableEq, Repr

/-- the root goes back only if the header still holds what this change left there -/
def HeaderChange.rollbackInto (c : HeaderChange) (header : FileHeader) : FileHeader :=
  if CatalogRootHeaderState.fromHeader header = c.after then c.before.restoreInto header else header

namespace BufferPoolHandle

def root (h : BufferPoolHandle) : CatalogRootHeaderState := .fromHeader h.inner.alloc.header

/-- `AllocatorHandle::update_header` -/
def updateHeader (h : BufferPoolHandle) (f : FileHeader → FileHeader) : Except AllocError Unit × BufferPoolHandle :=
  if h.inner.frozen then (.error AllocatorInner.freezeViolationError, h)
  else (.ok (), { h with inner.alloc.header := f h.inner.alloc.header, inner.headerDirty := true })

end BufferPoolHandle

/-! ## The batch -/

def PAGE_TYPE_OVERFLOW : Byte := 5

structure StructuralPageBatch where
  staged4k : UInt32 → Option PageBuf
  staged32k : UInt32 → Option PageBuf
  touched4k : List UInt32
  touched32k : List UInt32
  newAllocs : List (UInt32 × PageSize)
  deferredFreePages : List UInt32
  deferredFrees : List (UInt32 × PageSize)
  /-- the first change of the catalog root -/
  change : Option HeaderChange

/-- an open batch, the handle it works on, and the pages allocated at the moment with their sizes -/
structure BatchState where
  handle : BufferPoolHandle
  batch : StructuralPageBatch
  held : List (UInt32 × PageSize)

inductive BatchOp where
  | readInternal (page : UInt32)
  | readLeaf (page : UInt32)
  | writeInternal (page : UInt32) (data : PageBuf)
  | writeLeafStructural (page : UInt32) (data : PageBuf)
  | allocInternal
  | allocLeaf
  | freeInternal (page : UInt32)
  | freeLeaf (page : UInt32)
  | updateHeader (f : CatalogRootHeaderState → CatalogRootHeaderState)

namespace StructuralPageBatch

/-- open a batch: it takes over the deferred-free pages that are due -/
def new (h : BufferPoolHandle) : BufferPoolHandle × StructuralPageBatch :=
  let (inner, ready) := h.inner.drainDeferredFreePages
  ({ h with inner := inner }, ⟨fun _ => none, fun _ => none, [], [], [], ready.map PageLifetimeEntry.page, [], none⟩)

def readInternal (b : StructuralPageBatch) (h : BufferPoolHandle) (page : UInt32) : PageBuf :=
  (b.staged4k page).getD (readPage h.image page .small4k)

def readLeaf (b : StructuralPageBatch) (h : BufferPoolHandle) (page : UInt32) : PageBuf :=
  (b.staged32k page).getD (readPage h.image page .large32k)

def stage4k (b : StructuralPageBatch) (page : UInt32) (data : PageBuf) : StructuralPageBatch :=
  { b with
    staged4k := Function.update b.staged4k page (some data)
    touched4k := if (b.staged4k page).isSome then b.touched4k else b.touched4k ++ [page] }

def stage32k (b : StructuralPageBatch) (page : UInt32) (data : PageBuf) : StructuralPageBatch :=
  { b with
    staged32k := Function.update b.staged32k page (some data)
    touched32k := if (b.staged32k page).isSome then b.touched32k else b.touched32k ++ [page] }

/-- the image of a fresh page is staged and listed without a look at what was staged before -/
def seed4k (b : StructuralPageBatch) (page : UInt32) (data : PageBuf) : StructuralPageBatch :=
  { b with
    staged4k := Function.update b.staged4k page (some data)
    touched4k := b.touched4k ++ [page]
    newAllocs := b.newAllocs ++ [(page, .small4k)] }

def seed32k (b : StructuralPageBatch) (page : UInt32) (data : PageBuf) : StructuralPageBatch :=
  { b with
    staged32k := Function.update b.staged32k page (some data)
    touched32k := b.touched32k ++ [page]
    newAllocs := b.newAllocs ++ [(page, .large32k)] }

def unstage4k (b : StructuralPageBatch) (page : UInt32) : StructuralPageBatch :=
  if (b.staged4k page).isSome then
    { b with staged4k := Function.update b.staged4k page none, touched4k := b.touched4k.filter (· ≠ page) }
  else b

def unstage32k (b : StructuralPageBatch) (page : UInt32) : StructuralPageBatch :=
  if (b.staged32k page).isSome then
    { b with staged32k := Function.update b.staged32k page none, touched32k := b.touched32k.filter (· ≠ page) }
  else b

def forgetNewAlloc (b : StructuralPageBatch) (page : UInt32) (size : PageSize) : StructuralPageBatch :=
  { b with newAllocs := b.newAllocs.filter (· ≠ (page, size)) }

def recordDeferredFree (b : StructuralPageBatch) (page : UInt32) (size : PageSize) : StructuralPageBatch :=
  { b with deferredFrees := b.deferredFrees ++ [(page, size)] }

end StructuralPageBatch

namespace BatchState

/-- the batch just opened on a handle -/
def opened (h : BufferPoolHandle) (held : List (UInt32 × PageSize)) : BatchState :=
  let (handle, batch) := StructuralPageBatch.new h
  ⟨handle, batch, held⟩

/-- free a page through the batch: at once if the batch allocated it, at commit otherwise -/
def freeThrough (s : BatchState) (batch : StructuralPageBatch) (page : UInt32) (size : PageSize) : BatchState :=
  if (page, size) ∈ batch.newAllocs then
    match s.handle.freePage page size with
    | (.ok (), h) => ⟨h, batch.forgetNewAlloc page size, s.held.erase (page, size)⟩
    | (.error _, h) => ⟨h, batch.forgetNewAlloc page size, s.held⟩
  else { s with batch := batch.recordDeferredFree page size }

section
variable (empty : PageSize → PageBuf)

/-- One call on the batch's store or header; `empty` is the image of an empty page of either size. A write goes to a
page that is allocated, with its size: the B+ tree writes no other. -/
def step (s : BatchState) : BatchOp → Option BatchState
  | .readInternal _ => some s
  | .readLeaf _ => some s
  | .writeInternal page data =>
    if (page, .small4k) ∈ s.held then some { s with batch := s.batch.stage4k page data } else none
  | .writeLeafStructural page data =>
    if (page, .large32k) ∈ s.held then
      let handle := if data 0 = PAGE_TYPE_OVERFLOW then s.handle.invalidatePage page .large32k else s.handle
      some { s with handle := handle, batch := s.batch.stage32k page data }
    else none
  | .allocInternal =>
    match s.handle.allocPage .small4k with
    | (.error _, h) => some { s with handle := h }
    | (.ok page, h) =>
      some ⟨h.invalidatePage page .small4k, s.batch.seed4k page (empty .small4k), (page, .small4k) :: s.held⟩
  | .allocLeaf =>
    match s.handle.allocPage .large32k with
    | (.error _, h) => some { s with handle := h }
    | (.ok page, h) => some ⟨h, s.batch.seed32k page (empty .large32k), (page, .large32k) :: s.held⟩
  | .freeInternal page => some (s.freeThrough (s.batch.unstage4k page) page .small4k)
  | .freeLeaf page => some (s.freeThrough (s.batch.unstage32k page) page .large32k)
  | .updateHeader f =>
    match s.handle.updateHeader fun header => (f (.fromHeader header)).restoreInto header with
    | (.error _, h) => some { s with handle := h }
    | (.ok (), h) =>
      -- only the first change is remembered
      let change :=
        if s.handle.root ≠ h.root ∧ s.batch.change = none then some ⟨s.handle.root, h.root⟩ else s.batch.change
      some { s with handle := h, batch.change := change }

end

/-- give back one page the batch allocated; an error skips the frame but not the pages behind -/
def abortAlloc (s : BatchState) (p : UInt32 × PageSize) : BatchState :=
  match s.handle.freePage p.1 p.2 with
  | (.error _, h) => { s with handle := h }
  | (.ok (), h) => { s with handle := h.invalidatePage p.1 p.2, held := s.held.erase p }

/-- `HeaderCatalogRootBatch::abort` -/
def abortHeader (s : BatchState) : BatchState :=
  match s.batch.change with
  | none => s
  | some change => { s with handle := (s.handle.updateHeader change.rollbackInto).2 }

def requeue (s : BatchState) (page : UInt32) : BatchState :=
  { s with handle.inner := s.handle.inner.enqueueOverflowDeferredFree page }

/-- `StructuralPageBatch::abort_inner`: the staged bytes and the deferred frees are dropped with the batch -/
def abort (s : BatchState) : BatchState :=
  abortHeader (s.batch.deferredFreePages.foldl requeue (s.batch.newAllocs.foldl abortAlloc s))

end BatchState

/-! ## What the handle's operations leave alone -/

/-- the bytes of a page in a file, up to its size -/
def SameBytes (file file' : File) (page : UInt32) (size : PageSize) : Prop :=
  ∀ i < size.bytes, file' (fileOffset page + i) = file (fileOffset page + i)

variable {file : File} {page : UInt32} {size : PageSize}

theorem SameBytes.trans {file' file'' : File} (h : SameBytes file file' page size)
    (h' : SameBytes file' file'' page size) : SameBytes file file'' page size :=
  fun i hi => (h' i hi).trans (h i hi)

theorem SameBytes.freeLink {file' : File} (h : SameBytes file file' page size) :
    freeLink file' page = freeLink file page :=
  fromLeBytes_congr fun i hi => h i (hi.trans_le size.four_le)

theorem sameBytes_writePage_other {other : UInt32} {size' : PageSize} {buf : PageBuf}
    (hne : other ≠ page) : SameBytes file (writePage file page size buf) other size' :=
  fun _ hi => writePage_other hne (hi.trans_le size'.bytes_le)

/-- a page written with the bytes another file has there has these bytes -/
theorem sameBytes_writePage_readPage (file disk : File) (page : UInt32) (size : PageSize) :
    SameBytes disk (writePage file page size (readPage disk page size)) page size := by
  intro i hi
  rw [writePage, if_pos (by omega), Nat.add_sub_cancel_left]
  exact if_pos hi

/-- only one page changed, besides the allocator's header fields -/
structure Touches (h h' : BufferPoolHandle) (page : UInt32) : Prop where
  disk : h'.disk = h.disk
  frozen : h'.inner.frozen = h.inner.frozen
  queue : h'.inner.pageLifetimeQueue = h.inner.pageLifetimeQueue
  root : h'.root = h.root
  total : h.inner.alloc.header.totalPageCount ≤ h'.inner.alloc.header.totalPageCount
  bytes : ∀ other ≠ page, ∀ size, SameBytes h.image h'.image other size

/-- an operation that writes one page and keeps the rest -/
theorem touches_of_writePage {h h' : BufferPoolHandle} {page : UInt32} {size : PageSize} {buf : PageBuf}
    (himage : h'.image = writePage h.image page size buf) (hdisk : h'.disk = h.disk)
    (hfrozen : h'.inner.frozen = h.inner.frozen) (hqueue : h'.inner.pageLifetimeQueue = h.inner.pageLifetimeQueue)
    (hroot : h'.root = h.root)
    (htotal : h.inner.alloc.header.totalPageCount ≤ h'.inner.alloc.header.totalPageCount) : Touches h h' page where
  disk := hdisk
  frozen := hfrozen
  queue := hqueue
  root := hroot
  total := htotal
  bytes other hne size' := by
    rw [himage]
    exact sameBytes_writePage_other hne

theorem Touches.trans {h h' h'' : BufferPoolHandle} (h₁ : Touches h h' page) (h₂ : Touches h' h'' page) :
    Touches h h'' page where
  disk := h₂.disk.trans h₁.disk
  frozen := h₂.frozen.trans h₁.frozen
  queue := h₂.queue.trans h₁.queue
  root := h₂.root.trans h₁.root
  total := UInt32.le_trans h₁.total h₂.total
  bytes other hne size := (h₁.bytes other hne size).trans (h₂.bytes other hne size)

namespace BufferPoolHandle

theorem root_withFreeList (header : FileHeader) (size : PageSize) (head count : UInt32) :
    CatalogRootHeaderState.fromHeader (header.withFreeList size head count) = .fromHeader header := by
  cases size <;> rfl

variable {h h' : BufferPoolHandle} {held : List (UInt32 × PageSize)} {lists : PageSize → List UInt32} {size : PageSize}

theorem invalidatePage_touches (h : BufferPoolHandle) (page : UInt32) (size : PageSize) :
    Touches h (h.invalidatePage page size) page :=
  touches_of_writePage rfl rfl rfl rfl rfl (UInt32.le_refl _)

/-- an allocation that succeeds: a page nobody holds, from the list of its size or from beyond the end of the file -/
theorem allocPage_ok (ha : AllocState.Accounts ⟨h.inner.alloc, held⟩ lists) {page : UInt32}
    (hr : h.allocPage size = (.ok page, h')) :
    h.inner.frozen = false ∧ Touches h h' page ∧ page ∉ held.map Prod.fst ∧ ∃ lists',
      AllocState.Accounts ⟨h'.inner.alloc, (page, size) :: held⟩ lists' ∧
      ∀ size' other, other < h.inner.alloc.header.totalPageCount →
        (other ∈ lists' size' ∨ (other, size') = (page, size) ↔ other ∈ lists size') := by
  rw [allocPage] at hr
  split_ifs at hr with hfrozen
  · cases hr
  refine ⟨by simpa using hfrozen, ?_⟩
  rcases hall : h.inner.alloc.allocate size .ok with ⟨r, a⟩
  rw [hall] at hr
  obtain ⟨e, rfl, rfl⟩ | ⟨hhead, rfl, rfl⟩ | ⟨-, rfl, total, htotal, rfl⟩ := allocate_cases hall
  · cases hr
  · cases hr
    obtain ⟨l, hl, hpop⟩ := ha.pop hhead
    have hmem : h.inner.alloc.header.freeListHead size ∈ lists size := hl ▸ mem_cons_self
    refine ⟨@touches_of_writePage _ _ _ size (fun _ => 0) rfl rfl rfl rfl (root_withFreeList ..) ?_,
      ha.notHeld size _ hmem, _, hpop.write mem_cons_self size _, fun size' other _ => ?_⟩
    · rw [totalPageCount_withFreeList]
      exact UInt32.le_refl _
    · by_cases he : size' = size
      · subst he
        rw [Function.update_self, hl, mem_cons, Prod.mk.injEq, and_iff_left rfl]
        exact or_comm
      · rw [Function.update_of_ne he, Prod.mk.injEq]
        exact or_iff_left fun heq => he heq.2
  · cases hr
    have hend := mt (ha.covers h.inner.alloc.header.totalPageCount).2 (UInt32.lt_irrefl _)
    refine ⟨@touches_of_writePage _ _ _ size (fun _ => 0) rfl rfl rfl rfl rfl ?_,
      fun hp => hend (.inr (.inl hp)), lists, (ha.extend htotal).write mem_cons_self size _, fun size' other hlt => ?_⟩
    · rw [UInt32.le_iff_toNat_le]
      change _ ≤ total.toNat
      omega
    · refine or_iff_left fun heq => ?_
      rw [(Prod.mk.inj heq).1] at hlt
      exact UInt32.lt_irrefl _ hlt

theorem allocPage_error {e : AllocError} (hr : h.allocPage size = (.error e, h')) : h' = h := by
  rw [allocPage] at hr
  split_ifs at hr with hfrozen
  · cases hr
    rfl
  rcases hall : h.inner.alloc.allocate size .ok with ⟨r, a⟩
  rw [hall] at hr
  obtain ⟨e', rfl, rfl⟩ | ⟨-, rfl, -⟩ | ⟨-, rfl, -⟩ := allocate_cases hall
  · cases hr
    rfl
  · cases hr
  · cases hr

/-- the free of a held page: it succeeds and pushes the page on the list of its size -/
theorem freePage_held (ha : AllocState.Accounts ⟨h.inner.alloc, held⟩ lists) (hfrozen : h.inner.frozen = false)
    {page : UInt32} (hp : (page, size) ∈ held) : ∃ h', h.freePage page size = (.ok (), h') ∧ Touches h h' page ∧
      AllocState.Accounts ⟨h'.inner.alloc, held.erase (page, size)⟩
        (Function.update lists size (page :: lists size)) := by
  have hpage : page ∈ held.map Prod.fst := mem_map_of_mem hp
  have hroom : (h.inner.alloc.header.freePageCount size).toNat < 2 ^ 32 - 1 := ha.count_lt hpage
  obtain ⟨a, hfree⟩ : ∃ a, h.inner.alloc.free page size .ok = (.ok (), a) :=
    free_isOk_iff.2 ⟨fun h0 => ha.headerPage (h0 ▸ hpage), (ha.covers page).2 (.inr (.inl hpage)), rfl, by omega⟩
  obtain ⟨count, hcount, rfl⟩ := free_pushes hfree
  refine ⟨_, by rw [freePage, hfrozen, hfree]; rfl, ?_, ha.push hp hcount⟩
  refine touches_of_writePage rfl rfl rfl rfl (root_withFreeList ..) ?_
  rw [totalPageCount_withFreeList]
  exact UInt32.le_refl _

end BufferPoolHandle

/-! ## The batch while it is open -/

namespace BatchState

/-- no overflow image goes to a page of before the batch whose bytes the disk does not have -/
def CleanWrite (h₀ : BufferPoolHandle) (held₀ : List (UInt32 × PageSize)) : BatchOp → Prop
  | .writeLeafStructural page data =>
    data 0 = PAGE_TYPE_OVERFLOW → (page, .large32k) ∈ held₀ → SameBytes h₀.image h₀.disk page .large32k
  | _ => True

/-- What holds of an open batch, relative to the handle h₀ and the pages held₀ before it. -/
structure Open (h₀ : BufferPoolHandle) (held₀ : List (UInt32 × PageSize)) (lists₀ : PageSize → List UInt32)
    (s : BatchState) (lists : PageSize → List UInt32) : Prop where
  accounts : AllocState.Accounts ⟨s.handle.inner.alloc, s.held⟩ lists
  owned : s.held.Perm (s.batch.newAllocs ++ held₀)
  -- a page of before the batch that is free or taken by the batch was free, with that size
  sizes : ∀ size page, page < h₀.inner.alloc.header.totalPageCount →
    (page ∈ lists size ∨ (page, size) ∈ s.batch.newAllocs ↔ page ∈ lists₀ size)
  total : h₀.inner.alloc.header.totalPageCount ≤ s.handle.inner.alloc.header.totalPageCount
  disk : s.handle.disk = h₀.disk
  frozen : s.handle.inner.frozen = h₀.inner.frozen
  idle : h₀.inner.frozen = true → s.batch.newAllocs = [] ∧ s.batch.change = none
  queue : s.handle.inner.pageLifetimeQueue = h₀.inner.drainDeferredFreePages.1.pageLifetimeQueue
  drained : s.batch.deferredFreePages = h₀.inner.drainDeferredFreePages.2.map PageLifetimeEntry.page
  root : s.batch.change = none ∧ s.handle.root = h₀.root ∨ ∃ after, s.batch.change = some ⟨h₀.root, after⟩
  bytes : ∀ p ∈ held₀, SameBytes h₀.image s.handle.image p.1 p.2

variable {h₀ : BufferPoolHandle} {held₀ : List (UInt32 × PageSize)} {lists₀ lists : PageSize → List UInt32}
  {s t : BatchState} {op : BatchOp} {empty : PageSize → PageBuf}

/-- the accounts read the allocator's fields of the header, and no others -/
theorem accounts_of_header {header : FileHeader} {file : File} {held : List (UInt32 × PageSize)} {a : PageAllocator}
    (h : AllocState.Accounts ⟨a, held⟩ lists) (hfile : file = a.file)
    (htotal : header.totalPageCount = a.header.totalPageCount)
    (hhead : ∀ size, header.freeListHead size = a.header.freeListHead size)
    (hcount : ∀ size, header.freePageCount size = a.header.freePageCount size) :
    AllocState.Accounts ⟨⟨header, file⟩, held⟩ lists := by
  refine { h with threaded := fun size => ?_, counted := fun size => ?_, covers := fun page => ?_ }
  · rw [hfile, hhead]
    exact h.threaded size
  · rw [hcount]
    exact h.counted size
  · rw [htotal]
    exact h.covers page

/-- opening a batch drains the queue and touches nothing else -/
theorem opened_open (ha : AllocState.Accounts ⟨h₀.inner.alloc, held₀⟩ lists₀) :
    Open h₀ held₀ lists₀ (opened h₀ held₀) lists₀ where
  accounts := by
    change AllocState.Accounts ⟨h₀.inner.drainDeferredFreePages.1.alloc, held₀⟩ lists₀
    rw [drainDeferredFreePages_alloc]
    exact ha
  owned := List.Perm.refl _
  sizes size page _ := or_iff_left not_mem_nil
  total := by
    change _ ≤ h₀.inner.drainDeferredFreePages.1.alloc.header.totalPageCount
    rw [drainDeferredFreePages_alloc]
    exact UInt32.le_refl _
  disk := rfl
  frozen := (readyLoop_inner _ _).2
  idle _ := ⟨rfl, rfl⟩
  queue := rfl
  drained := rfl
  root :=
    .inl ⟨rfl, congrArg (fun a : PageAllocator => CatalogRootHeaderState.fromHeader a.header)
      (drainDeferredFreePages_alloc h₀.inner)⟩
  bytes p _ := by
    change SameBytes _ h₀.inner.drainDeferredFreePages.1.alloc.file _ _
    rw [drainDeferredFreePages_alloc]
    exact fun _ _ => rfl

variable {batch : StructuralPageBatch} {page : UInt32} {p : UInt32 × PageSize} {size : PageSize}
  {l : List (UInt32 × PageSize)}

section

variable (h : Open h₀ held₀ lists₀ s lists)

include h

/-- staging bytes and noting deferred frees concern the batch alone -/
theorem Open.of_batch (hnew : batch.newAllocs = s.batch.newAllocs)
    (hdrained : batch.deferredFreePages = s.batch.deferredFreePages)
    (hchange : batch.change = s.batch.change) : Open h₀ held₀ lists₀ { s with batch := batch } lists := by
  refine { h with
    owned := hnew ▸ h.owned, sizes := hnew ▸ h.sizes, idle := fun hf => ?_, drained := hdrained.trans h.drained,
    root := ?_ }
  · rw [hnew, hchange]
    exact h.idle hf
  · rw [hchange]
    exact h.root

/-- a page the batch owns, or one that is new to it, is no page of before the batch -/
theorem Open.fresh (hp : page ∉ s.held.map Prod.fst) (hmem : p ∈ held₀) : p.1 ≠ page := by
  rintro rfl
  exact hp (mem_map_of_mem (h.owned.symm.subset (mem_append_right _ hmem)))

/-- the batch has taken a page -/
theorem Open.alloc {handle handle' : BufferPoolHandle}
    (hr : s.handle.allocPage size = (.ok page, handle)) (ht : Touches handle handle' page)
    (hheld : ∀ lists', AllocState.Accounts ⟨handle.inner.alloc, (page, size) :: s.held⟩ lists' →
      AllocState.Accounts ⟨handle'.inner.alloc, (page, size) :: s.held⟩ lists')
    (hnew : batch.newAllocs = s.batch.newAllocs ++ [(page, size)])
    (hdrained : batch.deferredFreePages = s.batch.deferredFreePages) (hchange : batch.change = s.batch.change) :
    ∃ lists', Open h₀ held₀ lists₀ ⟨handle', batch, (page, size) :: s.held⟩ lists' := by
  obtain ⟨hfrozen, htouch, hfresh, lists', ha, hsizes⟩ := BufferPoolHandle.allocPage_ok h.accounts hr
  have hall := htouch.trans ht
  refine ⟨lists', hheld lists' ha, ?_, fun size' other hlt => ?_, UInt32.le_trans h.total hall.total,
    hall.disk.trans h.disk,
    hall.frozen.trans h.frozen, fun hf => ?_, hall.queue.trans h.queue, hdrained.trans h.drained, ?_, fun p hp => ?_⟩
  · rw [hnew, append_assoc]
    exact (h.owned.cons _).trans perm_middle.symm
  · rw [hnew, mem_append, mem_singleton, ← h.sizes size' other hlt,
      ← hsizes size' other (UInt32.lt_of_lt_of_le hlt h.total), or_assoc]
    exact or_congr_right or_comm
  · rw [← h.frozen, hfrozen] at hf
    cases hf
  · rw [hchange, hall.root]
    exact h.root
  · exact (h.bytes p hp).trans (hall.bytes _ (h.fresh hfresh hp) _)

theorem Open.held_nodup : (s.batch.newAllocs ++ held₀).Nodup :=
  h.owned.nodup h.accounts.heldOnce.of_map

/-- a page the batch allocated is none of the pages of before -/
theorem Open.new_ne {q : UInt32 × PageSize} (hp : p ∈ s.batch.newAllocs) (hq : q ∈ held₀) : q.1 ≠ p.1 := by
  have hnodup := (h.owned.map Prod.fst).nodup h.accounts.heldOnce
  rw [map_append] at hnodup
  exact fun heq => disjoint_of_nodup_append hnodup (mem_map_of_mem hp) (heq ▸ mem_map_of_mem hq)

/-- freeing through the batch: a page of its own goes back to the list of its size, any other is only noted -/
theorem Open.freeThrough (page : UInt32) (size : PageSize)
    (hnew : batch.newAllocs = s.batch.newAllocs) (hdrained : batch.deferredFreePages = s.batch.deferredFreePages)
    (hchange : batch.change = s.batch.change) :
    ∃ lists', Open h₀ held₀ lists₀ (s.freeThrough batch page size) lists' := by
  rw [BatchState.freeThrough]
  split_ifs with hmem
  · rw [hnew] at hmem
    have hfrozen : s.handle.inner.frozen = false := by
      rw [h.frozen]
      by_contra hf
      rw [(h.idle (by simpa using hf)).1] at hmem
      cases hmem
    have hheld : (page, size) ∈ s.held := h.owned.symm.subset (mem_append_left _ hmem)
    obtain ⟨h', hfree, htouch, ha⟩ := BufferPoolHandle.freePage_held h.accounts hfrozen hheld
    rw [hfree]
    have hfilter : (batch.forgetNewAlloc page size).newAllocs = s.batch.newAllocs.erase (page, size) := by
      rw [StructuralPageBatch.forgetNewAlloc, hnew, (nodup_append.1 h.held_nodup).1.erase_eq_filter]
      exact filter_congr fun x _ => Bool.eq_iff_iff.2 (by simp)
    refine ⟨_, ha, ?_, fun size' other hlt => ?_, UInt32.le_trans h.total htouch.total, htouch.disk.trans h.disk,
      htouch.frozen.trans h.frozen, fun hf => ?_, htouch.queue.trans h.queue, hdrained.trans h.drained, ?_, fun p hp =>
        ?_⟩
    · rw [hfilter, ← erase_append_left _ hmem]
      exact h.owned.erase _
    · rw [hfilter, ← h.sizes size' other hlt]
      by_cases he : size' = size
      · subst he
        by_cases ho : other = page
        · simp [ho, hmem]
        · simp [ho]
      · simp [he]
    · rw [← h.frozen, hfrozen] at hf
      cases hf
    · change batch.change = none ∧ h'.root = _ ∨ ∃ after, batch.change = _
      rw [hchange, htouch.root]
      exact h.root
    · exact (h.bytes p hp).trans (htouch.bytes _ (h.new_ne hmem hp) _)
  · exact ⟨lists, h.of_batch hnew hdrained hchange⟩

/-- the root moves, and the first move is remembered -/
theorem Open.updateHeader (f : CatalogRootHeaderState → CatalogRootHeaderState)
    (hs : step empty s (.updateHeader f) = some t) : Open h₀ held₀ lists₀ t lists := by
  rw [step, BufferPoolHandle.updateHeader] at hs
  split_ifs at hs with hfrozen
  · cases hs
    exact h
  · cases hs
    refine ⟨?_, h.owned, h.sizes, h.total, h.disk, h.frozen, fun hf => ?_, h.queue, h.drained, ?_, h.bytes⟩
    · exact accounts_of_header h.accounts rfl rfl (fun size => by cases size <;> rfl)
        (fun size => by cases size <;> rfl)
    · rw [← h.frozen] at hf
      exact absurd hf hfrozen
    · rcases h.root with ⟨hnone, hroot⟩ | ⟨after, hafter⟩
      · by_cases hmove : s.handle.root = f s.handle.root
        · rw [if_neg fun hc => hc.1 hmove]
          exact .inl ⟨hnone, hmove.symm.trans hroot⟩
        · rw [if_pos ⟨hmove, hnone⟩, hroot]
          exact .inr ⟨_, rfl⟩
      · have hsome : s.batch.change ≠ none := by
          rw [hafter]
          exact Option.some_ne_none _
        rw [if_neg fun hc => hsome hc.2]
        exact .inr ⟨after, hafter⟩

/-- a frame is dropped: harmless for a page of the batch, and for a page of before if the disk has its bytes -/
theorem Open.invalidate (hheld : (page, size) ∈ s.held)
    (hclean : (page, size) ∈ held₀ → SameBytes h₀.image h₀.disk page size) :
    Open h₀ held₀ lists₀ { s with handle := s.handle.invalidatePage page size } lists := by
  have ht := s.handle.invalidatePage_touches page size
  refine ⟨h.accounts.write (mem_map_of_mem hheld) _ _, h.owned, h.sizes, UInt32.le_trans h.total ht.total,
    ht.disk.trans h.disk, ht.frozen.trans h.frozen, h.idle, ht.queue.trans h.queue, h.drained, ?_, fun p hp => ?_⟩
  · rw [ht.root]
    exact h.root
  · by_cases hpage : p.1 = page
    · -- a page is held once, so the page of before and the one written are the same, with the same size
      have hsame : p = (page, size) := by
        refine inj_on_of_nodup_map h.accounts.heldOnce ?_ hheld hpage
        exact h.owned.symm.subset (mem_append_right _ hp)
      subst hsame
      refine (hclean hp).trans ?_
      rw [← h.disk]
      exact sameBytes_writePage_readPage _ _ _ _
    · exact (h.bytes p hp).trans (ht.bytes _ hpage _)

/-- **Step.** Every call keeps the batch undoable. -/
theorem step_open (hclean : CleanWrite h₀ held₀ op) (hs : step empty s op = some t) :
    ∃ lists', Open h₀ held₀ lists₀ t lists' := by
  cases op with
  | readInternal page | readLeaf page =>
    cases hs
    exact ⟨lists, h⟩
  | writeInternal page data =>
    rw [step] at hs
    split_ifs at hs
    cases hs
    exact ⟨lists, h.of_batch rfl rfl rfl⟩
  | writeLeafStructural page data =>
    rw [step] at hs
    split_ifs at hs with hheld hover
    · cases hs
      exact ⟨lists, (h.invalidate hheld (hclean hover)).of_batch rfl rfl rfl⟩
    · cases hs
      exact ⟨lists, h.of_batch rfl rfl rfl⟩
  | allocInternal =>
    rw [step] at hs
    rcases hr : s.handle.allocPage .small4k with ⟨e | page, h'⟩
    · rw [hr] at hs
      cases hs
      rw [BufferPoolHandle.allocPage_error hr]
      exact ⟨lists, h⟩
    · rw [hr] at hs
      cases hs
      exact h.alloc hr (h'.invalidatePage_touches page .small4k)
        (fun lists' ha => ha.write mem_cons_self _ _) rfl rfl rfl
  | allocLeaf =>
    rw [step] at hs
    rcases hr : s.handle.allocPage .large32k with ⟨e | page, h'⟩
    · rw [hr] at hs
      cases hs
      rw [BufferPoolHandle.allocPage_error hr]
      exact ⟨lists, h⟩
    · rw [hr] at hs
      cases hs
      exact h.alloc hr ⟨rfl, rfl, rfl, rfl, UInt32.le_refl _, fun _ _ _ _ _ => rfl⟩ (fun _ ha => ha) rfl rfl rfl
  | freeInternal page =>
    cases hs
    refine h.freeThrough page .small4k ?_ ?_ ?_
    all_goals
      rw [StructuralPageBatch.unstage4k]
      split_ifs <;> rfl
  | freeLeaf page =>
    cases hs
    refine h.freeThrough page .large32k ?_ ?_ ?_
    all_goals
      rw [StructuralPageBatch.unstage32k]
      split_ifs <;> rfl
  | updateHeader f => exact ⟨lists, h.updateHeader f hs⟩

end

/-! ## The abort -/

/-- the pages of one size, in order -/
def sized (l : List (UInt32 × PageSize)) (size : PageSize) : List UInt32 := (l.filter (·.2 = size)).map Prod.fst

theorem sized_singleton (page : UInt32) (size size' : PageSize) :
    sized [(page, size)] size' = if size' = size then [page] else [] := by
  by_cases h : size' = size <;> simp [sized, h, Ne.symm]

theorem sized_cons (p : UInt32 × PageSize) (l : List (UInt32 × PageSize)) (size : PageSize) :
    sized (p :: l) size = sized [p] size ++ sized l size := by
  rw [sized, ← singleton_append, filter_append, map_append]
  rfl

theorem mem_sized : page ∈ sized l size ↔ (page, size) ∈ l := by
  simp [sized]

/-- What giving back the pages of l does: each ends on top of its list, but the link written for it is gone with its
frame, and the page shows what the disk has. -/
structure GivenBack (s t : BatchState) (l : List (UInt32 × PageSize)) : Prop where
  batch : t.batch = s.batch
  held : t.held = s.held.diff l
  disk : t.handle.disk = s.handle.disk
  frozen : t.handle.inner.frozen = s.handle.inner.frozen
  queue : t.handle.inner.pageLifetimeQueue = s.handle.inner.pageLifetimeQueue
  root : t.handle.root = s.handle.root
  total : t.handle.inner.alloc.header.totalPageCount = s.handle.inner.alloc.header.totalPageCount
  head : ∀ size, t.handle.inner.alloc.header.freeListHead size =
    (sized l size).getLastD (s.handle.inner.alloc.header.freeListHead size)
  count : ∀ size, (t.handle.inner.alloc.header.freePageCount size).toNat =
    (s.handle.inner.alloc.header.freePageCount size).toNat + (sized l size).length
  other : ∀ page ∉ l.map Prod.fst, ∀ size, SameBytes s.handle.image t.handle.image page size
  dropped : ∀ p ∈ l, SameBytes s.handle.disk t.handle.image p.1 p.2

theorem abortAlloc_givenBack (hfrozen : s.handle.inner.frozen = false) (h0 : page ≠ 0)
    (hlt : page < s.handle.inner.alloc.header.totalPageCount)
    (hroom : (s.handle.inner.alloc.header.freePageCount size).toNat + 1 < 2 ^ 32) :
    GivenBack s (s.abortAlloc (page, size)) [(page, size)] := by
  obtain ⟨a, hfree⟩ : ∃ a, s.handle.inner.alloc.free page size .ok = (.ok (), a) :=
    free_isOk_iff.2 ⟨h0, hlt, rfl, hroom⟩
  have hr : s.handle.freePage page size = (.ok (), { s.handle with inner.alloc := a, inner.headerDirty := true }) := by
    rw [BufferPoolHandle.freePage, hfrozen, hfree]
    rfl
  rw [abortAlloc, hr]
  obtain ⟨count, hcount, rfl⟩ := free_pushes hfree
  have hheld : s.held.erase (page, size) = s.held.diff [(page, size)] := by rw [diff_cons, diff_nil]
  refine ⟨rfl, hheld, rfl, rfl, rfl, BufferPoolHandle.root_withFreeList .., totalPageCount_withFreeList,
    fun size' => ?_, fun size' => ?_, fun other ho size' => ?_, fun p hp => ?_⟩
  · change (withFreeList ..).freeListHead size' = _
    rw [freeListHead_withFreeList]
    rw [sized_singleton]
    split_ifs <;> rfl
  · change ((withFreeList ..).freePageCount size').toNat = _
    rw [freePageCount_withFreeList, sized_singleton]
    split_ifs with hs
    · rw [hs, hcount]
      rfl
    · rfl
  · have hne : other ≠ page := by simpa using ho
    exact (sameBytes_writePage_other hne).trans (sameBytes_writePage_other hne)
  · rw [mem_singleton] at hp
    subst hp
    exact sameBytes_writePage_readPage _ _ _ _

theorem GivenBack.cons {u : BatchState} (hp : p.1 ∉ l.map Prod.fst)
    (h₁ : GivenBack s t [p]) (h₂ : GivenBack t u l) : GivenBack s u (p :: l) where
  batch := h₂.batch.trans h₁.batch
  held := by
    rw [h₂.held, h₁.held, diff_cons, diff_nil, diff_cons]
  disk := h₂.disk.trans h₁.disk
  frozen := h₂.frozen.trans h₁.frozen
  queue := h₂.queue.trans h₁.queue
  root := h₂.root.trans h₁.root
  total := h₂.total.trans h₁.total
  head size := by
    rw [h₂.head, h₁.head, sized_cons p l]
    simp [getLastD_eq_getLast?, getLast?_append]
  count size := by
    rw [h₂.count, h₁.count, sized_cons p l, length_append, Nat.add_assoc]
  other page ho size := by
    rw [map_cons, mem_cons, not_or] at ho
    exact (h₁.other page (by simpa using ho.1) size).trans (h₂.other page ho.2 size)
  dropped q hq := by
    rcases mem_cons.1 hq with rfl | hq
    · exact (h₁.dropped q mem_cons_self).trans (h₂.other q.1 hp q.2)
    · rw [← h₁.disk]
      exact h₂.dropped q hq

/-- the loop of the abort over the batch's own pages -/
theorem foldl_abortAlloc (hfrozen : s.handle.inner.frozen = false) (hnodup : (l.map Prod.fst).Nodup)
    (hpages : ∀ p ∈ l, p.1 ≠ 0 ∧ p.1 < s.handle.inner.alloc.header.totalPageCount)
    (hroom : ∀ size, (s.handle.inner.alloc.header.freePageCount size).toNat + (sized l size).length < 2 ^ 32) :
    GivenBack s (l.foldl abortAlloc s) l := by
  induction l generalizing s with
  | nil => exact ⟨rfl, rfl, rfl, rfl, rfl, rfl, rfl, fun _ => rfl, fun _ => rfl, fun _ _ _ _ _ => rfl, by simp⟩
  | cons p l ih =>
    obtain ⟨page, size⟩ := p
    obtain ⟨hp, hnodup⟩ := nodup_cons.1 hnodup
    obtain ⟨h0, hlt⟩ := hpages _ mem_cons_self
    have hfirst : GivenBack s (s.abortAlloc (page, size)) [(page, size)] := by
      refine abortAlloc_givenBack hfrozen h0 hlt ?_
      have hr := hroom size
      rw [sized_cons, sized_singleton, if_pos rfl, length_append, length_singleton] at hr
      omega
    refine hfirst.cons hp (ih (hfirst.frozen.trans hfrozen) hnodup (fun q hq => ?_) fun size' => ?_)
    · rw [hfirst.total]
      exact hpages q (mem_cons_of_mem _ hq)
    · have hr := hroom size'
      rw [sized_cons, length_append] at hr
      rw [hfirst.count]
      omega

/-- the links on disk lead from the last page that is given back through the others to the free list, for each size -/
def LinksOnDisk (s : BatchState) : Prop :=
  ∀ size, ∃ l, l.Perm (sized s.batch.newAllocs size) ∧
    Threaded (freeLink s.handle.disk) (s.handle.inner.alloc.header.freeListHead size)
      ((sized s.batch.newAllocs size).getLastD (s.handle.inner.alloc.header.freeListHead size)) l

/-- the header holds what the batch's first change of the root left there, or what was there before it -/
def RootUndone (s : BatchState) : Prop :=
  ∀ change ∈ s.batch.change, s.handle.root = change.after ∨ s.handle.root = change.before

/-- What an abort is to bring back: the bytes of the pages that were allocated, the allocated pages, the free pages of
the file as it was (with the accounts in order, so that pages the batch added to the file are free as well), the queued
pages, and the catalog root. -/
structure Restored (h₀ : BufferPoolHandle) (held₀ : List (UInt32 × PageSize)) (lists₀ : PageSize → List UInt32)
    (t : BatchState) : Prop where
  bytes : ∀ p ∈ held₀, SameBytes h₀.image t.handle.image p.1 p.2
  allocated : t.held.Perm held₀
  free : ∃ lists, AllocState.Accounts ⟨t.handle.inner.alloc, t.held⟩ lists ∧
    ∀ size page, page < h₀.inner.alloc.header.totalPageCount → (page ∈ lists size ↔ page ∈ lists₀ size)
  queue : (t.handle.inner.pageLifetimeQueue.entries.map PageLifetimeEntry.page).Perm
    (h₀.inner.pageLifetimeQueue.entries.map PageLifetimeEntry.page)
  root : t.handle.root = h₀.root

section

variable (h : Open h₀ held₀ lists₀ s lists)

include h

theorem Open.new_nodup : (s.batch.newAllocs.map Prod.fst).Nodup := by
  have hnodup := (h.owned.map Prod.fst).nodup h.accounts.heldOnce
  rw [map_append] at hnodup
  exact (nodup_append.1 hnodup).1

theorem Open.mem_held (hp : p ∈ s.batch.newAllocs) : p.1 ∈ s.held.map Prod.fst :=
  mem_map_of_mem (h.owned.symm.subset (mem_append_left _ hp))

/-- giving back all pages of the batch succeeds -/
theorem Open.givenBack : GivenBack s (s.batch.newAllocs.foldl abortAlloc s) s.batch.newAllocs := by
  cases hf : h₀.inner.frozen with
  | true =>
    rw [(h.idle hf).1]
    exact ⟨rfl, rfl, rfl, rfl, rfl, rfl, rfl, fun _ => rfl, fun _ => rfl, fun _ _ _ _ _ => rfl, by simp⟩
  | false =>
    have hbelow : ∀ p ∈ s.batch.newAllocs, p.1 < s.handle.inner.alloc.header.totalPageCount := fun p hp =>
      (h.accounts.covers p.1).2 (.inr (.inl (h.mem_held hp)))
    refine foldl_abortAlloc (h.frozen.trans hf) h.new_nodup (fun p hp => ⟨?_, hbelow p hp⟩) fun size => ?_
    · exact fun h0 => h.accounts.headerPage (h0 ▸ h.mem_held hp)
    · have hsized : (sized s.batch.newAllocs size).Nodup := (filter_sublist.map Prod.fst).nodup h.new_nodup
      have hnodup : (sized s.batch.newAllocs size ++ lists size).Nodup := by
        refine nodup_append.2 ⟨hsized, h.accounts.acyclic size, fun p hp q hq heq => ?_⟩
        exact h.accounts.notHeld size q hq (heq ▸ h.mem_held (mem_sized.1 hp))
      have hlen := length_le_of_nodup hnodup fun p hp => by
        rcases mem_append.1 hp with hp | hp
        · exact hbelow _ (mem_sized.1 hp)
        · exact (h.accounts.covers p).2 (.inr (.inr ⟨size, hp⟩))
      have htotal := s.handle.inner.alloc.header.totalPageCount.toNat_lt
      have hcount : (s.handle.inner.alloc.header.freePageCount size).toNat = (lists size).length :=
        h.accounts.counted size
      rw [length_append] at hlen
      omega

/-- the pages allocated after the batch's own are gone are those of before -/
theorem Open.held_diff : (s.held.diff s.batch.newAllocs).Perm held₀ := by
  have hheld : s.held.Nodup := h.accounts.heldOnce.of_map
  have hnodup := nodup_append.1 h.held_nodup
  refine (perm_ext_iff_of_nodup hheld.diff hnodup.2.1).2 fun p => ?_
  rw [hheld.mem_sdiff_iff, h.owned.mem_iff, mem_append]
  constructor
  · exact fun hp => hp.1.resolve_left hp.2
  · exact fun hp => ⟨.inr hp, fun hn => hnodup.2.2 p hn p hp rfl⟩

/-- with the links on disk, the lists are in order again -/
theorem Open.accounts_givenBack (hlinks : LinksOnDisk s) (hg : GivenBack s t s.batch.newAllocs) :
    ∃ lists', AllocState.Accounts ⟨t.handle.inner.alloc, t.held⟩ lists' ∧
      ∀ size page, page < h₀.inner.alloc.header.totalPageCount → (page ∈ lists' size ↔ page ∈ lists₀ size) := by
  choose back hperm hthread using hlinks
  have hmem : ∀ {size page}, page ∈ back size ↔ (page, size) ∈ s.batch.newAllocs := fun {size page} => by
    rw [(hperm size).mem_iff, mem_sized]
  have hpages : ∀ page, page ∈ t.held.map Prod.fst ↔ page ∈ held₀.map Prod.fst := fun page => by
    rw [hg.held]
    exact (h.held_diff.map Prod.fst).mem_iff
  have hlists : ∀ {size page}, page ∈ lists size → page ∉ s.batch.newAllocs.map Prod.fst := fun {size page} hp hn => by
    obtain ⟨p, hp', rfl⟩ := mem_map.1 hn
    exact h.accounts.notHeld size _ hp (h.mem_held hp')
  have hthreaded : ∀ size, Threaded (freeLink t.handle.image) 0 (t.handle.inner.alloc.header.freeListHead size)
      (back size ++ lists size) := by
    intro size
    rw [hg.head]
    refine Threaded.append (fun h0 => ?_) ((hthread size).frame fun page hp => ?_)
      ((h.accounts.threaded size).frame fun page hp => ?_)
    · exact h.accounts.headerPage (h.mem_held (hmem.1 h0))
    · exact (hg.dropped _ (hmem.1 hp)).freeLink
    · exact (hg.other page (hlists hp) size).freeLink
  refine ⟨fun size => back size ++ lists size,
    ⟨hthreaded, fun size => (hthreaded size).nodup, fun size => ?_, fun page hp hp' => ?_,
    fun size page hp hheld => ?_, ?_, fun h0 => ?_, fun page => ?_⟩, fun size page hlt => ?_⟩
  · have hcount : (s.handle.inner.alloc.header.freePageCount size).toNat = (lists size).length :=
      h.accounts.counted size
    rw [hg.count, hcount, length_append, (hperm size).length_eq, Nat.add_comm]
  · rcases mem_append.1 hp with hp | hp <;> rcases mem_append.1 hp' with hp' | hp'
    · have hsame := inj_on_of_nodup_map h.new_nodup (hmem.1 hp) (hmem.1 hp') rfl
      cases hsame
    · exact hlists hp' (mem_map_of_mem (hmem.1 hp))
    · exact hlists hp (mem_map_of_mem (hmem.1 hp'))
    · exact h.accounts.disjoint page hp hp'
  · obtain ⟨q, hq, hpage⟩ := mem_map.1 ((hpages page).1 hheld)
    rcases mem_append.1 hp with hp | hp
    · exact h.new_ne (hmem.1 hp) hq hpage
    · exact h.accounts.notHeld size page hp (hpage ▸ mem_map_of_mem (h.owned.symm.subset (mem_append_right _ hq)))
  · rw [hg.held]
    exact (List.Sublist.map _ (diff_sublist _ _)).nodup h.accounts.heldOnce
  · obtain ⟨q, hq, hpage⟩ := mem_map.1 ((hpages 0).1 h0)
    exact h.accounts.headerPage (hpage ▸ mem_map_of_mem (h.owned.symm.subset (mem_append_right _ hq)))
  · have hheld : page ∈ s.held.map Prod.fst ↔ page ∈ s.batch.newAllocs.map Prod.fst ∨ page ∈ held₀.map Prod.fst := by
      rw [(h.owned.map Prod.fst).mem_iff, map_append, mem_append]
    have hnew : page ∈ s.batch.newAllocs.map Prod.fst ↔ ∃ size, page ∈ back size := by
      simp only [hmem, mem_map, Prod.exists, exists_and_right, exists_eq_right]
    change page < t.handle.inner.alloc.header.totalPageCount ↔ page = 0 ∨ page ∈ t.held.map Prod.fst ∨ _
    have hcovers : page < s.handle.inner.alloc.header.totalPageCount ↔
        page = 0 ∨ page ∈ s.held.map Prod.fst ∨ ∃ size, page ∈ lists size := h.accounts.covers page
    rw [hg.total, hcovers, hpages, hheld, hnew]
    simp only [mem_append, exists_or]
    exact or_congr_right (or_assoc.trans or_left_comm)
  · rw [mem_append, hmem, ← h.sizes size page hlt]
    exact or_comm

end

/-- queueing pages again adds them to the queue and changes neither the pages nor the header -/
theorem foldl_requeue (pages : List UInt32) (s : BatchState) :
    (pages.foldl requeue s).handle.inner.alloc = s.handle.inner.alloc ∧
      (pages.foldl requeue s).handle.inner.frozen = s.handle.inner.frozen ∧ (pages.foldl requeue s).held = s.held ∧
      (pages.foldl requeue s).batch = s.batch ∧
      ((pages.foldl requeue s).handle.inner.pageLifetimeQueue.entries.map PageLifetimeEntry.page).Perm
        (pages ++ s.handle.inner.pageLifetimeQueue.entries.map PageLifetimeEntry.page) := by
  induction pages generalizing s with
  | nil => exact ⟨rfl, rfl, rfl, rfl, List.Perm.refl _⟩
  | cons page pages ih =>
    obtain ⟨halloc, hfrozen, hheld, hbatch, hqueue⟩ := ih (s.requeue page)
    obtain ⟨halloc', hfrozen', hentry⟩ := s.handle.inner.enqueueOverflowDeferredFree_page page
    refine ⟨halloc.trans halloc', hfrozen.trans hfrozen', hheld, hbatch, hqueue.trans ?_⟩
    exact (hentry.append_left pages).trans perm_middle

/-- putting the header back moves the root alone -/
theorem abortHeader_spec (s : BatchState) : s.abortHeader.held = s.held ∧ s.abortHeader.handle.image = s.handle.image ∧
    s.abortHeader.handle.inner.pageLifetimeQueue = s.handle.inner.pageLifetimeQueue ∧
    ∀ lists, AllocState.Accounts ⟨s.handle.inner.alloc, s.held⟩ lists →
      AllocState.Accounts ⟨s.abortHeader.handle.inner.alloc, s.abortHeader.held⟩ lists := by
  cases hc : s.batch.change with
  | none =>
    rw [abortHeader, hc]
    exact ⟨rfl, rfl, rfl, fun _ ha => ha⟩
  | some c =>
    have hback : s.abortHeader = { s with handle := (s.handle.updateHeader c.rollbackInto).2 } := by
      rw [abortHeader, hc]
    by_cases hf : s.handle.inner.frozen = true
    · rw [hback, BufferPoolHandle.updateHeader, if_pos hf]
      exact ⟨rfl, rfl, rfl, fun _ ha => ha⟩
    · rw [hback, BufferPoolHandle.updateHeader, if_neg hf, HeaderChange.rollbackInto]
      refine ⟨rfl, rfl, rfl, fun _ ha => ?_⟩
      split_ifs
      · exact accounts_of_header ha rfl rfl (fun size => by cases size <;> rfl) fun size => by cases size <;> rfl
      · exact accounts_of_header ha rfl rfl (fun _ => rfl) fun _ => rfl

/-- the root after the header is put back: what the first change remembers, if the header still holds what it left -/
theorem root_abortHeader (h : RootUndone s) {root : CatalogRootHeaderState}
    (hfrozen : s.batch.change ≠ none → s.handle.inner.frozen = false)
    (hroot : s.batch.change = none ∧ s.handle.root = root ∨ ∃ after, s.batch.change = some ⟨root, after⟩) :
    s.abortHeader.handle.root = root := by
  rw [abortHeader]
  rcases hroot with ⟨hnone, hroot⟩ | ⟨after, hsome⟩
  · rw [hnone]
    exact hroot
  · rw [hsome]
    have hfrozen' := hfrozen (by rw [hsome]; exact Option.some_ne_none _)
    simp only [BufferPoolHandle.updateHeader, hfrozen', Bool.false_eq_true, if_false]
    rw [HeaderChange.rollbackInto]
    split_ifs with hafter
    · rfl
    · exact (h _ hsome).resolve_left hafter

/-- **Abort is a no-op.** Whatever a batch did, under the three conditions its abort leaves the pages that were
allocated with their bytes, the allocated, the free and the queued pages as they were, and the catalog root in place. -/
theorem abort_restores {ops : List BatchOp} (ha : AllocState.Accounts ⟨h₀.inner.alloc, held₀⟩ lists₀)
    (hclean : ∀ op ∈ ops, CleanWrite h₀ held₀ op) (hrun : run (step empty) (opened h₀ held₀) ops = some s)
    (hlinks : LinksOnDisk s) (hroot : RootUndone s) : Restored h₀ held₀ lists₀ s.abort := by
  obtain ⟨lists, h⟩ : ∃ lists, Open h₀ held₀ lists₀ s lists :=
    run_invariant_on (I := fun s => ∃ lists, Open h₀ held₀ lists₀ s lists)
      (fun s op t ⟨lists, h⟩ hc hs => step_open h hc hs) ⟨lists₀, opened_open ha⟩ hclean hrun
  -- first the batch's own pages go back, then the drained pages are queued, last the header is put back
  have hg := h.givenBack
  obtain ⟨lists', haccounts, hlists⟩ := h.accounts_givenBack hlinks hg
  obtain ⟨halloc, hfrozen, hheld, hbatch, hqueue⟩ :=
    foldl_requeue s.batch.deferredFreePages (s.batch.newAllocs.foldl abortAlloc s)
  obtain ⟨hheld', himage, hqueue', haccounts'⟩ :=
    abortHeader_spec (s.batch.deferredFreePages.foldl requeue (s.batch.newAllocs.foldl abortAlloc s))
  have hroot' : BufferPoolHandle.root
    (s.batch.deferredFreePages.foldl requeue (s.batch.newAllocs.foldl abortAlloc s)).handle =
      s.handle.root := by
    rw [BufferPoolHandle.root, halloc]
    exact hg.root
  refine ⟨fun p hp => ?_, ?_, ⟨lists', haccounts' lists' ?_, hlists⟩, ?_, ?_⟩
  · refine (h.bytes p hp).trans ?_
    change SameBytes _ (BufferPoolHandle.image (abortHeader _).handle) _ _
    rw [himage, BufferPoolHandle.image, BufferPoolHandle.image, halloc]
    refine hg.other p.1 (fun hmem => ?_) p.2
    obtain ⟨q, hq, hpage⟩ := mem_map.1 hmem
    exact h.new_ne hq hp hpage.symm
  · change (abortHeader _).held.Perm held₀
    rw [hheld', hheld, hg.held]
    exact h.held_diff
  · rw [halloc, hheld]
    exact haccounts
  · change List.Perm (List.map _ (abortHeader _).handle.inner.pageLifetimeQueue.entries) _
    rw [hqueue']
    refine hqueue.trans ?_
    rw [hg.queue, h.queue, h.drained, ← map_append]
    exact (drainDeferredFreePages_spec rfl).1.map _
  · refine root_abortHeader (fun change hc => ?_) (fun hne => ?_) ?_
    · rw [hroot']
      rw [hbatch, hg.batch] at hc
      exact hroot change hc
    · rw [hfrozen, hg.frozen, h.frozen]
      rw [hbatch, hg.batch] at hne
      by_contra hf
      exact hne (h.idle (by simpa using hf)).2
    · rw [hbatch, hg.batch, hroot']
      exact h.root

/-- a file with one leaf page, page 1, and empty free lists; nothing of it is in the buffer pool only -/
def oneLeaf : BufferPoolHandle := ⟨.new ⟨{ FileHeader.new with totalPageCount := 2 }, fun _ => 0⟩, fun _ => 0⟩

theorem oneLeaf_accounts : AllocState.Accounts ⟨oneLeaf.inner.alloc, [(1, .large32k)]⟩ fun _ => [] :=
  (AllocState.fresh_accounts fun _ => 0).extend rfl

/-- a batch that rewrites the leaf, takes a page at the end of the file and makes it the catalog root -/
def growRoot : List BatchOp := [.writeLeafStructural 1 fun _ => 2, .allocLeaf, .updateHeader fun _ => ⟨2, 2, 1⟩]

theorem abort_restores_grown_root : ∃ s, run (step fun _ _ => 0) (opened oneLeaf [(1, .large32k)]) growRoot = some s ∧
    s.batch.newAllocs = [(2, .large32k)] ∧ s.handle.root = ⟨2, 2, 1⟩ ∧
      Restored oneLeaf [(1, .large32k)] (fun _ => []) s.abort := by
  have hend : (run (step fun _ _ => 0) (opened oneLeaf [(1, .large32k)]) growRoot).map
      (fun s => (s.batch.newAllocs, s.batch.change, s.handle.root, s.handle.inner.alloc.header)) =
        some ([(2, .large32k)], some ⟨⟨0, 0, 0⟩, ⟨2, 2, 1⟩⟩, ⟨2, 2, 1⟩, { FileHeader.new with
          totalPageCount := 3, catalogRootPage := 2, catalogRootBackup := 2, catalogRootLevel := 1 }) := by
    decide
  have hdisk : (run (step fun _ _ => 0) (opened oneLeaf [(1, .large32k)]) growRoot).map (fun s => s.handle.disk) =
      some fun _ => 0 := rfl
  obtain ⟨s, hrun, hs⟩ := Option.map_eq_some_iff.1 hend
  obtain ⟨hnew, hchange, hroot, hheader⟩ : _ ∧ _ ∧ _ ∧ _ := by simpa only [Prod.mk.injEq] using hs
  rw [hrun] at hdisk
  have hzero : s.handle.disk = fun _ => 0 := Option.some.inj hdisk
  refine ⟨s, hrun, hnew, hroot, abort_restores oneLeaf_accounts ?_ hrun (fun size => ?_) fun change hc => ?_⟩
  · intro op hop
    simp only [growRoot, mem_cons, not_mem_nil, or_false] at hop
    rcases hop with rfl | rfl | rfl
    · intro hover
      exact absurd hover (by decide)
    · trivial
    · trivial
  · rw [hnew, hheader, hzero]
    cases size
    · exact ⟨[], List.Perm.refl _, rfl⟩
    · have hlast : freeLink (fun _ => 0) 2 = 0 := by decide
      exact ⟨[2], List.Perm.refl _, rfl, by decide, hlast⟩
  · rw [hchange] at hc
    cases hc
    exact .inl hroot

/-- A page the batch adds at the end of the file stays in the file after the abort, as a free page: the free list was
empty and is [2] afterwards. -/
theorem added_page_becomes_free : AllocState.Accounts ⟨oneLeaf.inner.alloc, [(1, .large32k)]⟩ (fun _ => []) ∧
    ∃ s, run (step fun _ _ => 0) (opened oneLeaf [(1, .large32k)]) [.allocLeaf] = some s ∧
      Threaded (freeLink s.abort.handle.image) 0 (s.abort.handle.inner.alloc.header.freeListHead .large32k) [2] := by
  have hend : (run (step fun _ _ => 0) (opened oneLeaf [(1, .large32k)]) [.allocLeaf]).map (fun s =>
      (s.abort.handle.inner.alloc.header.freeListHead .large32k, freeLink s.abort.handle.image 2)) = some (2, 0) := by
    decide
  obtain ⟨s, hrun, hs⟩ := Option.map_eq_some_iff.1 hend
  obtain ⟨hhead, hlink⟩ : _ ∧ _ := by simpa only [Prod.mk.injEq] using hs
  refine ⟨oneLeaf_accounts, s, hrun, ?_⟩
  rw [hhead]
  exact ⟨rfl, by decide, hlink⟩

end BatchState
end Mqlite.Storage
