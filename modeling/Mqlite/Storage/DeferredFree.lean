/-
Deferred page frees (`mvcc/deferred_free.rs`, `storage/allocator/overflow.rs`, `mvcc/registry.rs`).

A page that nothing refers to any more is not freed at once. It is queued with the checkpoint fence of that moment, and
a later drain hands it to the allocator: overflow chains once the fence has moved on and their reference count is 0;
pages of a dropped tree when, besides, no reader is registered that could still descend the tree. A drain first takes
the entries out of the queue, then frees them one by one, and puts back those whose count is positive after all.

`LifetimeState` is the queue with everything a drain looks at, and two records that no code reads: the entries ever
queued, and the entries handed over, each with what held at that moment. Between the calls, other code may change the
allocator, the reference counts, the registered readers and the freeze of the allocator in any way.

Results, over all sequences of calls (`deferred_frees_accounted`):
- nothing is handed over early: at every hand-over the fence has passed, the count is 0 and no older reader is
  registered;
- no entry is handed over twice. This counts entries, not pages: the queue does not look for a page that it already has,
  so a page that is queued twice is handed over twice;
- an entry that is not handed over is still queued, exactly when no drain meets a page it cannot free.
  `failed_free_drops_the_rest` is the other case: the first failing free ends the drain, and what it had taken out of
  the queue is neither free nor queued.
-/
import Mqlite.Lib.OrdMap
import Mqlite.Storage.FreeList

namespace Mqlite.Storage

open Lib Mvcc List Function

/-! ## The queue -/

inductive PageLifetimeKind where
  | overflowDeferredFree
  | retiredTree4k
  | retiredTree32k
deriving DecidableEq, Repr

def PageLifetimeKind.size : PageLifetimeKind → PageSize
  | .overflowDeferredFree => .large32k
  | .retiredTree4k => .small4k
  | .retiredTree32k => .large32k

structure PageLifetimeEntry where
  kind : PageLifetimeKind
  page : UInt32
  enqueueFence : UInt64
  readerFenceTs : Ts
deriving DecidableEq, Repr

open PageLifetimeEntry

def PageLifetimeEntry.isFenceEligible (e : PageLifetimeEntry) (checkpointFence : UInt64) : Bool :=
  e.enqueueFence < checkpointFence

/-- one segment for each release class -/
structure PendingSegments where
  overflow : List PageLifetimeEntry
  retired : List PageLifetimeEntry
deriving DecidableEq, Repr

namespace PendingSegments

def entries (q : PendingSegments) : List PageLifetimeEntry := q.overflow ++ q.retired

def pushEntry (q : PendingSegments) (e : PageLifetimeEntry) : PendingSegments :=
  match e.kind with
  | .overflowDeferredFree => { q with overflow := q.overflow ++ [e] }
  | .retiredTree4k | .retiredTree32k => { q with retired := q.retired ++ [e] }

def takeEligible (q : PendingSegments) (checkpointFence : UInt64) : List PageLifetimeEntry × PendingSegments :=
  (q.overflow.filter fun e => e.isFenceEligible checkpointFence,
    { q with overflow := q.overflow.filter fun e => !e.isFenceEligible checkpointFence })

/-- a retired entry is released when the fence has passed and the reader floor, if there is one, has reached its reader
fence -/
def releasesRetired (checkpointFence : UInt64) (readerFloor : Option Ts) (e : PageLifetimeEntry) : Bool :=
  e.isFenceEligible checkpointFence && readerFloor.any fun floor => decide (e.readerFenceTs ≤ floor)

def takeEligibleRetired (q : PendingSegments) (checkpointFence : UInt64) (readerFloor : Option Ts) :
    List PageLifetimeEntry × PendingSegments :=
  (q.retired.filter (releasesRetired checkpointFence readerFloor),
    { q with retired := q.retired.filter fun e => !releasesRetired checkpointFence readerFloor e })

end PendingSegments

/-! ## Registered readers -/

open PendingSegments

/-- smallest `read_ts` across all live views, or `Ts.MAX` if there are none -/
def oldestRequiredTs (registry : OrdMap ℕ Ts) : Ts := (registry.entries.map Prod.snd).min?.getD Ts.MAX

theorem oldestRequiredTs_le {registry : OrdMap ℕ Ts} {ts : Ts} (h : ts ∈ registry.entries.map Prod.snd) :
    oldestRequiredTs registry ≤ ts := by
  rw [oldestRequiredTs]
  cases hm : (registry.entries.map Prod.snd).min? with
  | none => rw [min?_eq_none_iff.1 hm] at h; cases h
  | some m => exact (min?_eq_some_iff.1 hm).2 ts h

/-! ## The allocator's lifetime state and the drains -/

structure AllocatorInner where
  alloc : PageAllocator
  headerDirty : Bool
  frozen : Bool
  /-- reference count of an overflow chain, by its first page -/
  overflowRefcounts : UInt32 → Option UInt32
  pageLifetimeQueue : PendingSegments
  pageLifetimeCheckpointFence : UInt64
  /-- whether the engine has installed the registry as the source of the reader floor -/
  readerFloorInstalled : Bool
  /-- dropped-tree overflow pages that were still referenced when the tree was walked, with the drop's reader fence -/
  retiredOverflowPending : UInt32 → Option Ts

namespace AllocatorInner

def overflowRefcount (s : AllocatorInner) (firstPage : UInt32) : UInt32 := (s.overflowRefcounts firstPage).getD 0

def retiredPageReaderFloor (s : AllocatorInner) (registry : OrdMap ℕ Ts) : Option Ts :=
  if s.readerFloorInstalled then some (oldestRequiredTs registry) else none

def freezeViolationError : AllocError := .internal "allocator is frozen; mutation rejected"

def enqueueRetiredTreePage (s : AllocatorInner) (page : UInt32) (size : PageSize) (readerFenceTs : Ts) :
    AllocatorInner :=
  let kind : PageLifetimeKind :=
    match size with
    | .small4k => .retiredTree4k
    | .large32k => .retiredTree32k
  let e : PageLifetimeEntry := ⟨kind, page, s.pageLifetimeCheckpointFence, readerFenceTs⟩
  { s with pageLifetimeQueue := s.pageLifetimeQueue.pushEntry e }

def enqueueOverflowDeferredFree (s : AllocatorInner) (firstPage : UInt32) : AllocatorInner :=
  match s.retiredOverflowPending firstPage with
  | some readerFenceTs =>
    enqueueRetiredTreePage { s with retiredOverflowPending := Function.update s.retiredOverflowPending firstPage none }
      firstPage .large32k readerFenceTs
  | none =>
    let e : PageLifetimeEntry := ⟨.overflowDeferredFree, firstPage, s.pageLifetimeCheckpointFence, ⟨0, 0⟩⟩
    { s with pageLifetimeQueue := s.pageLifetimeQueue.pushEntry e }

/-- the free loop of a drain: what it has freed and what it will put back -/
structure FreeLoop where
  inner : AllocatorInner
  freed : List PageLifetimeEntry
  requeue : List PageLifetimeEntry

/-- free one taken entry -/
def FreeLoop.free (d : FreeLoop) (e : PageLifetimeEntry) (io : IoResult) : Except AllocError Unit × FreeLoop :=
  match d.inner.alloc.free e.page e.kind.size io with
  | (.error err, a) => (.error err, { d with inner.alloc := a })
  | (.ok (), a) =>
    let refcounts := if e.kind = .retiredTree4k then d.inner.overflowRefcounts
      else Function.update d.inner.overflowRefcounts e.page none
    (.ok (), { d with inner.alloc := a, inner.overflowRefcounts := refcounts, freed := d.freed ++ [e] })

/-- 4 KB pages have no reference count; the others are freed only at count 0 -/
def releasable (s : AllocatorInner) (e : PageLifetimeEntry) : Bool :=
  e.kind = .retiredTree4k || s.overflowRefcount e.page = 0

/-- the loop over the taken entries; io is what becomes of its page writes, in order. An error ends it at once. -/
def freeLoop : List IoResult → List PageLifetimeEntry → FreeLoop → Except AllocError Unit × FreeLoop
  | _, [], d => (.ok (), d)
  | io, e :: l, d =>
    if d.inner.releasable e then
      match d.free e (io.headD .ok) with
      | (.error err, d) => (.error err, d)
      | (.ok (), d) => freeLoop io.tail l d
    else freeLoop io l { d with requeue := d.requeue ++ [e] }

/-- free what was taken, put back what is still referenced; with the entries that reached the allocator -/
def freeDrainedEntries (s : AllocatorInner) (entries : List PageLifetimeEntry) (io : List IoResult) :
    Except AllocError ℕ × AllocatorInner × List PageLifetimeEntry :=
  if entries = [] then (.ok 0, s, [])
  else if s.frozen then (.error freezeViolationError, s, [])
  else
    match freeLoop io entries ⟨s, [], []⟩ with
    -- the error leaves the function before the entries of requeue are pushed
    | (.error err, d) => (.error err, d.inner, d.freed)
    | (.ok (), d) =>
      let inner := { d.inner with headerDirty := if 0 < d.freed.length then true else d.inner.headerDirty }
      (.ok d.freed.length,
        { inner with pageLifetimeQueue := d.requeue.foldl PendingSegments.pushEntry inner.pageLifetimeQueue }, d.freed)

def drainFreeQueue (s : AllocatorInner) (io : List IoResult) :
    Except AllocError ℕ × AllocatorInner × List PageLifetimeEntry :=
  if s.frozen then (.error freezeViolationError, s, [])
  else
    let (entries, q) := s.pageLifetimeQueue.takeEligible s.pageLifetimeCheckpointFence
    freeDrainedEntries { s with pageLifetimeQueue := q } entries io

def drainFreeQueueWithRetired (s : AllocatorInner) (registry : OrdMap ℕ Ts) (io : List IoResult) :
    Except AllocError ℕ × AllocatorInner × List PageLifetimeEntry :=
  if s.frozen then (.error freezeViolationError, s, [])
  else
    let fence := s.pageLifetimeCheckpointFence
    let (entries, q) := s.pageLifetimeQueue.takeEligible fence
    let (retired, q) := q.takeEligibleRetired fence (s.retiredPageReaderFloor registry)
    freeDrainedEntries { s with pageLifetimeQueue := q } (entries ++ retired) io

/-- the loop of the drain that hands the pages to its caller -/
def readyLoop : List PageLifetimeEntry → FreeLoop → FreeLoop
  | [], d => d
  | e :: l, d =>
    if e.kind ≠ .overflowDeferredFree then readyLoop l { d with requeue := d.requeue ++ [e] }
    else if d.inner.overflowRefcount e.page = 0 then
      readyLoop l { d with
        inner.overflowRefcounts := Function.update d.inner.overflowRefcounts e.page none, freed := d.freed ++ [e] }
    else readyLoop l { d with requeue := d.requeue ++ [e] }

/-- the entries whose pages the caller gets, to free them on commit or queue them again on abort -/
def drainDeferredFreePages (s : AllocatorInner) : AllocatorInner × List PageLifetimeEntry :=
  let (entries, q) := s.pageLifetimeQueue.takeEligible s.pageLifetimeCheckpointFence
  let d := readyLoop entries ⟨{ s with pageLifetimeQueue := q }, [], []⟩
  ({ d.inner with pageLifetimeQueue := d.requeue.foldl PendingSegments.pushEntry d.inner.pageLifetimeQueue }, d.freed)

end AllocatorInner

/-! ## What the queue operations keep -/

namespace PendingSegments

theorem pushEntry_perm (q : PendingSegments) (e : PageLifetimeEntry) :
    (q.pushEntry e).entries.Perm (e :: q.entries) := by
  rw [pushEntry, entries]
  cases e.kind with
  | overflowDeferredFree =>
    rw [append_assoc]
    exact perm_middle
  | retiredTree4k | retiredTree32k =>
    rw [← append_assoc]
    exact perm_append_singleton _ _

theorem foldl_pushEntry_perm (q : PendingSegments) (l : List PageLifetimeEntry) :
    (l.foldl pushEntry q).entries.Perm (l ++ q.entries) := by
  induction l generalizing q with
  | nil => exact List.Perm.refl _
  | cons e l ih =>
    calc List.Perm ((e :: l).foldl pushEntry q).entries (l ++ (q.pushEntry e).entries) := ih _
      List.Perm _ (l ++ e :: q.entries) := (q.pushEntry_perm e).append_left l
      List.Perm _ (e :: l ++ q.entries) := perm_middle

/-- what is taken and what stays is what was there -/
theorem takeEligible_perm (q : PendingSegments) (fence : UInt64) :
    ((q.takeEligible fence).1 ++ (q.takeEligible fence).2.entries).Perm q.entries := by
  rw [entries, ← append_assoc]
  exact (filter_append_perm _ _).append_right _

theorem takeEligibleRetired_perm (q : PendingSegments) (fence : UInt64) (floor : Option Ts) :
    ((q.takeEligibleRetired fence floor).1 ++ (q.takeEligibleRetired fence floor).2.entries).Perm q.entries := by
  rw [entries]
  refine List.Perm.trans ?_ ((filter_append_perm (releasesRetired fence floor) q.retired).append_left q.overflow)
  rw [← append_assoc, ← append_assoc]
  exact perm_append_comm.append_right _

/-- each segment holds the kinds it is for -/
structure Segmented (q : PendingSegments) : Prop where
  overflow : ∀ e ∈ q.overflow, e.kind = .overflowDeferredFree
  retired : ∀ e ∈ q.retired, e.kind ≠ .overflowDeferredFree

variable {q : PendingSegments}

theorem Segmented.pushEntry (h : q.Segmented) (e : PageLifetimeEntry) : (q.pushEntry e).Segmented := by
  rw [PendingSegments.pushEntry]
  cases hk : e.kind with
  | overflowDeferredFree => exact ⟨by simpa [hk, or_imp, forall_and] using h.overflow, h.retired⟩
  | retiredTree4k | retiredTree32k => exact ⟨h.overflow, by simpa [hk, or_imp, forall_and] using h.retired⟩

theorem Segmented.foldl_pushEntry (h : q.Segmented) (l : List PageLifetimeEntry) :
    (l.foldl PendingSegments.pushEntry q).Segmented := by
  induction l generalizing q with
  | nil => exact h
  | cons e l ih => exact ih (h.pushEntry e)

theorem Segmented.takeEligible (h : q.Segmented) (fence : UInt64) : (q.takeEligible fence).2.Segmented :=
  ⟨fun e he => h.overflow e (mem_of_mem_filter he), h.retired⟩

theorem Segmented.takeEligibleRetired (h : q.Segmented) (fence : UInt64) (floor : Option Ts) :
    (q.takeEligibleRetired fence floor).2.Segmented :=
  ⟨h.overflow, fun e he => h.retired e (mem_of_mem_filter he)⟩

end PendingSegments

/-! ## What the loops do -/

/-- every page of the list can be freed, one after the other: pages of the file other than page 0, writes that go
through, and room in the counts -/
structure FreesSucceed (a : PageAllocator) (io : List IoResult) (l : List PageLifetimeEntry) : Prop where
  written : ∀ r ∈ io.take l.length, r = .ok
  inFile : ∀ e ∈ l, e.page ≠ 0 ∧ e.page < a.header.totalPageCount
  counted : ∀ size, (a.header.freePageCount size).toNat + l.countP (fun e => e.kind.size = size) < 2 ^ 32

theorem freesSucceed_nil (a : PageAllocator) (io : List IoResult) : FreesSucceed a io [] where
  written r hr := by simp at hr
  inFile e he := by cases he
  counted size := (a.header.freePageCount size).toNat_lt

theorem FreesSucceed.head {a : PageAllocator} {io : List IoResult} {e : PageLifetimeEntry} {l : List PageLifetimeEntry}
    (h : FreesSucceed a io (e :: l)) : ∃ a', a.free e.page e.kind.size (io.headD .ok) = (.ok (), a') := by
  refine PageAllocator.free_isOk_iff.2 ⟨(h.inFile e mem_cons_self).1, (h.inFile e mem_cons_self).2, ?_, ?_⟩
  · cases io with
    | nil => rfl
    | cons r io => exact h.written r (by simp)
  · have hc := h.counted e.kind.size
    rw [countP_cons_of_pos (by simp)] at hc
    omega

/-- after a free that succeeded, the rest can be freed exactly when the whole list could be -/
theorem freesSucceed_cons {a a' : PageAllocator} {io : List IoResult} {e : PageLifetimeEntry}
    {l : List PageLifetimeEntry} (hfree : a.free e.page e.kind.size (io.headD .ok) = (.ok (), a')) :
    FreesSucceed a io (e :: l) ↔ FreesSucceed a' io.tail l := by
  obtain ⟨h0, hlt, hio, -⟩ := PageAllocator.free_isOk_iff.1 ⟨a', hfree⟩
  obtain ⟨count, hcount, ha'⟩ := PageAllocator.free_pushes hfree
  have hcounts : ∀ size, (a.header.freePageCount size).toNat + (e :: l).countP (fun e => e.kind.size = size) =
      (a'.header.freePageCount size).toNat + l.countP (fun e => e.kind.size = size) := by
    intro size
    rw [ha', FileHeader.freePageCount_withFreeList]
    by_cases hs : e.kind.size = size
    · rw [if_pos hs.symm, hcount, hs]
      simp [hs]
      omega
    · simp [hs, Ne.symm hs]
  constructor
  · intro h
    refine ⟨fun r hr => ?_, fun f hf => ?_, fun size => hcounts size ▸ h.counted size⟩
    · cases io with
      | nil => simp at hr
      | cons r' io => exact h.written r (by simpa using .inr hr)
    · rw [ha', FileHeader.totalPageCount_withFreeList]
      exact h.inFile f (mem_cons_of_mem _ hf)
  · intro h
    refine ⟨fun r hr => ?_, fun f hf => ?_, fun size => (hcounts size).symm ▸ h.counted size⟩
    · cases io with
      | nil => simp at hr
      | cons r' io =>
        rcases mem_cons.1 hr with rfl | hr
        · exact hio
        · exact h.written r hr
    · rcases mem_cons.1 hf with rfl | hf
      · exact ⟨h0, hlt⟩
      · have := h.inFile f hf
        rwa [ha', FileHeader.totalPageCount_withFreeList] at this

namespace AllocatorInner

/-- nothing a drain tests has changed -/
structure Frame (s s' : AllocatorInner) : Prop where
  queue : s'.pageLifetimeQueue = s.pageLifetimeQueue
  refcount : s'.overflowRefcount = s.overflowRefcount

variable {s s' : AllocatorInner} {io : List IoResult} {handed : List PageLifetimeEntry} {r : Except AllocError ℕ}

theorem Frame.releasable (h : Frame s s') : s'.releasable = s.releasable := by
  funext e
  rw [AllocatorInner.releasable, AllocatorInner.releasable, h.refcount]

theorem Frame.trans {s'' : AllocatorInner} (h : Frame s s') (h' : Frame s' s'') : Frame s s'' :=
  ⟨h'.queue.trans h.queue, h'.refcount.trans h.refcount⟩

/-- forgetting a count of 0 changes no count -/
theorem overflowRefcount_update {page : UInt32} (h : s.overflowRefcount page = 0) :
    overflowRefcount { s with overflowRefcounts := update s.overflowRefcounts page none } = s.overflowRefcount := by
  funext other
  by_cases ho : other = page
  · subst ho
    simp only [overflowRefcount, update_self]
    exact h.symm
  · simp only [overflowRefcount, update_of_ne ho]

theorem FreeLoop.free_cases {d d' : FreeLoop} {e : PageLifetimeEntry} {io : IoResult} {r : Except AllocError Unit}
    (hrel : d.inner.releasable e = true) (h : d.free e io = (r, d')) :
    Frame d.inner d'.inner ∧ d'.requeue = d.requeue ∧
      ((¬(∃ a, d.inner.alloc.free e.page e.kind.size io = (.ok (), a)) ∧ (∃ err, r = .error err) ∧ d'.freed = d.freed) ∨
      (d.inner.alloc.free e.page e.kind.size io = (.ok (), d'.inner.alloc) ∧ r = .ok () ∧
        d'.freed = d.freed ++ [e])) := by
  rw [FreeLoop.free] at h
  rcases hr : d.inner.alloc.free e.page e.kind.size io with ⟨r', a⟩
  rw [hr] at h
  cases r' with
  | error err =>
    obtain ⟨rfl, rfl⟩ := Prod.mk.inj h
    exact ⟨⟨rfl, rfl⟩, rfl, .inl ⟨by simp, ⟨err, rfl⟩, rfl⟩⟩
  | ok u =>
    obtain ⟨rfl, rfl⟩ := Prod.mk.inj h
    refine ⟨⟨rfl, ?_⟩, rfl, .inr ⟨rfl, rfl, rfl⟩⟩
    by_cases hk : e.kind = .retiredTree4k
    · simp only [hk, if_true]
      rfl
    · have h0 : d.inner.overflowRefcount e.page = 0 := by simpa [AllocatorInner.releasable, hk] using hrel
      simp only [hk, if_false]
      exact overflowRefcount_update h0

/-- **The free loop.** It frees entries that may be released, keeps the others for the queue, and loses some exactly
when one of the frees it makes does not succeed. -/
theorem freeLoop_spec {l : List PageLifetimeEntry} {d d' : FreeLoop} {r : Except AllocError Unit}
    (h : freeLoop io l d = (r, d')) :
    ∃ freed requeue lost, d'.freed = d.freed ++ freed ∧ d'.requeue = d.requeue ++ requeue ∧
      (freed ++ requeue ++ lost).Perm l ∧ (∀ e ∈ freed, d.inner.releasable e = true) ∧ Frame d.inner d'.inner ∧
      ((lost = [] ∧ r = .ok () ∧ FreesSucceed d.inner.alloc io (l.filter d.inner.releasable)) ∨
        (lost ≠ [] ∧ (∃ err, r = .error err) ∧ ¬FreesSucceed d.inner.alloc io (l.filter d.inner.releasable))) := by
  induction l generalizing io d with
  | nil =>
    obtain ⟨rfl, rfl⟩ := Prod.mk.inj h
    exact ⟨[], [], [], by simp, by simp, List.Perm.nil, by simp, ⟨rfl, rfl⟩, .inl ⟨rfl, rfl, freesSucceed_nil _ _⟩⟩
  | cons e l ih =>
    rw [freeLoop] at h
    split_ifs at h with hrel
    · rcases hfree : d.free e (io.headD .ok) with ⟨r₁, d₁⟩
      rw [hfree] at h
      have hfilter : (e :: l).filter d.inner.releasable = e :: l.filter d.inner.releasable := filter_cons_of_pos hrel
      obtain ⟨hframe, hrequeue, ⟨hfail, ⟨err, rfl⟩, hfreed⟩ | ⟨hok, rfl, hfreed⟩⟩ := FreeLoop.free_cases hrel hfree
      · obtain ⟨rfl, rfl⟩ := Prod.mk.inj h
        refine ⟨[], [], e :: l, by simp [hfreed], by simp [hrequeue], List.Perm.refl _, by simp, hframe,
          .inr ⟨by simp, ⟨err, rfl⟩, ?_⟩⟩
        rw [hfilter]
        exact fun hs => hfail hs.head
      · obtain ⟨freed, requeue, lost, hf, hq, hperm, hall, hframe', hend⟩ := ih h
        rw [hframe.releasable] at hall hend
        refine ⟨e :: freed, requeue, lost, ?_, ?_, hperm.cons e, forall_mem_cons.2 ⟨hrel, hall⟩,
          hframe.trans hframe', ?_⟩
        · rw [hf, hfreed, append_assoc, singleton_append]
        · rw [hq, hrequeue]
        · rw [hfilter, freesSucceed_cons hok]
          exact hend
    · obtain ⟨freed, requeue, lost, hf, hq, hperm, hall, hframe', hend⟩ := ih h
      refine ⟨freed, e :: requeue, lost, hf, ?_, ?_, hall, hframe', ?_⟩
      · rw [hq, append_assoc, singleton_append]
      · rw [append_assoc] at hperm ⊢
        exact perm_middle.trans (hperm.cons e)
      · rw [filter_cons_of_neg hrel]
        exact hend

/-- the loop of the drain that hands pages to its caller: only overflow entries at count 0 leave, and none is lost -/
theorem readyLoop_spec (l : List PageLifetimeEntry) (d : FreeLoop) : ∃ freed requeue,
    (readyLoop l d).freed = d.freed ++ freed ∧ (readyLoop l d).requeue = d.requeue ++ requeue ∧
      (freed ++ requeue).Perm l ∧ (∀ e ∈ freed, e.kind = .overflowDeferredFree ∧ d.inner.overflowRefcount e.page = 0) ∧
      Frame d.inner (readyLoop l d).inner := by
  induction l generalizing d with
  | nil => exact ⟨[], [], by simp [readyLoop], by simp [readyLoop], List.Perm.nil, by simp, ⟨rfl, rfl⟩⟩
  | cons e l ih =>
    have hkeep : ∃ freed requeue, (readyLoop l { d with requeue := d.requeue ++ [e] }).freed = d.freed ++ freed ∧
        (readyLoop l { d with requeue := d.requeue ++ [e] }).requeue = d.requeue ++ requeue ∧
          (freed ++ requeue).Perm (e :: l) ∧
        (∀ e ∈ freed, e.kind = .overflowDeferredFree ∧ d.inner.overflowRefcount e.page = 0) ∧
        Frame d.inner (readyLoop l { d with requeue := d.requeue ++ [e] }).inner := by
      obtain ⟨freed, requeue, hf, hq, hperm, hall, hframe⟩ := ih { d with requeue := d.requeue ++ [e] }
      refine ⟨freed, e :: requeue, hf, ?_, perm_middle.trans (hperm.cons e), hall, hframe⟩
      rw [hq, append_assoc, singleton_append]
    rw [readyLoop]
    split_ifs with hk h0
    · exact hkeep
    · obtain ⟨freed, requeue, hf, hq, hperm, hall, hframe⟩ := ih { d with
        inner.overflowRefcounts := update d.inner.overflowRefcounts e.page none, freed := d.freed ++ [e] }
      have hsame : Frame d.inner { d.inner with overflowRefcounts := update d.inner.overflowRefcounts e.page none } :=
        ⟨rfl, overflowRefcount_update h0⟩
      refine ⟨e :: freed, requeue, ?_, hq, hperm.cons e, ?_, hsame.trans hframe⟩
      · rw [hf, append_assoc, singleton_append]
      · refine forall_mem_cons.2 ⟨⟨not_not.1 hk, h0⟩, fun f hfm => ?_⟩
        rw [← hsame.refcount]
        exact hall f hfm
    · exact hkeep

theorem readyLoop_inner (l : List PageLifetimeEntry) (d : FreeLoop) :
    (readyLoop l d).inner.alloc = d.inner.alloc ∧ (readyLoop l d).inner.frozen = d.inner.frozen := by
  induction l generalizing d with
  | nil => exact ⟨rfl, rfl⟩
  | cons e l ih =>
    rw [readyLoop]
    split_ifs
    · exact ih _
    · exact ih _
    · exact ih _

/-- handing pages to a caller frees nothing -/
theorem drainDeferredFreePages_alloc (s : AllocatorInner) : s.drainDeferredFreePages.1.alloc = s.alloc :=
  (readyLoop_inner _ _).1

/-- what a drain does to the entries it has taken: each is handed over, put back or lost, and none is lost exactly when
every free succeeds -/
theorem freeDrainedEntries_spec {entries : List PageLifetimeEntry}
    (hfrozen : s.frozen = false) (h : s.freeDrainedEntries entries io = (r, s', handed)) :
    ∃ lost, (handed ++ s'.pageLifetimeQueue.entries ++ lost).Perm (entries ++ s.pageLifetimeQueue.entries) ∧
      (∀ e ∈ handed, e ∈ entries ∧ s.releasable e = true) ∧
      (s.pageLifetimeQueue.Segmented → s'.pageLifetimeQueue.Segmented) ∧
      (lost = [] ↔ FreesSucceed s.alloc io (entries.filter s.releasable)) := by
  rw [freeDrainedEntries] at h
  split_ifs at h with hnil hfr
  · obtain ⟨-, rfl, rfl⟩ := Prod.mk.inj h |>.imp_right Prod.mk.inj
    subst hnil
    refine ⟨[], ?_, by simp, id, ?_⟩
    · simp
    · exact iff_of_true rfl (freesSucceed_nil _ _)
  · rw [hfrozen] at hfr
    cases hfr
  · rcases hloop : freeLoop io entries ⟨s, [], []⟩ with ⟨r', d⟩
    rw [hloop] at h
    obtain ⟨freed, requeue, lost, hf, hq, hperm, hall, hframe, hend⟩ := freeLoop_spec hloop
    have hmem : ∀ e ∈ freed, e ∈ entries ∧ s.releasable e = true := fun e he =>
      ⟨hperm.subset (by simp [he]), hall e he⟩
    obtain ⟨rfl, rfl, hs⟩ | ⟨hlost, ⟨err, rfl⟩, hs⟩ := hend
    · obtain ⟨-, rfl, rfl⟩ := Prod.mk.inj h |>.imp_right Prod.mk.inj
      rw [append_nil] at hperm
      refine ⟨[], ?_, hf ▸ hmem, ?_, iff_of_true rfl hs⟩
      · rw [append_nil, hf, hq]
        calc List.Perm _ (freed ++ (requeue ++ s.pageLifetimeQueue.entries)) := by
              rw [← hframe.queue]
              exact (PendingSegments.foldl_pushEntry_perm _ _).append_left _
          List.Perm _ (entries ++ s.pageLifetimeQueue.entries) := by
              rw [← append_assoc]
              exact hperm.append_right _
      · exact fun hseg => PendingSegments.Segmented.foldl_pushEntry (hframe.queue ▸ hseg) _
    · obtain ⟨-, rfl, rfl⟩ := Prod.mk.inj h |>.imp_right Prod.mk.inj
      refine ⟨requeue ++ lost, ?_, hf ▸ hmem, fun hseg => hframe.queue ▸ hseg, iff_of_false (by simp [hlost]) hs⟩
      rw [hf, hframe.queue]
      calc List.Perm (freed ++ s.pageLifetimeQueue.entries ++ (requeue ++ lost))
            (freed ++ (requeue ++ lost) ++ s.pageLifetimeQueue.entries) := by
            rw [append_assoc, append_assoc]
            exact perm_append_comm.append_left _
        List.Perm _ (entries ++ s.pageLifetimeQueue.entries) := by
            rw [← append_assoc]
            exact hperm.append_right _

/-- what the hot drain would take -/
def eligible (s : AllocatorInner) : List PageLifetimeEntry :=
  (s.pageLifetimeQueue.takeEligible s.pageLifetimeCheckpointFence).1

/-- what the checkpoint drain would take besides -/
def eligibleRetired (s : AllocatorInner) (registry : OrdMap ℕ Ts) : List PageLifetimeEntry :=
  s.pageLifetimeQueue.retired.filter
    (PendingSegments.releasesRetired s.pageLifetimeCheckpointFence (s.retiredPageReaderFloor registry))

theorem drainDeferredFreePages_spec (h : s.drainDeferredFreePages = (s', handed)) :
    (handed ++ s'.pageLifetimeQueue.entries).Perm s.pageLifetimeQueue.entries ∧
      (∀ e ∈ handed, e ∈ s.eligible ∧ s.overflowRefcount e.page = 0) ∧
      (s.pageLifetimeQueue.Segmented → s'.pageLifetimeQueue.Segmented) := by
  let taken : FreeLoop :=
    ⟨{ s with pageLifetimeQueue := (s.pageLifetimeQueue.takeEligible s.pageLifetimeCheckpointFence).2 }, [], []⟩
  have hdrain : s.drainDeferredFreePages = ({ (readyLoop s.eligible taken).inner with
      pageLifetimeQueue := (readyLoop s.eligible taken).requeue.foldl PendingSegments.pushEntry
        (readyLoop s.eligible taken).inner.pageLifetimeQueue }, (readyLoop s.eligible taken).freed) := rfl
  obtain ⟨freed, requeue, hf, hq, hperm, hall, hframe⟩ := readyLoop_spec s.eligible taken
  rw [hdrain, hf, hq, hframe.queue] at h
  obtain ⟨rfl, rfl⟩ := Prod.mk.inj h
  refine ⟨?_, fun e he => ⟨hperm.subset (mem_append_left _ he), (hall e he).2⟩, fun hs => ?_⟩
  · calc
      List.Perm _ (freed ++ (requeue ++ (s.pageLifetimeQueue.takeEligible s.pageLifetimeCheckpointFence).2.entries)) :=
          (PendingSegments.foldl_pushEntry_perm _ _).append_left _
      List.Perm _ (s.eligible ++ (s.pageLifetimeQueue.takeEligible s.pageLifetimeCheckpointFence).2.entries) := by
          rw [← append_assoc]
          exact hperm.append_right _
      List.Perm _ s.pageLifetimeQueue.entries := PendingSegments.takeEligible_perm _ _
  · exact (hs.takeEligible _).foldl_pushEntry _

end AllocatorInner

/-! ## Sequences of calls -/

/-- an entry handed over, with the fence, the count of its page and the read timestamps registered at that moment -/
structure HandOver where
  entry : PageLifetimeEntry
  fence : UInt64
  refcount : UInt32
  readers : List Ts

/-- Not early: the fence has advanced past the entry's, the page is not referenced, and no registered reader is older
than the drop that retired it. A 4 KB page heads no overflow chain and has no count. -/
structure HandOver.Due (r : HandOver) : Prop where
  fence : r.entry.enqueueFence < r.fence
  refcount : r.entry.kind ≠ .retiredTree4k → r.refcount = 0
  readers : r.entry.kind ≠ .overflowDeferredFree → ∀ readTs ∈ r.readers, ¬readTs < r.entry.readerFenceTs

/-- the allocator's state, the registry, and the records of what was queued and what was handed over -/
structure LifetimeState where
  inner : AllocatorInner
  registry : OrdMap ℕ Ts
  enqueued : List PageLifetimeEntry
  handed : List HandOver

inductive LifetimeOp where
  | enqueueOverflow (firstPage : UInt32)
  | enqueueRetired (page : UInt32) (size : PageSize) (readerFenceTs : Ts)
  | advanceFence
  | drainFreeQueue (io : List IoResult)
  | drainFreeQueueWithRetired (io : List IoResult)
  | drainDeferredFreePages
  -- what other code does between the calls
  | setRefcount (page : UInt32) (count : Option UInt32)
  | notePending (page : UInt32) (readerFenceTs : Ts)
  | register (txnId : ℕ) (readTs : Ts)
  | unregister (txnId : ℕ)
  | installReaderFloor
  | setFrozen (frozen : Bool)
  | setAllocator (alloc : PageAllocator)

namespace AllocatorInner

/-- `AllocatorHandle::new` -/
def new (alloc : PageAllocator) : AllocatorInner where
  alloc := alloc
  headerDirty := false
  frozen := false
  overflowRefcounts _ := none
  pageLifetimeQueue := ⟨[], []⟩
  pageLifetimeCheckpointFence := 0
  readerFloorInstalled := false
  retiredOverflowPending _ := none

/-- the entry under which an overflow page is queued: a note of a dropped tree turns it into a retired page -/
def overflowEntry (s : AllocatorInner) (firstPage : UInt32) : PageLifetimeEntry :=
  match s.retiredOverflowPending firstPage with
  | some readerFenceTs => ⟨.retiredTree32k, firstPage, s.pageLifetimeCheckpointFence, readerFenceTs⟩
  | none => ⟨.overflowDeferredFree, firstPage, s.pageLifetimeCheckpointFence, ⟨0, 0⟩⟩

theorem enqueueOverflowDeferredFree_queue (s : AllocatorInner) (firstPage : UInt32) :
    (s.enqueueOverflowDeferredFree firstPage).pageLifetimeQueue =
      s.pageLifetimeQueue.pushEntry (s.overflowEntry firstPage) := by
  rw [enqueueOverflowDeferredFree, overflowEntry]
  cases s.retiredOverflowPending firstPage <;> rfl

/-- queueing an overflow page adds its number to the queue, under whichever kind, and nothing else -/
theorem enqueueOverflowDeferredFree_page (s : AllocatorInner) (firstPage : UInt32) :
    (s.enqueueOverflowDeferredFree firstPage).alloc = s.alloc ∧
      (s.enqueueOverflowDeferredFree firstPage).frozen = s.frozen ∧
      ((s.enqueueOverflowDeferredFree firstPage).pageLifetimeQueue.entries.map page).Perm
        (firstPage :: s.pageLifetimeQueue.entries.map page) := by
  refine ⟨?_, ?_, ?_⟩
  · rw [enqueueOverflowDeferredFree]
    cases s.retiredOverflowPending firstPage <;> rfl
  · rw [enqueueOverflowDeferredFree]
    cases s.retiredOverflowPending firstPage <;> rfl
  · have hpage : (s.overflowEntry firstPage).page = firstPage := by
      rw [overflowEntry]
      cases s.retiredOverflowPending firstPage <;> rfl
    rw [enqueueOverflowDeferredFree_queue]
    refine ((pushEntry_perm _ _).map page).trans ?_
    rw [map_cons, hpage]

end AllocatorInner

namespace LifetimeState

def new (alloc : PageAllocator) : LifetimeState := ⟨.new alloc, .empty, [], []⟩

def handOver (s : LifetimeState) (e : PageLifetimeEntry) : HandOver :=
  ⟨e, s.inner.pageLifetimeCheckpointFence, s.inner.overflowRefcount e.page, s.registry.entries.map Prod.snd⟩

/-- the state after a drain that handed over some entries -/
def handedOver (s : LifetimeState) (inner : AllocatorInner) (handed : List PageLifetimeEntry) : LifetimeState :=
  { s with inner := inner, handed := s.handed ++ handed.map s.handOver }

/-- the entry an enqueue adds to the queue -/
def queues (s : LifetimeState) (e : PageLifetimeEntry) (inner : AllocatorInner) : LifetimeState :=
  { s with inner := inner, enqueued := s.enqueued ++ [e] }

def step (s : LifetimeState) : LifetimeOp → Option LifetimeState
  | .enqueueOverflow firstPage =>
    some (s.queues (s.inner.overflowEntry firstPage) (s.inner.enqueueOverflowDeferredFree firstPage))
  | .enqueueRetired page size readerFenceTs =>
    let kind : PageLifetimeKind :=
      match size with
      | .small4k => .retiredTree4k
      | .large32k => .retiredTree32k
    some (s.queues ⟨kind, page, s.inner.pageLifetimeCheckpointFence, readerFenceTs⟩
      (s.inner.enqueueRetiredTreePage page size readerFenceTs))
  | .advanceFence => some { s with inner.pageLifetimeCheckpointFence := s.inner.pageLifetimeCheckpointFence + 1 }
  | .drainFreeQueue io =>
    let (_, inner, handed) := s.inner.drainFreeQueue io
    some (s.handedOver inner handed)
  | .drainFreeQueueWithRetired io =>
    let (_, inner, handed) := s.inner.drainFreeQueueWithRetired s.registry io
    some (s.handedOver inner handed)
  | .drainDeferredFreePages =>
    let (inner, handed) := s.inner.drainDeferredFreePages
    some (s.handedOver inner handed)
  | .setRefcount page count =>
    some { s with inner.overflowRefcounts := Function.update s.inner.overflowRefcounts page count }
  | .notePending page readerFenceTs =>
    some { s with
      inner.retiredOverflowPending := Function.update s.inner.retiredOverflowPending page (some readerFenceTs) }
  | .register txnId readTs => some { s with registry := s.registry.insert txnId readTs }
  | .unregister txnId => some { s with registry := s.registry.erase txnId }
  | .installReaderFloor => some { s with inner.readerFloorInstalled := true }
  | .setFrozen frozen => some { s with inner.frozen := frozen }
  | .setAllocator alloc => some { s with inner.alloc := alloc }

/-- the entries handed over and those still queued -/
def account (s : LifetimeState) : List PageLifetimeEntry :=
  s.handed.map HandOver.entry ++ s.inner.pageLifetimeQueue.entries

/-- every free the call makes succeeds; a drain of a frozen allocator makes none -/
def DrainsAll (s : LifetimeState) : LifetimeOp → Prop
  | .drainFreeQueue io =>
    s.inner.frozen = true ∨ FreesSucceed s.inner.alloc io (s.inner.eligible.filter s.inner.releasable)
  | .drainFreeQueueWithRetired io => s.inner.frozen = true ∨
    FreesSucceed s.inner.alloc io ((s.inner.eligible ++ s.inner.eligibleRetired s.registry).filter s.inner.releasable)
  | _ => True

variable {s t : LifetimeState} {op : LifetimeOp}

theorem map_entry_handOver (s : LifetimeState) (l : List PageLifetimeEntry) :
    (l.map s.handOver).map HandOver.entry = l := by
  rw [map_map]
  exact map_id' _

variable {e : PageLifetimeEntry}

theorem refcount_of_releasable (hrel : s.inner.releasable e = true) (hk : e.kind ≠ .retiredTree4k) :
    s.inner.overflowRefcount e.page = 0 := by
  simpa [AllocatorInner.releasable, hk] using hrel

/-- an entry that the hot drain takes and that may be released is due -/
theorem due_of_eligible (hseg : s.inner.pageLifetimeQueue.Segmented) (he : e ∈ s.inner.eligible)
    (hrel : s.inner.releasable e = true) : (s.handOver e).Due := by
  obtain ⟨hmem, helig⟩ := mem_filter.1 he
  have hk := hseg.overflow e hmem
  exact ⟨of_decide_eq_true helig, refcount_of_releasable hrel, fun hne => absurd hk hne⟩

/-- What one call does: it queues `new`, hands over entries that are due, and loses `lost`. -/
structure Moves (s t : LifetimeState) (new lost : List PageLifetimeEntry) : Prop where
  queued : t.enqueued = s.enqueued ++ new
  account : (t.account ++ lost).Perm (s.account ++ new)
  due : ∀ r ∈ t.handed, r ∈ s.handed ∨ r.Due
  segmented : t.inner.pageLifetimeQueue.Segmented

/-- an enqueue moves nothing but its entry -/
theorem moves_queues (hseg : s.inner.pageLifetimeQueue.Segmented) {inner : AllocatorInner}
    (hq : inner.pageLifetimeQueue = s.inner.pageLifetimeQueue.pushEntry e) : Moves s (s.queues e inner) [e] [] where
  queued := rfl
  account := by
    simp only [account, queues, append_nil, hq]
    rw [append_assoc]
    exact ((pushEntry_perm _ e).trans (perm_append_singleton _ _).symm).append_left _
  due r hr := .inl hr
  segmented := by
    rw [queues, hq]
    exact hseg.pushEntry e

/-- a drain moves entries that are due out of the queue, and perhaps loses some -/
theorem moves_handedOver {inner : AllocatorInner} {handed lost : List PageLifetimeEntry}
    (hperm : (handed ++ inner.pageLifetimeQueue.entries ++ lost).Perm s.inner.pageLifetimeQueue.entries)
    (hdue : ∀ e ∈ handed, (s.handOver e).Due) (hseg : inner.pageLifetimeQueue.Segmented) :
    Moves s (s.handedOver inner handed) [] lost where
  queued := (append_nil _).symm
  account := by
    simp only [account, handedOver, append_nil, map_append, map_entry_handOver, append_assoc]
    rw [← append_assoc handed]
    exact hperm.append_left _
  due r hr := by
    rcases mem_append.1 hr with hr | hr
    · exact .inl hr
    · obtain ⟨e, he, rfl⟩ := mem_map.1 hr
      exact .inr (hdue e he)
  segmented := hseg

section

variable (hseg : s.inner.pageLifetimeQueue.Segmented)

include hseg

/-- both drains that free: nothing when frozen, and otherwise what the queue gives up -/
theorem moves_drained {entries handed : List PageLifetimeEntry} {q : PendingSegments} {io : List IoResult}
    {inner : AllocatorInner}
    {r : Except AllocError ℕ} (hq : (entries ++ q.entries).Perm s.inner.pageLifetimeQueue.entries) (hqseg : q.Segmented)
    (hdue : ∀ e ∈ entries, s.inner.releasable e = true → (s.handOver e).Due)
    (h : (if s.inner.frozen then (.error freezeViolationError, s.inner, [])
      else AllocatorInner.freeDrainedEntries { s.inner with pageLifetimeQueue := q } entries io) = (r, inner, handed)) :
    ∃ new lost, Moves s (s.handedOver inner handed) new lost ∧
      (lost = [] ↔ s.inner.frozen = true ∨ FreesSucceed s.inner.alloc io (entries.filter s.inner.releasable)) := by
  split_ifs at h with hfrozen
  · obtain ⟨-, rfl, rfl⟩ := Prod.mk.inj h |>.imp_right Prod.mk.inj
    exact ⟨[], [], moves_handedOver (by simp) (by simp) hseg, iff_of_true rfl (.inl hfrozen)⟩
  · obtain ⟨lost, hperm, hmem, hsegd, hlost⟩ := AllocatorInner.freeDrainedEntries_spec (by simpa using hfrozen) h
    have hall : ∀ e ∈ handed, (s.handOver e).Due := fun e he => hdue e (hmem e he).1 (hmem e he).2
    refine ⟨[], lost, moves_handedOver (hperm.trans hq) hall (hsegd hqseg), ?_⟩
    rw [hlost, or_iff_right hfrozen]
    rfl

/-- **Step.** Every call moves entries as `Moves` says, and loses none exactly when every free it makes succeeds. -/
theorem step_moves (h : s.step op = some t) : ∃ new lost, Moves s t new lost ∧ (lost = [] ↔ s.DrainsAll op) := by
  cases op with
  | enqueueOverflow firstPage =>
    cases h
    exact ⟨_, [], moves_queues hseg (AllocatorInner.enqueueOverflowDeferredFree_queue _ _), iff_of_true rfl trivial⟩
  | enqueueRetired page size readerFenceTs =>
    cases h
    exact ⟨_, [], moves_queues hseg rfl, iff_of_true rfl trivial⟩
  | drainFreeQueue io =>
    rcases hd : s.inner.drainFreeQueue io with ⟨r, inner, handed⟩
    rw [step, hd] at h
    cases h
    exact moves_drained hseg (takeEligible_perm _ _) (hseg.takeEligible _) (fun e => due_of_eligible hseg) hd
  | drainFreeQueueWithRetired io =>
    rcases hd : s.inner.drainFreeQueueWithRetired s.registry io with ⟨r, inner, handed⟩
    rw [step, hd] at h
    cases h
    refine moves_drained hseg ?_ ((hseg.takeEligible _).takeEligibleRetired _ _) (fun e htaken hrel => ?_) hd
    · rw [append_assoc]
      exact ((takeEligibleRetired_perm _ _ _).append_left _).trans (takeEligible_perm _ _)
    · rcases mem_append.1 htaken with helig | hret
      · exact due_of_eligible hseg helig hrel
      · -- the floor bounds every registered reader
        obtain ⟨helig, hfloor⟩ := Bool.and_eq_true_iff.1 (mem_filter.1 hret).2
        refine ⟨of_decide_eq_true helig, refcount_of_releasable hrel, fun _ readTs hr => ?_⟩
        rw [AllocatorInner.retiredPageReaderFloor] at hfloor
        split_ifs at hfloor
        · exact not_lt.2 ((of_decide_eq_true hfloor).trans (oldestRequiredTs_le hr))
        · cases hfloor
  | drainDeferredFreePages =>
    rcases hd : s.inner.drainDeferredFreePages with ⟨inner, handed⟩
    rw [step, hd] at h
    cases h
    obtain ⟨hperm, hmem, hsegd⟩ := AllocatorInner.drainDeferredFreePages_spec hd
    refine ⟨[], [], moves_handedOver ?_ (fun e he => ?_) (hsegd hseg), iff_of_true rfl trivial⟩
    · rwa [append_nil]
    · exact due_of_eligible hseg (hmem e he).1 (by simp [AllocatorInner.releasable, (hmem e he).2])
  | _ =>
    cases h
    exact ⟨[], [], ⟨(append_nil _).symm, .rfl, fun r hr => .inl hr, hseg⟩, iff_of_true rfl trivial⟩

/-- **Run.** Entries are conserved up to those lost on the way, and none is lost exactly when every drain frees all it
tries to. -/
theorem run_moves {ops : List LifetimeOp} {lost : List PageLifetimeEntry}
    (hdue : ∀ r ∈ s.handed, r.Due) (hs : (s.account ++ lost).Perm s.enqueued) (h : run step s ops = some t) :
    (∀ r ∈ t.handed, r.Due) ∧ ∃ lost', (t.account ++ lost').Perm t.enqueued ∧
      (lost' = [] ↔ lost = [] ∧ Along step DrainsAll s ops) := by
  induction ops generalizing s lost with
  | nil =>
    cases h
    exact ⟨hdue, lost, hs, by simp [Along]⟩
  | cons op ops ih =>
    obtain ⟨u, hu, hrun⟩ := run_cons_some h
    obtain ⟨new, gone, hmoves, hgone⟩ := step_moves hseg hu
    have hnext : (u.account ++ (gone ++ lost)).Perm u.enqueued := by
      calc List.Perm _ (s.account ++ new ++ lost) := by
            rw [← append_assoc]
            exact hmoves.account.append_right _
        List.Perm _ (s.account ++ lost ++ new) := by
            rw [append_assoc, append_assoc]
            exact perm_append_comm.append_left _
        List.Perm _ u.enqueued := by
            rw [hmoves.queued]
            exact hs.append_right _
    have hdue' : ∀ r ∈ u.handed, r.Due := fun r hr => (hmoves.due r hr).elim (hdue r) id
    obtain ⟨hall, lost', hperm, hlost⟩ := ih hmoves.segmented hdue' hnext hrun
    refine ⟨hall, lost', hperm, ?_⟩
    rw [hlost, append_eq_nil_iff, Along]
    simp only [hu, Option.mem_def, Option.some.injEq, forall_eq']
    tauto

end

/-- **Deferred frees are neither early nor doubled, and are lost only by a drain that meets a page it cannot free.**
Over every sequence of calls from a new allocator: whatever was handed over was due; the entries handed over or still
queued are, with multiplicity, among those queued (a page that was queued twice counts twice); and they are all of them
if and only if every free of every drain succeeds. -/
theorem deferred_frees_accounted {alloc : PageAllocator} {ops : List LifetimeOp}
    (h : run step (new alloc) ops = some t) :
    (∀ r ∈ t.handed, r.Due) ∧ t.account.Subperm t.enqueued ∧
      (t.account.Perm t.enqueued ↔ Along step DrainsAll (new alloc) ops) := by
  have hseg : (new alloc).inner.pageLifetimeQueue.Segmented :=
    ⟨by simp [new, AllocatorInner.new], by simp [new, AllocatorInner.new]⟩
  have hstart : ((new alloc).account ++ []).Perm (new alloc).enqueued := List.Perm.refl _
  obtain ⟨hdue, lost, hperm, hlost⟩ := run_moves hseg (by simp [new]) hstart h
  refine ⟨hdue, ((sublist_append_left _ _).subperm).trans hperm.subperm, ?_⟩
  rw [← and_iff_right_of_imp (fun _ => rfl : Along step DrainsAll (new alloc) ops → ([] : List PageLifetimeEntry) = []),
    ← hlost]
  constructor
  · intro hp
    have hlen := hp.length_eq.trans hperm.length_eq.symm
    rw [length_append] at hlen
    exact length_eq_zero_iff.1 (by omega)
  · rintro rfl
    rwa [append_nil] at hperm

/-- a file of ten pages with empty free lists -/
def tenPages : PageAllocator := ⟨{ FileHeader.new with totalPageCount := 10 }, fun _ => 0⟩

/-- an overflow page and a page of a dropped tree, both handed over by the checkpoint drain after the fence has moved -/
theorem deferred_frees_accounted_two_pages : ∃ t, run step (new tenPages) [.installReaderFloor, .enqueueOverflow 3,
    .enqueueRetired 4 .small4k ⟨5, 0⟩, .advanceFence, .drainFreeQueueWithRetired []] = some t ∧
    t.account.map PageLifetimeEntry.page = [3, 4] ∧ (∀ r ∈ t.handed, r.Due) ∧ t.account.Subperm t.enqueued ∧
      (t.account.Perm t.enqueued ↔ Along step DrainsAll (new tenPages) [.installReaderFloor, .enqueueOverflow 3,
        .enqueueRetired 4 .small4k ⟨5, 0⟩, .advanceFence, .drainFreeQueueWithRetired []]) := by
  have hpages : (run step (new tenPages) [.installReaderFloor, .enqueueOverflow 3, .enqueueRetired 4 .small4k ⟨5, 0⟩,
      .advanceFence, .drainFreeQueueWithRetired []]).map (fun t => t.account.map page) = some [3, 4] := by
    decide
  obtain ⟨t, hrun, ht⟩ := Option.map_eq_some_iff.1 hpages
  exact ⟨t, hrun, ht, deferred_frees_accounted hrun⟩

/-- **A failed free drops the rest.** Two overflow pages are queued and the fence moves on. The drain takes both, the
write into page 3 fails, and the drain returns: neither page was handed over, and the queue is empty. -/
theorem failed_free_drops_the_rest :
    ∃ t, run step (new tenPages) [.enqueueOverflow 3, .enqueueOverflow 4, .advanceFence,
    .drainFreeQueue [.failed fun _ => 0]] = some t ∧
    t.enqueued.map PageLifetimeEntry.page = [3, 4] ∧ t.handed.map HandOver.entry = [] ∧
      t.inner.pageLifetimeQueue = ⟨[], []⟩ := by
  have hend : (run step (new tenPages) [.enqueueOverflow 3, .enqueueOverflow 4, .advanceFence,
      .drainFreeQueue [.failed fun _ => 0]]).map (fun t => (t.enqueued.map page,
        t.handed.map HandOver.entry, t.inner.pageLifetimeQueue)) = some ([3, 4], [], ⟨[], []⟩) := by
    decide
  obtain ⟨t, hrun, ht⟩ := Option.map_eq_some_iff.1 hend
  simp only [Prod.mk.injEq] at ht
  exact ⟨t, hrun, ht⟩

end LifetimeState
end Mqlite.Storage
