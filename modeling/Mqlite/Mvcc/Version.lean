/-
Version chains and what a read view sees of them (`mvcc/version.rs`, `mvcc/chain_snapshot.rs`, `mvcc/read_view.rs`).

A key's chain holds its versions, newest first. An entry is current over the half-open interval [start_ts, stop_ts); it
is Pending until its transaction commits, then Committed, or Aborted. A view reads at `read_ts`. It sees a Committed
entry whose interval holds `read_ts`, a Pending entry of its own transaction, and a Pending entry of another transaction
only once the publish frontier has passed the entry's start. An Aborted entry is never seen.

A view is `Coherent` with a frontier when its `read_ts` is not above it: `load_published_coherent` opens views no other
way, and the frontier only grows.
-/
import Mqlite.Mvcc.Timestamp
import Mathlib.Data.List.Lex
import Mqlite.Lib.Machine

namespace Mqlite.Mvcc

open List

abbrev Byte := Fin 256
abbrev Bytes := List Byte
abbrev Key := Bytes
abbrev TxnId := ℕ

instance lawfulBEq_bytes : LawfulBEq Bytes := inferInstance

/-! ## Versions -/

/-- payload of a version: inline bytes, or an overflow chain -/
inductive VersionData where
  | inline (bytes : Bytes)
  | overflow (firstPage totalLength : ℕ)
deriving DecidableEq, Repr

inductive VersionState where
  | pending (txnId : TxnId)
  | committed
  | aborted
deriving DecidableEq, Repr

structure VersionEntry where
  startTs : Ts
  stopTs : Ts
  txnId : TxnId
  state : VersionState
  data : VersionData
  isTombstone : Bool
deriving DecidableEq, Repr

/-- a key's versions, newest first -/
abbrev Chain := List VersionEntry

namespace VersionEntry

/-- not Aborted: the entry is still part of the key's history -/
def isLive (e : VersionEntry) : Bool := e.state ≠ .aborted

/-- the live head test: not superseded and not Aborted -/
def isLiveHead (e : VersionEntry) : Bool := e.stopTs = Ts.MAX ∧ e.state ≠ .aborted

def isPendingOf (t : TxnId) (e : VersionEntry) : Bool := e.state = .pending t

variable {e : VersionEntry}

@[simp] theorem isLive_iff : e.isLive = true ↔ e.state ≠ .aborted := by simp [isLive]

@[simp] theorem isLiveHead_iff : e.isLiveHead = true ↔ e.stopTs = Ts.MAX ∧ e.state ≠ .aborted := by
  simp [isLiveHead]

@[simp] theorem isPendingOf_iff {t : TxnId} : e.isPendingOf t = true ↔ e.state = .pending t := by
  simp [isPendingOf]

end VersionEntry

/-! ## Read views -/

/-- a read view: the timestamp it reads at and the transaction identifier it was opened under -/
structure ReadView where
  readTs : Ts
  txnId : TxnId
deriving DecidableEq, Repr

/-- the view was opened at a published timestamp, so the frontier has reached it -/
def ReadView.Coherent (frontier : Ts) (view : ReadView) : Prop := view.readTs ≤ frontier

/-- MVCC visibility of one entry; `frontier` is the sequencer frontier at the moment of the lookup -/
def versionVisibleTo (frontier : Ts) (view : ReadView) (e : VersionEntry) : Bool :=
  match e.state with
  | .pending t =>
    if t = view.txnId then true
    else e.startTs ≤ view.readTs ∧ view.readTs < e.stopTs ∧ e.startTs ≤ frontier
  | .committed => e.startTs ≤ view.readTs ∧ view.readTs < e.stopTs
  | .aborted => false

/-- the entry a view reads: the first visible one -/
def visibleAt (frontier : Ts) (view : ReadView) (c : Chain) : Option VersionEntry :=
  c.find? (versionVisibleTo frontier view)

/-- whether the history store may hold the version a view should read: the chain has only entries above `read_ts`, or
Pending ones -/
def historyIsCandidate (readTs : Ts) (c : Chain) : Bool :=
  c.all fun e => e.startTs > readTs ∨ e.state matches .pending _

/-! ## The live part of a chain -/

/-- the entries that are not Aborted, newest first -/
def live (c : Chain) : Chain := c.filter VersionEntry.isLive

@[simp] theorem live_nil : live [] = [] := rfl

variable {e : VersionEntry} {c : Chain}

theorem live_cons_of_live (h : e.state ≠ .aborted) : live (e :: c) = e :: live c :=
  filter_cons_of_pos (VersionEntry.isLive_iff.2 h)

theorem live_cons_of_aborted (h : e.state = .aborted) : live (e :: c) = live c :=
  filter_cons_of_neg (by simp [h])

theorem mem_live : e ∈ live c ↔ e ∈ c ∧ e.state ≠ .aborted := by
  simp [live]

theorem live_of_visible {frontier : Ts} {view : ReadView} (h : versionVisibleTo frontier view e = true) :
    e.state ≠ .aborted := by
  intro he
  simp [versionVisibleTo, he] at h

/-- Aborted entries never decide a lookup -/
theorem visibleAt_live (frontier : Ts) (view : ReadView) (c : Chain) :
    visibleAt frontier view (live c) = visibleAt frontier view c := by
  induction c with
  | nil => rfl
  | cons e c ih =>
    by_cases he : e.state = .aborted
    · have hv : ¬ versionVisibleTo frontier view e = true := fun h => live_of_visible h he
      rw [live_cons_of_aborted he, ih, visibleAt, visibleAt, find?_cons_of_neg hv]
    · rw [live_cons_of_live he]
      unfold visibleAt at ih ⊢
      rw [find?_cons, find?_cons, ih]

end Mqlite.Mvcc
