/-
Any number of threads on one log manager (`journal/log_manager.rs`).

A thread is idle or inside one call. `reserve`, `mark_written` and `poison_slot` are one critical section each and one
step here. `write_reserved` is a step for each of its two critical sections and one for each positioned write between
them, which may be short or fail. `ensure_sync` is a step for each load, store, compare-exchange, critical section and
for the start and the end of its fsync. Steps of all threads interleave in any order; a thread may call with any slot
`reserve` has returned.
-/
import Mqlite.Lib.Machine
import Mqlite.Lib.Run
import Mqlite.Journal.LogManager

namespace Mqlite.Journal

open Lib List Option OrdMap

abbrev Byte := Fin 256

/-! ## The file -/

abbrev LogFile := ℕ → Byte

/-- a positioned write -/
def writeAt (file : LogFile) (offset : ℕ) (data : List Byte) : LogFile :=
  fun p => if offset ≤ p then (data[p - offset]?).getD (file p) else file p

/-- the bytes stand in the file at the offset -/
def Holds (file : LogFile) (offset : ℕ) (bytes : List Byte) : Prop := ∀ j x, bytes[j]? = some x → file (offset + j) = x

theorem holds_nil (file : LogFile) (offset : ℕ) : Holds file offset [] := by
  intro j x hx
  cases hx

/-- a positioned write keeps what stands before it and behind it -/
theorem Holds.frame {file : LogFile} {a offset : ℕ} {bytes data : List Byte} (h : Holds file a bytes)
    (happart : a + bytes.length ≤ offset ∨ offset + data.length ≤ a) : Holds (writeAt file offset data) a bytes := by
  intro j x hx
  have hj := (List.getElem?_eq_some_iff.1 hx).1
  rw [writeAt, ← h j x hx]
  split_ifs with hle
  · rw [getElem?_eq_none (by omega), getD_none]
  · rfl

/-- writing the next n bytes of a record behind the first ones -/
theorem Holds.extend {file : LogFile} {a : ℕ} {bytes : List Byte} {done : ℕ}
    (h : Holds file a (bytes.take done)) (n : ℕ) :
    Holds (writeAt file (a + done) ((bytes.drop done).take n)) a (bytes.take (done + n)) := by
  intro j x hx
  obtain ⟨hj, hx⟩ : j < done + n ∧ bytes[j]? = some x := by simpa [getElem?_take] using hx
  rw [writeAt]
  by_cases hlt : j < done
  · rw [if_neg (by omega)]
    exact h j x (by simpa [getElem?_take, hlt] using hx)
  · have hsub : a + j - (a + done) = j - done := by omega
    have hadd : done + (j - done) = j := by omega
    rw [if_pos (by omega), hsub, getElem?_take, if_pos (by omega), getElem?_drop, hadd, hx, getD_some]

/-! ## Threads -/

structure LogWrite where
  slot : LogSlot
  bytes : List Byte
deriving DecidableEq

/-- what an fsync finds when it begins: the file, and the records written so far -/
structure FsyncBegin where
  file : LogFile
  written : List LogWrite

/-- where a thread stands. `target` is the argument of `ensure_sync`, `syncTarget` the frontier its leader has
closed. -/
inductive Pc where
  | idle
  -- `write_reserved`: the first `done` bytes are in the file; or the write has failed and the slot is not yet poisoned
  | writing (write : LogWrite) (done : ℕ)
  | writeFailed (slot : LogSlot)
  -- `ensure_sync`
  | waitReady (target : ℕ)
  | checkDurable (target : ℕ)
  | checkPoisoned (target : ℕ)
  | elect (target : ℕ)
  | follow (target : ℕ)
  | close (target : ℕ)
  | abort
  | beginSync (target syncTarget : ℕ)
  | inSync (target syncTarget : ℕ) (began : FsyncBegin)
  | syncFailed
  | loadReady (target syncTarget : ℕ) (began : FsyncBegin)
  | storeDurable (target durableTarget : ℕ) (began : FsyncBegin)
  | release (target : ℕ)

/-- the manager, the file and the threads; and the record of what has happened: the slots `reserve` returned (oldest
first), the calls of `write_reserved` that returned Ok, the fsyncs that did, and the targets with which `ensure_sync`
did -/
structure LogState where
  log : LogManager
  file : LogFile
  threads : ℕ → Pc
  issued : List LogSlot
  written : List LogWrite
  synced : List FsyncBegin
  returned : List ℕ

inductive LogMove where
  | reserve (bytesLen : ℕ)
  | writeReserved (write : LogWrite)
  -- one positioned write: n bytes reach the file, and the call returns Ok(n) or an error
  | writeAt (n : ℕ) (ok : Bool)
  | finishWrite
  | markWritten (slot : LogSlot)
  | poisonSlot (slot : LogSlot)
  | ensureSync (target : ℕ)
  -- `sync_data` returns
  | fsyncReturns (ok : Bool)
  -- the next step of the call the thread is in
  | next
deriving DecidableEq

namespace LogState

def new (initialLsn : ℕ) (file : LogFile) : LogState := ⟨.new initialLsn, file, fun _ => .idle, [], [], [], []⟩

def goto (s : LogState) (i : ℕ) (pc : Pc) : LogState := { s with threads := Function.update s.threads i pc }

def poison (s : LogState) (reason : EngineFatalReason) (slot : Option LogSlot) : LogState :=
  { s with log := s.log.poisonLocked reason slot }

/-- the next step of a call; `none` where the thread waits for the world or is not in a call -/
def next (s : LogState) (i : ℕ) : Pc → Option LogState
  | .writeFailed slot => some ((s.poison .postReservationLogWriteFailure (some slot)).goto i .idle)
  | .waitReady target =>
    if s.log.poisoned.isSome then some (s.goto i .idle)
    else if target ≤ s.log.readyLsn then some (s.goto i (.checkDurable target))
    else some s
  | .checkDurable target =>
    if target ≤ s.log.durableLsn then some { s.goto i .idle with returned := target :: s.returned }
    else some (s.goto i (.checkPoisoned target))
  | .checkPoisoned target => if s.log.poisoned.isSome then some (s.goto i .idle) else some (s.goto i (.elect target))
  | .elect target =>
    if s.log.syncInProgress then some (s.goto i (.follow target))
    else some { s.goto i (.close target) with log.syncInProgress := true }
  | .follow target =>
    if s.log.durableLsn < target ∧ s.log.syncInProgress then
      if s.log.poisoned.isSome then some (s.goto i .idle) else some s
    else some (s.goto i (.checkDurable target))
  | .close target =>
    if s.log.poisoned.isSome then some (s.goto i .abort) else some (s.goto i (.beginSync target s.log.readyLsn))
  | .abort => some { s.goto i .idle with log.syncInProgress := false }
  | .beginSync target syncTarget => some (s.goto i (.inSync target syncTarget ⟨s.file, s.written⟩))
  | .syncFailed => some ((s.poison .postDurablePublishFailure none).goto i .idle)
  | .loadReady target syncTarget began => some (s.goto i (.storeDurable target (min syncTarget s.log.readyLsn) began))
  | .storeDurable target durableTarget _ => some { s.goto i (.release target) with log.durableLsn := durableTarget }
  | .release target => some { s.goto i (.checkDurable target) with log.syncInProgress := false }
  | _ => none

/-- one positioned write of a call in flight -/
def positionedWrite (s : LogState) (i : ℕ) (write : LogWrite) (done n : ℕ) (ok : Bool) : Option LogState :=
  if done < write.bytes.length ∧ n ≤ write.bytes.length - done then
    let offset := write.slot.startLsn + done
    let wrote := { s with file := Journal.writeAt s.file offset ((write.bytes.drop done).take n) }
    -- no progress, or the next offset overflows, is an error too
    if ok ∧ n ≠ 0 ∧ offset + n < 2 ^ 64 then some (wrote.goto i (.writing write (done + n)))
    else some (wrote.goto i (.writeFailed write.slot))
  else none

/-- one step of one thread -/
def stepThread (s : LogState) (i : ℕ) (move : LogMove) : Option LogState :=
  match s.threads i, move with
  | .idle, .reserve bytesLen =>
    match s.log.reserve bytesLen with
    | (.error _, log) => some { s with log }
    | (.ok slot, log) => some { s with log, issued := s.issued ++ [slot] }
  | .idle, .writeReserved write =>
    if write.slot ∈ s.issued then
      match s.log.beginWrite write.slot write.bytes.length with
      | (.error _, log) => some { s with log }
      | (.ok (), log) => some { s.goto i (.writing write 0) with log }
    else none
  | .writing write done, .writeAt n ok => s.positionedWrite i write done n ok
  | .writing write done, .finishWrite =>
    if done = write.bytes.length then
      match s.log.endWrite write.slot with
      | (.error _, log) => some { s.goto i .idle with log }
      | (.ok (), log) => some { s.goto i .idle with log, written := write :: s.written }
    else none
  | .idle, .markWritten slot => if slot ∈ s.issued then some { s with log := (s.log.markWritten slot).2 } else none
  | .idle, .poisonSlot slot => if slot ∈ s.issued then some { s with log := s.log.poisonSlot slot } else none
  | .idle, .ensureSync target => some (s.goto i (.waitReady target))
  | .inSync target syncTarget began, .fsyncReturns ok =>
    if ok then some { s.goto i (.loadReady target syncTarget began) with synced := began :: s.synced }
    else some (s.goto i .syncFailed)
  | pc, .next => s.next i pc
  | _, _ => none

def step (s : LogState) (a : ℕ × LogMove) : Option LogState := s.stepThread a.1 a.2

end LogState

end Mqlite.Journal
