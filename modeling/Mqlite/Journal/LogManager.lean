/-
The byte-LSN log manager (`journal/log_manager.rs`): its state, and what each critical section does to it.

A record's LSN is its offset in the journal file. `reserve` hands out the next byte range, `write_reserved` writes the
record there, `mark_written` accepts it and moves the ready frontier over every accepted record that follows without a
gap. Each function here is what the source does between taking the `slots` mutex and releasing it; `write_reserved`
takes it twice, around the positioned write, and is two functions.

`*_cases`: everything a critical section can do. Later proofs use these and never unfold the functions.
-/
import Mqlite.Lib.OrdMap

namespace Mqlite.Journal

open Lib

/-! ## Data -/

/-- the byte range reserved for one record -/
structure LogSlot where
  startLsn : ℕ
  endLsn : ℕ
  bytesLen : ℕ
deriving DecidableEq, Repr

structure LogWriteReceipt where
  endLsn : ℕ
  readyLsn : ℕ
deriving DecidableEq, Repr

inductive LogSlotState where
  | reserved (endLsn : ℕ)
  | writing (endLsn : ℕ)
  | writeComplete (endLsn : ℕ)
  | written (endLsn : ℕ)
  | poisoned (endLsn : ℕ)
deriving DecidableEq, Repr

def LogSlotState.endLsn : LogSlotState → ℕ
  | .reserved e | .writing e | .writeComplete e | .written e | .poisoned e => e

inductive EngineFatalReason where
  | postReservationLogWriteFailure
  | postDurablePublishFailure
deriving DecidableEq, Repr

inductive LogError where
  | internal (text : String)
  | engineFatal (reason : EngineFatalReason)
deriving DecidableEq, Repr

/-- the three frontiers, the slot map with its poison mark, and the flag of the fsync leader -/
structure LogManager where
  nextLsn : ℕ
  readyLsn : ℕ
  durableLsn : ℕ
  slots : OrdMap ℕ LogSlotState
  poisoned : Option EngineFatalReason
  syncInProgress : Bool

namespace LogManager

/-! ## Critical sections -/

def new (initialLsn : ℕ) : LogManager := ⟨initialLsn, initialLsn, initialLsn, OrdMap.empty, none, false⟩

def badSlotState (slot : LogSlot) : LogError :=
  .internal ("log slot [" ++ toString slot.startLsn ++ ", " ++ toString slot.endLsn ++ ") is not in the expected state")

def setSlot (m : LogManager) (slot : LogSlot) (state : LogSlotState) : LogManager :=
  { m with slots := m.slots.insert slot.startLsn state }

/-- the first reason stays; the leader's flag is dropped whoever the leader is -/
def poisonLocked (m : LogManager) (reason : EngineFatalReason) (slot : Option LogSlot) : LogManager :=
  let marked := match slot with
    | none => m
    | some slot => m.setSlot slot (.poisoned slot.endLsn)
  { marked with poisoned := some (m.poisoned.getD reason), syncInProgress := false }

def poisonSlot (m : LogManager) (slot : LogSlot) : LogManager :=
  m.poisonLocked .postReservationLogWriteFailure (some slot)

/-- the error of `poison_bad_slot_state_locked`, and the manager it leaves -/
def poisonBadSlotState {α : Type} (m : LogManager) (slot : LogSlot) : Except LogError α × LogManager :=
  (.error (.engineFatal .postReservationLogWriteFailure), m.poisonSlot slot)

def reserve (m : LogManager) (bytesLen : ℕ) : Except LogError LogSlot × LogManager :=
  if bytesLen = 0 then (.error (.internal "log reservation length must be non-zero"), m)
  else if 2 ^ 64 ≤ bytesLen then (.error (.internal "log reservation length overflows u64"), m)
  else match m.poisoned with
    | some reason => (.error (.engineFatal reason), m)
    | none =>
      if 2 ^ 64 ≤ m.nextLsn + bytesLen then (.error (.internal "log reservation LSN overflow"), m)
      else
        let slot : LogSlot := ⟨m.nextLsn, m.nextLsn + bytesLen, bytesLen⟩
        let reserved := m.setSlot slot (.reserved slot.endLsn)
        -- the old entry is already overwritten when it is found
        if (m.slots.get? slot.startLsn).isSome then
          (.error (.internal ("duplicate log slot reservation at LSN " ++ toString slot.startLsn)), reserved)
        else (.ok slot, { reserved with nextLsn := slot.endLsn })

/-- the slot's state, if the slot is known -/
def slotState (m : LogManager) (slot : LogSlot) : Except LogError LogSlotState :=
  match m.slots.get? slot.startLsn with
  | none => .error (badSlotState slot)
  | some state => if state.endLsn = slot.endLsn then .ok state else .error (badSlotState slot)

/-- `write_reserved` up to the positioned write; a record of another length poisons the slot before the mutex is
taken -/
def beginWrite (m : LogManager) (slot : LogSlot) (bytesLen : ℕ) : Except LogError Unit × LogManager :=
  if bytesLen ≠ slot.bytesLen then m.poisonBadSlotState slot
  else match m.poisoned with
    | some reason => (.error (.engineFatal reason), m)
    | none => match m.slotState slot with
      | .error e => (.error e, m)
      | .ok (.reserved _) => (.ok (), m.setSlot slot (.writing slot.endLsn))
      | .ok _ => m.poisonBadSlotState slot

/-- `write_reserved` after the positioned write -/
def endWrite (m : LogManager) (slot : LogSlot) : Except LogError Unit × LogManager :=
  match m.poisoned with
  | some reason => (.error (.engineFatal reason), m)
  | none => match m.slotState slot with
    | .error e => (.error e, m)
    | .ok (.writing _) => (.ok (), m.setSlot slot (.writeComplete slot.endLsn))
    | .ok (.poisoned _) => (.error (.engineFatal .postReservationLogWriteFailure), m)
    | .ok _ => m.poisonBadSlotState slot

/-- the loop of `mark_written`: take out the written slot at the frontier and move the frontier to its end -/
def advanceReady : ℕ → OrdMap ℕ LogSlotState → ℕ → OrdMap ℕ LogSlotState × ℕ
  | 0, slots, ready => (slots, ready)
  | fuel + 1, slots, ready =>
    match slots.get? ready with
    | some (.written endLsn) => advanceReady fuel (slots.erase ready) endLsn
    | _ => (slots, ready)

def markWritten (m : LogManager) (slot : LogSlot) : Except LogError LogWriteReceipt × LogManager :=
  match m.poisoned with
  | some reason => (.error (.engineFatal reason), m)
  | none => match m.slotState slot with
    | .error e => (.error e, m)
    | .ok (.writeComplete _) =>
      let marked := m.setSlot slot (.written slot.endLsn)
      let (slots, ready) := advanceReady marked.slots.entries.length marked.slots m.readyLsn
      (.ok ⟨slot.endLsn, ready⟩, { marked with slots, readyLsn := ready })
    | .ok _ => m.poisonBadSlotState slot

/-! ## What a critical section can do -/

variable {m : LogManager} {slot : LogSlot}

theorem slotState_ok {state : LogSlotState} (h : m.slotState slot = .ok state) :
    m.slots.get? slot.startLsn = some state ∧ state.endLsn = slot.endLsn := by
  rw [slotState] at h
  cases hget : m.slots.get? slot.startLsn with
  | none => rw [hget] at h; cases h
  | some state' =>
    rw [hget] at h
    simp only at h
    split_ifs at h with he
    cases h
    exact ⟨rfl, he⟩

theorem reserve_cases (m : LogManager) (bytesLen : ℕ) : (∃ e, m.reserve bytesLen = (.error e, m)) ∨
    (m.slots.get? m.nextLsn ≠ none ∧ ∃ e m', m.reserve bytesLen = (.error e, m')) ∨
    (m.poisoned = none ∧ 0 < bytesLen ∧ m.reserve bytesLen = (.ok ⟨m.nextLsn, m.nextLsn + bytesLen, bytesLen⟩, { m with
        nextLsn := m.nextLsn + bytesLen
        slots := m.slots.insert m.nextLsn (.reserved (m.nextLsn + bytesLen)) })) := by
  rw [reserve]
  by_cases h0 : bytesLen = 0
  · exact .inl ⟨_, if_pos h0⟩
  rw [if_neg h0]
  by_cases hlen : 2 ^ 64 ≤ bytesLen
  · exact .inl ⟨_, if_pos hlen⟩
  rw [if_neg hlen]
  cases hp : m.poisoned with
  | some reason => exact .inl ⟨_, rfl⟩
  | none =>
    dsimp only
    by_cases hsum : 2 ^ 64 ≤ m.nextLsn + bytesLen
    · exact .inl ⟨_, if_pos hsum⟩
    rw [if_neg hsum]
    cases hget : m.slots.get? m.nextLsn with
    | some state => exact .inr (.inl ⟨by simp, _, _, rfl⟩)
    | none => exact .inr (.inr ⟨rfl, Nat.pos_of_ne_zero h0, by simp [setSlot, hp]⟩)

theorem beginWrite_cases (m : LogManager) (slot : LogSlot) (bytesLen : ℕ) :
    (∃ e, m.beginWrite slot bytesLen = (.error e, m)) ∨
    (∃ e, m.beginWrite slot bytesLen = (.error e, m.poisonSlot slot)) ∨
    (bytesLen = slot.bytesLen ∧ m.poisoned = none ∧ m.slots.get? slot.startLsn = some (.reserved slot.endLsn) ∧
      m.beginWrite slot bytesLen = (.ok (), m.setSlot slot (.writing slot.endLsn))) := by
  rw [beginWrite]
  by_cases hlen : bytesLen = slot.bytesLen
  · rw [if_neg (not_not_intro hlen)]
    cases hp : m.poisoned with
    | some reason => exact .inl ⟨_, rfl⟩
    | none =>
      cases hs : m.slotState slot with
      | error e => exact .inl ⟨_, rfl⟩
      | ok state =>
        obtain ⟨hget, he⟩ := slotState_ok hs
        cases state with
        | reserved e =>
          cases he
          exact .inr (.inr ⟨hlen, rfl, hget, rfl⟩)
        | writing e | writeComplete e | written e | poisoned e => exact .inr (.inl ⟨_, rfl⟩)
  · exact .inr (.inl ⟨_, if_pos hlen⟩)

theorem endWrite_cases (m : LogManager) (slot : LogSlot) :
    (∃ e, m.endWrite slot = (.error e, m)) ∨ (∃ e, m.endWrite slot = (.error e, m.poisonSlot slot)) ∨
    (m.poisoned = none ∧ m.slots.get? slot.startLsn = some (.writing slot.endLsn) ∧
      m.endWrite slot = (.ok (), m.setSlot slot (.writeComplete slot.endLsn))) := by
  rw [endWrite]
  cases hp : m.poisoned with
  | some reason => exact .inl ⟨_, rfl⟩
  | none =>
    cases hs : m.slotState slot with
    | error e => exact .inl ⟨_, rfl⟩
    | ok state =>
      obtain ⟨hget, he⟩ := slotState_ok hs
      cases state with
      | writing e =>
        cases he
        exact .inr (.inr ⟨rfl, hget, rfl⟩)
      | poisoned e => exact .inl ⟨_, rfl⟩
      | reserved e | writeComplete e | written e => exact .inr (.inl ⟨_, rfl⟩)

theorem markWritten_cases (m : LogManager) (slot : LogSlot) :
    (∃ e, m.markWritten slot = (.error e, m)) ∨ (∃ e, m.markWritten slot = (.error e, m.poisonSlot slot)) ∨
    (m.poisoned = none ∧ m.slots.get? slot.startLsn = some (.writeComplete slot.endLsn) ∧
      ∃ slots ready, advanceReady (m.setSlot slot (.written slot.endLsn)).slots.entries.length
        (m.setSlot slot (.written slot.endLsn)).slots m.readyLsn = (slots, ready) ∧
        m.markWritten slot = (.ok ⟨slot.endLsn, ready⟩, { m with slots, readyLsn := ready })) := by
  rw [markWritten]
  cases hp : m.poisoned with
  | some reason => exact .inl ⟨_, rfl⟩
  | none =>
    cases hs : m.slotState slot with
    | error e => exact .inl ⟨_, rfl⟩
    | ok state =>
      obtain ⟨hget, he⟩ := slotState_ok hs
      cases state with
      | writeComplete e =>
        cases he
        exact .inr (.inr ⟨rfl, hget, _, _, rfl, by simp only [setSlot, hp]⟩)
      | poisoned e | reserved e | writing e | written e => exact .inr (.inl ⟨_, rfl⟩)

/-! ## The loop of `mark_written` -/

/-- **Frontier rule.** What is kept by taking out the written slot at the frontier holds after the loop. -/
theorem advanceReady_rule {P : OrdMap ℕ LogSlotState → ℕ → Prop}
    (hstep : ∀ slots ready e, P slots ready → slots.get? ready = some (.written e) → P (slots.erase ready) e)
    (fuel : ℕ) {slots : OrdMap ℕ LogSlotState} {ready : ℕ} (h : P slots ready) :
    P (advanceReady fuel slots ready).1 (advanceReady fuel slots ready).2 := by
  induction fuel generalizing slots ready with
  | zero => exact h
  | succ fuel ih =>
    rw [advanceReady]
    split
    · next e hget => exact ih (hstep slots ready e h hget)
    · exact h

end LogManager

end Mqlite.Journal
