/-
The publish sequencer (`storage/paged_engine/publish_sequencer.rs`).

A writer registers and gets a dense slot number together with a commit timestamp. Later it marks the slot Ready, with
the closure that publishes its epoch, or Aborted. The window moves over the slots in order: it publishes a Ready slot,
skips an Aborted one and stops at a Pending one.

Every operation holds the sequencer's mutex from its poison check to its last write, so it is one step here. Only the
wait inside `mark_ready` gives the mutex up: each time it wakes it runs the window loop again, as one more step.

A publish closure runs at most once. `ready true` is a slot whose closure will return Ok when it runs, `ready false` one
whose closure will return an error.

- `advance_rule`: the rule of the window loop, from what publishing or skipping the next slot keeps to what the loop
  does.
-/
import Mqlite.Lib.OrdMap
import Mqlite.Mvcc.Timestamp

namespace Mqlite.Publish

open Lib Mvcc

/-! ## Data -/

inductive PublishSlotState where
  | pending
  | ready (publish : Bool)
  | aborted
deriving DecidableEq, Repr

structure PublishSlot where
  commitTs : Ts
  state : PublishSlotState
deriving DecidableEq, Repr

/-- the mutex-protected window, and the frontier readers load without the mutex -/
structure PublishSequencer where
  nextSeq : ℕ
  lastPublished : ℕ
  pending : OrdMap ℕ PublishSlot
  poisoned : Bool
  publishedFrontier : Ts
deriving DecidableEq

inductive SeqError where
  | engineFatal
  | timestampExhausted
  | seqOverflow
  | slotMissing
  | publishFailed
deriving DecidableEq, Repr

/-- what a window loop leaves: the sequencer, the publications so far (newest first), and the loop's result -/
structure Advance where
  seqr : PublishSequencer
  published : List (ℕ × Ts)
  result : Except SeqError Unit

namespace PublishSequencer

/-! ## Operations -/

def newInner (initialFrontier : Ts) (nextSeq : ℕ) : PublishSequencer :=
  ⟨nextSeq, nextSeq - 1, OrdMap.empty, false, initialFrontier⟩

/-- `last_published.saturating_add(1)` on 64 bits -/
def next (g : PublishSequencer) : ℕ := min (g.lastPublished + 1) (2 ^ 64 - 1)

/-- allocate a slot and a commit timestamp. The new state of the oracle comes last: a timestamp is used up even when the
slot counter overflows. -/
def registerWithOracle (g : PublishSequencer) (oracle : Ts) (wall : UInt64) :
    Except SeqError (ℕ × Ts) × PublishSequencer × Ts :=
  if g.poisoned then (.error .engineFatal, g, oracle)
  else match TimestampOracle.commit wall oracle with
    | none => (.error .timestampExhausted, g, oracle)
    | some commitTs =>
      if g.nextSeq + 1 < 2 ^ 64 then
        (.ok (g.nextSeq, commitTs),
          { g with nextSeq := g.nextSeq + 1, pending := g.pending.insert g.nextSeq ⟨commitTs, .pending⟩ }, commitTs)
      else (.error .seqOverflow, g, commitTs)

/-- the slot's closure has run: its epoch is the published one -/
def publish (g : PublishSequencer) (k : ℕ) (ts : Ts) : PublishSequencer :=
  { g with pending := g.pending.erase k, publishedFrontier := ts, lastPublished := k }

/-- the slot is aborted: the window moves past it -/
def skip (g : PublishSequencer) (k : ℕ) : PublishSequencer :=
  { g with pending := g.pending.erase k, lastPublished := k }

/-- the loop of `advance_window_locked` over the slots that are left, first key first -/
def advanceLoop : List (ℕ × PublishSlot) → PublishSequencer → List (ℕ × Ts) → Advance
  | [], g, published => ⟨g, published, .ok ()⟩
  | (k, slot) :: l, g, published =>
    if k ≠ g.next then ⟨g, published, .ok ()⟩
    else match slot.state with
      -- taken out and put back
      | .pending => ⟨g, published, .ok ()⟩
      | .ready true => advanceLoop l (g.publish k slot.commitTs) ((k, slot.commitTs) :: published)
      -- the error is returned with the slot taken out and the window where it was
      | .ready false => ⟨{ g with pending := g.pending.erase k }, published, .error .publishFailed⟩
      | .aborted => advanceLoop l (g.skip k) published

def advanceWindowLocked (g : PublishSequencer) (published : List (ℕ × Ts)) : Advance :=
  if g.poisoned then ⟨g, published, .error .engineFatal⟩ else advanceLoop g.pending.entries g published

/-- set the state of a slot, if the slot is there -/
def setState (g : PublishSequencer) (seq : ℕ) (state : PublishSlotState) : PublishSequencer :=
  { g with pending := g.pending.modify seq fun slot => { slot with state } }

/-- `mark_aborted`, and `mark_aborted_from_drop` for a guard dropped before it was completed -/
def markAborted (g : PublishSequencer) (seq : ℕ) (published : List (ℕ × Ts)) : Advance :=
  if g.poisoned then ⟨g, published, .error .engineFatal⟩ else (g.setState seq .aborted).advanceWindowLocked published

/-- `mark_ready` up to its first wait -/
def markReady (g : PublishSequencer) (seq : ℕ) (publish : Bool) (published : List (ℕ × Ts)) : Advance :=
  if g.poisoned then ⟨g, published, .error .engineFatal⟩
  else match g.pending.get? seq with
    -- the guard is still armed when the error drops it
    | none => { g.markAborted seq published with result := .error .slotMissing }
    | some _ => (g.setState seq (.ready publish)).advanceWindowLocked published

def poison (g : PublishSequencer) : PublishSequencer := { g with poisoned := true }

/-- a registered timestamp is new -/
theorem register_gt {g : PublishSequencer} {oracle : Ts} {wall : UInt64} {slot : ℕ × Ts}
    (h : (g.registerWithOracle oracle wall).1 = .ok slot) : oracle < slot.2 := by
  unfold registerWithOracle at h
  by_cases hp : g.poisoned = true
  · rw [if_pos hp] at h; cases h
  · rw [if_neg hp] at h
    cases hc : TimestampOracle.commit wall oracle with
    | none => rw [hc] at h; cases h
    | some ts =>
      rw [hc] at h
      simp only at h
      by_cases hn : g.nextSeq + 1 < 2 ^ 64
      · rw [if_pos hn] at h; cases h; exact TimestampOracle.commit_gt hc
      · rw [if_neg hn] at h; cases h

/-! ## The window loop -/

/-- the window cannot move: the first slot is not the next one, or still Pending -/
def Halted (g : PublishSequencer) : Prop := ∀ p ∈ g.pending.entries.head?, p.1 = g.next → p.2.state = .pending

/-- **Window rule.** Let P be kept by publishing and by skipping the slot that is next. Then after the loop P holds:
where the loop halted, or, if a closure failed, before the failing slot was taken out. -/
theorem advance_rule {P : PublishSequencer → List (ℕ × Ts) → Prop}
    (hpublish : ∀ g out k ts, P g out → g.pending.get? k = some ⟨ts, .ready true⟩ → k = g.next →
      P (g.publish k ts) ((k, ts) :: out))
    (hskip : ∀ g out k ts, P g out → g.pending.get? k = some ⟨ts, .aborted⟩ → k = g.next → P (g.skip k) out)
    (g : PublishSequencer) (out : List (ℕ × Ts)) (h : P g out) :
    let r := g.advanceWindowLocked out
    (g.poisoned = true ∧ r = ⟨g, out, .error .engineFatal⟩) ∨
    (r.result = .ok () ∧ P r.seqr r.published ∧ r.seqr.Halted) ∨
    (r.result = .error .publishFailed ∧ ∃ g' ts, P g' r.published ∧ g'.pending.get? g'.next = some ⟨ts, .ready false⟩ ∧
      r.seqr = { g' with pending := g'.pending.erase g'.next }) := by
  intro r
  by_cases hp : g.poisoned = true
  · exact .inl ⟨hp, if_pos hp⟩
  right
  have hr : r = advanceLoop g.pending.entries g out := if_neg hp
  rw [hr]
  clear hr r hp
  -- along the loop the list is what is left of the slots
  generalize hl : g.pending.entries = l
  induction l generalizing g out with
  | nil => exact .inl ⟨rfl, h, fun p hp => by simp only [advanceLoop] at hp; rw [hl] at hp; cases hp⟩
  | cons p l ih =>
    obtain ⟨k, slot⟩ := p
    have hget : g.pending.get? k = some slot := OrdMap.get?_eq_some_iff.2 (hl ▸ List.mem_cons_self)
    have hrest : (g.pending.erase k).entries = l := OrdMap.entries_erase_head hl
    by_cases hk : k = g.next
    · obtain ⟨ts, state⟩ := slot
      rw [advanceLoop, if_neg (not_not_intro hk)]
      cases state with
      | pending => exact .inl ⟨rfl, h, fun p hp _ => by rw [hl] at hp; cases hp; rfl⟩
      | ready b =>
        cases b with
        | true => exact ih (g.publish k ts) ((k, ts) :: out) (hpublish g out k ts h hget hk) hrest
        | false => exact .inr ⟨rfl, g, ts, h, hk ▸ hget, by rw [← hk]⟩
      | aborted => exact ih (g.skip k) out (hskip g out k ts h hget hk) hrest
    · rw [advanceLoop, if_pos hk]
      exact .inl ⟨rfl, h, fun p hp hpk => by rw [hl] at hp; cases hp; exact absurd hpk hk⟩

end PublishSequencer

end Mqlite.Publish
