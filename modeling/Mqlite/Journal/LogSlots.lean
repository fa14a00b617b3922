/-
The slots of the log under any interleaving.

`Stepped` says once what a step can do to the state. `SlotInv` is what it keeps: the reserved ranges tile the bytes up
to `next_lsn`, the map of slots has what is reserved and not passed yet, and what is below `ready_lsn` is written.
-/
import Mqlite.Journal.LogThreads

namespace Mqlite.Journal

open Lib List Option OrdMap

/-! ## Tilings -/

/-- the slots stand one after the other from a to b -/
def Tiles : ℕ → ℕ → List LogSlot → Prop
  | a, b, [] => a = b
  | a, b, slot :: l => slot.startLsn = a ∧ a < slot.endLsn ∧ slot.bytesLen = slot.endLsn - a ∧ Tiles slot.endLsn b l

namespace Tiles

variable {a b : ℕ} {l : List LogSlot}

variable (h : Tiles a b l)

include h

theorem concat {n : ℕ} (hn : 0 < n) : Tiles a (b + n) (l ++ [⟨b, b + n, n⟩]) := by
  induction l generalizing a with
  | nil =>
    cases h
    exact ⟨rfl, Nat.lt_add_of_pos_right hn, by simp, rfl⟩
  | cons slot l ih => exact ⟨h.1, h.2.1, h.2.2.1, ih h.2.2.2⟩

theorem le : a ≤ b := by
  induction l generalizing a with
  | nil => exact Nat.le_of_eq h
  | cons slot l ih => exact h.2.1.le.trans (ih h.2.2.2)

/-- a slot of the tiling lies in it, is not empty, and is as long as the record it was reserved for -/
theorem mem {slot : LogSlot} (hs : slot ∈ l) :
    a ≤ slot.startLsn ∧ slot.startLsn < slot.endLsn ∧ slot.endLsn ≤ b ∧
      slot.startLsn + slot.bytesLen = slot.endLsn := by
  induction l generalizing a with
  | nil => cases hs
  | cons first l ih =>
    obtain ⟨hstart, hlt, hlen, hrest⟩ := h
    rcases mem_cons.1 hs with rfl | hs
    · exact ⟨hstart.ge, hstart ▸ hlt, hrest.le, by omega⟩
    · obtain ⟨hge, hmem⟩ := ih hrest hs
      exact ⟨hlt.le.trans hge, hmem⟩

theorem ordered : l.Pairwise fun x y => x.endLsn ≤ y.startLsn := by
  induction l generalizing a with
  | nil => exact List.Pairwise.nil
  | cons first l ih => exact pairwise_cons.2 ⟨fun slot hs => (h.2.2.2.mem hs).1, ih h.2.2.2⟩

/-- two slots of the tiling are the same, or one ends before the other starts -/
theorem apart {x y : LogSlot} (hx : x ∈ l) (hy : y ∈ l) : x = y ∨ x.endLsn ≤ y.startLsn ∨ y.endLsn ≤ x.startLsn := by
  induction l generalizing a with
  | nil => cases hx
  | cons first l ih =>
    obtain ⟨-, -, -, hrest⟩ := h
    rcases mem_cons.1 hx with rfl | hxl
    · rcases mem_cons.1 hy with rfl | hyl
      · exact .inl rfl
      · exact .inr (.inl (hrest.mem hyl).1)
    · rcases mem_cons.1 hy with rfl | hyl
      · exact .inr (.inr (hrest.mem hxl).1)
      · exact ih hrest hxl hyl

theorem eq_of_start {x y : LogSlot} (hx : x ∈ l) (hy : y ∈ l) (heq : x.startLsn = y.startLsn) : x = y := by
  have hpx := (h.mem hx).2.1
  have hpy := (h.mem hy).2.1
  refine (h.apart hx hy).resolve_right ?_
  omega

theorem cover {p : ℕ} (ha : a ≤ p) (hb : p < b) : ∃ slot ∈ l, slot.startLsn ≤ p ∧ p < slot.endLsn := by
  induction l generalizing a with
  | nil =>
    cases h
    omega
  | cons first l ih =>
    obtain ⟨hstart, -, -, hrest⟩ := h
    by_cases hp : p < first.endLsn
    · exact ⟨first, mem_cons_self, hstart ▸ ha, hp⟩
    · obtain ⟨slot, hs, hin⟩ := ih hrest (not_lt.1 hp)
      exact ⟨slot, mem_cons_of_mem _ hs, hin⟩

end Tiles

/-! ## What a step can do -/

namespace Pc

/-- outside of every call, or in a part of `ensure_sync` that holds nothing -/
def Plain : Pc → Prop
  | idle | waitReady _ | checkDurable _ | checkPoisoned _ | elect _ | follow _ => True
  | _ => False

/-- the thread has won the election and has not lowered the flag yet -/
def Leader : Pc → Prop
  | close _ | beginSync _ _ | inSync _ _ _ | syncFailed | loadReady _ _ _ | storeDurable _ _ _ | release _ => True
  | _ => False

/-- the leader has closed its target and not stored it yet -/
def Committed : Pc → Prop
  | beginSync _ _ | inSync _ _ _ | loadReady _ _ _ | storeDurable _ _ _ => True
  | _ => False

/-- the thread is inside `write_reserved` for the slot -/
def Owns : Pc → LogSlot → Prop
  | writing write _, slot => write.slot = slot
  | writeFailed slot', slot => slot' = slot
  | _, _ => False

variable {pc : Pc}

theorem Committed.leader (h : pc.Committed) : pc.Leader := by
  cases pc <;> trivial

theorem Plain.quiet (h : pc.Plain) : ¬pc.Leader ∧ pc ≠ abort := by
  cases pc <;> simp_all [Plain, Leader]

theorem Plain.not_owns (h : pc.Plain) (slot : LogSlot) : ¬pc.Owns slot := by
  cases pc <;> simp_all [Plain, Owns]

end Pc

namespace LogState

/-- thread i takes s to t -/
inductive Stepped (s : LogState) (i : ℕ) : LogState → Prop where
  | stays : Stepped s i s
  | plain (pc : Pc) (hpc : pc.Plain) : Stepped s i (s.goto i pc)
  | returns (target : ℕ) (h : target ≤ s.log.durableLsn) :
      Stepped s i { s.goto i .idle with returned := target :: s.returned }
  | elected (target : ℕ) (h : s.log.syncInProgress = false) :
      Stepped s i { s.goto i (.close target) with log.syncInProgress := true }
  | closed (target : ℕ) (hp : s.log.poisoned = none) (h : s.threads i = .close target) :
      Stepped s i (s.goto i (.beginSync target s.log.readyLsn))
  | aborts (hp : s.log.poisoned.isSome) : Stepped s i (s.goto i .abort)
  | lowers (pc : Pc) (hpc : pc.Plain) (h : s.threads i = .abort ∨ ∃ target, s.threads i = .release target) :
      Stepped s i { s.goto i pc with log.syncInProgress := false }
  | syncs (target syncTarget : ℕ) (h : s.threads i = .beginSync target syncTarget) :
      Stepped s i (s.goto i (.inSync target syncTarget ⟨s.file, s.written⟩))
  | synced (target syncTarget : ℕ) (began : FsyncBegin) (h : s.threads i = .inSync target syncTarget began) :
      Stepped s i { s.goto i (.loadReady target syncTarget began) with synced := began :: s.synced }
  | syncFails (target syncTarget : ℕ) (began : FsyncBegin) (h : s.threads i = .inSync target syncTarget began) :
      Stepped s i (s.goto i .syncFailed)
  | loads (target syncTarget : ℕ) (began : FsyncBegin) (h : s.threads i = .loadReady target syncTarget began) :
      Stepped s i (s.goto i (.storeDurable target (min syncTarget s.log.readyLsn) began))
  | stores (target durableTarget : ℕ) (began : FsyncBegin)
      (h : s.threads i = .storeDurable target durableTarget began) :
      Stepped s i { s.goto i (.release target) with log.durableLsn := durableTarget }
  | poisons (reason : EngineFatalReason) (slot : Option LogSlot)
      (h : ∀ x ∈ slot, x ∈ s.issued ∨ (s.threads i).Owns x) : Stepped s i ((s.poison reason slot).goto i .idle)
  | duplicates (log : LogManager) (h : s.log.slots.get? s.log.nextLsn ≠ none) : Stepped s i { s with log }
  | reserves (bytesLen : ℕ) (hlen : 0 < bytesLen) :
      Stepped s i { s with
        log.nextLsn := s.log.nextLsn + bytesLen
        log.slots := s.log.slots.insert s.log.nextLsn (.reserved (s.log.nextLsn + bytesLen))
        issued := s.issued ++ [⟨s.log.nextLsn, s.log.nextLsn + bytesLen, bytesLen⟩] }
  | begins (write : LogWrite) (hi : write.slot ∈ s.issued) (hlen : write.bytes.length = write.slot.bytesLen)
      (hget : s.log.slots.get? write.slot.startLsn = some (.reserved write.slot.endLsn)) :
      Stepped s i { s.goto i (.writing write 0) with log := s.log.setSlot write.slot (.writing write.slot.endLsn) }
  | writes (write : LogWrite) (done n : ℕ) (pc : Pc) (h : s.threads i = .writing write done)
      (hn : done + n ≤ write.bytes.length) (hpc : pc = .writing write (done + n) ∨ pc = .writeFailed write.slot) :
      Stepped s i { s.goto i pc with
        file := Journal.writeAt s.file (write.slot.startLsn + done) ((write.bytes.drop done).take n) }
  | ends (write : LogWrite) (h : s.threads i = .writing write write.bytes.length)
      (hget : s.log.slots.get? write.slot.startLsn = some (.writing write.slot.endLsn)) :
      Stepped s i { s.goto i .idle with
        log := s.log.setSlot write.slot (.writeComplete write.slot.endLsn)
        written := write :: s.written }
  | marks (slot : LogSlot) (slots : OrdMap ℕ LogSlotState) (ready : ℕ) (hi : slot ∈ s.issued)
      (hp : s.log.poisoned = none) (hget : s.log.slots.get? slot.startLsn = some (.writeComplete slot.endLsn))
      (hready : LogManager.advanceReady (s.log.setSlot slot (.written slot.endLsn)).slots.entries.length
        (s.log.setSlot slot (.written slot.endLsn)).slots s.log.readyLsn = (slots, ready)) :
      Stepped s i { s with log.slots := slots, log.readyLsn := ready }

variable {s t : LogState} {i initial : ℕ}

theorem goto_self {pc : Pc} (h : s.threads i = pc) : s.goto i pc = s := by
  rw [goto, ← h, Function.update_eq_self]

theorem stepped_poisonSlot {s : LogState} {i : ℕ} {slot : LogSlot} (h : slot ∈ s.issued ∨ (s.threads i).Owns slot) :
    Stepped s i { s.goto i .idle with log := s.log.poisonSlot slot } := by
  refine .poisons .postReservationLogWriteFailure (some slot) fun x hx => ?_
  cases hx
  exact h

/-- the same for a thread that is idle before -/
theorem stepped_poisonSlot_idle {slot : LogSlot} (h : slot ∈ s.issued) (hidle : s.threads i = .idle) :
    Stepped s i { s with log := s.log.poisonSlot slot } := by
  have hstep := @stepped_poisonSlot s i slot (.inl h)
  rwa [goto_self hidle] at hstep

theorem next_stepped (h : s.next i (s.threads i) = some t) : Stepped s i t := by
  generalize hpc : s.threads i = pc at h
  cases pc with rw [next] at h
  | idle | writing write done | inSync target syncTarget began => cases h
  | writeFailed slot =>
    cases h
    exact .poisons _ _ fun x hx => .inr (by cases hx; rw [hpc]; rfl)
  | waitReady target =>
    split_ifs at h
    · cases h; exact .plain _ trivial
    · cases h; exact .plain _ trivial
    · cases h; exact .stays
  | checkDurable target =>
    split_ifs at h with hd
    · cases h; exact .returns target hd
    · cases h; exact .plain _ trivial
  | checkPoisoned target =>
    split_ifs at h
    · cases h; exact .plain _ trivial
    · cases h; exact .plain _ trivial
  | elect target =>
    split_ifs at h with hflag
    · cases h; exact .plain _ trivial
    · cases h; exact .elected target (by simpa using hflag)
  | follow target =>
    split_ifs at h
    · cases h; exact .plain _ trivial
    · cases h; exact .stays
    · cases h; exact .plain _ trivial
  | close target =>
    split_ifs at h with hp
    · cases h; exact .aborts hp
    · cases h; exact .closed target (by simpa using hp) hpc
  | abort => cases h; exact .lowers .idle trivial (.inl hpc)
  | beginSync target syncTarget => cases h; exact .syncs target syncTarget hpc
  | syncFailed => cases h; exact .poisons _ none fun x hx => by cases hx
  | loadReady target syncTarget began => cases h; exact .loads target syncTarget began hpc
  | storeDurable target durableTarget began => cases h; exact .stores target durableTarget began hpc
  | release target => cases h; exact .lowers (.checkDurable target) trivial (.inr ⟨target, hpc⟩)

theorem step_stepped {move : LogMove} (h : s.stepThread i move = some t) : Stepped s i t := by
  unfold stepThread at h
  split at h
  · next bytesLen hidle =>
    rcases s.log.reserve_cases bytesLen with ⟨e, he⟩ | ⟨hdup, e, log, he⟩ | ⟨-, hlen, he⟩
    · rw [he] at h; cases h; exact .stays
    · rw [he] at h; cases h; exact .duplicates log hdup
    · rw [he] at h; cases h; exact .reserves bytesLen hlen
  · next write hidle =>
    split_ifs at h with hi
    rcases s.log.beginWrite_cases write.slot write.bytes.length with ⟨e, he⟩ | ⟨e, he⟩ | ⟨hlen, -, hget, he⟩
    · rw [he] at h; cases h; exact .stays
    · rw [he] at h; cases h; exact stepped_poisonSlot_idle hi hidle
    · rw [he] at h; cases h; exact .begins write hi hlen hget
  · next write done n ok hwriting =>
    rw [positionedWrite] at h
    dsimp only at h
    split_ifs at h with hn hok
    · cases h; exact .writes write done n _ hwriting (by omega) (.inl rfl)
    · cases h; exact .writes write done n _ hwriting (by omega) (.inr rfl)
  · next write done hwriting =>
    split_ifs at h with hdone
    have howns : (s.threads i).Owns write.slot := by rw [hwriting]; rfl
    rcases s.log.endWrite_cases write.slot with ⟨e, he⟩ | ⟨e, he⟩ | ⟨-, hget, he⟩
    · rw [he] at h; cases h; exact .plain .idle trivial
    · rw [he] at h; cases h; exact stepped_poisonSlot (.inr howns)
    · rw [he] at h; cases h; exact .ends write (hdone ▸ hwriting) hget
  · next slot hidle =>
    split_ifs at h with hi
    cases h
    rcases s.log.markWritten_cases slot with ⟨e, he⟩ | ⟨e, he⟩ | ⟨hp, hget, slots, ready, hready, he⟩
    · rw [he]; exact .stays
    · rw [he]; exact stepped_poisonSlot_idle hi hidle
    · rw [he]; exact .marks slot slots ready hi hp hget hready
  · next slot hidle =>
    split_ifs at h with hi
    cases h
    exact stepped_poisonSlot_idle hi hidle
  · next target hidle => cases h; exact .plain _ trivial
  · next target syncTarget began ok hsync =>
    split_ifs at h
    · cases h; exact .synced target syncTarget began hsync
    · cases h; exact .syncFails target syncTarget began hsync
  · exact next_stepped h
  · cases h

/-! ## The slots -/

/-- a call of `write_reserved` for the slot has returned Ok -/
def Recorded (s : LogState) (slot : LogSlot) : Prop := ∃ write ∈ s.written, write.slot = slot

structure SlotInv (initial : ℕ) (s : LogState) : Prop where
  tiles : Tiles initial s.log.nextLsn s.issued
  bounds : initial ≤ s.log.readyLsn ∧ s.log.readyLsn ≤ s.log.nextLsn
  entry : ∀ k state, s.log.slots.get? k = some state → ∃ slot ∈ s.issued, slot.startLsn = k ∧ slot.endLsn = state.endLsn
  reserved : ∀ slot ∈ s.issued, ∀ e, s.log.slots.get? slot.startLsn = some (.reserved e) →
    ¬s.Recorded slot ∧ ∀ i, ¬(s.threads i).Owns slot
  complete : ∀ slot ∈ s.issued, ∀ e, (s.log.slots.get? slot.startLsn = some (.writeComplete e) ∨
    s.log.slots.get? slot.startLsn = some (.written e)) → s.Recorded slot
  -- what the frontier has passed is written; if it is still in the map, it was poisoned later
  passed : ∀ slot ∈ s.issued, slot.startLsn < s.log.readyLsn → s.Recorded slot ∧
    ∀ state, s.log.slots.get? slot.startLsn = some state → ∃ e, state = .poisoned e
  poisoned : ∀ k e, s.log.slots.get? k = some (.poisoned e) → s.log.poisoned.isSome
  owner : ∀ i slot, (s.threads i).Owns slot → slot ∈ s.issued ∧ ¬s.Recorded slot
  single : ∀ i j slot, (s.threads i).Owns slot → (s.threads j).Owns slot → i = j
  recorded : ∀ write ∈ s.written, write.slot ∈ s.issued ∧ write.bytes.length = write.slot.bytesLen ∧
    Holds s.file write.slot.startLsn write.bytes
  started : ∀ i write done, s.threads i = .writing write done → write.bytes.length = write.slot.bytesLen ∧
    done ≤ write.bytes.length ∧ Holds s.file write.slot.startLsn (write.bytes.take done)

section Slots

variable {initial : ℕ} {s t : LogState}

theorem threads_goto (s : LogState) (i j : ℕ) (pc : Pc) : (s.goto i pc).threads j = if j = i then pc else s.threads j :=
  Function.update_apply s.threads i pc j

theorem new_slotInv (initial : ℕ) (file : LogFile) : SlotInv initial (new initial file) where
  tiles := rfl
  bounds := ⟨le_rfl, le_rfl⟩
  entry _ _ h := by cases h
  reserved _ h := by cases h
  complete _ h := by cases h
  passed _ h := by cases h
  poisoned _ _ h := by cases h
  owner _ _ h := h.elim
  single _ _ _ h := h.elim
  recorded _ h := by cases h
  started _ _ _ h := by cases h

/-- **Frame rule.** The slots stay as they are when only other parts of the state change, and the threads that change
are not inside `write_reserved` afterwards. -/
theorem SlotInv.frame (h : SlotInv initial s) (hslots : t.log.slots = s.log.slots)
    (hnext : t.log.nextLsn = s.log.nextLsn)
    (hready : t.log.readyLsn = s.log.readyLsn) (hpoison : s.log.poisoned.isSome → t.log.poisoned.isSome)
    (hfile : t.file = s.file) (hissued : t.issued = s.issued) (hwritten : t.written = s.written)
    (hthreads : ∀ j, t.threads j = s.threads j ∨ ∀ slot, ¬(t.threads j).Owns slot) : SlotInv initial t := by
  have hrec : t.Recorded = s.Recorded := by
    funext slot
    rw [Recorded, Recorded, hwritten]
  have howns : ∀ j slot, (t.threads j).Owns slot → (s.threads j).Owns slot := by
    intro j slot ho
    rcases hthreads j with heq | hno
    · rwa [← heq]
    · exact absurd ho (hno slot)
  constructor
  · rw [hnext, hissued]; exact h.tiles
  · rw [hready, hnext]; exact h.bounds
  · rw [hslots, hissued]; exact h.entry
  · rw [hslots, hissued, hrec]
    intro slot hs e he
    obtain ⟨hr, ho⟩ := h.reserved slot hs e he
    exact ⟨hr, fun i hi => ho i (howns i slot hi)⟩
  · rw [hslots, hissued, hrec]; exact h.complete
  · rw [hslots, hissued, hrec, hready]; exact h.passed
  · rw [hslots]; exact fun k e he => hpoison (h.poisoned k e he)
  · rw [hissued, hrec]; exact fun i slot ho => h.owner i slot (howns i slot ho)
  · exact fun i j slot hi hj => h.single i j slot (howns i slot hi) (howns j slot hj)
  · rw [hwritten, hissued, hfile]; exact h.recorded
  · rw [hfile]
    intro i write done hw
    rcases hthreads i with heq | hno
    · exact h.started i write done (heq ▸ hw)
    · refine absurd ?_ (hno write.slot)
      rw [hw]
      rfl

theorem goto_frame (s : LogState) (i : ℕ) {pc : Pc} (hpc : ∀ slot, ¬pc.Owns slot) (j : ℕ) :
    (s.goto i pc).threads j = s.threads j ∨ ∀ slot, ¬((s.goto i pc).threads j).Owns slot := by
  rw [threads_goto]
  split_ifs
  · exact .inr hpc
  · exact .inl rfl

variable {slot : LogSlot} {write : LogWrite} {i : ℕ}

section

variable (h : SlotInv initial s)

include h

/-- **Setting a slot.** What its new state says of the slot must be so. -/
theorem SlotInv.setSlot (hs : slot ∈ s.issued) {state : LogSlotState}
    (hend : state.endLsn = slot.endLsn) (hreserved : ∀ e, state ≠ .reserved e)
    (hcomplete : ∀ e, state = .writeComplete e ∨ state = .written e → s.Recorded slot)
    (hpassed : slot.startLsn < s.log.readyLsn → ∃ e, state = .poisoned e)
    (hpoisoned : ∀ e, state = .poisoned e → s.log.poisoned.isSome) :
    SlotInv initial { s with log := s.log.setSlot slot state } := by
  have hget : ∀ x ∈ s.issued, (s.log.setSlot slot state).slots.get? x.startLsn =
      if x = slot then some state else s.log.slots.get? x.startLsn := by
    intro x hx
    rw [LogManager.setSlot, get?_insert]
    by_cases heq : x = slot
    · rw [if_pos heq, if_pos (by rw [heq])]
    · rw [if_neg heq, if_neg fun hstart => heq (h.tiles.eq_of_start hx hs hstart)]
  refine { h with entry := ?_, reserved := ?_, complete := ?_, passed := ?_, poisoned := ?_ }
  · intro k state' hk
    rw [LogManager.setSlot, get?_insert] at hk
    split_ifs at hk with heq
    · cases hk
      exact ⟨slot, hs, heq.symm, hend.symm⟩
    · exact h.entry k state' hk
  · intro x hx e he
    have he' := (hget x hx).symm.trans he
    split_ifs at he' with heq
    · exact absurd (Option.some.inj he') (hreserved e)
    · exact h.reserved x hx e he'
  · intro x hx e he
    have he' := he.imp (hget x hx).symm.trans (hget x hx).symm.trans
    split_ifs at he' with heq
    · exact heq ▸ hcomplete e (he'.imp Option.some.inj Option.some.inj)
    · exact h.complete x hx e he'
  · intro x hx hlt
    refine ⟨(h.passed x hx hlt).1, fun state' hk => ?_⟩
    have hk' := (hget x hx).symm.trans hk
    split_ifs at hk' with heq
    · cases hk'
      exact hpassed (heq ▸ hlt)
    · exact (h.passed x hx hlt).2 state' hk'
  · intro k e he
    rw [LogManager.setSlot, get?_insert] at he
    split_ifs at he
    · exact hpoisoned e (Option.some.inj he)
    · exact h.poisoned k e he

theorem SlotInv.poison {reason : EngineFatalReason} (hs : slot ∈ s.issued) :
    SlotInv initial (s.poison reason (some slot)) := by
  have hflag : SlotInv initial (s.poison reason none) :=
    h.frame rfl rfl rfl (fun _ => rfl) rfl rfl rfl fun _ => .inl rfl
  exact hflag.setSlot hs rfl (by simp) (by simp) (fun _ => ⟨_, rfl⟩) fun _ _ => rfl

/-- an issued slot starts below the frontier of the reservations -/
theorem SlotInv.start_lt (hs : slot ∈ s.issued) : slot.startLsn < s.log.nextLsn := by
  have hin := h.tiles.mem hs
  omega

theorem SlotInv.not_duplicate : s.log.slots.get? s.log.nextLsn = none := by
  by_contra hdup
  obtain ⟨state, hget⟩ := ne_none_iff_exists'.1 hdup
  obtain ⟨slot, hs, hstart, -⟩ := h.entry _ _ hget
  exact (h.start_lt hs).ne hstart

theorem SlotInv.reserve {n : ℕ} (hn : 0 < n) : SlotInv initial { s with
      log.nextLsn := s.log.nextLsn + n
      log.slots := s.log.slots.insert s.log.nextLsn (.reserved (s.log.nextLsn + n))
      issued := s.issued ++ [⟨s.log.nextLsn, s.log.nextLsn + n, n⟩] } := by
  have hold : ∀ slot ∈ s.issued, slot.startLsn ≠ s.log.nextLsn := fun slot hs => (h.start_lt hs).ne
  have hget : ∀ slot ∈ s.issued, (s.log.slots.insert s.log.nextLsn (.reserved (s.log.nextLsn + n))).get? slot.startLsn =
      s.log.slots.get? slot.startLsn := by
    intro slot hs
    rw [get?_insert, if_neg (hold slot hs)]
  have hnew : (s.log.slots.insert s.log.nextLsn (.reserved (s.log.nextLsn + n))).get? s.log.nextLsn =
      some (.reserved (s.log.nextLsn + n)) := by
    rw [get?_insert, if_pos rfl]
  have hmem : ∀ slot, slot ∈ s.issued ++ [⟨s.log.nextLsn, s.log.nextLsn + n, n⟩] →
      slot ∈ s.issued ∨ slot = ⟨s.log.nextLsn, s.log.nextLsn + n, n⟩ := by
    intro slot hs
    simpa using hs
  refine { h with
    tiles := h.tiles.concat hn
    bounds := ⟨h.bounds.1, h.bounds.2.trans (Nat.le_add_right _ _)⟩
    entry := ?_
    reserved := ?_
    complete := ?_
    passed := ?_
    poisoned := ?_
    owner := fun i slot ho => ⟨mem_append_left _ (h.owner i slot ho).1, (h.owner i slot ho).2⟩
    recorded := fun write hw => ⟨mem_append_left _ (h.recorded write hw).1, (h.recorded write hw).2⟩ }
  · intro k state hk
    rw [get?_insert] at hk
    split_ifs at hk with heq
    · cases hk
      exact ⟨_, mem_append_right _ (mem_singleton_self _), heq.symm, rfl⟩
    · obtain ⟨slot, hs, hslot⟩ := h.entry k state hk
      exact ⟨slot, mem_append_left _ hs, hslot⟩
  · intro slot hs e he
    rcases hmem slot hs with hs | rfl
    · exact h.reserved slot hs e ((hget slot hs).symm.trans he)
    · refine ⟨?_, fun i ho => hold _ (h.owner i _ ho).1 rfl⟩
      rintro ⟨write, hw, heq⟩
      exact hold _ (heq ▸ (h.recorded write hw).1) rfl
  · intro slot hs e he
    rcases hmem slot hs with hs | rfl
    · exact h.complete slot hs e (he.imp (hget slot hs).symm.trans (hget slot hs).symm.trans)
    · rcases he with he | he
      · cases hnew.symm.trans he
      · cases hnew.symm.trans he
  · intro slot hs hlt
    rcases hmem slot hs with hs | rfl
    · exact ⟨(h.passed slot hs hlt).1, fun state hst => (h.passed slot hs hlt).2 state ((hget slot hs).symm.trans hst)⟩
    · exact absurd hlt (not_lt.2 h.bounds.2)
  · intro k e he
    rw [get?_insert] at he
    split_ifs at he
    · cases he
    · exact h.poisoned k e he

/-- **Begin of a write.** The slot was reserved: nobody writes it, and its record is not written. -/
theorem SlotInv.begins (i : ℕ) (hi : write.slot ∈ s.issued) (hlen : write.bytes.length = write.slot.bytesLen)
    (hget : s.log.slots.get? write.slot.startLsn = some (.reserved write.slot.endLsn)) :
    SlotInv initial { s.goto i (.writing write 0) with
      log := s.log.setSlot write.slot (.writing write.slot.endLsn) } := by
  obtain ⟨hrec, hfree⟩ := h.reserved _ hi _ hget
  have howns : ∀ j slot, ((s.goto i (.writing write 0)).threads j).Owns slot → (j = i ∧ slot = write.slot) ∨
      (s.threads j).Owns slot := by
    intro j slot ho
    rw [threads_goto] at ho
    split_ifs at ho with hj
    · exact .inl ⟨hj, ho.symm⟩
    · exact .inr ho
  have hset : SlotInv initial { s with log := s.log.setSlot write.slot (.writing write.slot.endLsn) } :=
    h.setSlot hi rfl (by simp) (by simp) (fun hlt => absurd (h.passed _ hi hlt).1 hrec) (by simp)
  refine { hset with reserved := ?_, owner := ?_, single := ?_, started := ?_ }
  · intro slot hs e he
    obtain ⟨hr, hno⟩ := hset.reserved slot hs e he
    refine ⟨hr, fun j ho => (howns j slot ho).elim (fun hj => ?_) (hno j)⟩
    have hself : (s.log.setSlot write.slot (.writing write.slot.endLsn)).slots.get? write.slot.startLsn =
        some (.writing write.slot.endLsn) := by rw [LogManager.setSlot, get?_insert, if_pos rfl]
    cases hself.symm.trans (hj.2 ▸ he)
  · intro j slot ho
    rcases howns j slot ho with ⟨-, rfl⟩ | ho
    · exact ⟨hi, hrec⟩
    · exact h.owner j slot ho
  · intro j k slot hj hk
    rcases howns j slot hj with ⟨rfl, rfl⟩ | hold
    · rcases howns k _ hk with ⟨rfl, -⟩ | hold'
      · rfl
      · exact absurd hold' (hfree k)
    · rcases howns k slot hk with ⟨rfl, rfl⟩ | hold'
      · exact absurd hold (hfree j)
      · exact h.single j k slot hold hold'
  · intro j write' done hw
    rw [threads_goto] at hw
    split_ifs at hw with hj
    · cases hw
      exact ⟨hlen, Nat.zero_le _, holds_nil _ _⟩
    · exact h.started j write' done hw

/-- **Positioned write.** Only the bytes of the thread's own slot change, and its record is not written. -/
theorem SlotInv.writes {done n : ℕ} {pc : Pc} (hpc : s.threads i = .writing write done)
    (hn : done + n ≤ write.bytes.length) (hnext : pc = .writing write (done + n) ∨ pc = .writeFailed write.slot) :
    SlotInv initial { s.goto i pc with
      file := Journal.writeAt s.file (write.slot.startLsn + done) ((write.bytes.drop done).take n) } := by
  have howner : (s.threads i).Owns write.slot := by rw [hpc]; rfl
  obtain ⟨hi, hrec⟩ := h.owner i _ howner
  obtain ⟨hlen, -, hholds⟩ := h.started i write done hpc
  have hend := (h.tiles.mem hi).2.2.2
  -- what another slot's record has in the file stays there
  have hother : ∀ slot ∈ s.issued, slot ≠ write.slot → ∀ bytes : List Byte, bytes.length ≤ slot.bytesLen →
      Holds s.file slot.startLsn bytes →
      Holds (Journal.writeAt s.file (write.slot.startLsn + done) ((write.bytes.drop done).take n))
        slot.startLsn bytes := by
    intro slot hs hne bytes hle hb
    have hend' := (h.tiles.mem hs).2.2.2
    have happart := (h.tiles.apart hs hi).resolve_left hne
    refine hb.frame ?_
    rw [length_take]
    omega
  have howns : ∀ j slot, ((s.goto i pc).threads j).Owns slot → (s.threads j).Owns slot := by
    intro j slot ho
    rw [threads_goto] at ho
    split_ifs at ho with hj
    · rw [hj, hpc]
      rcases hnext with rfl | rfl
      · exact ho
      · exact ho
    · exact ho
  refine { h with
    reserved :=
      fun slot hs e he => ⟨(h.reserved slot hs e he).1, fun j ho => (h.reserved slot hs e he).2 j (howns j slot ho)⟩
    owner := fun j slot ho => h.owner j slot (howns j slot ho)
    single := fun j k slot hj hk => h.single j k slot (howns j slot hj) (howns k slot hk)
    recorded := ?_
    started := ?_ }
  · intro write' hw
    obtain ⟨hi', hlen', hb⟩ := h.recorded write' hw
    exact ⟨hi', hlen', hother _ hi' (fun heq => hrec ⟨write', hw, heq⟩) _ hlen'.le hb⟩
  · intro j write' done' hw
    rw [threads_goto] at hw
    split_ifs at hw with hj
    · rcases hnext with rfl | rfl
      · cases hw
        exact ⟨hlen, hn, hholds.extend n⟩
      · cases hw
    · have howner' : (s.threads j).Owns write'.slot := by rw [hw]; rfl
      obtain ⟨hlen', hle, hb⟩ := h.started j write' done' hw
      refine ⟨hlen', hle, hother _ (h.owner j _ howner').1 (fun heq => hj ?_) _ ?_ hb⟩
      · exact h.single j i write.slot (heq ▸ howner') howner
      · rw [length_take]
        omega

/-- **End of a write.** All bytes of the record are in the file. -/
theorem SlotInv.ends (hpc : s.threads i = .writing write write.bytes.length)
    (hget : s.log.slots.get? write.slot.startLsn = some (.writing write.slot.endLsn)) :
    SlotInv initial { s.goto i .idle with
      log := s.log.setSlot write.slot (.writeComplete write.slot.endLsn)
      written := write :: s.written } := by
  have howner : (s.threads i).Owns write.slot := by rw [hpc]; rfl
  obtain ⟨hi, -⟩ := h.owner i _ howner
  obtain ⟨hlen, -, hholds⟩ := h.started i write _ hpc
  rw [take_length] at hholds
  have hrec : ∀ slot, (∃ w ∈ write :: s.written, w.slot = slot) → slot = write.slot ∨ s.Recorded slot := by
    rintro slot ⟨w, hw, rfl⟩
    rcases mem_cons.1 hw with rfl | hw
    · exact .inl rfl
    · exact .inr ⟨w, hw, rfl⟩
  have hkeep : ∀ slot, s.Recorded slot → ∃ w ∈ write :: s.written, w.slot = slot :=
    fun slot ⟨w, hw, heq⟩ => ⟨w, mem_cons_of_mem _ hw, heq⟩
  have howns : ∀ j slot, ((s.goto i .idle).threads j).Owns slot → j ≠ i ∧ (s.threads j).Owns slot := by
    intro j slot ho
    rw [threads_goto] at ho
    split_ifs at ho with hj
    · exact ho.elim
    · exact ⟨hj, ho⟩
  have hwritten : SlotInv initial { s.goto i .idle with written := write :: s.written } := by
    refine { h with
      reserved := ?_
      complete := fun slot hs e he => hkeep slot (h.complete slot hs e he)
      passed := fun slot hs hlt => ⟨hkeep slot (h.passed slot hs hlt).1, (h.passed slot hs hlt).2⟩
      owner := ?_
      single := fun j k slot hj hk => h.single j k slot (howns j slot hj).2 (howns k slot hk).2
      recorded := ?_
      started := ?_ }
    · intro slot hs e he
      obtain ⟨hr, hno⟩ := h.reserved slot hs e he
      refine ⟨fun hw => (hrec slot hw).elim (fun heq => ?_) hr, fun j ho => hno j (howns j slot ho).2⟩
      cases hget.symm.trans (heq ▸ he)
    · intro j slot ho
      obtain ⟨hj, ho⟩ := howns j slot ho
      refine ⟨(h.owner j slot ho).1, fun hw => (hrec slot hw).elim (fun heq => hj ?_) (h.owner j slot ho).2⟩
      exact h.single j i slot ho (heq ▸ howner)
    · intro w hw
      rcases mem_cons.1 hw with rfl | hw
      · exact ⟨hi, hlen, hholds⟩
      · exact h.recorded w hw
    · intro j write' done hw
      rw [threads_goto] at hw
      split_ifs at hw with hj
      exact h.started j write' done hw
  refine hwritten.setSlot hi rfl (by simp) (fun _ _ => ⟨write, mem_cons_self, rfl⟩) (fun hlt => ?_) (by simp)
  obtain ⟨e, he⟩ := (h.passed _ hi hlt).2 _ hget
  cases he

/-- a complete write is accepted -/
theorem SlotInv.accept (hi : slot ∈ s.issued)
    (hget : s.log.slots.get? slot.startLsn = some (.writeComplete slot.endLsn)) :
    SlotInv initial { s with log := s.log.setSlot slot (.written slot.endLsn) } := by
  refine h.setSlot hi rfl (by simp) (fun _ _ => h.complete slot hi _ (.inl hget)) (fun hlt => ?_) (by simp)
  obtain ⟨e, he⟩ := (h.passed _ hi hlt).2 _ hget
  cases he

/-- the frontier moves over the written slot that stands there -/
theorem SlotInv.advance {e : ℕ} (hget : s.log.slots.get? s.log.readyLsn = some (.written e)) :
    SlotInv initial { s with log.slots := s.log.slots.erase s.log.readyLsn, log.readyLsn := e } ∧
      s.log.readyLsn ≤ e := by
  obtain ⟨slot, hs, hstart, rfl⟩ := h.entry _ _ hget
  obtain ⟨-, hlt, hnext, -⟩ := h.tiles.mem hs
  have hrec : s.Recorded slot := h.complete slot hs _ (.inr (hstart.symm ▸ hget))
  have hsub : ∀ k state, (s.log.slots.erase s.log.readyLsn).get? k = some state → s.log.slots.get? k = some state := by
    intro k state hk
    rw [get?_erase] at hk
    split_ifs at hk
    exact hk
  have hle : s.log.readyLsn ≤ slot.endLsn := by omega
  refine ⟨{ h with
    bounds := ⟨h.bounds.1.trans hle, hnext⟩
    entry := fun k state hk => h.entry k state (hsub k state hk)
    reserved := fun x hx e he => h.reserved x hx e (hsub _ _ he)
    complete := fun x hx e he => h.complete x hx e (he.imp (hsub _ _) (hsub _ _))
    passed := fun x hx hxlt => ?_
    poisoned := fun k e he => h.poisoned k e (hsub _ _ he) }, hle⟩
  by_cases hxr : x.startLsn < s.log.readyLsn
  · exact ⟨(h.passed x hx hxr).1, fun state hk => (h.passed x hx hxr).2 state (hsub _ _ hk)⟩
  -- the only slot that starts between the old and the new frontier is the one that was taken out
  have heq : x = slot := by
    refine (h.tiles.apart hx hs).resolve_right ?_
    change x.startLsn < slot.endLsn at hxlt
    have hxpos := (h.tiles.mem hx).2.1
    omega
  subst heq
  refine ⟨hrec, fun state hk => ?_⟩
  rw [get?_erase, if_pos hstart] at hk
  cases hk

/-- **Mark.** The slot is accepted, and the frontier moves as far as it can. -/
theorem SlotInv.marks {slots : OrdMap ℕ LogSlotState} {ready : ℕ}
    (hi : slot ∈ s.issued) (hget : s.log.slots.get? slot.startLsn = some (.writeComplete slot.endLsn))
    (hready : LogManager.advanceReady (s.log.setSlot slot (.written slot.endLsn)).slots.entries.length
      (s.log.setSlot slot (.written slot.endLsn)).slots s.log.readyLsn = (slots, ready)) :
    SlotInv initial { s with log.slots := slots, log.readyLsn := ready } ∧ s.log.readyLsn ≤ ready := by
  have hstart : SlotInv initial { s with
      log.slots := (s.log.setSlot slot (.written slot.endLsn)).slots
      log.readyLsn := s.log.readyLsn } := h.accept hi hget
  have hrule := LogManager.advanceReady_rule
    (P := fun slots ready => SlotInv initial { s with log.slots := slots, log.readyLsn := ready } ∧
      s.log.readyLsn ≤ ready)
    (fun slots ready e ⟨hinv, hle⟩ hg => ⟨(hinv.advance hg).1, hle.trans (hinv.advance hg).2⟩)
    (s.log.setSlot slot (.written slot.endLsn)).slots.entries.length ⟨hstart, le_rfl⟩
  rwa [hready] at hrule

theorem SlotInv.step (hstep : Stepped s i t) : SlotInv initial t ∧ s.log.readyLsn ≤ t.log.readyLsn := by
  cases hstep with
  | stays => exact ⟨h, le_rfl⟩
  | plain pc hpc | lowers pc hpc _ => exact ⟨h.frame rfl rfl rfl id rfl rfl rfl (goto_frame s i hpc.not_owns), le_rfl⟩
  | poisons reason slot hslot =>
    cases slot with
    | none => exact ⟨h.frame rfl rfl rfl (fun _ => rfl) rfl rfl rfl (goto_frame s i fun _ => id), le_rfl⟩
    | some slot =>
      have hi : slot ∈ s.issued := (hslot slot rfl).elim id fun ho => (h.owner i slot ho).1
      exact ⟨(h.poison hi).frame rfl rfl rfl id rfl rfl rfl (goto_frame _ i fun _ => id), le_rfl⟩
  | duplicates log hdup => exact absurd h.not_duplicate hdup
  | reserves bytesLen hlen => exact ⟨h.reserve hlen, le_rfl⟩
  | begins write hi hlen hget => exact ⟨h.begins i hi hlen hget, le_rfl⟩
  | writes write done n pc hpc hn hnext => exact ⟨h.writes hpc hn hnext, le_rfl⟩
  | ends write hpc hget => exact ⟨h.ends hpc hget, le_rfl⟩
  | marks slot slots ready hi _ hget hready => exact h.marks hi hget hready
  -- the other steps are those of `ensure_sync`
  | _ => exact ⟨h.frame rfl rfl rfl id rfl rfl rfl (goto_frame s i fun _ => id), le_rfl⟩

end

end Slots

end LogState

end Mqlite.Journal
