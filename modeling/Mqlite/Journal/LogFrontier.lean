/-
The frontiers of the log under any interleaving: the leader of `ensure_sync`, and whole runs.

Result: `frontier_holds`. In every state of every run
- the reserved ranges tile the bytes from the initial LSN to `next_lsn`;
- every byte from there to `ready_lsn` belongs to a record that `write_reserved` wrote, and the file has its bytes;
- `durable_lsn ≤ ready_lsn ≤ next_lsn`, and the first two never decrease;
- `ready_lsn` is not past a slot that is not written, and does not move any more once a slot is poisoned;
- `ensure_sync t` has returned Ok only if an fsync returned Ok that began when every byte below t was written.
-/
import Mqlite.Journal.LogSlots

namespace Mqlite.Journal

open Lib List Option OrdMap

namespace LogState

variable {s t : LogState} {i initial : ℕ}

/-! ## The fsync leader -/

/-- every byte from the initial LSN to t belongs to a record written when the fsync began, and the file had its bytes -/
def Covers (initial : ℕ) (began : FsyncBegin) (t : ℕ) : Prop :=
  ∀ b, initial ≤ b → b < t → ∃ write ∈ began.written, write.slot.startLsn ≤ b ∧ b < write.slot.endLsn ∧
    write.slot.startLsn + write.bytes.length = write.slot.endLsn ∧ Holds began.file write.slot.startLsn write.bytes

theorem Covers.mono {t t' : ℕ} {began : FsyncBegin} (h : Covers initial began t) (hle : t' ≤ t) :
    Covers initial began t' :=
  fun b hb hlt => h b hb (hlt.trans_le hle)

/-- an fsync that began when every byte below t was written has returned Ok -/
def Durable (initial : ℕ) (s : LogState) (t : ℕ) : Prop := t ≤ initial ∨ ∃ began ∈ s.synced, Covers initial began t

theorem Durable.mono {t t' : ℕ} (h : Durable initial s t) (hle : t' ≤ t) : Durable initial s t' :=
  h.imp hle.trans fun ⟨began, hmem, hcov⟩ => ⟨began, hmem, hcov.mono hle⟩

theorem SlotInv.covers {t : ℕ} (h : SlotInv initial s) (ht : t ≤ s.log.readyLsn) :
    Covers initial ⟨s.file, s.written⟩ t := by
  intro b hb hlt
  obtain ⟨slot, hs, hstart, hend⟩ := h.tiles.cover hb (hlt.trans_le (ht.trans h.bounds.2))
  obtain ⟨⟨write, hw, rfl⟩, -⟩ := h.passed slot hs (hstart.trans_lt (hlt.trans_le ht))
  obtain ⟨-, hlen, hholds⟩ := h.recorded write hw
  exact ⟨write, hw, hstart, hend, hlen ▸ (h.tiles.mem hs).2.2.2, hholds⟩

/-- what a thread in `ensure_sync` may rely on -/
def PcOk (initial : ℕ) (s : LogState) : Pc → Prop
  | .abort => s.log.poisoned.isSome
  | .beginSync _ syncTarget => s.log.durableLsn ≤ syncTarget ∧ syncTarget ≤ s.log.readyLsn
  | .inSync _ syncTarget began =>
    s.log.durableLsn ≤ syncTarget ∧ syncTarget ≤ s.log.readyLsn ∧ Covers initial began syncTarget
  | .loadReady _ syncTarget began =>
    s.log.durableLsn ≤ syncTarget ∧ syncTarget ≤ s.log.readyLsn ∧ Covers initial began syncTarget ∧ began ∈ s.synced
  | .storeDurable _ durableTarget began =>
    s.log.durableLsn ≤ durableTarget ∧ durableTarget ≤ s.log.readyLsn ∧ Covers initial began durableTarget ∧
      began ∈ s.synced
  | _ => True

structure SyncInv (initial : ℕ) (s : LogState) : Prop where
  -- until the manager is poisoned there is at most one leader, and the flag is up as long as there is one
  leader : s.log.poisoned = none → ∀ i, (s.threads i).Leader →
    s.log.syncInProgress = true ∧ ∀ j, (s.threads j).Leader → j = i
  -- poisoning drops the flag, but a leader elected afterwards does not close a target
  one : ∀ i j, (s.threads i).Committed → (s.threads j).Committed → i = j
  pc : ∀ i, PcOk initial s (s.threads i)
  durable_le : s.log.durableLsn ≤ s.log.readyLsn
  durable : Durable initial s s.log.durableLsn
  returned : ∀ t ∈ s.returned, Durable initial s t

section Sync

theorem new_syncInv (initial : ℕ) (file : LogFile) : SyncInv initial (new initial file) where
  leader _ _ h := h.elim
  one _ _ h := h.elim
  pc _ := trivial
  durable_le := le_rfl
  durable := .inl le_rfl
  returned _ h := by cases h

variable {pc : Pc}

/-- what a thread relies on is kept when the frontier moves, more fsyncs return and the durable frontier stays -/
theorem PcOk.mono (h : PcOk initial s pc) (hdurable : t.log.durableLsn = s.log.durableLsn)
    (hready : s.log.readyLsn ≤ t.log.readyLsn) (hpoison : s.log.poisoned.isSome → t.log.poisoned.isSome)
    (hsynced : ∀ began ∈ s.synced, began ∈ t.synced) : PcOk initial t pc := by
  cases pc with
  | abort => exact hpoison h
  | beginSync target syncTarget => exact ⟨hdurable ▸ h.1, h.2.trans hready⟩
  | inSync target syncTarget began => exact ⟨hdurable ▸ h.1, h.2.1.trans hready, h.2.2⟩
  | loadReady target syncTarget began | storeDurable target durableTarget began =>
    exact ⟨hdurable ▸ h.1, h.2.1.trans hready, h.2.2.1, hsynced _ h.2.2.2⟩
  | _ => trivial

theorem pcOk_of_quiet (h : ¬pc.Leader ∧ pc ≠ .abort) : PcOk initial s pc := by
  cases pc with
  | abort => exact absurd rfl h.2
  | beginSync target syncTarget | inSync target syncTarget began | loadReady target syncTarget began
  | storeDurable target durableTarget began => exact absurd trivial h.1
  | _ => trivial

/-- **Frame rule.** Nothing of the fsync changes: the threads that change hold nothing afterwards, the ready frontier
may move, and the manager may be poisoned. -/
theorem SyncInv.frame (h : SyncInv initial s) (hdurable : t.log.durableLsn = s.log.durableLsn)
    (hready : s.log.readyLsn ≤ t.log.readyLsn) (hpoison : s.log.poisoned.isSome → t.log.poisoned.isSome)
    (hflag : t.log.poisoned = none → t.log.syncInProgress = s.log.syncInProgress) (hsynced : t.synced = s.synced)
    (hreturned : t.returned = s.returned)
    (hthreads : ∀ j, t.threads j = s.threads j ∨ ¬(t.threads j).Leader ∧ t.threads j ≠ .abort) : SyncInv initial t := by
  have hsub : ∀ began ∈ s.synced, began ∈ t.synced := fun _ hb => hsynced ▸ hb
  have hlead : ∀ j, (t.threads j).Leader → t.threads j = s.threads j :=
    fun j hj => (hthreads j).resolve_right fun hno => hno.1 hj
  have hdur : ∀ u, Durable initial s u → Durable initial t u :=
    fun u hu => hu.imp_right fun ⟨began, hb, hc⟩ => ⟨began, hsub began hb, hc⟩
  constructor
  · intro hp j hj
    have hnone : s.log.poisoned = none := by
      by_contra hsome
      have hsome' := hpoison (isSome_iff_ne_none.2 hsome)
      rw [hp] at hsome'
      cases hsome'
    obtain ⟨hup, hone⟩ := h.leader hnone j (hlead j hj ▸ hj)
    exact ⟨(hflag hp).trans hup, fun k hk => hone k (hlead k hk ▸ hk)⟩
  · exact fun j k hj hk => h.one j k (hlead j hj.leader ▸ hj) (hlead k hk.leader ▸ hk)
  · intro j
    rcases hthreads j with heq | hquiet
    · rw [heq]
      exact (h.pc j).mono hdurable hready hpoison hsub
    · exact pcOk_of_quiet hquiet
  · rw [hdurable]
    exact h.durable_le.trans hready
  · rw [hdurable]
    exact hdur _ h.durable
  · rw [hreturned]
    exact fun u hu => hdur u (h.returned u hu)

theorem goto_quiet (s : LogState) (i : ℕ) (hpc : ¬pc.Leader ∧ pc ≠ .abort) (j : ℕ) :
    (s.goto i pc).threads j = s.threads j ∨ ¬((s.goto i pc).threads j).Leader ∧ (s.goto i pc).threads j ≠ .abort := by
  rw [threads_goto]
  split_ifs
  · exact .inr hpc
  · exact .inl rfl

theorem goto_cases {P : Pc → Prop} {j : ℕ} (h : P ((s.goto i pc).threads j)) :
    (j = i ∧ P pc) ∨ (j ≠ i ∧ P (s.threads j)) := by
  rw [threads_goto] at h
  split_ifs at h with hj
  · exact .inl ⟨hj, h⟩
  · exact .inr ⟨hj, h⟩

section

variable (h : SyncInv initial s)

include h

/-- **A step of one thread.** It may become a leader if the flag is up and there is no other one, and who closes a
target does so before the manager is poisoned. -/
theorem SyncInv.goto
    (hlead : pc.Leader → s.log.poisoned = none → s.log.syncInProgress = true ∧ ∀ j, (s.threads j).Leader → j = i)
    (hcommit : pc.Committed → (s.threads i).Committed ∨ s.log.poisoned = none) (hpc : PcOk initial s pc) :
    SyncInv initial (s.goto i pc) := by
  have hleader : s.log.poisoned = none → ∀ j, ((s.goto i pc).threads j).Leader →
      s.log.syncInProgress = true ∧ ∀ k, ((s.goto i pc).threads k).Leader → k = j := by
    intro hp j hj
    by_cases hl : pc.Leader
    · obtain ⟨hup, hone⟩ := hlead hl hp
      have honly : ∀ k, ((s.goto i pc).threads k).Leader → k = i :=
        fun k hk => (goto_cases hk).elim And.left fun hk => hone k hk.2
      exact ⟨hup, fun k hk => (honly k hk).trans (honly j hj).symm⟩
    · have hold : ∀ k, ((s.goto i pc).threads k).Leader → (s.threads k).Leader :=
        fun k hk => (goto_cases hk).elim (fun hk => absurd hk.2 hl) And.right
      obtain ⟨hup, hone⟩ := h.leader hp j (hold j hj)
      exact ⟨hup, fun k hk => hone k (hold k hk)⟩
  refine { h with leader := hleader, one := ?_, pc := ?_ }
  · intro j k hj hk
    -- without poison a leader is alone; with it, those who have closed a target had closed it before
    by_cases hp : s.log.poisoned = none
    · exact (hleader hp k hk.leader).2 j hj.leader
    · have hold : ∀ j, ((s.goto i pc).threads j).Committed → (s.threads j).Committed := by
        intro j hj
        rcases goto_cases hj with ⟨rfl, hpc⟩ | ⟨-, hj⟩
        · exact (hcommit hpc).resolve_right hp
        · exact hj
      exact h.one j k (hold j hj) (hold k hk)
  · intro j
    rw [threads_goto]
    split_ifs
    · exact hpc
    · exact h.pc j

theorem SyncInv.goto_committed (hi : (s.threads i).Committed) (hpc : PcOk initial s pc) :
    SyncInv initial (s.goto i pc) :=
  h.goto (fun _ hp => h.leader hp i hi.leader) (fun _ => .inl hi) hpc

theorem SyncInv.flag {up : Bool} (hup : s.log.poisoned = none → ∀ j, (s.threads j).Leader → up = true) :
    SyncInv initial { s with log.syncInProgress := up } :=
  { h with
    leader := fun hp j hj => ⟨hup hp j hj, (h.leader hp j hj).2⟩
    pc := fun j => (h.pc j).mono rfl le_rfl id fun _ => id }

/-- **Election.** The flag was down, so there was no leader. -/
theorem SyncInv.elect (i target : ℕ) (hdown : s.log.syncInProgress = false) :
    SyncInv initial { s.goto i (.close target) with log.syncInProgress := true } := by
  refine (h.flag fun _ _ _ => rfl).goto (fun _ hp => ⟨rfl, fun j hj => ?_⟩) False.elim trivial
  cases hdown.symm.trans (h.leader hp j hj).1

/-- **Lowering the flag.** The leader does it last, and a thread that gave up finds the manager poisoned. -/
theorem SyncInv.lower (hpc : pc.Plain) (hi : s.threads i = .abort ∨ ∃ target, s.threads i = .release target) :
    SyncInv initial { s.goto i pc with log.syncInProgress := false } := by
  have hgoto : SyncInv initial (s.goto i pc) := h.frame rfl le_rfl id (fun _ => rfl) rfl rfl (goto_quiet s i hpc.quiet)
  refine hgoto.flag fun hp j hj => ?_
  change s.log.poisoned = none at hp
  rcases goto_cases hj with ⟨-, hj⟩ | ⟨hji, hj⟩
  · exact absurd hj hpc.quiet.1
  · rcases hi with hi | ⟨target, hi⟩
    · have hsome : s.log.poisoned.isSome := by
        have hok := h.pc i
        rwa [hi] at hok
      rw [hp] at hsome
      cases hsome
    · have hlead : (s.threads i).Leader := by
        rw [hi]
        trivial
      exact absurd ((h.leader hp i hlead).2 j hj) hji

/-- an fsync returns Ok -/
theorem SyncInv.sync (began : FsyncBegin) : SyncInv initial { s with synced := began :: s.synced } where
  leader := h.leader
  one := h.one
  pc j := (h.pc j).mono rfl le_rfl id fun _ hb => mem_cons_of_mem _ hb
  durable_le := h.durable_le
  durable := h.durable.imp_right fun ⟨b, hb, hc⟩ => ⟨b, mem_cons_of_mem _ hb, hc⟩
  returned t ht := (h.returned t ht).imp_right fun ⟨b, hb, hc⟩ => ⟨b, mem_cons_of_mem _ hb, hc⟩

/-- **Publication.** The durable frontier moves to the target of the only thread that has closed one. -/
theorem SyncInv.store {target durableTarget : ℕ} {began : FsyncBegin}
    (hi : s.threads i = .storeDurable target durableTarget began) :
    SyncInv initial { s.goto i (.release target) with log.durableLsn := durableTarget } := by
  have hok := h.pc i
  rw [hi] at hok
  obtain ⟨-, hready, hcov, hmem⟩ := hok
  have hcommit : (s.threads i).Committed := by
    rw [hi]
    trivial
  have hgoto : SyncInv initial (s.goto i (.release target)) :=
    h.goto (fun _ hp => h.leader hp i hcommit.leader) False.elim trivial
  have hnone : ∀ j, ¬((s.goto i (.release target)).threads j).Committed := by
    intro j hj
    rcases goto_cases hj with ⟨-, hj⟩ | ⟨hji, hj⟩
    · exact hj
    · exact hji (h.one j i hj hcommit)
  constructor
  · exact hgoto.leader
  · exact fun j k hj => absurd hj (hnone j)
  · -- until a thread has closed a target it relies on nothing but the poison it found
    intro j
    have hj := hnone j
    have hpc := hgoto.pc j
    cases hat : (s.goto i (.release target)).threads j with
    | abort => rwa [hat] at hpc
    | beginSync | inSync | loadReady | storeDurable => exact absurd (hat ▸ trivial) hj
    | _ => trivial
  · exact hready
  · exact .inr ⟨began, hmem, hcov⟩
  · exact h.returned

end

theorem SyncInv.step (hslots : SlotInv initial s) (h : SyncInv initial s) (hstep : Stepped s i t) :
    SyncInv initial t ∧ s.log.durableLsn ≤ t.log.durableLsn := by
  have hok := h.pc i
  cases hstep with
  | stays => exact ⟨h, le_rfl⟩
  | plain pc hpc => exact ⟨h.frame rfl le_rfl id (fun _ => rfl) rfl rfl (goto_quiet s i hpc.quiet), le_rfl⟩
  | returns target ht =>
    have hidle : SyncInv initial (s.goto i .idle) :=
      h.frame rfl le_rfl id (fun _ => rfl) rfl rfl (goto_quiet s i ⟨id, by simp⟩)
    refine ⟨{ hidle with returned := fun u hu => ?_ }, le_rfl⟩
    rcases mem_cons.1 hu with rfl | hu
    · exact h.durable.mono ht
    · exact h.returned u hu
  | elected target hdown => exact ⟨h.elect i target hdown, le_rfl⟩
  | closed target hp hi =>
    refine ⟨h.goto (fun _ hp => h.leader hp i ?_) (fun _ => .inr hp) ⟨h.durable_le, le_rfl⟩, le_rfl⟩
    rw [hi]
    trivial
  | aborts hp => exact ⟨h.goto False.elim False.elim hp, le_rfl⟩
  | lowers pc hpc hi => exact ⟨h.lower hpc hi, le_rfl⟩
  | syncs target syncTarget hi =>
    rw [hi] at hok
    exact ⟨h.goto_committed (by rw [hi]; trivial) ⟨hok.1, hok.2, hslots.covers hok.2⟩, le_rfl⟩
  | synced target syncTarget began hi =>
    rw [hi] at hok
    refine ⟨(h.sync began).goto_committed ?_ ⟨hok.1, hok.2.1, hok.2.2, mem_cons_self⟩, le_rfl⟩
    rw [hi]
    trivial
  | syncFails target syncTarget began hi => exact ⟨h.goto_committed (by rw [hi]; trivial) trivial, le_rfl⟩
  | loads target syncTarget began hi =>
    rw [hi] at hok
    refine ⟨h.goto_committed ?_ ⟨le_min hok.1 h.durable_le, min_le_right _ _, hok.2.2.1.mono (min_le_left _ _),
      hok.2.2.2⟩, le_rfl⟩
    rw [hi]
    trivial
  | stores target durableTarget began hi =>
    rw [hi] at hok
    exact ⟨h.store hi, hok.1⟩
  | poisons reason slot _ =>
    cases slot with
    | none =>
      exact ⟨h.frame rfl le_rfl (fun _ => rfl) (fun hp => by cases hp) rfl rfl (goto_quiet s i ⟨id, by simp⟩), le_rfl⟩
    | some slot =>
      exact ⟨h.frame rfl le_rfl (fun _ => rfl) (fun hp => by cases hp) rfl rfl (goto_quiet s i ⟨id, by simp⟩), le_rfl⟩
  | duplicates log hdup => exact absurd hslots.not_duplicate hdup
  | reserves bytesLen _ => exact ⟨h.frame rfl le_rfl id (fun _ => rfl) rfl rfl fun _ => .inl rfl, le_rfl⟩
  | begins write _ _ _
  | ends write _ _ => exact ⟨h.frame rfl le_rfl id (fun _ => rfl) rfl rfl (goto_quiet s i ⟨id, by simp⟩), le_rfl⟩
  | writes write done n pc _ _ hpc =>
    have hquiet : ¬pc.Leader ∧ pc ≠ .abort := by
      rcases hpc with rfl | rfl
      · exact ⟨id, by simp⟩
      · exact ⟨id, by simp⟩
    exact ⟨h.frame rfl le_rfl id (fun _ => rfl) rfl rfl (goto_quiet s i hquiet), le_rfl⟩
  | marks slot slots ready hi _ hget hready =>
    exact ⟨h.frame rfl (hslots.marks hi hget hready).2 id (fun _ => rfl) rfl rfl fun _ => .inl rfl, le_rfl⟩

end Sync

/-! ## Runs -/

/-- what holds in every state -/
structure Frontier (initial : ℕ) (s : LogState) : Prop where
  tiles : Tiles initial s.log.nextLsn s.issued
  disjoint : s.issued.Pairwise fun x y => x.endLsn ≤ y.startLsn
  written : Covers initial ⟨s.file, s.written⟩ s.log.readyLsn
  durable_le_ready : s.log.durableLsn ≤ s.log.readyLsn
  ready_le_next : s.log.readyLsn ≤ s.log.nextLsn
  -- a slot whose write has not returned Ok, or that is still in the map and not poisoned, is not passed
  blocked : ∀ slot ∈ s.issued,
    (¬s.Recorded slot ∨ ∃ state, s.log.slots.get? slot.startLsn = some state ∧ ∀ e, state ≠ .poisoned e) →
      s.log.readyLsn ≤ slot.startLsn
  synced : ∀ t ∈ s.returned, Durable initial s t

/-- what holds between a state and a later one -/
structure Later (s t : LogState) : Prop where
  ready : s.log.readyLsn ≤ t.log.readyLsn
  durable : s.log.durableLsn ≤ t.log.durableLsn
  poisoned : s.log.poisoned.isSome → t.log.poisoned.isSome
  -- once a slot is poisoned the frontier stays where it is
  stuck : s.log.poisoned.isSome → t.log.readyLsn = s.log.readyLsn

theorem Stepped.poisoned (hs : SlotInv initial s) (h : Stepped s i t)
    (hp : s.log.poisoned.isSome) : t.log.poisoned.isSome ∧ t.log.readyLsn = s.log.readyLsn := by
  cases h with
  | poisons reason slot _ => cases slot <;> exact ⟨rfl, rfl⟩
  | duplicates log hdup => exact absurd hs.not_duplicate hdup
  | marks slot slots ready _ hnone _ _ =>
    rw [hnone] at hp
    cases hp
  | _ => exact ⟨hp, rfl⟩

theorem step_inv {a : ℕ × LogMove} (h : SlotInv initial s ∧ SyncInv initial s)
    (hstep : s.step a = some t) : (SlotInv initial t ∧ SyncInv initial t) ∧ Later s t := by
  have hstepped : Stepped s a.1 t := step_stepped hstep
  obtain ⟨hslots, hready⟩ := h.1.step hstepped
  obtain ⟨hsync, hdurable⟩ := h.2.step h.1 hstepped
  exact ⟨⟨hslots, hsync⟩, hready, hdurable, fun hp => (hstepped.poisoned h.1 hp).1,
    fun hp => (hstepped.poisoned h.1 hp).2⟩

theorem Later.refl (s : LogState) : Later s s := ⟨le_rfl, le_rfl, id, fun _ => rfl⟩

theorem Later.trans {u : LogState} (h : Later s t) (h' : Later t u) : Later s u :=
  ⟨h.ready.trans h'.ready, h.durable.trans h'.durable, fun hp => h'.poisoned (h.poisoned hp),
    fun hp => (h'.stuck (h.poisoned hp)).trans (h.stuck hp)⟩

theorem SlotInv.frontier (h : SlotInv initial s) (hs : SyncInv initial s) : Frontier initial s where
  tiles := h.tiles
  disjoint := h.tiles.ordered
  written := h.covers le_rfl
  durable_le_ready := hs.durable_le
  ready_le_next := h.bounds.2
  blocked slot hmem hslot := by
    by_contra hlt
    obtain ⟨hrec, hstate⟩ := h.passed slot hmem (not_le.1 hlt)
    rcases hslot with hno | ⟨state, hget, hne⟩
    · exact hno hrec
    · obtain ⟨e, he⟩ := hstate _ hget
      exact hne e he
  synced := hs.returned

/-- **The log frontier.** Let any number of threads take steps in any order from a new manager. In the state s they
reach, the ranges, the frontiers and the returns of `ensure_sync` are as they should be. In every state t reached from s
the frontiers have not moved back, and if s has a poisoned slot, the ready frontier has not moved at all. -/
theorem frontier_holds {initial : ℕ} {file : LogFile} {l : List (ℕ × LogMove)} {s : LogState}
    (hrun : run step (new initial file) l = some s) :
    Frontier initial s ∧ ∀ l' t, run step s l' = some t → s.log.readyLsn ≤ t.log.readyLsn ∧
      s.log.durableLsn ≤ t.log.durableLsn ∧
      ∀ k e, s.log.slots.get? k = some (.poisoned e) → t.log.readyLsn = s.log.readyLsn := by
  have hinv : SlotInv initial s ∧ SyncInv initial s :=
    run_invariant_all (I := fun s => SlotInv initial s ∧ SyncInv initial s) (fun s a t h hs => (step_inv h hs).1)
      ⟨new_slotInv initial file, new_syncInv initial file⟩ hrun
  refine ⟨hinv.1.frontier hinv.2, fun l' t hrun' => ?_⟩
  have hlater : Later s t :=
    run_relates (I := fun s => SlotInv initial s ∧ SyncInv initial s) (C := fun _ _ => True) Later.refl
      (fun s t u => Later.trans) (fun s a t h _ hs => step_inv h hs) hinv (along_true s l') hrun'
  exact ⟨hlater.ready, hlater.durable, fun k e he => hlater.stuck (hinv.1.poisoned k e he)⟩

/-- Two threads: the second record is written first, in two parts. The first one becomes ready with it, and is
synced. -/
def twoWriters : List (ℕ × LogMove) :=
  let first : LogSlot := ⟨64, 65, 1⟩
  let second : LogSlot := ⟨65, 67, 2⟩
  [(0, .reserve 1), (1, .reserve 2), (1, .writeReserved ⟨second, [7, 8]⟩), (0, .writeReserved ⟨first, [9]⟩),
    (1, .writeAt 1 true), (0, .writeAt 1 true), (1, .writeAt 1 true), (1, .finishWrite), (1, .markWritten second),
    (0, .finishWrite), (0, .markWritten first), (1, .ensureSync 67), (1, .next), (1, .next), (1, .next), (1, .next),
    (1, .next), (1, .next), (1, .fsyncReturns true), (1, .next), (1, .next), (1, .next), (1, .next)]

theorem frontier_holds_two_writers : ∃ s, run step (new 64 fun _ => 0) twoWriters = some s ∧ s.returned = [67] ∧
    s.log.readyLsn = 67 ∧ Frontier 64 s := by
  have hend : (run step (new 64 fun _ => 0) twoWriters).map (fun s => (s.returned, s.log.readyLsn)) =
      some ([67], 67) := by
    decide
  obtain ⟨s, hrun, hs⟩ := map_eq_some_iff.1 hend
  obtain ⟨hreturned, hready⟩ : _ ∧ _ := by simpa only [Prod.mk.injEq] using hs
  exact ⟨s, hrun, hreturned, hready, (frontier_holds hrun).1⟩

end LogState

end Mqlite.Journal
