/-
Publish order: what the sequencer guarantees in every run.

Publications come in the order of the slots, which is the order of the commit timestamps. A slot is published only when
every smaller one has been published or aborted; an aborted slot never is; and the frontier, which only grows, has
passed a timestamp only when every slot up to it is done.

A slot marked Ready is published at most once, and as soon as no smaller slot is still Pending. There are two
exceptions, both by design: a closure that returns an error takes its slot with it, and nothing is published after it
(`failed_forever`); and a poisoned sequencer leaves every slot where it is.

- `publish_order`: all of it, over every run from an opened engine.
- `ready_slot_lost`: why "exactly once" needs the exceptions.
-/
import Mqlite.Publish.SeqRun

namespace Mqlite.Publish

open Lib Mvcc List SeqState PublishSequencer

/-! ## What only grows -/

/-- t comes after s: the frontier has not gone back, and no publication or registration has been undone -/
structure Later (s t : SeqState) : Prop where
  frontier : s.seqr.publishedFrontier ≤ t.seqr.publishedFrontier
  published : s.published <:+ t.published
  registered : s.registered <:+ t.registered

theorem Later.refl (s : SeqState) : Later s s := ⟨le_rfl, suffix_rfl, suffix_rfl⟩

variable {s : SeqState}

theorem Later.trans {t u : SeqState} (h : Later s t) (h' : Later t u) : Later s u :=
  ⟨h.frontier.trans h'.frontier, h.published.trans h'.published, h.registered.trans h'.registered⟩

theorem later_advance (h : SeqInv s) : Later s (s.absorb (s.seqr.advanceWindowLocked s.published)) := by
  have hrule := advance_rule (P := fun g out => SeqInv { s with seqr := g, published := out } ∧
      s.seqr.publishedFrontier ≤ g.publishedFrontier ∧ s.published <:+ out)
    (fun g out k ts hI hget hk => by
      obtain ⟨hlt, hreg⟩ := hI.1.slots k _ hget
      have hts : g.publishedFrontier < ts := hI.1.ahead _ hreg hlt
      exact ⟨SeqInv.publish hI.1 hget hk, hI.2.1.trans hts.le, hI.2.2.trans (suffix_cons _ _)⟩)
    (fun g out k ts hI hget hk => ⟨SeqInv.skip hI.1 hget hk, hI.2⟩)
    s.seqr s.published ⟨h, le_rfl, suffix_rfl⟩
  generalize s.seqr.advanceWindowLocked s.published = r at hrule
  rcases hrule with ⟨-, rfl⟩ | ⟨-, hI, -⟩ | ⟨-, g, ts, hI, -, hr⟩
  · exact ⟨le_rfl, suffix_rfl, suffix_rfl⟩
  · exact ⟨hI.2.1, hI.2.2, suffix_rfl⟩
  · refine ⟨?_, hI.2.2, suffix_rfl⟩
    simp only [absorb, hr]
    exact hI.2.1

theorem later_markReady (h : SeqInv s) {q : ℕ} (hq : q ∈ s.guards) (b : Bool) : Later s (s.markReady q b) := by
  cases hp : s.seqr.poisoned with
  | true => rw [markReady_poisoned hp]; exact ⟨le_rfl, suffix_rfl, suffix_rfl⟩
  | false =>
    rw [markReady_eq h hp hq]
    obtain ⟨h1, h2, h3⟩ := later_advance (h.mark hq (.inl ⟨b, rfl, rfl, rfl⟩))
    exact ⟨h1, h2, h3⟩

theorem later_markAborted (h : SeqInv s) {q : ℕ} (hq : q ∈ s.guards) : Later s (s.markAborted q) := by
  cases hp : s.seqr.poisoned with
  | true => rw [markAborted_poisoned hp]; exact ⟨le_rfl, suffix_rfl, suffix_rfl⟩
  | false =>
    rw [markAborted_eq hp]
    obtain ⟨h1, h2, h3⟩ := later_advance (h.mark hq (.inr ⟨rfl, rfl, rfl⟩))
    exact ⟨h1, h2, h3⟩

theorem later_register (s : SeqState) (wall : UInt64) : Later s (s.register wall) := by
  rcases s.register_cases wall with heq | ⟨ts, -, -, heq⟩ | ⟨ts, -, -, -, -, heq⟩
  · rw [heq]; exact Later.refl s
  · rw [heq]; exact ⟨le_rfl, suffix_rfl, suffix_rfl⟩
  · rw [heq]; exact ⟨le_rfl, suffix_rfl, suffix_cons _ _⟩

theorem later_step (s : SeqState) (a : SeqAct) (s' : SeqState) (h : SeqInv s) (hs : s.step a = some s') :
    Later s s' := by
  cases a with
  | register wall => cases hs; exact later_register s wall
  | markReady q b =>
    simp only [step] at hs
    split_ifs at hs with hq
    cases hs; exact later_markReady h hq b
  | markAborted q | dropGuard q =>
    simp only [step] at hs
    split_ifs at hs with hq
    cases hs; exact later_markAborted h hq
  | wake => cases hs; exact later_advance h
  | poison => cases hs; exact ⟨le_rfl, suffix_rfl, suffix_rfl⟩

theorem later_run {s' : SeqState} {l : List SeqAct} (h : SeqInv s ∧ AtRest s) (hr : run step s l = some s') :
    Later s s' :=
  run_relates (I := fun s => SeqInv s ∧ AtRest s) (C := fun _ _ => True) Later.refl (fun _ _ _ => Later.trans)
    (fun s a t hI _ hs => ⟨seqInv_step s a t hI hs, later_step s a t hI.1 hs⟩) h (along_true s l) hr

/-! ## Consequences of the invariant -/

namespace SeqInv

variable {s : SeqState}

theorem published_order (h : SeqInv s) :
    s.published.Pairwise fun newer older => older.1 < newer.1 ∧ older.2 < newer.2 := by
  refine h.sorted.imp_of_mem fun {p r} hp hr hlt => ⟨hlt, ?_⟩
  rcases h.compare (h.published p hp).1 (h.published r hr).1 with rfl | ⟨h1, -⟩ | ⟨-, h2⟩
  · exact absurd hlt (lt_irrefl _)
  · exact absurd (h1.trans hlt) (lt_irrefl _)
  · exact h2

/-- a Ready slot that is not published waits for a smaller one, or the sequencer has stopped for good -/
theorem ready_published (h : SeqInv s) (hrest : AtRest s) {q : ℕ} (hq : q ∈ s.readied) :
    (∃ t, (q, t) ∈ s.published) ∨ (∃ p ∈ s.registered, p.1 < q ∧ p.1 ∉ s.readied ∧ p.1 ∉ s.aborted) ∨
      s.failed = true ∨ s.seqr.poisoned = true := by
  by_contra hcon
  simp only [not_or, not_exists, not_and, Bool.not_eq_true] at hcon
  obtain ⟨hpub, hwait, hfail, hpoison⟩ := hcon
  obtain ⟨u, hu⟩ := h.marked q (.inl hq)
  by_cases hle : q ≤ s.seqr.lastPublished
  · rcases h.done _ hu hle with hp | ha
    · exact hpub u hp
    · exact h.exclusive q hq ha
  · -- the slot at the window is registered and resident, so it is Pending
    have hlt := (h.issued _ hu).1
    obtain ⟨t, ht⟩ := h.dense (s.seqr.lastPublished + 1) (by omega) (by omega)
    rcases h.resident _ ht (by simp) with ⟨st, hst⟩ | ⟨hf, -, -⟩
    · have hst' := hrest hpoison hfail _ hst
      simp only at hst'
      rw [hst'] at hst
      have hfresh := h.fresh _ _ hst
      have hne : s.seqr.lastPublished + 1 ≠ q := fun he => hfresh.1 (he ▸ hq)
      exact hwait _ ht (by simp only; omega) hfresh.1 hfresh.2
    · rw [hfail] at hf; cases hf

end SeqInv

/-! ## After a failed closure -/

/-- a window whose next slot is missing does not move -/
theorem advance_stuck (h : SeqInv s) (hf : s.failed = true) : (s.seqr.advanceWindowLocked s.published).seqr = s.seqr ∧
      (s.seqr.advanceWindowLocked s.published).published = s.published := by
  unfold advanceWindowLocked
  split_ifs with hp
  · exact ⟨rfl, rfl⟩
  · cases hl : s.seqr.pending.entries with
    | nil => exact ⟨rfl, rfl⟩
    | cons p l =>
      have hne : p.1 ≠ s.seqr.next := fun he => by
        have hget : s.seqr.pending.get? p.1 = some p.2 := OrdMap.get?_eq_some_iff.2 (hl ▸ mem_cons_self)
        rw [he, h.next_eq, (h.stuck hf).1] at hget
        cases hget
      simp [advanceLoop, hne]

theorem failed_step (s : SeqState) (a : SeqAct) (s' : SeqState) (h : SeqInv s) (hf : s.failed = true)
    (hs : s.step a = some s') : s'.failed = true ∧ s'.published = s.published := by
  cases a with
  | register wall =>
    cases hs
    rcases s.register_cases wall with heq | ⟨ts, -, -, heq⟩ | ⟨ts, -, -, -, -, heq⟩ <;> rw [heq] <;> exact ⟨hf, rfl⟩
  | wake => cases hs; exact ⟨by simp [absorb, hf], (advance_stuck h hf).2⟩
  | poison => cases hs; exact ⟨hf, rfl⟩
  | markReady q b =>
    simp only [step] at hs
    split_ifs at hs with hq
    cases hs
    cases hp : s.seqr.poisoned with
    | true => rw [markReady_poisoned hp]; exact ⟨hf, rfl⟩
    | false =>
      rw [markReady_eq h hp hq]
      exact ⟨by simp [absorb, hf], (advance_stuck (h.mark hq (.inl ⟨b, rfl, rfl, rfl⟩)) hf).2⟩
  | _ q =>
    simp only [step] at hs
    split_ifs at hs with hq
    cases hs
    cases hp : s.seqr.poisoned with
    | true => rw [markAborted_poisoned hp]; exact ⟨hf, rfl⟩
    | false =>
      rw [markAborted_eq hp]
      exact ⟨by simp [absorb, hf], (advance_stuck (h.mark hq (.inr ⟨rfl, rfl, rfl⟩)) hf).2⟩

/-- **Nothing after a failure.** Once a publish closure has returned an error, no run publishes anything more. -/
theorem failed_forever {s' : SeqState} {l : List SeqAct} (h : SeqInv s ∧ AtRest s) (hf : s.failed = true)
    (hr : run step s l = some s') : s'.published = s.published := by
  have hI := run_invariant_all (I := fun t => (SeqInv t ∧ AtRest t) ∧ t.failed = true ∧ t.published = s.published)
    (fun t a u hI hs => ⟨seqInv_step t a u hI.1 hs, (failed_step t a u hI.1.1 hI.2.1 hs).1,
      (failed_step t a u hI.1.1 hI.2.1 hs).2.trans hI.2.2⟩) ⟨h, hf, rfl⟩ hr
  exact hI.2.2

/-! ## Main result -/

/-- **Publish order.** In every run from an opened engine (the oracle at or above the recovered frontier, slot numbers
from 1 on), at every later state s': publications are in strictly increasing slot and timestamp order; a published slot
was marked Ready, not Aborted, and when it was published every smaller slot had been published or aborted; a Ready slot
is published unless a smaller slot is still Pending, a closure has failed or the engine is poisoned; neither the
frontier nor the list of publications has gone back since any earlier state s; and every slot up to the frontier is
published or aborted. -/
theorem publish_order (frontier oracle : Ts) (nextSeq : ℕ) (h1 : 1 ≤ nextSeq) (h2 : nextSeq < 2 ^ 64)
    (h3 : frontier ≤ oracle) (l l' : List SeqAct) (s s' : SeqState)
    (hr : run SeqState.step (SeqState.opened frontier oracle nextSeq) l = some s)
    (hr' : run SeqState.step s l' = some s') :
    (s'.published.Pairwise fun newer older => older.1 < newer.1 ∧ older.2 < newer.2) ∧
    (∀ newer q t older, s'.published = newer ++ (q, t) :: older → q ∈ s'.readied ∧ q ∉ s'.aborted ∧
      ∀ p ∈ s'.registered, p.1 < q → p ∈ older ∨ p.1 ∈ s'.aborted) ∧
    (∀ q ∈ s'.readied, (∃ t, (q, t) ∈ s'.published) ∨
      (∃ p ∈ s'.registered, p.1 < q ∧ p.1 ∉ s'.readied ∧ p.1 ∉ s'.aborted) ∨ s'.failed = true ∨
        s'.seqr.poisoned = true) ∧
    (s.seqr.publishedFrontier ≤ s'.seqr.publishedFrontier ∧ s.published <:+ s'.published) ∧
    (∀ p ∈ s'.registered, p.2 ≤ s'.seqr.publishedFrontier → p ∈ s'.published ∨ p.1 ∈ s'.aborted) := by
  have hs := seqInv_run (seqInv_opened h1 h2 h3) hr
  obtain ⟨hI, hrest⟩ := seqInv_run hs hr'
  have hlater := later_run hs hr'
  refine ⟨hI.published_order, fun newer q t older heq => ?_, fun q hq => hI.ready_published hrest hq,
    ⟨hlater.frontier, hlater.published⟩,
    fun p hp hle => hI.done p hp (not_lt.1 fun hlt => absurd hle (not_le.2 (hI.ahead p hp hlt)))⟩
  have hread := (hI.published (q, t) (by simp [heq])).2.2
  refine ⟨hread, hI.exclusive q hread, fun r hr hlt => ?_⟩
  have hsorted := hI.sorted
  have hpm := hI.published (q, t) (by simp [heq])
  refine (hI.done r hr (hlt.le.trans hpm.2.1)).imp_left fun hrp => ?_
  -- r was published too, and being smaller it was published before
  rw [heq] at hrp hsorted
  rcases mem_append.1 hrp with hnew | hrest
  · exact absurd ((pairwise_append.1 hsorted).2.2 r hnew _ mem_cons_self) (by omega)
  · rcases mem_cons.1 hrest with rfl | hold
    · exact absurd hlt (lt_irrefl _)
    · exact hold

/-- three writers; the second marks its slot Ready first, the first one aborts, and the second is published -/
theorem publish_order_three_writers :
    ∃ s s', run SeqState.step (SeqState.opened ⟨3, 0⟩ ⟨3, 1⟩ 1) [.register 5, .register 5, .register 6,
      .markReady 2 true] = some s ∧
      run SeqState.step s [.markAborted 1, .wake] = some s' ∧ s'.published = [(2, ⟨5, 1⟩)] ∧
      (∀ p ∈ s'.registered, p.2 ≤ s'.seqr.publishedFrontier → p ∈ s'.published ∨ p.1 ∈ s'.aborted) :=
  ⟨_, _, rfl, rfl, by decide, (publish_order ⟨3, 0⟩ ⟨3, 1⟩ 1 (by decide) (by decide) (by decide)
    [.register 5, .register 5, .register 6, .markReady 2 true] [.markAborted 1, .wake] _ _ rfl rfl).2.2.2.2⟩

/-- **A Ready slot is lost.** The only writer marks its slot Ready and its publish closure returns an error. Every slot
has been marked, no guard is left, and whatever happens next, the slot is never published. -/
theorem ready_slot_lost :
    ∃ s, run SeqState.step (SeqState.opened ⟨3, 0⟩ ⟨3, 1⟩ 1) [.register 5, .markReady 1 false] = some s ∧
      s.readied = [1] ∧ s.guards = [] ∧ ∀ l s', run SeqState.step s l = some s' → ∀ t, (1, t) ∉ s'.published := by
  have hinit := @seqInv_opened ⟨3, 0⟩ ⟨3, 1⟩ 1 (by decide) (by decide) (by decide)
  obtain ⟨s, hs, hready, hguards, hpub, hf⟩ : ∃ s, run step (opened ⟨3, 0⟩ ⟨3, 1⟩ 1)
      [.register 5, .markReady 1 false] = some s ∧ s.readied = [1] ∧ s.guards = [] ∧ s.published = [] ∧
        s.failed = true :=
    ⟨_, rfl, by decide, by decide, by decide, by decide⟩
  refine ⟨s, hs, hready, hguards, fun l s' hr t ht => ?_⟩
  rw [failed_forever (seqInv_run hinit hs) hf hr, hpub] at ht
  cases ht

end Mqlite.Publish
