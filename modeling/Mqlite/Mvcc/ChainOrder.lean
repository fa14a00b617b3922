/-
Version-chain well-formedness, and exactly when installs and flips keep it.

`WellFormed c` is what the comments of the source expect of a chain: at most one live entry is current, live entries
start in strictly descending order from the front, and each ends exactly where the next newer one starts.

The code does not keep this in every interleaving:
- `install_stacks_out_of_order`: an install goes on top of a head with a later start (commit timestamps are given out
  before the install, and neither a secondary install nor an insert over a tombstone compares them);
- `abort_in_the_middle`: aborting a Pending entry that has live entries both in front of it and behind it makes the
  entry behind it current again, although newer entries are still there.

`InOrder` is the exact condition on a step, read off the state before it (`wellFormed_step`): an install that proceeds
finds a head that starts earlier, and an aborted entry is the first or the last live entry. `chain_wellFormed` concludes
for whole runs.
-/
import Mqlite.Mvcc.ChainRun

namespace Mqlite.Mvcc

open Lib List ChainState VersionEntry

/-! ## Well-formed chains -/

/-- at most one live entry is current, live entries descend, and each ends where the next newer one starts -/
def WellFormed (c : Chain) : Prop :=
  ((live c).filter fun e => e.stopTs = Ts.MAX).length ≤ 1 ∧
  (live c).Pairwise (fun newer older => older.startTs < newer.startTs) ∧
  (live c).IsChain fun newer older => older.stopTs = newer.startTs

instance (c : Chain) : Decidable (WellFormed c) := inferInstanceAs (Decidable (_ ∧ _ ∧ _))

/-- a chain of the usual shape is well formed exactly when its live entries tile the time up to infinity -/
theorem wellFormed_iff_linked {c : Chain} (h : Stacked c) : WellFormed c ↔ Linked startTs stopTs Ts.MAX (live c) := by
  constructor
  · rintro ⟨-, hdesc, hch⟩
    refine linked_of_isChain (fun e he => ?_) hdesc hch
    have hanc := h.anchored
    cases hl : live c with
    | nil => rw [hl] at he; cases he
    | cons d l =>
      rw [hl] at he hanc
      cases he
      exact ⟨hanc.head_stop, h.finite e (mem_live.1 (hl ▸ mem_cons_self)).1⟩
  · intro hl
    refine ⟨?_, hl.pairwise, hl.isChain⟩
    cases he : live c with
    | nil => simp
    | cons e l =>
      rw [he] at hl
      have hno : l.filter (fun d => decide (d.stopTs = Ts.MAX)) = [] :=
        filter_eq_nil_iff.2 fun d hd => by simpa using hl.stop_ne_top hd
      rw [filter_cons, hno]
      split_ifs <;> simp

/-! ## The condition -/

/-- the transaction's Pending entry, if there is one, is the first or the last live entry -/
def AtAnEnd (t : TxnId) (c : Chain) : Prop :=
  ∀ e ∈ live c, e.state = .pending t → (live c).head? = some e ∨ (live c).getLast? = some e

instance (t : TxnId) (c : Chain) : Decidable (AtAnEnd t c) := inferInstanceAs (Decidable (∀ e ∈ live c, _))

/-- an install that proceeds finds a head that starts earlier; an aborted entry is at an end of the live entries -/
def InOrder (key : Key) (s : ChainState) : ChainAct → Prop
  | .install t ts scope expectedHead _ =>
    classifyDeltaInstall s.chain expectedHead scope key t = .ok .proceed → ∀ head ∈ liveHead s.chain, head.startTs < ts
  | .commit _ => True
  | .abort t => AtAnEnd t s.chain

instance (key : Key) (s : ChainState) : (a : ChainAct) → Decidable (InOrder key s a)
  | .install _ _ _ _ _ => inferInstanceAs (Decidable (_ → _))
  | .commit _ => inferInstanceAs (Decidable True)
  | .abort _ => inferInstanceAs (Decidable (AtAnEnd _ _))

/-! ## One step -/

theorem linked_push_iff {c : Chain} (h : Stacked c) {ts : Ts} (hmax : ts < Ts.MAX) {t : TxnId} {op : WriteOp}
    (hl : Linked startTs stopTs Ts.MAX (live c)) :
    Linked startTs stopTs Ts.MAX (live (pushPending c ts t op)) ↔ ∀ head ∈ liveHead c, head.startTs < ts := by
  rw [live_pushPending, supersede_live h, liveHead_eq_head? h]
  cases he : live c with
  | nil => simp [Linked, pendingEntry, hmax]
  | cons e l =>
    rw [he] at hl
    have hrest : Linked startTs stopTs e.startTs l := hl.2.2
    simp [Linked, pendingEntry, hmax, hrest]

theorem linked_abort_iff {c : Chain} (h : Stacked c) (t : TxnId) (hl : Linked startTs stopTs Ts.MAX (live c)) :
    Linked startTs stopTs Ts.MAX (live (flipPendingInChain c t none)) ↔ AtAnEnd t c := by
  rcases h.abort_cases t with ⟨hno, heq⟩ | ⟨pre, p, post, rfl, hs, -, hpre, hpost, heq⟩
  · rw [heq]
    exact ⟨fun _ e he hp => absurd hp (hno e (mem_live.1 he).1), fun _ => hl⟩
  · have hlive : live (pre ++ p :: post) = live pre ++ p :: live post := by
      rw [live_append, live_cons_of_live (by simp [hs])]
    have hflip : live (flipPendingInChain (pre ++ p :: post) t none) = live pre ++
        restorePreviousHeadAfterAbort p.startTs (live post) := by
      rw [heq, live_append, live_cons_of_aborted rfl, live_restore]
    -- p is the only Pending entry of t, so its position decides
    have hend : AtAnEnd t (pre ++ p :: post) ↔ live pre = [] ∨ live post = [] := by
      have hlt := fun e (he : e ∈ live pre) => hpre e (mem_live.1 he).1
      have hgt := fun e (he : e ∈ live post) => hpost e (mem_live.1 he).1
      rw [AtAnEnd, hlive]
      constructor
      · intro hend
        rcases hend p (mem_append_right _ mem_cons_self) hs with h1 | h1
        · left
          cases hA : live pre with
          | nil => rfl
          | cons a A =>
            rw [hA] at h1 hlt
            exact absurd (Option.some.inj h1 ▸ hs) (hlt a mem_cons_self)
        · right
          cases hB : live post using List.reverseRecOn with
          | nil => rfl
          | append_singleton B b =>
            rw [hB] at h1 hgt
            rw [← cons_append, ← append_assoc, getLast?_concat] at h1
            exact absurd (Option.some.inj h1 ▸ hs) (hgt b (by simp))
      · intro hor e he hp
        have hep : e = p := by
          rcases mem_append.1 he with he | he
          · exact absurd hp (hlt e he)
          · rcases mem_cons.1 he with he | he
            · exact he
            · exact absurd hp (hgt e he)
        subst hep
        rcases hor with h1 | h1
        · left; rw [h1]; rfl
        · right; rw [h1, getLast?_concat]
    rw [hend, hflip]
    rw [hlive] at hl
    constructor
    · intro hl'
      cases hA : live pre with
      | nil => exact .inl rfl
      | cons a A =>
        right
        cases hB : live post with
        | nil => rfl
        | cons b B =>
          -- the restored entry is current again behind a
          rw [hA, hB] at hl hl'
          have hb : b.stopTs = p.startTs := (hl.append_right).2.2.1
          have hbl : b.state ≠ .aborted := (mem_live.1 (hB ▸ mem_cons_self)).2
          rw [restorePreviousHeadAfterAbort, if_pos ⟨hbl, hb⟩] at hl'
          exact absurd rfl (hl'.stop_ne_top (mem_append_right _ mem_cons_self))
    · rintro (hA | hB)
      · rw [hA] at hl ⊢
        cases hB : live post with
        | nil => trivial
        | cons b B =>
          rw [hB] at hl
          have hbl : b.state ≠ .aborted := (mem_live.1 (hB ▸ mem_cons_self)).2
          rw [restorePreviousHeadAfterAbort, if_pos ⟨hbl, hl.2.2.1⟩]
          exact ⟨rfl, hl.2.2.2.1.trans hl.2.1, hl.2.2.2.2⟩
      · rw [hB] at hl ⊢
        rw [restorePreviousHeadAfterAbort, append_nil]
        exact hl.append_left

/-- **One step, exactly.** From a well-formed chain a step leads to a well-formed chain if and only if it is in
order. -/
theorem wellFormed_step {key : Key} {s s' : ChainState} {a : ChainAct} (h : ChainInv s) (hwf : WellFormed s.chain)
    (hs : step key s a = some s') : WellFormed s'.chain ↔ InOrder key s a := by
  have h' := chainInv_step s a s' h hs
  rw [wellFormed_iff_linked h'.stacked]
  rw [wellFormed_iff_linked h.stacked] at hwf
  rcases step_cases h hs with
    ⟨t, ts, scope, expectedHead, op, rfl, -, -, hmax, ⟨href, rfl⟩ | ⟨-, hproceed, rfl⟩⟩ | ⟨t, ts, rfl, hp, rfl⟩ |
    ⟨t, ts, rfl, -, rfl⟩ | ⟨t, ha, hp, rfl⟩
  · -- refused: the chain is unchanged, and the condition asks nothing
    refine iff_of_true hwf fun hproceed => ?_
    rw [noEffect, hproceed] at href
    cases href
  · rw [linked_push_iff h.stacked hmax hwf]
    exact ⟨fun hh _ => hh, fun hh => hh hproceed⟩
  · refine iff_of_true ?_ trivial
    have hst : ∀ e ∈ live s.chain, e.state = .pending t → e.startTs = ts := fun e he hpend => by
      have := h.pending e (mem_live.1 he).1 t hpend
      rw [hp] at this; exact (ChainPhase.installed.inj this).symm
    rw [live_flip_committed, map_congr_left fun e he => commitEntry_eq (hst e he)]
    refine hwf.map ?_ ?_
    · exact fun _ => rfl
    · exact fun _ => rfl
  · exact linked_abort_iff h.stacked t hwf
  · refine iff_of_true hwf ?_
    rcases ha with rfl | rfl
    · trivial
    · intro e he hpend
      have := h.pending e (mem_live.1 he).1 t hpend
      rw [hp] at this; cases this

/-! ## Whole runs -/

/-- **Well-formedness.** In every run from an empty chain whose steps are all in order, every chain reached is well
formed; and from there the next step keeps it well formed exactly when it is in order too. -/
theorem chain_wellFormed (key : Key) (l : List ChainAct) (s : ChainState)
    (hl : Along (ChainState.step key) (InOrder key) ChainState.init l)
    (hr : run (ChainState.step key) ChainState.init l = some s) :
    WellFormed s.chain ∧ ∀ a s', ChainState.step key s a = some s' → (WellFormed s'.chain ↔ InOrder key s a) := by
  have hI : ChainInv s ∧ WellFormed s.chain :=
    run_invariant (I := fun s => ChainInv s ∧ WellFormed s.chain)
      (fun s a t hI hc hs => ⟨chainInv_step s a t hI.1 hs, (wellFormed_step hI.1 hI.2 hs).2 hc⟩)
      ⟨chainInv_init, by decide⟩ hl hr
  exact ⟨hI.2, fun a s' hs => wellFormed_step hI.1 hI.2 hs⟩

/-- an index key is inserted and committed; then two transactions that update its document both stage its deletion -/
def stackedActs : List ChainAct :=
  [.install 0 ⟨5, 0⟩ .secondary none (.insert [1]), .commit 0, .install 1 ⟨10, 0⟩ .secondary none .delete,
    .install 2 ⟨20, 0⟩ .secondary none .delete]

theorem chain_wellFormed_stacked :
    ∃ s, run (ChainState.step [7]) ChainState.init stackedActs = some s ∧ s.chain.length = 3 ∧ WellFormed s.chain ∧
      ∀ a s', ChainState.step [7] s a = some s' → (WellFormed s'.chain ↔ InOrder [7] s a) := by
  have hal : Along (step [7]) (InOrder [7]) init stackedActs := by decide
  have hrun : ∃ s, run (step [7]) init stackedActs = some s ∧ s.chain.length = 3 :=
    ⟨_, rfl, rfl⟩
  obtain ⟨s, hs, hlen⟩ := hrun
  exact ⟨s, hs, hlen, chain_wellFormed [7] stackedActs s hal hs⟩

/-- **Abort in the middle.** The three installs above are in order. Transaction 1 then loses the primary key to
transaction 2 and aborts: the entry behind its own becomes current again although a newer entry is there. -/
theorem abort_in_the_middle :
    ∃ s, run (ChainState.step [7]) ChainState.init (stackedActs ++ [.abort 1]) = some s ∧ ¬ WellFormed s.chain :=
  ⟨_, rfl, by decide⟩

/-- **Out-of-order install.** Transaction 1 has the earlier timestamp and installs second; the secondary path does not
compare timestamps. -/
theorem install_stacks_out_of_order : ∃ s, run (step [7]) init
      [.install 2 ⟨20, 0⟩ .secondary none .delete, .install 1 ⟨10, 0⟩ .secondary none .delete] = some s ∧
      ¬ WellFormed s.chain :=
  ⟨_, rfl, by decide⟩

end Mqlite.Mvcc
