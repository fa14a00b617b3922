/-
All that can happen to the chain of one key: any number of transactions install on it, through the primary or the
secondary path, and are flipped to Committed or to Aborted, in any order.

A transaction installs on the chain at most once (`install_pending_*` is called once per commit, and a second write of
the same key in that call is skipped as already installed), with a commit timestamp of its own. A refused install (a
write conflict, or a unique-prefix conflict of a secondary index, which leaves the chain alone) ends the transaction,
and a flip of a transaction that has ended finds nothing to flip.

`ChainInv`: in every state reached the chain is `Stacked`, its timestamps are used ones, and its Pending entries belong
to transactions that have installed and not finished (`chainInv_run`).
-/
import Mqlite.Lib.Run
import Mqlite.Mvcc.Stacked

namespace Mqlite.Mvcc

open Lib List Function

/-! ## Model -/

/-- where a transaction is with respect to the chain -/
inductive ChainPhase where
  | idle
  | installed (commitTs : Ts)
  | finished
deriving DecidableEq, Repr

structure ChainState where
  chain : Chain
  phase : TxnId → ChainPhase
  /-- the commit timestamps already given out -/
  used : List Ts

inductive ChainAct where
  | install (txnId : TxnId) (commitTs : Ts) (scope : InstallConflictScope) (expectedHead : Option ExpectedHead)
      (op : WriteOp)
  | commit (txnId : TxnId)
  | abort (txnId : TxnId)
deriving DecidableEq, Repr

def ChainAct.txnId : ChainAct → TxnId
  | .install t _ _ _ _ => t
  | .commit t => t
  | .abort t => t

namespace ChainState

/-- an empty chain nobody has touched -/
def init : ChainState := ⟨[], fun _ => .idle, []⟩

def step (key : Key) (s : ChainState) : ChainAct → Option ChainState
  | .install t ts scope expectedHead op =>
    if s.phase t = .idle ∧ ts ∉ s.used ∧ ts < Ts.MAX then
      match installOnChain s.chain expectedHead scope key ts t op with
      | .ok c => some ⟨c, Function.update s.phase t (.installed ts), ts :: s.used⟩
      | .error _ => some ⟨s.chain, Function.update s.phase t .finished, ts :: s.used⟩
    else none
  | .commit t =>
    match s.phase t with
    | .installed ts => some { s with
        chain := flipPendingInChain s.chain t (some ts), phase := Function.update s.phase t .finished }
    | .finished => some s
    | .idle => none
  | .abort t =>
    match s.phase t with
    | .installed _ => some { s with
        chain := flipPendingInChain s.chain t none, phase := Function.update s.phase t .finished }
    | .finished => some s
    | .idle => none

/-- the action has no effect on the chain: an install refused with a write conflict, or a flip with nothing to flip -/
def noEffect (key : Key) (s : ChainState) : ChainAct → Bool
  | .install t _ scope expectedHead _ => !(classifyDeltaInstall s.chain expectedHead scope key t).isOk
  | .commit t => s.phase t = .finished
  | .abort t => s.phase t = .finished

end ChainState

/-! ## What a step can do -/

/-- the invariant of one key's chain and its transactions -/
structure ChainInv (s : ChainState) : Prop where
  stacked : Stacked s.chain
  used : ∀ e ∈ s.chain, e.startTs ∈ s.used
  owner : ∀ e ∈ s.chain, s.phase e.txnId ≠ .idle
  pending : ∀ e ∈ s.chain, ∀ t, e.state = .pending t → s.phase t = .installed e.startTs
  /-- until it finishes, a transaction's entry is Pending -/
  open_ : ∀ e ∈ s.chain, ∀ ts, s.phase e.txnId = .installed ts → e.state = .pending e.txnId

variable {s : ChainState} {t : TxnId}

theorem ChainInv.not_pending (h : ChainInv s) (ht : s.phase t = .idle) {e : VersionEntry}
    (he : e ∈ s.chain) : e.state ≠ .pending t := fun hp => by
  have := h.pending e he t hp
  rw [ht] at this; cases this

namespace ChainState

variable {key : Key} {s s' : ChainState}

/-- inversion of a step from an invariant state -/
theorem step_cases (h : ChainInv s) {a : ChainAct} (hs : step key s a = some s') :
    (∃ t ts scope expectedHead op, a = .install t ts scope expectedHead op ∧ s.phase t = .idle ∧ ts ∉ s.used ∧
      ts < Ts.MAX ∧ ((noEffect key s a = true ∧ s' = ⟨s.chain, Function.update s.phase t .finished, ts :: s.used⟩) ∨
        (noEffect key s a = false ∧ classifyDeltaInstall s.chain expectedHead scope key t = .ok .proceed ∧
          s' = ⟨pushPending s.chain ts t op, Function.update s.phase t (.installed ts), ts :: s.used⟩))) ∨
    (∃ t ts, a = .commit t ∧ s.phase t = .installed ts ∧
      s' = ⟨flipPendingInChain s.chain t (some ts), Function.update s.phase t .finished, s.used⟩) ∨
    (∃ t ts, a = .abort t ∧ s.phase t = .installed ts ∧
      s' = ⟨flipPendingInChain s.chain t none, Function.update s.phase t .finished, s.used⟩) ∨
    (∃ t, (a = .commit t ∨ a = .abort t) ∧ s.phase t = .finished ∧ s' = s) := by
  cases a with
  | install t ts scope expectedHead op =>
    left
    simp only [step] at hs
    split_ifs at hs with hg
    obtain ⟨hidle, hfresh, hmax⟩ := hg
    have ht : ∀ e ∈ s.chain, e.state ≠ .pending t := fun e he => h.not_pending hidle he
    refine ⟨t, ts, scope, expectedHead, op, rfl, hidle, hfresh, hmax, ?_⟩
    rcases installOnChain_cases ht expectedHead scope key ts op with ⟨r, hc, hi⟩ | ⟨hc, hi⟩
    · rw [hi] at hs
      exact .inl ⟨by simp [noEffect, hc, Except.isOk, Except.toBool], (Option.some.inj hs).symm⟩
    · rw [hi] at hs
      exact .inr ⟨by simp [noEffect, hc, Except.isOk, Except.toBool], hc, (Option.some.inj hs).symm⟩
  | commit t =>
    simp only [step] at hs
    cases hp : s.phase t with
    | installed ts => rw [hp] at hs; exact .inr (.inl ⟨t, ts, rfl, hp, (Option.some.inj hs).symm⟩)
    | finished => rw [hp] at hs; exact .inr (.inr (.inr ⟨t, .inl rfl, hp, (Option.some.inj hs).symm⟩))
    | idle => rw [hp] at hs; cases hs
  | abort t =>
    simp only [step] at hs
    cases hp : s.phase t with
    | installed ts => rw [hp] at hs; exact .inr (.inr (.inl ⟨t, ts, rfl, hp, (Option.some.inj hs).symm⟩))
    | finished => rw [hp] at hs; exact .inr (.inr (.inr ⟨t, .inr rfl, hp, (Option.some.inj hs).symm⟩))
    | idle => rw [hp] at hs; cases hs

end ChainState

/-! ## The invariant holds in every run -/

theorem chainInv_init : ChainInv ChainState.init :=
  ⟨stacked_nil, by simp [ChainState.init], by simp [ChainState.init], by simp [ChainState.init],
    by simp [ChainState.init]⟩

/-- finishing a transaction that has no Pending entry left keeps the invariant -/
theorem ChainInv.finish {c : Chain} (h : ChainInv s) (hc : Stacked c)
    (hsrc : ∀ e ∈ c, ∃ d ∈ s.chain, d.startTs = e.startTs ∧ d.txnId = e.txnId ∧ (e.txnId ≠ t → d.state = e.state))
    (hno : ∀ e ∈ c, e.state ≠ .pending t) : ChainInv ⟨c, Function.update s.phase t .finished, s.used⟩ := by
  refine ⟨hc, fun e he => ?_, fun e he => ?_, fun e he u hu => ?_, fun e he ts hts => ?_⟩
  · obtain ⟨d, hd, hst, -, -⟩ := hsrc e he
    exact hst ▸ h.used d hd
  · obtain ⟨d, hd, -, htx, -⟩ := hsrc e he
    by_cases het : e.txnId = t
    · simp [het]
    · simp only [update_of_ne het]
      exact htx ▸ h.owner d hd
  · have hut : u ≠ t := fun heq => hno e he (heq ▸ hu)
    have htag := hc.tagged e he u hu
    obtain ⟨d, hd, hst, -, hstate⟩ := hsrc e he
    refine (update_of_ne hut _ _).trans ?_
    rw [← hst]
    exact h.pending d hd u ((hstate (htag ▸ hut)).trans hu)
  · by_cases het : e.txnId = t
    · rw [het] at hts; simp at hts
    · have hph : s.phase e.txnId = .installed ts := (update_of_ne het _ _).symm.trans hts
      obtain ⟨d, hd, -, htx, hstate⟩ := hsrc e he
      rw [← hstate het, ← htx]
      exact h.open_ d hd ts (htx ▸ hph)

theorem ChainInv.install (h : ChainInv s) {ts : Ts} (ht : s.phase t = .idle) (hts : ts ∉ s.used) (hmax : ts < Ts.MAX)
    (op : WriteOp) :
    ChainInv ⟨pushPending s.chain ts t op, Function.update s.phase t (.installed ts), ts :: s.used⟩ := by
  have hne : ∀ d ∈ s.chain, d.txnId ≠ t := fun d hd heq => h.owner d hd (heq ▸ ht)
  have hsrc : ∀ e ∈ pushPending s.chain ts t op, e = pendingEntry ts t op ∨
      ∃ d ∈ s.chain, ∃ x, e = { d with stopTs := x } := fun e he =>
    (mem_cons.1 he).imp_right (exists_of_forgetStop_eq (forgetStop_supersede ts s.chain))
  refine ⟨h.stacked.push (fun e he => h.not_pending ht he) ?_ hmax op, fun e he => ?_, fun e he => ?_,
    fun e he u hu => ?_, fun e he x hx => ?_⟩
  · intro hm
    obtain ⟨e, he, rfl⟩ := mem_map.1 hm
    exact hts (h.used e he)
  · rcases hsrc e he with rfl | ⟨d, hd, x, rfl⟩
    · exact mem_cons_self
    · exact mem_cons_of_mem _ (h.used d hd)
  · rcases hsrc e he with rfl | ⟨d, hd, x, rfl⟩
    · simp [pendingEntry]
    · simp only [update_of_ne (hne d hd)]
      exact h.owner d hd
  · rcases hsrc e he with rfl | ⟨d, hd, x, rfl⟩
    · cases hu; simp [pendingEntry]
    · have hud := h.stacked.tagged d hd u hu
      simp only [hud ▸ update_of_ne (hne d hd) _ _]
      exact hud ▸ h.pending d hd u hu
  · rcases hsrc e he with rfl | ⟨d, hd, x', rfl⟩
    · rfl
    · simp only [update_of_ne (hne d hd)] at hx
      exact h.open_ d hd x hx

theorem chainInv_step {key : Key} (s : ChainState) (a : ChainAct) (s' : ChainState) (h : ChainInv s)
    (hs : ChainState.step key s a = some s') : ChainInv s' := by
  rcases ChainState.step_cases h hs with ⟨t, ts, scope, expectedHead, op, -, hidle, hts, hmax, ⟨-, rfl⟩ | ⟨-, -, rfl⟩⟩ |
    ⟨t, ts, -, hp, rfl⟩ | ⟨t, ts, -, hp, rfl⟩ | ⟨t, -, -, rfl⟩
  · -- a refused install only uses up its timestamp
    have hf := h.finish (t := t) h.stacked (fun e he => ⟨e, he, rfl, rfl, fun _ => rfl⟩) fun e he =>
      h.not_pending hidle he
    exact ⟨hf.stacked, fun e he => mem_cons_of_mem _ (hf.used e he), hf.owner, hf.pending, hf.open_⟩
  · exact h.install hidle hts hmax op
  · have hst : ∀ e ∈ s.chain, e.state = .pending t → e.startTs = ts := fun e he hpend => by
      have := h.pending e he t hpend
      rw [hp] at this; exact (ChainPhase.installed.inj this).symm
    refine h.finish (h.stacked.commit hst) (fun e he => ?_) fun e he hpend => ?_
    · rw [flip_committed] at he
      obtain ⟨d, hd, rfl⟩ := mem_map.1 he
      rw [commitEntry_eq (hst d hd)]
      refine ⟨d, hd, rfl, rfl, fun hne => ?_⟩
      rw [if_neg fun hpend => hne (h.stacked.tagged d hd t hpend).symm]
    · rw [flip_committed] at he
      obtain ⟨d, hd, rfl⟩ := mem_map.1 he
      rw [commitEntry_eq (hst d hd)] at hpend
      split_ifs at hpend with hd'
      exact hd' hpend
  · refine h.finish (h.stacked.abort t) (fun e he => ?_) fun e he hpend => ?_
    · rcases h.stacked.mem_abort he with ⟨p, hp, hps, rfl⟩ | ⟨d, hd, -, x, rfl⟩
      · exact ⟨p, hp, rfl, rfl, fun hne => absurd (h.stacked.tagged p hp t hps).symm hne⟩
      · exact ⟨d, hd, rfl, rfl, fun _ => rfl⟩
    · rcases h.stacked.mem_abort he with ⟨p, -, -, rfl⟩ | ⟨d, hd, hne, x, rfl⟩
      · cases hpend
      · exact hne hpend
  · exact h

/-- **Shape of a chain.** Whatever installs and flips happen, in whatever order, the chain keeps its shape. -/
theorem chainInv_run {key : Key} {s' : ChainState} {l : List ChainAct} (h : ChainInv s)
    (hr : run (ChainState.step key) s l = some s') : ChainInv s' :=
  run_invariant_all chainInv_step h hr

end Mqlite.Mvcc
