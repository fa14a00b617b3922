/-
Invariants of the engine's bookkeeping: transaction records, identifiers and views, and publish slots. Chains come
after.

- `TxnOk`: what holds of every transaction's own record;
- `IdInv`: identifiers are given out once, and no view is above the frontier;
- `SlotInv`: every registered transaction owns its slot; a slot that is neither Ready nor Aborted belongs to a
  transaction that is still installing, committing or aborting.

`SlotInv.behind`: a transaction whose timestamp the frontier has reached is committed or aborted.
`SlotInv.reached`: when no writer is inside its envelope and the sequencer works, the frontier has reached every
committed transaction. This is what a checkpoint relies on.
-/
import Mqlite.Publish.Order
import Mqlite.PagedEngine.Trans

namespace Mqlite.PagedEngine

open Lib Mvcc Publish Storage List Function Nat Engine TxnPhase

/-! ## Transaction records -/

structure TxnOk (x : Txn) : Prop where
  -- at most one staged write for each key
  distinct : (x.writes.map StagedWrite.addr).Nodup
  todo : x.todo.Sublist x.writes
  apart : ∀ w ∈ x.todo, w.addr ∉ x.held
  once : x.held.Nodup
  -- when there is a slot, and what a transaction without one cannot have
  bare : x.phase.early = true → x.slot = none
  slotted : x.slot = none → x.phase.early = true ∨ x.phase = .aborted
  waiting : x.slot = none → x.todo = []
  unstaged : x.phase = .selecting → x.writes = []
  held : x.held ≠ [] → x.phase.holding = true
  -- selections are of documents
  selected : ∀ sel ∈ x.selected, sel.addr.ident.kind = .primary
  candidates : ∀ cand ∈ x.candidates, cand.sel ∈ x.selected
  mutations : ∀ w ∈ x.writes, ∀ o, w.observed = some o → ∃ cand ∈ x.candidates,
    cand.sel.addr = w.addr ∧ cand.sel.observed = o ∧ cand.expectedHead = w.expectedHead
  inserts : ∀ w ∈ x.writes, w.addr.ident.kind = .primary →
    (w.observed = none ↔ isMutation w.op = false) ∧ (w.observed = none → w.expectedHead = none)

theorem txnOk_fresh : TxnOk Txn.fresh := by
  constructor <;> simp [Txn.fresh, early]

namespace TxnOk

variable {x : Txn}

theorem slot_of_holding (h : TxnOk x) (hp : x.phase.holding = true) : ∃ p, x.slot = some p := by
  cases hs : x.slot with
  | some p => exact ⟨p, rfl⟩
  | none =>
    rcases h.slotted hs with he | he
    · cases hph : x.phase <;> simp_all [early, holding]
    · simp [he, holding] at hp

theorem slot_of_durable (h : TxnOk x) (hp : x.phase.durable = true) : ∃ p, x.slot = some p := by
  cases hs : x.slot with
  | some p => exact ⟨p, rfl⟩
  | none =>
    rcases h.slotted hs with he | he
    · cases hph : x.phase <;> simp_all [early, durable]
    · simp [he, durable] at hp

/-- of the staged writes only one is for a given key -/
theorem unique (h : TxnOk x) {w v : StagedWrite} (hw : w ∈ x.writes) (hv : v ∈ x.writes) (ha : w.addr = v.addr) :
    w = v :=
  inj_on_of_nodup_map h.distinct hw hv ha

/-- a new staged write -/
theorem stage (h : TxnOk x) (hphase : x.phase = .staging) {w : StagedWrite}
    (hnew : w.addr ∉ x.writes.map StagedWrite.addr) (hmut : ∀ o, w.observed = some o → ∃ cand ∈ x.candidates,
      cand.sel.addr = w.addr ∧ cand.sel.observed = o ∧ cand.expectedHead = w.expectedHead) (hins :
      w.addr.ident.kind = .primary →
      (w.observed = none ↔ isMutation w.op = false) ∧ (w.observed = none → w.expectedHead = none)) :
    TxnOk { x with writes := w :: x.writes } := by
  have htodo : x.todo = [] := h.waiting (h.bare (by rw [hphase]; rfl))
  refine { h with
    distinct := nodup_cons.2 ⟨hnew, h.distinct⟩
    unstaged := fun hp => by rw [hphase] at hp; cases hp
    todo := ?_
    mutations := ?_
    inserts := ?_ }
  · rw [htodo]; exact nil_sublist _
  · exact forall_mem_cons.2 ⟨hmut, h.mutations⟩
  · exact forall_mem_cons.2 ⟨hins, h.inserts⟩

/-- a change of phase of a transaction with nothing installed -/
theorem move (h : TxnOk x) (hheld : x.held = []) {p : TxnPhase} (hp : p ≠ .selecting)
    (hb : p.early = true → x.slot = none)
    (hs : x.slot = none → p.early = true ∨ p = .aborted) : TxnOk { x with phase := p } :=
  { h with bare := hb, slotted := hs, held := fun hne => absurd hheld hne, unstaged := fun he => absurd he hp }

theorem prepare {env : Env} {s : Engine} {t : TxnId} {act : Act} (h : TxnOk (s.txn t)) (hp : Prepares env s t act x) :
    TxnOk x := by
  have hfree : (s.txn t).phase.early = true → (s.txn t).held = [] := by
    intro hearly
    by_contra hne
    have := h.held hne
    cases hph : (s.txn t).phase <;> simp_all [early, holding]
  cases hp with
  | select hphase hview hkind hobs =>
    exact { h with
      selected := forall_mem_cons.2 ⟨hkind, h.selected⟩
      candidates := fun cand hc => mem_cons_of_mem _ (h.candidates cand hc) }
  | attach hphase hsel hhead =>
    exact { h with
      candidates := forall_mem_cons.2 ⟨hsel, h.candidates⟩
      mutations := fun w hw o ho => (h.mutations w hw o ho).imp fun cand hc => ⟨mem_cons_of_mem _ hc.1, hc.2⟩ }
  | enter hphase =>
    have hearly : (s.txn t).phase.early = true := by rw [hphase]; rfl
    have hm := h.move (hfree hearly) (p := .staging) (by simp) (fun _ => h.bare hearly) (fun _ => .inl rfl)
    exact { hm with }
  | stageInsert hphase hkind hnew hnone =>
    exact h.stage hphase hnew (fun o ho => by cases ho) (fun _ => ⟨iff_of_true rfl rfl, fun _ => rfl⟩)
  | stageMutation hphase hcand hnew hop =>
    refine h.stage hphase hnew (fun o ho => ?_) (fun _ => ⟨?_, fun ho => by cases ho⟩)
    · cases ho
      exact ⟨_, hcand, rfl, rfl, rfl⟩
    · simp [hop]
  | stageSec hphase hkind hnew => exact h.stage hphase hnew (fun o ho => by cases ho) (fun hk => absurd hk hkind)
  | reject _ hphase =>
    have hearly : (s.txn t).phase.early = true := by rcases hphase with hp | hp <;> rw [hp] <;> rfl
    exact h.move (hfree hearly) (by simp) (fun hp => by cases hp) (fun _ => .inr rfl)

end TxnOk

variable {s s' : Engine} {t : TxnId} {x : Txn} {env : Env} {act : Act} {floor : Ts}

/-- a property of every record survives the change of one -/
theorem forall_setTxn {P : Txn → Prop} (h : ∀ u, P (s.txn u)) (hx : P x) (u : TxnId) : P ((s.setTxn t x).txn u) := by
  rw [setTxn_txn]
  split_ifs
  · exact hx
  · exact h u

theorem txnOk_trans (h : ∀ t, TxnOk (s.txn t)) (ht : Trans env s act s') : ∀ t, TxnOk (s'.txn t) := by
  cases ht with
  | openView | poison | fold => exact h
  | begin =>
    refine forall_setTxn h ?_
    constructor <;> simp [Txn.fresh, early]
  | prepare hp => exact forall_setTxn h ((h _).prepare hp)
  | @unregistered t wall hphase =>
    refine forall_setTxn h ((h t).move ?_ (by simp) (fun hp => by cases hp) (fun _ => .inr rfl))
    by_contra hne
    have := (h t).held hne
    simp [hphase, holding] at this
  | @register t wall slot hphase =>
    have hheld : (s.txn t).held = [] := by
      by_contra hne
      have := (h t).held hne
      simp [hphase, holding] at this
    refine forall_setTxn h { h t with
      todo := List.Sublist.refl _
      apart := fun w _ => by rw [hheld]; exact not_mem_nil
      bare := fun hp => by cases hp
      slotted := fun hs => by cases hs
      waiting := fun hs => by cases hs
      unstaged := fun hp => by cases hp
      held := fun _ => rfl }
  | @push t q ts w hphase hslot hw =>
    have hnodup : (s.txn t).todo.Nodup := ((h t).distinct.of_map _).sublist (h t).todo
    refine forall_setTxn h { h t with
      todo := erase_sublist.trans (h t).todo
      apart := fun v hv => ?_
      once := nodup_cons.2 ⟨(h t).apart w hw, (h t).once⟩
      waiting := fun hs => by rw [hslot] at hs; cases hs
      held := fun _ => by rw [hphase]; rfl }
    obtain ⟨hne, hv⟩ := hnodup.mem_erase_iff.1 hv
    -- another write is for another key
    have haddr : v.addr ≠ w.addr := fun ha => hne ((h t).unique ((h t).todo.subset hv) ((h t).todo.subset hw) ha)
    exact not_mem_cons_of_ne_of_not_mem haddr ((h t).apart v hv)
  | @fail t act _ hphase | @durable t hphase htodo =>
    obtain ⟨p, hp⟩ := (h t).slot_of_holding (by rw [hphase]; rfl)
    exact forall_setTxn h { h t with
      bare := fun hp => by cases hp
      slotted := fun hs => by rw [hp] at hs; cases hs
      unstaged := fun hp => by cases hp
      held := fun _ => rfl }
  | @commit t a q ts hphase | @rollback t a hphase =>
    exact forall_setTxn h { h t with
      apart := fun w hw hm => (h t).apart w hw (mem_of_mem_erase hm)
      once := (h t).once.erase a
      held := fun _ => by rw [hphase]; rfl }
  | @ready t q ts publish hphase hslot hheld | @release t q ts publish hphase hslot hheld =>
    exact forall_setTxn h ((h t).move hheld (by simp) (fun hp => by cases hp) (fun hs => by rw [hslot] at hs; cases hs))

/-! ## Slots -/

/-- slots and their owners; `floor` is the frontier the engine was opened with -/
structure SlotInv (floor : Ts) (s : Engine) : Prop where
  seq : SeqInv s.seq
  rest : AtRest s.seq
  sane : TimestampOracle.Sane s.seq.oracle
  floor_le : floor ≤ s.frontier
  slot : ∀ t p, (s.txn t).slot = some p → p ∈ s.seq.registered ∧ floor < p.2
  owner : ∀ t u p, (s.txn t).slot = some p → (s.txn u).slot = some p → t = u
  busy : ∀ t p, (s.txn t).slot = some p → (s.txn t).phase.holding = true → p.1 ∈ s.seq.guards
  ready : ∀ t p, (s.txn t).slot = some p → (s.txn t).phase = .committed →
    p.1 ∈ s.seq.readied ∨ s.seq.seqr.poisoned = true
  settled : ∀ p ∈ s.seq.registered, s.seq.seqr.poisoned = false →
    p.1 ∈ s.seq.readied ∨ p.1 ∈ s.seq.aborted ∨ ∃ t, (s.txn t).slot = some p ∧ (s.txn t).phase.holding = true

namespace SlotInv

variable {floor : Ts} {s : Engine}

variable {t : TxnId} {p : ℕ × Ts}

section

variable (h : SlotInv floor s)

include h

/-- transactions with different slots have different timestamps -/
theorem eq_of_ts {u : TxnId} {q r : ℕ} {ts : Ts} (ht : (s.txn t).slot = some (q, ts))
    (hu : (s.txn u).slot = some (r, ts)) : t = u := by
  rcases h.seq.compare (h.slot t _ ht).1 (h.slot u _ hu).1 with heq | ⟨-, hlt⟩ | ⟨-, hlt⟩
  · cases heq; exact h.owner t u _ ht hu
  · exact absurd hlt (lt_irrefl ts)
  · exact absurd hlt (lt_irrefl ts)

/-- the frontier is below every transaction that is still installing, committing or aborting -/
theorem ahead (hp : (s.txn t).slot = some p) (hh : (s.txn t).phase.holding = true) : s.frontier < p.2 := by
  obtain ⟨ts, hts⟩ := h.seq.held p.1 (h.busy t p hp hh)
  exact h.seq.ahead p (h.slot t p hp).1 (h.seq.slots p.1 _ hts).1

/-- **Behind the frontier** a transaction has come to its end. -/
theorem behind (hok : TxnOk (s.txn t)) (hp : (s.txn t).slot = some p)
    (hle : p.2 ≤ s.frontier) : (s.txn t).phase = .committed ∨ (s.txn t).phase = .aborted := by
  have hh : ¬ (s.txn t).phase.holding = true := fun hh => absurd (h.ahead hp hh) (not_lt.2 hle)
  have hearly : ¬ (s.txn t).phase.early = true := fun he => by have := hok.bare he; rw [hp] at this; cases this
  cases hph : (s.txn t).phase <;> simp_all [holding, early]

theorem ts_lt_max (hp : (s.txn t).slot = some p) : p.2 < Ts.MAX :=
  (h.seq.issued p (h.slot t p hp).1).2.trans_lt h.sane.lt_max

theorem frontier_lt_max : s.frontier < Ts.MAX := h.seq.frontier.trans_lt h.sane.lt_max

/-- **At rest.** With no writer holding a slot, and the sequencer working, the frontier has reached every committed
transaction. -/
theorem reached (hquiet : ∀ t, (s.txn t).phase.holding = false) (hfail : s.seq.failed = false)
    (hpoison : s.seq.seqr.poisoned = false) (hp : (s.txn t).slot = some p) (hc : (s.txn t).phase = .committed) :
    p.2 ≤ s.frontier := by
  have hready : p.1 ∈ s.seq.readied := (h.ready t p hp hc).resolve_right (by rw [hpoison]; simp)
  rcases h.seq.ready_published h.rest hready with ⟨ts, hpub⟩ | ⟨r, hr, -, hnr, hna⟩ | hf | hf
  · have hts : ts = p.2 := h.seq.unique (h.seq.published _ hpub).1 (h.slot t p hp).1
    exact hts ▸ h.seq.reached _ hpub
  · -- an unsettled slot would belong to a writer
    rcases h.settled r hr hpoison with h1 | h1 | ⟨u, -, hu⟩
    · exact absurd h1 hnr
    · exact absurd h1 hna
    · rw [hquiet u] at hu; cases hu
  · rw [hfail] at hf; cases hf
  · rw [hpoison] at hf; cases hf

/-! ### Steps -/

/-- steps that leave the sequencer, the slots and their holders alone -/
theorem frame {s' : Engine} (hseq : s'.seq = s.seq) (hslot : ∀ u, (s'.txn u).slot = (s.txn u).slot)
    (hphase : ∀ u p, (s.txn u).slot = some p → (s'.txn u).phase.holding = (s.txn u).phase.holding ∧
      ((s'.txn u).phase = .committed → (s.txn u).phase = .committed)) : SlotInv floor s' := by
  obtain ⟨cell, chain, hist, old, seq, views, nextTxn, txn⟩ := s'
  subst hseq
  constructor
  · exact h.seq
  · exact h.rest
  · exact h.sane
  · exact h.floor_le
  · intro t p hp
    exact h.slot t p (hslot t ▸ hp)
  · intro t u p hp hu
    exact h.owner t u p (hslot t ▸ hp) (hslot u ▸ hu)
  · intro t p hp hh
    have hp' : (s.txn t).slot = some p := hslot t ▸ hp
    exact h.busy t p hp' ((hphase t p hp').1 ▸ hh)
  · intro t p hp hc
    have hp' : (s.txn t).slot = some p := hslot t ▸ hp
    exact h.ready t p hp' ((hphase t p hp').2 hc)
  · intro p hp hpoison
    refine (h.settled p hp hpoison).imp_right fun hor => hor.imp_right fun ⟨t, ht, hh⟩ => ?_
    exact ⟨t, (hslot t).trans ht, (hphase t p ht).1.trans hh⟩

theorem setChain (a : Addr) (c : Chain) : SlotInv floor (s.setChain a c) :=
  h.frame rfl (fun _ => rfl) (fun _ _ _ => ⟨rfl, id⟩)

/-- a step that changes one record, and leaves its slot alone -/
theorem setTxn {x : Txn} (hslot : x.slot = (s.txn t).slot)
    (hphase : ∀ p, x.slot = some p → x.phase.holding = (s.txn t).phase.holding ∧
      (x.phase = .committed → (s.txn t).phase = .committed)) : SlotInv floor (s.setTxn t x) := by
  refine h.frame rfl (fun u => ?_) (fun u p hp => ?_)
  · rw [setTxn_txn]
    split_ifs with hu
    · rw [hu, hslot]
    · rfl
  · rw [setTxn_txn]
    split_ifs with hu
    · subst hu
      exact hphase p (hslot.trans hp)
    · exact ⟨rfl, id⟩

/-- a slot number is taken by one timestamp, so by one transaction -/
theorem eq_of_seq {u : TxnId} {r : ℕ × Ts} (ht : (s.txn t).slot = some p) (hu : (s.txn u).slot = some r)
    (heq : p.1 = r.1) : t = u := by
  have hts : p.2 = r.2 := h.seq.unique (h.slot t p ht).1 (heq ▸ (h.slot u r hu).1)
  have hpr : p = r := Prod.ext heq hts
  exact h.owner t u p ht (hpr ▸ hu)

end

/-- a registration that fails leaves the slots as they were -/
theorem unregistered (h : SlotInv floor s) {t : TxnId} {wall : UInt64} (hok : TxnOk (s.txn t))
    (hphase : (s.txn t).phase = .staging) (hwall : wall < UInt64.ofNat (2 ^ 64 - 1))
    (hreg : (s.seq.register wall).registered = s.seq.registered)
    (hguards : (s.seq.register wall).guards = s.seq.guards) :
    SlotInv floor ({ s with seq := s.seq.register wall }.setTxn t { s.txn t with phase := .aborted }) := by
  obtain ⟨hready, habort, hpoison, hfront⟩ := s.seq.register_frame wall
  obtain ⟨hI, hrest⟩ := seqInv_register h.seq h.rest wall
  have h' : SlotInv floor { s with seq := s.seq.register wall } := by
    refine { h with
      seq := hI
      rest := hrest
      sane := SeqState.register_sane hwall h.sane
      floor_le := h.floor_le.trans hfront.ge
      slot := fun t p hp => ?_
      busy := fun t p hp hh => ?_
      ready := fun t p hp hc => ?_
      settled := fun p hp hps => ?_ }
    · rw [hreg]; exact h.slot t p hp
    · rw [hguards]; exact h.busy t p hp hh
    · rw [hready, hpoison]; exact h.ready t p hp hc
    · rw [hready, habort]; exact h.settled p (hreg ▸ hp) (hpoison ▸ hps)
  have hbare := hok.bare (by rw [hphase]; rfl)
  refine h'.setTxn rfl fun p hp => ?_
  rw [hbare] at hp; cases hp

/-- a new slot for a transaction that had none -/
theorem register (h : SlotInv floor s) {t : TxnId} {wall : UInt64} {slot : ℕ × Ts} (hok : TxnOk (s.txn t))
    (hphase : (s.txn t).phase = .staging) (hwall : wall < UInt64.ofNat (2 ^ 64 - 1)) (hts : s.seq.oracle < slot.2)
    (hreg : (s.seq.register wall).registered = slot :: s.seq.registered)
    (hguards : (s.seq.register wall).guards = slot.1 :: s.seq.guards) :
    SlotInv floor ({ s with seq := s.seq.register wall }.setTxn t
      { s.txn t with phase := .installing, slot := some slot, todo := (s.txn t).writes }) := by
  obtain ⟨hready, habort, hpoison, hfront⟩ := s.seq.register_frame wall
  obtain ⟨hI, hrest⟩ := seqInv_register h.seq h.rest wall
  have hnew : ∀ u p, (s.txn u).slot = some p → p ≠ slot := by
    rintro u p hp rfl
    exact absurd (h.seq.issued p (h.slot u p hp).1).2 (not_le.2 hts)
  have hbare : (s.txn t).slot = none := hok.bare (by rw [hphase]; rfl)
  -- the slot of a transaction after the step
  have hcase : ∀ u p, (({ s with seq := s.seq.register wall }.setTxn t
      { s.txn t with phase := .installing, slot := some slot, todo := (s.txn t).writes }).txn u).slot = some p →
      (u = t ∧ p = slot) ∨ (u ≠ t ∧ (s.txn u).slot = some p) := by
    intro u p hp
    rw [setTxn_txn] at hp
    split_ifs at hp with hu
    · exact .inl ⟨hu, (Option.some.inj hp).symm⟩
    · exact .inr ⟨hu, hp⟩
  constructor
  · exact hI
  · exact hrest
  · exact SeqState.register_sane hwall h.sane
  · exact h.floor_le.trans hfront.ge
  · intro u p hp
    rw [setTxn_seq, hreg]
    rcases hcase u p hp with ⟨-, rfl⟩ | ⟨-, hp⟩
    · exact ⟨mem_cons_self, h.floor_le.trans_lt (h.seq.frontier.trans_lt hts)⟩
    · exact ⟨mem_cons_of_mem _ (h.slot u p hp).1, (h.slot u p hp).2⟩
  · intro u v p hp hq
    rcases hcase u p hp with ⟨rfl, rfl⟩ | ⟨-, hp'⟩
    · rcases hcase v p hq with ⟨rfl, -⟩ | ⟨-, hq'⟩
      · rfl
      · exact absurd rfl (hnew v p hq')
    · rcases hcase v p hq with ⟨-, rfl⟩ | ⟨-, hq'⟩
      · exact absurd rfl (hnew u p hp')
      · exact h.owner u v p hp' hq'
  · intro u p hp hh
    rw [setTxn_seq, hguards]
    rcases hcase u p hp with ⟨-, rfl⟩ | ⟨hu, hp'⟩
    · exact mem_cons_self
    · rw [setTxn_txn, if_neg hu] at hh
      exact mem_cons_of_mem _ (h.busy u p hp' hh)
  · intro u p hp hc
    rw [setTxn_seq, hready, hpoison]
    rw [setTxn_txn] at hc
    rcases hcase u p hp with ⟨hu, -⟩ | ⟨hu, hp'⟩
    · rw [if_pos hu] at hc; cases hc
    · rw [if_neg hu] at hc
      exact h.ready u p hp' hc
  · intro p hp hps
    rw [setTxn_seq, hready, habort]
    rw [setTxn_seq, hreg] at hp
    rw [setTxn_seq, hpoison] at hps
    rcases mem_cons.1 hp with rfl | hp
    · exact .inr (.inr ⟨t, by simp, by simp [holding]⟩)
    · refine (h.settled p hp hps).imp_right fun hor => hor.imp_right fun howner => ?_
      obtain ⟨u, hu, hh⟩ := howner
      have hut : u ≠ t := fun he => by rw [he, hbare] at hu; cases hu
      exact ⟨u, by rw [setTxn_txn, if_neg hut]; exact hu, by rw [setTxn_txn, if_neg hut]; exact hh⟩

/-- the end of a transaction: its guard is used, and its slot is marked -/
theorem finish (h : SlotInv floor s) {q : ℕ} {ts : Ts} (hslot : (s.txn t).slot = some (q, ts))
    {seq' : SeqState} (hI : SeqInv seq' ∧ AtRest seq') (hlater : Later s.seq seq')
    (horacle : seq'.oracle = s.seq.oracle)
    (hreg : seq'.registered = s.seq.registered) (hguards : seq'.guards = s.seq.guards.erase q)
    (hpoison : seq'.seqr.poisoned = s.seq.seqr.poisoned) (hready : ∀ j ∈ s.seq.readied, j ∈ seq'.readied)
    (habort : ∀ j ∈ s.seq.aborted, j ∈ seq'.aborted) {ph : TxnPhase} (hph : ph.holding = false)
    (hdone : ph = .committed → q ∈ seq'.readied ∨ s.seq.seqr.poisoned = true)
    (hmark : s.seq.seqr.poisoned = false → q ∈ seq'.readied ∨ q ∈ seq'.aborted) :
    SlotInv floor ({ s with seq := seq' }.setTxn t { s.txn t with phase := ph }) := by
  have hcase : ∀ u p, (({ s with seq := seq' }.setTxn t { s.txn t with phase := ph }).txn u).slot = some p →
      (s.txn u).slot = some p := by
    intro u p hp
    rw [setTxn_txn] at hp
    split_ifs at hp with hu
    · exact hu ▸ hp
    · exact hp
  constructor
  · exact hI.1
  · exact hI.2
  · rw [setTxn_seq, horacle]; exact h.sane
  · exact h.floor_le.trans hlater.frontier
  · intro u p hp
    rw [setTxn_seq, hreg]
    exact h.slot u p (hcase u p hp)
  · intro u v p hp hq
    exact h.owner u v p (hcase u p hp) (hcase v p hq)
  · intro u p hp hh
    rw [setTxn_txn] at hh
    split_ifs at hh with hu
    · rw [hph] at hh; cases hh
    · rw [setTxn_seq, hguards]
      refine (mem_erase_of_ne fun heq => hu ?_).2 (h.busy u p (hcase u p hp) hh)
      exact h.eq_of_seq (hcase u p hp) hslot heq
  · intro u p hp hc
    have hp' := hcase u p hp
    rw [setTxn_seq, hpoison]
    rw [setTxn_txn] at hc
    split_ifs at hc with hu
    · rw [hu, hslot] at hp'; cases hp'
      exact hdone hc
    · exact (h.ready u p hp' hc).imp_left (hready p.1)
  · intro p hp hps
    rw [setTxn_seq, hreg] at hp
    rw [setTxn_seq, hpoison] at hps
    rcases h.settled p hp hps with h1 | h1 | ⟨u, hu, hh⟩
    · exact .inl (hready p.1 h1)
    · exact .inr (.inl (habort p.1 h1))
    · by_cases hut : u = t
      · rw [hut, hslot] at hu; cases hu
        exact (hmark hps).imp_right .inl
      · refine .inr (.inr ⟨u, ?_, ?_⟩)
        · rw [setTxn_txn, if_neg hut]; exact hu
        · rw [setTxn_txn, if_neg hut]; exact hh

end SlotInv

/-- a transaction that has no slot is given none by preparing -/
theorem Prepares.slot (hp : Prepares env s t act x) (hok : TxnOk (s.txn t)) :
    (s.txn t).slot = none ∧ x.slot = none := by
  have hearly : (s.txn t).phase.early = true := by
    cases hp with
    | reject _ hphase => rcases hphase with hp | hp <;> rw [hp] <;> rfl
    | select hphase | attach hphase | enter hphase | stageInsert hphase | stageMutation hphase | stageSec hphase =>
      rw [hphase]; rfl
  have hnone := hok.bare hearly
  refine ⟨hnone, ?_⟩
  cases hp <;> exact hnone

theorem slotInv_trans (h : SlotInv floor s)
    (hok : ∀ t, TxnOk (s.txn t)) (hunborn : s.txn s.nextTxn = Txn.fresh) (ht : Trans env s act s') :
    SlotInv floor s' := by
  cases ht with
  | openView | fold => exact h.frame rfl (fun _ => rfl) (fun _ _ _ => ⟨rfl, id⟩)
  | begin =>
    have h' :=
      h.setTxn (t := s.nextTxn) (x := { Txn.fresh with phase := .selecting }) (by rw [hunborn])
        (fun p hp => by cases hp)
    exact h'.frame rfl (fun _ => rfl) (fun _ _ _ => ⟨rfl, id⟩)
  | prepare hp =>
    obtain ⟨h1, h2⟩ := hp.slot (hok _)
    exact h.setTxn (h2.trans h1.symm) (fun p hp => by rw [h2] at hp; cases hp)
  | unregistered hphase hwall hreg hguards => exact h.unregistered (hok _) hphase hwall hreg hguards
  | register hphase hwall hts hreg hguards => exact h.register (hok _) hphase hwall hts hreg hguards
  | push hphase | commit | rollback => exact (h.setChain _ _).setTxn rfl (fun _ _ => ⟨rfl, id⟩)
  | fail _ hphase | durable hphase => exact h.setTxn rfl (fun _ _ => ⟨by rw [hphase]; rfl, fun hc => by cases hc⟩)
  | @ready t q ts publish hphase hslot hheld =>
    have hq : q ∈ s.seq.guards := h.busy t _ hslot (by rw [hphase]; rfl)
    have hreadied : (s.seq.markReady q publish).readied = if s.seq.seqr.poisoned then s.seq.readied
        else q :: s.seq.readied :=
      rfl
    refine h.finish hslot (seqInv_markReady h.seq hq publish) (later_markReady h.seq hq publish) rfl rfl rfl
      (SeqState.markReady_poison h.seq hq publish) (fun j hj => ?_) (fun j hj => hj) rfl (fun _ => ?_) (fun hp => ?_)
    · rw [hreadied]
      split_ifs
      · exact hj
      · exact mem_cons_of_mem _ hj
    · rw [hreadied]
      cases hp : s.seq.seqr.poisoned with
      | true => exact .inr rfl
      | false => exact .inl mem_cons_self
    · rw [hreadied, hp]; exact .inl mem_cons_self
  | @release t q ts publish hphase hslot hheld =>
    have hq : q ∈ s.seq.guards := h.busy t _ hslot (by rw [hphase]; rfl)
    have haborted : (s.seq.markAborted q).aborted = if s.seq.seqr.poisoned then s.seq.aborted else q :: s.seq.aborted :=
      rfl
    refine h.finish hslot (seqInv_markAborted h.seq hq) (later_markAborted h.seq hq) rfl rfl rfl
      (SeqState.markAborted_poison s.seq q) (fun j hj => hj) (fun j hj => ?_) rfl (fun hc => by cases hc) (fun hp => ?_)
    · rw [haborted]
      split_ifs
      · exact hj
      · exact mem_cons_of_mem _ hj
    · rw [haborted, hp]; exact .inr mem_cons_self
  | poison =>
    obtain ⟨hI, hrest⟩ := seqInv_step s.seq .poison _ ⟨h.seq, h.rest⟩ rfl
    exact { h with
      seq := hI
      rest := hrest
      ready := fun _ _ _ _ => .inr rfl
      settled := fun _ _ hp => by cases hp }

/-! ## Identifiers and views -/

structure IdInv (s : Engine) : Prop where
  unborn : ∀ t, s.nextTxn ≤ t → s.txn t = Txn.fresh
  views : ∀ v ∈ s.views, v.txnId < s.nextTxn ∧ s.txn v.txnId = Txn.fresh ∧ v.readTs ≤ s.frontier
  reads : ∀ t, (s.txn t).readTs ≤ s.frontier

namespace IdInv

variable {s : Engine}

/-- the frontier moves on, and one record changes that is not fresh -/
theorem change (h : IdInv s) {s' : Engine} (hnext : s'.nextTxn = s.nextTxn) (hviews : s'.views = s.views)
    (hf : s.frontier ≤ s'.frontier) {t : TxnId} {x : Txn} (htxn : s'.txn = Function.update s.txn t x)
    (hphase : (s.txn t).phase ≠ .idle) (hread : x.readTs ≤ s'.frontier) : IdInv s' := by
  have hfresh : s.txn t ≠ Txn.fresh := fun he => hphase (by rw [he]; rfl)
  have hkeep : ∀ u, s.txn u = Txn.fresh → s'.txn u = Txn.fresh := by
    intro u hu
    have hne : u ≠ t := fun he => hfresh (he ▸ hu)
    rw [htxn, update_of_ne hne, hu]
  constructor
  · intro u hu
    exact hkeep u (h.unborn u (hnext ▸ hu))
  · intro v hv
    obtain ⟨h1, h2, h3⟩ := h.views v (hviews ▸ hv)
    exact ⟨hnext ▸ h1, hkeep _ h2, h3.trans hf⟩
  · intro u
    rw [htxn, update_apply]
    split_ifs
    · exact hread
    · exact (h.reads u).trans hf

end IdInv

theorem zero_le (ts : Ts) : (⟨0, 0⟩ : Ts) ≤ ts := by
  rw [Ts.le_iff]
  rcases Nat.eq_zero_or_pos ts.physicalMs.toNat with hz | hpos
  · exact .inr ⟨hz.symm, Nat.zero_le _⟩
  · exact .inl hpos

/-- **The frontier never goes back.** -/
theorem frontier_trans (h : SlotInv floor s) (ht : Trans env s act s') : s.frontier ≤ s'.frontier := by
  cases ht with
  | ready hphase hslot => exact (later_markReady h.seq (h.busy _ _ hslot (by rw [hphase]; rfl)) _).frontier
  | release hphase hslot => exact (later_markAborted h.seq (h.busy _ _ hslot (by rw [hphase]; rfl))).frontier
  | unregistered | register => exact (later_register s.seq _).frontier
  | openView | begin | prepare | push | fail | durable | commit | rollback | poison | fold => exact le_rfl

/-- a transaction that prepares has begun, and its view is not above the frontier -/
theorem Prepares.reads (hp : Prepares env s t act x)
    (h : (s.txn t).readTs ≤ s.frontier) : (s.txn t).phase ≠ .idle ∧ x.readTs ≤ s.frontier := by
  cases hp with
  | select hphase | attach hphase | stageInsert hphase | stageMutation hphase | stageSec hphase =>
    exact ⟨by rw [hphase]; simp, h⟩
  | enter hphase => exact ⟨by rw [hphase]; simp, le_rfl⟩
  | reject _ hphase => exact ⟨by rcases hphase with hp | hp <;> rw [hp] <;> simp, h⟩

theorem idInv_trans (h : IdInv s) (hslot : SlotInv floor s) (ht : Trans env s act s') : IdInv s' := by
  have hf := frontier_trans hslot ht
  cases ht with
  | openView =>
    refine ⟨fun t ht => h.unborn t (le_of_succ_le ht), forall_mem_cons.2 ⟨?_, fun v hv => ?_⟩, h.reads⟩
    · exact ⟨lt_succ_self _, h.unborn _ le_rfl, le_rfl⟩
    · exact ⟨lt_succ_of_lt (h.views v hv).1, (h.views v hv).2⟩
  | begin =>
    refine ⟨fun t ht => ?_, fun v hv => ?_, fun t => ?_⟩
    · have hne : t ≠ s.nextTxn := ne_of_gt ht
      exact (update_of_ne hne _ _).trans (h.unborn t (le_of_succ_le ht))
    · obtain ⟨h1, h2, h3⟩ := h.views v hv
      exact ⟨lt_succ_of_lt h1, (update_of_ne h1.ne _ _).trans h2, h3⟩
    · exact forall_setTxn (P := fun x => x.readTs ≤ s.frontier) h.reads (zero_le _) t
  | poison | fold => exact ⟨h.unborn, h.views, h.reads⟩
  | @prepare t act x hp =>
    obtain ⟨h1, h2⟩ := hp.reads (h.reads t)
    exact h.change rfl rfl hf rfl h1 h2
  | unregistered hphase | register hphase
  | ready hphase | release hphase => exact h.change rfl rfl hf rfl (by rw [hphase]; simp) ((h.reads _).trans hf)
  | push hphase | fail _ hphase | durable hphase | commit hphase | rollback hphase =>
    exact h.change rfl rfl hf rfl (by rw [hphase]; simp) (h.reads _)

end Mqlite.PagedEngine
