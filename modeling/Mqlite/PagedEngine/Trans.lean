/-
What one step of the engine can be, as a relation: the inversion of `step`, done once.

`Prepares` lists the steps that change only the record of a transaction without a publish slot. `Trans` lists all steps;
each constructor names the state after the step and what was checked before it. `trans_of_step` derives it from the step
function, given that no staged write is installed twice (`Unstaged`, part of the invariant of the chains).
-/
import Mqlite.Mvcc.Stacked
import Mqlite.PagedEngine.State

namespace Mqlite.PagedEngine

open Lib Mvcc Publish Storage Engine

/-! ## Phases -/

/-- with a slot whose guard is held -/
def TxnPhase.holding : TxnPhase → Bool
  | .installing | .committing | .aborting => true
  | _ => false

/-- past the point of no return -/
def TxnPhase.durable : TxnPhase → Bool
  | .committing | .committed => true
  | _ => false

/-- before the slot is registered -/
def TxnPhase.early : TxnPhase → Bool
  | .idle | .selecting | .staging => true
  | _ => false

theorem TxnPhase.inside_of_holding {p : TxnPhase} (h : p.holding = true) : p.inside = true := by
  cases p <;> simp_all [TxnPhase.holding, TxnPhase.inside]

/-! ## The relation -/

/-- steps of a transaction that has no slot: only its own record changes -/
inductive Prepares (env : Env) (s : Engine) (t : TxnId) : Act → Txn → Prop
  | select {view : ReadView} {a : Addr} {observed : Observed} {doc : Bytes} (hphase : (s.txn t).phase = .selecting)
      (hview : view ∈ s.views) (hkind : a.ident.kind = .primary) (hobs : s.observe env view a = some (observed, doc)) :
      Prepares env s t (.select t view a) { s.txn t with selected := ⟨a, doc, observed⟩ :: (s.txn t).selected }
  | attach {sel : Selection} {head : Option ExpectedHead} (hphase : (s.txn t).phase = .selecting)
      (hsel : sel ∈ (s.txn t).selected) (hhead : expectedHeadForSelectedDoc env (s.chain sel.addr) sel.doc = .ok head) :
      Prepares env s t (.attach t sel) { s.txn t with candidates := ⟨sel, head⟩ :: (s.txn t).candidates }
  | enter (hphase : (s.txn t).phase = .selecting) :
      Prepares env s t (.enter t) { s.txn t with phase := .staging, readTs := s.frontier }
  | stageInsert {a : Addr} {doc : Bytes} (hphase : (s.txn t).phase = .staging) (hkind : a.ident.kind = .primary)
      (hnew : a ∉ (s.txn t).writes.map StagedWrite.addr) (hnone : s.lookup env ⟨(s.txn t).readTs, t⟩ a = .ok none) :
      Prepares env s t (.stageInsert t a doc) { s.txn t with
        writes := ⟨a, .insert doc, none, none⟩ :: (s.txn t).writes }
  | stageMutation {cand : Candidate} {op : WriteOp} (hphase : (s.txn t).phase = .staging)
      (hcand : cand ∈ (s.txn t).candidates) (hnew : cand.sel.addr ∉ (s.txn t).writes.map StagedWrite.addr)
      (hop : isMutation op = true) :
      Prepares env s t (.stageMutation t cand op) { s.txn t with
        writes := ⟨cand.sel.addr, op, cand.expectedHead, some cand.sel.observed⟩ :: (s.txn t).writes }
  | stageSec {a : Addr} {op : WriteOp} (hphase : (s.txn t).phase = .staging) (hkind : a.ident.kind ≠ .primary)
      (hnew : a ∉ (s.txn t).writes.map StagedWrite.addr) :
      Prepares env s t (.stageSec t a op) { s.txn t with writes := ⟨a, op, none, none⟩ :: (s.txn t).writes }
  | reject {act : Act} (hact : act.isFold = false)
      (hphase : (s.txn t).phase = .selecting ∨ (s.txn t).phase = .staging) :
      Prepares env s t act { s.txn t with phase := .aborted }

/-- the steps of the engine -/
inductive Trans (env : Env) (s : Engine) : Act → Engine → Prop
  | openView : Trans env s .openView { s with views := ⟨s.frontier, s.nextTxn⟩ :: s.views, nextTxn := s.nextTxn + 1 }
  | begin : Trans env s .begin
      { s.setTxn s.nextTxn { Txn.fresh with phase := .selecting } with nextTxn := s.nextTxn + 1 }
  | prepare {t : TxnId} {act : Act} {x : Txn} (h : Prepares env s t act x) : Trans env s act (s.setTxn t x)
  | unregistered {t : TxnId} {wall : UInt64} (hphase : (s.txn t).phase = .staging)
      (hwall : wall < UInt64.ofNat (2 ^ 64 - 1)) (hreg : (s.seq.register wall).registered = s.seq.registered)
      (hguards : (s.seq.register wall).guards = s.seq.guards) :
      Trans env s (.register t wall) ({ s with seq := s.seq.register wall }.setTxn t { s.txn t with phase := .aborted })
  | register {t : TxnId} {wall : UInt64} {slot : ℕ × Ts} (hphase : (s.txn t).phase = .staging)
      (hwall : wall < UInt64.ofNat (2 ^ 64 - 1)) (hts : s.seq.oracle < slot.2)
      (hreg : (s.seq.register wall).registered = slot :: s.seq.registered)
      (hguards : (s.seq.register wall).guards = slot.1 :: s.seq.guards) :
      Trans env s (.register t wall) ({ s with seq := s.seq.register wall }.setTxn t
        { s.txn t with phase := .installing, slot := some slot, todo := (s.txn t).writes })
  | push {t : TxnId} {q : ℕ} {ts : Ts} {w : StagedWrite} (hphase : (s.txn t).phase = .installing)
      (hslot : (s.txn t).slot = some (q, ts)) (hw : w ∈ (s.txn t).todo)
      (hclass : classifyDeltaInstall (s.chain w.addr) w.expectedHead w.addr.scope w.addr.key t = .ok .proceed) :
      Trans env s (.install t w.addr) ((s.setChain w.addr (pushPending (s.chain w.addr) ts t w.op)).setTxn t
        { s.txn t with todo := (s.txn t).todo.erase w, held := w.addr :: (s.txn t).held })
  | fail {t : TxnId} {act : Act} (hact : act.isFold = false) (hphase : (s.txn t).phase = .installing) :
      Trans env s act (s.setTxn t { s.txn t with phase := .aborting })
  | durable {t : TxnId} (hphase : (s.txn t).phase = .installing) (htodo : (s.txn t).todo = []) :
      Trans env s (.durable t) (s.setTxn t { s.txn t with phase := .committing })
  | commit {t : TxnId} {a : Addr} {q : ℕ} {ts : Ts} (hphase : (s.txn t).phase = .committing)
      (hslot : (s.txn t).slot = some (q, ts)) (ha : a ∈ (s.txn t).held) :
      Trans env s (.flip t a) (s.flip t a (some ts))
  | rollback {t : TxnId} {a : Addr} (hphase : (s.txn t).phase = .aborting) (ha : a ∈ (s.txn t).held) :
      Trans env s (.flip t a) (s.flip t a none)
  | ready {t : TxnId} {q : ℕ} {ts : Ts} {publish : Bool} (hphase : (s.txn t).phase = .committing)
      (hslot : (s.txn t).slot = some (q, ts)) (hheld : (s.txn t).held = []) : Trans env s (.finish t publish)
        ({ s with seq := s.seq.markReady q publish }.setTxn t { s.txn t with phase := .committed })
  | release {t : TxnId} {q : ℕ} {ts : Ts} {publish : Bool} (hphase : (s.txn t).phase = .aborting)
      (hslot : (s.txn t).slot = some (q, ts)) (hheld : (s.txn t).held = []) : Trans env s (.finish t publish)
        ({ s with seq := s.seq.markAborted q }.setTxn t { s.txn t with phase := .aborted })
  | poison : Trans env s .poison { s with seq := { s.seq with seqr := s.seq.seqr.poison } }
  | fold {a : Addr} {oldestRequiredTs : Ts} {f : KeyFold} {hist : HistoryStore} (hquiet : s.quiet = true)
      (hfail : s.seq.failed = false) (hpoison : s.seq.seqr.poisoned = false)
      (hf : foldKey a.ident a.key s.frontier oldestRequiredTs (s.chain a) = .ok f)
      (hh : commitSpillTxn s.hist f.spill = .ok hist) : Trans env s (.fold a oldestRequiredTs) { s with
        cell := Function.update s.cell a (f.cell.getD (s.cell a))
        chain := Function.update s.chain a f.retained
        hist
        old := Function.update s.old a
          (((live (s.chain a)).filter fun e => !kept s.frontier e).map logged ++ s.old a) }

variable {env : Env} {s : Engine} {t : TxnId}

theorem Prepares.isFold {act : Act} {x : Txn} (h : Prepares env s t act x) : act.isFold = false := by
  cases h <;> first | rfl | assumption

/-- no staged write is installed twice -/
def Unstaged (s : Engine) : Prop := ∀ t, ∀ w ∈ (s.txn t).todo, ∀ e ∈ s.chain w.addr, e.state ≠ .pending t

theorem trans_register {wall : UInt64} (hphase : (s.txn t).phase = .staging)
    (hwall : wall < UInt64.ofNat (2 ^ 64 - 1)) : Trans env s (.register t wall) (s.register t wall) := by
  unfold register
  rcases hr : s.seq.seqr.registerWithOracle s.seq.oracle wall with ⟨err | slot, seqr, oracle⟩
  · exact .unregistered hphase hwall (by rw [SeqState.register, hr]) (by rw [SeqState.register, hr])
  · exact .register hphase hwall (PublishSequencer.register_gt (congrArg Prod.fst hr)) (by rw [SeqState.register, hr])
      (by rw [SeqState.register, hr])

/-- **Inversion.** Every step the engine takes is one of `Trans`. -/
theorem trans_of_step {s' : Engine} {act : Act} (hfree : Unstaged s) (h : s.step env act = some s') :
    Trans env s act s' := by
  cases act with simp only [step] at h
  | openView => cases h; exact .openView
  | begin => cases h; exact .begin
  | poison => cases h; exact .poison
  | select t view a =>
    split_ifs at h with hc
    cases hobs : s.observe env view a with
    | none => rw [hobs] at h; cases h
    | some r => rw [hobs] at h; cases h; exact .prepare (.select hc.1 hc.2.1 hc.2.2 hobs)
  | attach t sel =>
    split_ifs at h with hc
    cases hhead : expectedHeadForSelectedDoc env (s.chain sel.addr) sel.doc with
    | ok head => rw [hhead] at h; cases h; exact .prepare (.attach hc.1 hc.2 hhead)
    | error err => rw [hhead] at h; cases h; exact .prepare (.reject rfl (.inl hc.1))
  | enter t =>
    split_ifs at h with hc
    cases h; exact .prepare (.enter hc)
  | stageInsert t a doc =>
    split_ifs at h with hc hd
    · cases h; exact .prepare (.stageInsert hc.1 hc.2 hd.1 hd.2)
    · cases h; exact .prepare (.reject rfl (.inr hc.1))
  | stageMutation t cand op =>
    split_ifs at h with hc
    cases h; exact .prepare (.stageMutation hc.1 hc.2.1 hc.2.2.1 hc.2.2.2)
  | stageSec t a op =>
    split_ifs at h with hc
    cases h; exact .prepare (.stageSec hc.1 hc.2.1 hc.2.2)
  | giveUp t =>
    split_ifs at h with hc
    cases h; exact .prepare (.reject rfl hc)
  | register t wall =>
    split_ifs at h with hc
    cases h; exact trans_register hc.1 hc.2
  | install t a =>
    split_ifs at h with hc
    split at h
    case h_1 q ts w hslot hfind =>
      cases h
      have ha : w.addr = a := by simpa using List.find?_some hfind
      have hw := List.mem_of_find?_eq_some hfind
      rw [← ha, install]
      rcases installOnChain_cases (hfree t w hw) w.expectedHead w.addr.scope w.addr.key ts w.op
        with ⟨r, -, hres⟩ | ⟨hclass, hres⟩
      · rw [hres]; exact .fail rfl hc
      · rw [hres]; exact .push hc hslot hw hclass
    case h_2 => cases h
  | fail t =>
    split_ifs at h with hc
    cases h; exact .fail rfl hc
  | durable t =>
    split_ifs at h with hc
    cases h; exact .durable hc.1 hc.2
  | flip t a =>
    split_ifs at h with hc
    split at h
    case h_1 hphase hslot => cases h; exact .commit hphase hslot hc
    case h_2 hphase => cases h; exact .rollback hphase hc
    case h_3 => cases h
  | finish t publish =>
    split_ifs at h with hc
    split at h
    case h_1 hphase hslot => cases h; exact .ready hphase hslot hc
    case h_2 hphase hslot => cases h; exact .release hphase hslot hc
    case h_3 => cases h
  | fold a oldestRequiredTs =>
    simp only [fold] at h
    split_ifs at h with hc
    cases hf : foldKey a.ident a.key s.frontier oldestRequiredTs (s.chain a) with
    | error err => rw [hf] at h; cases h
    | ok f =>
      rw [hf] at h
      simp only at h
      cases hh : commitSpillTxn s.hist f.spill with
      | error err => rw [hh] at h; cases h
      | ok hist => rw [hh] at h; cases h; exact .fold hc.1 hc.2.1 hc.2.2 hf hh

end Mqlite.PagedEngine
