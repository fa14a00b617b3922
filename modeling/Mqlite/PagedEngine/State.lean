/-
The engine: any number of write operations, read views and checkpoint folds, interleaved in any way.

A write operation goes through the phases of `TxnPhase` (`storage/paged_engine/commit_envelope.rs`, `doc_ops.rs`):
- selecting: before the commit envelope, documents are selected at a read view, and an expected head is looked up for
  each (`collect_mutation_candidates`), as two separate steps;
- staging: inside the envelope, at a view of its own, inserts check that the key is free and writes are staged;
- installing: a publish slot and a commit timestamp are registered, and the staged writes are installed as Pending
  entries, one key at a time; a conflict or any other failure leads to aborting;
- committing, aborting: the entries are flipped, one key at a time; then the slot is marked Ready or Aborted.
Each step is what the code does under one page latch or one hold of the sequencer's mutex. A checkpoint runs when no
writer is inside its envelope (`checkpoint_gate.rs`) and the engine is not poisoned; it folds at the published
`visible_ts`.

Left out: the log (durability only), catalog changes, and the pages themselves: a tree is its keys.

`old` is not in the code. It keeps the versions a fold has taken out of a chain, so that `Engine.log` is the list of all
versions of a key that have not been aborted, newest install first.
-/
import Mqlite.Mvcc.PendingInstall
import Mqlite.Publish.SeqRun
import Mqlite.Storage.Synth

namespace Mqlite.PagedEngine

open Lib Mvcc Publish Storage Function

/-! ## Data -/

/-- a key of a tree -/
structure Addr where
  ident : TreeIdent
  key : Key
deriving DecidableEq, Repr

def Addr.scope (a : Addr) : InstallConflictScope :=
  match a.ident.kind with
  | .primary => .primary
  | .secondary _ => .secondary

theorem Addr.scope_primary {a : Addr} (h : a.ident.kind = .primary) : a.scope = .primary := by
  unfold Addr.scope
  rw [h]

/-- where a lookup found the version it returned -/
inductive Observed where
  | chain (id : ExpectedHead)
  | history (id : ExpectedHead)
  | base
deriving DecidableEq, Repr

/-- a document found by a selection -/
structure Selection where
  addr : Addr
  doc : Bytes
  observed : Observed
deriving DecidableEq, Repr

/-- a selected document with the head its update or delete expects -/
structure Candidate where
  sel : Selection
  expectedHead : Option ExpectedHead
deriving DecidableEq, Repr

structure StagedWrite where
  addr : Addr
  op : WriteOp
  expectedHead : Option ExpectedHead
  /-- what the selection behind an update or delete observed -/
  observed : Option Observed
deriving DecidableEq, Repr

inductive TxnPhase where
  | idle
  | selecting
  | staging
  | installing
  | committing
  | aborting
  | committed
  | aborted
deriving DecidableEq, Repr

/-- inside the commit envelope -/
def TxnPhase.inside : TxnPhase → Bool
  | .staging | .installing | .committing | .aborting => true
  | _ => false

structure Txn where
  phase : TxnPhase
  selected : List Selection
  candidates : List Candidate
  /-- `read_ts` of the envelope's view -/
  readTs : Ts
  writes : List StagedWrite
  /-- staged writes not yet installed -/
  todo : List StagedWrite
  /-- keys with a Pending entry that is not flipped yet -/
  held : List Addr
  /-- `publish_seq` and `commit_ts` -/
  slot : Option (ℕ × Ts)
deriving DecidableEq, Repr

def Txn.fresh : Txn := ⟨.idle, [], [], ⟨0, 0⟩, [], [], [], none⟩

/-- a version without its interval end and state -/
structure LogEntry where
  startTs : Ts
  txnId : TxnId
  data : VersionData
  isTombstone : Bool
deriving DecidableEq, Repr

def LogEntry.id (x : LogEntry) : ExpectedHead := ⟨x.startTs, x.txnId⟩

def logged (e : VersionEntry) : LogEntry := ⟨e.startTs, e.txnId, e.data, e.isTombstone⟩

structure Engine where
  cell : Addr → Option VersionData
  chain : Addr → Chain
  hist : HistoryStore
  old : Addr → List LogEntry
  seq : SeqState
  /-- read views opened so far -/
  views : List ReadView
  nextTxn : TxnId
  txn : TxnId → Txn

/-- the parts that are not the engine's: overflow pages, and the comparison of decoded documents -/
structure Env where
  pages : ℕ → ℕ → Bytes
  sameDoc : Bytes → Bytes → Bool

inductive Act where
  | openView
  | begin
  | select (t : TxnId) (view : ReadView) (a : Addr)
  | attach (t : TxnId) (sel : Selection)
  | enter (t : TxnId)
  | stageInsert (t : TxnId) (a : Addr) (doc : Bytes)
  | stageMutation (t : TxnId) (cand : Candidate) (op : WriteOp)
  | stageSec (t : TxnId) (a : Addr) (op : WriteOp)
  | giveUp (t : TxnId)
  | register (t : TxnId) (wall : UInt64)
  | install (t : TxnId) (a : Addr)
  | fail (t : TxnId)
  | durable (t : TxnId)
  | flip (t : TxnId) (a : Addr)
  | finish (t : TxnId) (publish : Bool)
  | poison
  | fold (a : Addr) (oldestRequiredTs : Ts)
deriving DecidableEq

def Act.isFold : Act → Bool
  | .fold _ _ => true
  | _ => false

namespace Engine

/-- versions of a key that have not been aborted, newest install first -/
def log (s : Engine) (a : Addr) : List LogEntry := (live (s.chain a)).map logged ++ s.old a

def frontier (s : Engine) : Ts := s.seq.seqr.publishedFrontier

def setTxn (s : Engine) (t : TxnId) (x : Txn) : Engine := { s with txn := Function.update s.txn t x }

def setChain (s : Engine) (a : Addr) (c : Chain) : Engine := { s with chain := Function.update s.chain a c }

section

variable (s : Engine) (t : TxnId) (x : Txn) (a : Addr) (c : Chain)

theorem setTxn_txn (u : TxnId) : (s.setTxn t x).txn u = if u = t then x else s.txn u := update_apply ..

@[simp] theorem setTxn_txn_self : (s.setTxn t x).txn t = x := update_self ..

@[simp] theorem setTxn_chain : (s.setTxn t x).chain = s.chain := rfl

@[simp] theorem setTxn_old : (s.setTxn t x).old = s.old := rfl

@[simp] theorem setTxn_seq : (s.setTxn t x).seq = s.seq := rfl

theorem setChain_chain (b : Addr) : (s.setChain a c).chain b = if b = a then c else s.chain b := update_apply ..

end

/-! ## Reads -/

def lookup (env : Env) (s : Engine) (view : ReadView) (a : Addr) : Except ReadError (Option Bytes) :=
  getMvcc env.pages s.frontier view a.ident.kind (s.chain a) (s.hist a.ident a.key) (s.cell a)

/-- the lookup, with where it ended; `none` where it finds nothing or fails -/
def observe (env : Env) (s : Engine) (view : ReadView) (a : Addr) : Option (Observed × Bytes) :=
  match visibleAt s.frontier view (s.chain a) with
  | some e => (entryValue env.pages e).map fun doc => (.chain e.headId, doc)
  | none =>
    match if historyIsCandidate view.readTs (s.chain a) then
        probeVisibleEntry a.ident.kind (s.hist a.ident a.key) view.readTs else .ok none with
    | .ok (some e) => (entryValue env.pages e).map fun doc => (.history e.headId, doc)
    | .ok none => (s.cell a).map fun data => (.base, resolveVersionData env.pages data)
    | .error _ => none

end Engine

def expectedHeadForSelectedDoc (env : Env) (c : Chain) (selected : Bytes) :
    Except WriteConflictReason (Option ExpectedHead) :=
  match liveHead c with
  | none => .ok none
  | some head =>
    if head.state ≠ .committed ∨ head.isTombstone then .error .staleSnapshot
    else if env.sameDoc (resolveVersionData env.pages head.data) selected then .ok (some head.headId)
    else .error .staleSnapshot

def isMutation : WriteOp → Bool
  | .insert _ => false
  | _ => true

/-! ## Steps -/

namespace Engine

/-- no writer is inside its envelope -/
def quiet (s : Engine) : Bool := (List.range s.nextTxn).all fun t => !(s.txn t).phase.inside

def register (s : Engine) (t : TxnId) (wall : UInt64) : Engine :=
  match (s.seq.seqr.registerWithOracle s.seq.oracle wall).1 with
  | .ok slot => { s with seq := s.seq.register wall }.setTxn t
      { s.txn t with phase := .installing, slot := some slot, todo := (s.txn t).writes }
  | .error _ => { s with seq := s.seq.register wall }.setTxn t { s.txn t with phase := .aborted }

def install (s : Engine) (t : TxnId) (commitTs : Ts) (w : StagedWrite) : Engine :=
  match installOnChain (s.chain w.addr) w.expectedHead w.addr.scope w.addr.key commitTs t w.op with
  | .ok c => (s.setChain w.addr c).setTxn t
      { s.txn t with todo := (s.txn t).todo.erase w, held := w.addr :: (s.txn t).held }
  | .error _ => s.setTxn t { s.txn t with phase := .aborting }

def flip (s : Engine) (t : TxnId) (a : Addr) (commitTs : Option Ts) : Engine :=
  (s.setChain a (flipPendingInChain (s.chain a) t commitTs)).setTxn t
    { s.txn t with held := (s.txn t).held.erase a }

/-- fold one key of a leaf -/
def fold (s : Engine) (a : Addr) (oldestRequiredTs : Ts) : Option Engine :=
  match foldKey a.ident a.key s.frontier oldestRequiredTs (s.chain a) with
  | .error _ => none
  | .ok f =>
    match commitSpillTxn s.hist f.spill with
    | .error _ => none
    | .ok hist => some { s with
        cell := Function.update s.cell a (f.cell.getD (s.cell a))
        chain := Function.update s.chain a f.retained
        hist
        old := Function.update s.old a
          (((live (s.chain a)).filter fun e => !kept s.frontier e).map logged ++ s.old a) }

def step (env : Env) (s : Engine) : Act → Option Engine
  | .openView => some { s with views := ⟨s.frontier, s.nextTxn⟩ :: s.views, nextTxn := s.nextTxn + 1 }
  | .begin => some { s.setTxn s.nextTxn { Txn.fresh with phase := .selecting } with nextTxn := s.nextTxn + 1 }
  | .select t view a =>
    if (s.txn t).phase = .selecting ∧ view ∈ s.views ∧ a.ident.kind = .primary then
      match s.observe env view a with
      | none => none
      | some (observed, doc) => some (s.setTxn t { s.txn t with selected := ⟨a, doc, observed⟩ :: (s.txn t).selected })
    else none
  | .attach t sel =>
    if (s.txn t).phase = .selecting ∧ sel ∈ (s.txn t).selected then
      match expectedHeadForSelectedDoc env (s.chain sel.addr) sel.doc with
      | .ok head => some (s.setTxn t { s.txn t with candidates := ⟨sel, head⟩ :: (s.txn t).candidates })
      | .error _ => some (s.setTxn t { s.txn t with phase := .aborted })
    else none
  | .enter t =>
    if (s.txn t).phase = .selecting then some (s.setTxn t { s.txn t with phase := .staging, readTs := s.frontier })
    else none
  | .stageInsert t a doc =>
    if (s.txn t).phase = .staging ∧ a.ident.kind = .primary then
      if a ∉ (s.txn t).writes.map StagedWrite.addr ∧ s.lookup env ⟨(s.txn t).readTs, t⟩ a = .ok none then
        some (s.setTxn t { s.txn t with writes := ⟨a, .insert doc, none, none⟩ :: (s.txn t).writes })
      -- `Error::DuplicateKey`, or the lookup has failed
      else some (s.setTxn t { s.txn t with phase := .aborted })
    else none
  | .stageMutation t cand op =>
    if (s.txn t).phase = .staging ∧ cand ∈ (s.txn t).candidates ∧
        cand.sel.addr ∉ (s.txn t).writes.map StagedWrite.addr ∧ isMutation op then
      some (s.setTxn t { s.txn t with
        writes := ⟨cand.sel.addr, op, cand.expectedHead, some cand.sel.observed⟩ :: (s.txn t).writes })
    else none
  | .stageSec t a op =>
    if (s.txn t).phase = .staging ∧ a.ident.kind ≠ .primary ∧ a ∉ (s.txn t).writes.map StagedWrite.addr then
      some (s.setTxn t { s.txn t with writes := ⟨a, op, none, none⟩ :: (s.txn t).writes })
    else none
  -- an error before the slot is registered
  | .giveUp t =>
    if (s.txn t).phase = .selecting ∨ (s.txn t).phase = .staging then
      some (s.setTxn t { s.txn t with phase := .aborted })
    else none
  -- no wall clock reads the last representable millisecond
  | .register t wall =>
    if (s.txn t).phase = .staging ∧ wall < UInt64.ofNat (2 ^ 64 - 1) then some (s.register t wall) else none
  | .install t a =>
    if (s.txn t).phase = .installing then
      match (s.txn t).slot, (s.txn t).todo.find? fun w => w.addr = a with
      | some (_, commitTs), some w => some (s.install t commitTs w)
      | _, _ => none
    else none
  -- an error between registration and durability, such as a unique-prefix conflict
  | .fail t =>
    if (s.txn t).phase = .installing then some (s.setTxn t { s.txn t with phase := .aborting }) else none
  | .durable t =>
    if (s.txn t).phase = .installing ∧ (s.txn t).todo = [] then
      some (s.setTxn t { s.txn t with phase := .committing })
    else none
  | .flip t a =>
    if a ∈ (s.txn t).held then
      match (s.txn t).phase, (s.txn t).slot with
      | .committing, some (_, commitTs) => some (s.flip t a (some commitTs))
      | .aborting, _ => some (s.flip t a none)
      | _, _ => none
    else none
  | .finish t publish =>
    if (s.txn t).held = [] then
      match (s.txn t).phase, (s.txn t).slot with
      | .committing, some (seq, _) =>
        some ({ s with seq := s.seq.markReady seq publish }.setTxn t { s.txn t with phase := .committed })
      | .aborting, some (seq, _) =>
        some ({ s with seq := s.seq.markAborted seq }.setTxn t { s.txn t with phase := .aborted })
      | _, _ => none
    else none
  | .poison => some { s with seq := { s.seq with seqr := s.seq.seqr.poison } }
  | .fold a oldestRequiredTs =>
    if s.quiet ∧ s.seq.failed = false ∧ s.seq.seqr.poisoned = false then s.fold a oldestRequiredTs else none

end Engine

end Mqlite.PagedEngine
