/-
Operations on a namespace, with drops and re-creations of it.

The engine of `State.lean` knows trees by their collection id. An operation knows a name, and resolves it twice:
- its documents are selected in the collection that the name has in the epoch its read view pins; with them an expected
  head is looked up in that collection's tree (`collect_mutation_candidates`). What the operation keeps of a document is
  its key, its bytes and the expected head, and nothing that says which collection it came from;
- inside the commit envelope the name is looked up again in the live catalog, and the writes are staged for the
  collection found there (`capture_namespace_identity`, `update`, `delete`, `replace_one`, `find_one_and_*`).
  `create_namespace` and `drop_namespace` hold `metadata.write()`, so they run when no writer is inside its envelope,
  and no writer enters while they run. Collection ids are given out once. A drop first expires all read views (an
  expired view sees no chains); a DDL has a publish slot of its own, as a transaction without writes.

Nothing compares the two collections; see `DropCross.lean` for what follows.

Trees of a dropped collection stay as they are: their pages are retired only when no view can reach them.
-/
import Mqlite.PagedEngine.Log

namespace Mqlite.PagedEngine

open Lib Mvcc Publish Storage

/-! ## State -/

/-- collection ids by namespace -/
abbrev Catalog := String → Option ℤ

/-- a write operation: update, delete, replace, find-and-modify, or insert -/
structure Operation where
  name : String
  /-- the collection its documents are selected in; an insert selects nothing -/
  source : Option ℤ
  /-- the read view of the selection -/
  view : ReadView
  /-- the collection found inside the envelope -/
  target : Option ℤ
deriving DecidableEq, Repr

inductive Ddl where
  | create (name : String)
  | drop (name : String)
deriving DecidableEq, Repr

structure NsEngine where
  eng : Engine
  catalog : Catalog
  nextId : ℤ
  /-- read views, with the catalog of the epoch they pin -/
  epochs : List (ReadView × Catalog)
  expired : List ReadView
  /-- who holds `metadata.write()` -/
  writer : Option Ddl
  op : TxnId → Option Operation

inductive NsAct where
  | openView
  | begin (name : String) (view : ReadView)
  | beginInsert (name : String)
  | select (t : TxnId) (key : Key)
  | attach (t : TxnId) (sel : Selection)
  | enter (t : TxnId)
  | stage (t : TxnId) (cand : Candidate) (op : WriteOp)
  | stageInsert (t : TxnId) (key : Key) (doc : Bytes)
  | stageSec (t : TxnId) (indexId : ℤ) (key : Key) (op : WriteOp)
  | engine (act : Act)
  | startDdl (ddl : Ddl)
  | endDdl (ok : Bool) (wall : UInt64)
deriving DecidableEq

/-- the steps of the engine that know nothing of names -/
def Act.nameless : Act → Bool
  | .giveUp _ | .register .. | .install .. | .fail _ | .durable _ | .flip .. | .finish .. | .poison | .fold .. => true
  | _ => false

/-! ## Steps -/

/-- the same key in another collection -/
def Selection.move (id : ℤ) (sel : Selection) : Selection := { sel with addr := ⟨⟨id, .primary⟩, sel.addr.key⟩ }

def Candidate.move (id : ℤ) (cand : Candidate) : Candidate := { cand with sel := cand.sel.move id }

namespace Engine

/-- what a read view finds; an expired one sees no chains -/
def observeAt (env : Env) (s : Engine) (expired : Bool) (view : ReadView) (a : Addr) : Option (Observed × Bytes) :=
  if expired then observe env { s with chain := fun _ => [] } view a else s.observe env view a

/-- from here on the documents t selected are taken for documents of the collection -/
def move (s : Engine) (t : TxnId) (id : ℤ) : Engine := s.setTxn t { s.txn t with
  selected := (s.txn t).selected.map (Selection.move id)
  candidates := (s.txn t).candidates.map (Candidate.move id) }

end Engine

/-- the publish slot of a DDL -/
def ddlActs (n : TxnId) (wall : UInt64) (ok : Bool) : List Act :=
  [.begin, .enter n, .register n wall, if ok then .durable n else .fail n, .finish n true]

namespace NsEngine

def setOp (s : NsEngine) (t : TxnId) (o : Operation) : NsEngine := { s with op := Function.update s.op t (some o) }

/-- the catalog and the id counter after a DDL; `create_namespace` fails if the name is taken -/
def applyDdl (s : NsEngine) : Ddl → Bool → Option (Catalog × ℤ)
  | .create name, true =>
    if s.catalog name = none then some (Function.update s.catalog name (some s.nextId), s.nextId + 1) else none
  | .create name, false => some (s.catalog, if s.catalog name = none then s.nextId + 1 else s.nextId)
  | .drop name, true => some (Function.update s.catalog name none, s.nextId)
  | .drop _, false => some (s.catalog, s.nextId)

def step (env : Env) (s : NsEngine) : NsAct → Option NsEngine
  | .openView => (s.eng.step env .openView).map fun eng =>
      { s with eng, epochs := (⟨s.eng.frontier, s.eng.nextTxn⟩, s.catalog) :: s.epochs }
  | .begin name view =>
    match s.epochs.find? fun p => p.1 = view with
    | none => none
    | some p =>
      match p.2 name with
      -- nothing matches
      | none => none
      | some id => (s.eng.step env .begin).map fun eng =>
          { s with eng }.setOp s.eng.nextTxn ⟨name, some id, view, none⟩
  | .beginInsert name => (s.eng.step env .begin).map fun eng =>
      { s with eng }.setOp s.eng.nextTxn ⟨name, none, ⟨s.eng.frontier, s.eng.nextTxn⟩, none⟩
  | .select t key =>
    match s.op t with
    | some ⟨_, some id, view, none⟩ =>
      if (s.eng.txn t).phase = .selecting then
        match s.eng.observeAt env (view ∈ s.expired) view ⟨⟨id, .primary⟩, key⟩ with
        | none => none
        | some (observed, doc) => some { s with eng := s.eng.setTxn t { s.eng.txn t with
            selected := ⟨⟨⟨id, .primary⟩, key⟩, doc, observed⟩ :: (s.eng.txn t).selected } }
      else none
    | _ => none
  | .attach t sel =>
    match s.op t with
    | some ⟨_, _, _, none⟩ => (s.eng.step env (.attach t sel)).map fun eng => { s with eng }
    | _ => none
  | .enter t =>
    if s.writer = none then
      match s.op t with
      | some ⟨name, source, view, none⟩ =>
        match s.catalog name with
        -- `Error::CollectionNotFound`
        | none => (s.eng.step env (.giveUp t)).map fun eng => { s with eng }
        | some id => ((s.eng.move t id).step env (.enter t)).map fun eng =>
            { s with eng }.setOp t ⟨name, source, view, some id⟩
      | _ => none
    else none
  | .stage t cand op => (s.eng.step env (.stageMutation t cand op)).map fun eng => { s with eng }
  | .stageInsert t key doc =>
    match s.op t with
    | some ⟨_, none, _, some id⟩ => (s.eng.step env (.stageInsert t ⟨⟨id, .primary⟩, key⟩ doc)).map fun eng =>
      { s with eng }
    | _ => none
  -- index entries are staged with a document
  | .stageSec t indexId key op =>
    match s.op t with
    | some ⟨_, _, _, some id⟩ =>
      if (s.eng.txn t).writes = [] then none
      else (s.eng.step env (.stageSec t ⟨⟨id, .secondary indexId⟩, key⟩ op)).map fun eng => { s with eng }
    | _ => none
  | .engine act => if act.nameless then (s.eng.step env act).map fun eng => { s with eng } else none
  | .startDdl ddl =>
    if s.writer = none ∧ s.eng.quiet then
      match ddl with
      | .create _ => some { s with writer := some ddl }
      | .drop name => if s.catalog name = none then none else some { s with writer := some ddl, expired := s.eng.views }
    else none
  | .endDdl ok wall =>
    match s.writer with
    | none => none
    | some ddl =>
      match s.applyDdl ddl ok, run (Engine.step env) s.eng (ddlActs s.eng.nextTxn wall ok) with
      | some (catalog, nextId), some eng => some { s with eng, catalog, nextId, writer := none }
      | _, _ => none

end NsEngine

end Mqlite.PagedEngine
