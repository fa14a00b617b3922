/-
Index reads at old snapshots (`execute_index_scan_from_snap` of `storage/paged_engine/snapshot_ops/read_exec.rs`), over
commits and checkpoint folds.

A committed write puts a version on the chain of its document and, as the maintenance stages it, one on the chain of
every index key that comes or goes. A fold takes versions out of the chains of one tree: into the base cell, or into the
history store. A lookup in the collection falls through to the history store. An index scan does not: it is given no
history probe.

Trees are modelled key by key, with one fold step for each key of a page (`synthesizePage_key`: a page is folded key by
key). The unique check decides only whether a write is committed, so it is left out: every history that it lets through
is a run here. `scan_without_history` says what a scan without history probe has to do with the lookups here.

`index_reads_agree`: every registered view sees exactly the index keys of the documents that it sees, as long as no
commit removes a key that another document has too, and no fold takes away what a registered view reads. In the index
that is every version but the newest (`index_forgets_deleted_entry`).
-/
import Mqlite.Btree.ScanAgrees
import Mqlite.Index.Maintain
import Mqlite.Mvcc.PendingInstall
import Mqlite.Storage.FoldSnapshot

namespace Mqlite.Index

open Lib Mvcc Keys Query Storage List Option VersionEntry OrdMap

/-! ## Model -/

/-- a collection with an index; documents are stored in serialised form -/
structure Setup where
  env : Env
  entry : IndexEntry
  decode : Bytes → Option Document
  idBytes : Bson → Bytes
  pages : ℕ → ℕ → Bytes
  collectionId : ℤ
  indexId : ℤ

def Setup.primaryIdent (cfg : Setup) : TreeIdent := ⟨cfg.collectionId, .primary⟩

def Setup.secondaryIdent (cfg : Setup) : TreeIdent := ⟨cfg.collectionId, .secondary cfg.indexId⟩

structure TreeState where
  chains : Key → Chain
  cells : Key → Option VersionData

/-- both trees, the history store, the registered views, and the newest commit -/
structure Db where
  primary : TreeState
  secondary : TreeState
  history : HistoryStore
  readers : List ReadView
  now : Ts

namespace Db

variable (cfg : Setup) (s : Db)

/-- a lookup in the collection -/
def docAt (view : ReadView) (key : Key) : Except ReadError (Option Document) :=
  (getMvcc cfg.pages s.now view .primary (s.primary.chains key) (s.history cfg.primaryIdent key)
    (s.primary.cells key)).map (·.bind cfg.decode)

/-- a key of the index, as a scan without history probe reads it; without rows no lookup fails -/
def present (view : ReadView) (k : Key) : Bool :=
  (getFitting cfg.pages s.now view cfg.secondaryIdent.kind (s.secondary.chains k) OrdMap.empty
    (s.secondary.cells k)).isSome

/-- what a writer sees -/
def latest : ReadView := ⟨s.now, 0⟩

end Db

/-! ### Commits -/

open Db

/-- a write of a client; `data` is the serialised document -/
inductive Request where
  | insert (data : Bytes)
  | update (key : Key) (data : Bytes)
  | delete (key : Key)

/-- what a write does to its document and to the index -/
structure StagedWrite where
  key : Key
  op : WriteOp
  index : List SecIndexWrite

/-- an update keeps the primary key, whatever the new document's `_id` is -/
def stage (cfg : Setup) (s : Db) (view : WriterView) : Request → Option StagedWrite
  | .insert data =>
    match cfg.decode data with
    | none => none
    | some doc =>
      match s.docAt cfg s.latest (encodeKey (idOf doc)) with
      | .ok none =>
        match updateIndexOnInsert cfg.env view cfg.entry doc (idOf doc) with
        | .error _ => none
        | .ok (staged, _) => some ⟨encodeKey (idOf doc), .insert data, staged⟩
      | _ => none
  | .update key data =>
    match s.docAt cfg s.latest key, cfg.decode data with
    | .ok (some old), some doc =>
      match updateIndexOnUpdate cfg.env view cfg.entry old doc (idOf old) (idOf doc) with
      | .error _ => none
      | .ok (staged, _) => some ⟨key, .update data, staged⟩
    | _, _ => none
  | .delete key =>
    match s.docAt cfg s.latest key with
    | .ok (some old) =>
      match updateIndexOnDelete cfg.env cfg.entry old (idOf old) with
      | .error _ => none
      | .ok staged => some ⟨key, .delete, staged⟩
    | _ => none

def setChain (chains : Key → Chain) (key : Key) (c : Chain) : Key → Chain := fun k => if k = key then c else chains k

/-- the payload of an entry is the `_id` -/
def SecIndexOp.writeOp (cfg : Setup) : SecIndexOp → WriteOp
  | .insert id => .insert (cfg.idBytes id)
  | .delete => .delete

/-- the loop of `install_pending_sec_index` -/
def installSecIndex (cfg : Setup) (ts : Ts) (txnId : TxnId) :
    List SecIndexWrite → (Key → Chain) → Except WriteConflictReason (Key → Chain)
  | [], chains => .ok chains
  | w :: ws, chains =>
    match installOnChain (chains w.key) none .secondary w.key ts txnId (w.op.writeOp cfg) with
    | .error e => .error e
    | .ok c => installSecIndex cfg ts txnId ws (setChain chains w.key c)

/-- install everything, then flip the Pending entries to Committed -/
def commit (cfg : Setup) (s : Db) (ts : Ts) (txnId : TxnId) (expectedHead : Option ExpectedHead) (w : StagedWrite) :
    Option Db :=
  match installOnChain (s.primary.chains w.key) expectedHead .primary w.key ts txnId w.op,
    installSecIndex cfg ts txnId w.index s.secondary.chains with
  | .ok c, .ok chains => some { s with
      primary.chains := setChain s.primary.chains w.key (flipPendingInChain c txnId (some ts))
      secondary.chains := fun k => flipPendingInChain (chains k) txnId (some ts)
      now := ts }
  | _, _ => none

/-! ### Folds -/

/-- the fold of one key -/
def foldTree (tree : TreeState) (ident : TreeIdent) (history : HistoryStore) (key : Key)
    (checkpointTs oldestRequiredTs : Ts) :
    Option (TreeState × HistoryStore) :=
  match foldKey ident key checkpointTs oldestRequiredTs (tree.chains key) with
  | .error _ => none
  | .ok f =>
    match commitSpillTxn history f.spill with
    | .error _ => none
    | .ok history' => some (⟨setChain tree.chains key f.retained,
        fun k => if k = key then f.cell.getD (tree.cells k) else tree.cells k⟩, history')

inductive Act where
  | register (txnId : TxnId)
  | release (view : ReadView)
  | commit (ts : Ts) (txnId : TxnId) (expectedHead : Option ExpectedHead) (request : Request) (view : WriterView)
  | foldPrimary (key : Key) (checkpointTs oldestRequiredTs : Ts)
  | foldSecondary (k : Key) (checkpointTs oldestRequiredTs : Ts)

def Db.step (cfg : Setup) (s : Db) : Act → Option Db
  | .register txnId => some { s with readers := ⟨s.now, txnId⟩ :: s.readers }
  | .release view => some { s with readers := s.readers.erase view }
  | .commit ts txnId expectedHead request view =>
    if s.now < ts ∧ ts < Ts.MAX then (stage cfg s view request).bind
      (Index.commit cfg s ts txnId expectedHead) else none
  | .foldPrimary key checkpointTs oldestRequiredTs =>
    if ∀ view ∈ s.readers, oldestRequiredTs ≤ view.readTs then
      (foldTree s.primary cfg.primaryIdent s.history key checkpointTs oldestRequiredTs).map fun p =>
        { s with primary := p.1, history := p.2 }
    else none
  | .foldSecondary k checkpointTs oldestRequiredTs =>
    if ∀ view ∈ s.readers, oldestRequiredTs ≤ view.readTs then
      (foldTree s.secondary cfg.secondaryIdent s.history k checkpointTs oldestRequiredTs).map fun p =>
        { s with secondary := p.1, history := p.2 }
    else none

/-- the index keys that a view sees are those of the documents that it sees -/
def Agrees (cfg : Setup) (s : Db) (view : ReadView) : Prop :=
  ∀ k, s.present cfg view k = true ↔ ∃ key doc, s.docAt cfg view key = .ok (some doc) ∧ k ∈ keysOf cfg.env cfg.entry doc

/-! ### Conditions on steps -/

def HasKey (cfg : Setup) (found : Except ReadError (Option Document)) (k : Bytes) : Prop :=
  ∃ doc, found = .ok (some doc) ∧ k ∈ keysOf cfg.env cfg.entry doc

/-- some document under another key has the index key -/
def Db.OtherHas (cfg : Setup) (s : Db) (key : Key) (k : Bytes) : Prop :=
  ∃ key', key' ≠ key ∧ HasKey cfg (s.docAt cfg s.latest key') k

/-- the write removes no key from the index that another document has too -/
def Db.Unshared (cfg : Setup) (s : Db) : Request → Prop
  | .insert _ => True
  | .update key data =>
    ∀ k, HasKey cfg (s.docAt cfg s.latest key) k → ¬ HasKey cfg (.ok (cfg.decode data)) k → ¬ s.OtherHas cfg key k
  | .delete key => ∀ k, HasKey cfg (s.docAt cfg s.latest key) k → ¬ s.OtherHas cfg key k

/-- what a view reads of an index key after the fold is what it read before: its version stays, or the winner is present
exactly if the key was -/
def KeyKept (pages : ℕ → ℕ → Bytes) (frontier : Ts) (view : ReadView) (kind : TreeKind) (checkpointTs : Ts) (c : Chain)
    (cell : Option VersionData) : Prop :=
  (∃ e ∈ visibleAt frontier view c, checkpointTs < e.startTs) ∨
    ∀ w ∈ checkpointWinner c checkpointTs, (getFitting pages frontier view kind c OrdMap.empty cell).isSome =
      !w.isTombstone

/-- commits remove no shared key, folds keep what the registered views read, and what they spill of the collection
fits -/
def Db.Safe (cfg : Setup) (s : Db) : Act → Prop
  | .register _ => True
  | .release _ => True
  | .commit _ _ _ request _ => s.Unshared cfg request
  | .foldPrimary key checkpointTs oldestRequiredTs =>
      FoldFits checkpointTs oldestRequiredTs (s.primary.chains key) (s.history cfg.primaryIdent key) ∧
      ∀ view ∈ s.readers, Survives cfg.pages .primary checkpointTs s.now view (s.primary.chains key)
        (s.history cfg.primaryIdent key) (s.primary.cells key)
  | .foldSecondary k checkpointTs _ => ∀ view ∈ s.readers,
      KeyKept cfg.pages s.now view cfg.secondaryIdent.kind checkpointTs (s.secondary.chains k) (s.secondary.cells k)

/-! ## Settled chains

Between steps every version is committed, and the newest one of a key is current. -/

structure Settled (now : Ts) (c : Chain) : Prop where
  committed : ∀ e ∈ c, e.state = .committed
  disjoint : DisjointNewestFirst c
  current : ∀ e ∈ c.head?, e.stopTs = Ts.MAX
  started : ∀ e ∈ c, e.startTs ≤ now

/-- the newest value -/
def newest (pages : ℕ → ℕ → Bytes) (c : Chain) (cell : Option VersionData) : Option Bytes :=
  match c with
  | [] => cell.map (resolveVersionData pages)
  | e :: _ => entryValue pages e

section Settled

variable {now ts : Ts} {c : Chain} {pages : ℕ → ℕ → Bytes} {frontier : Ts} {view : ReadView} {kind : TreeKind}
  {rows : HistoryRows} {cell : Option VersionData}

theorem Settled.mono (h : Settled now c) (hle : now ≤ ts) : Settled ts c :=
  ⟨h.committed, h.disjoint, h.current, fun e he => (h.started e he).trans hle⟩

variable {e : VersionEntry}

/-- versions behind the newest one have ended -/
theorem Settled.ended {d : VersionEntry} (h : Settled now (e :: c)) (hd : d ∈ c) : d.stopTs ≤ e.startTs := by
  have hp := h.disjoint.apart
  rw [filter_eq_self.2 fun d hd => decide_eq_true (h.committed d hd)] at hp
  exact (pairwise_cons.1 hp).1 d hd

/-- rows of the history store that have ended -/
def RowsEnded (now : Ts) (rows : HistoryRows) : Prop := ∀ k e, rows.get? k = some e → e.stopTs ≤ now

theorem rowsEnded_empty : RowsEnded now empty := fun k e h => by cases h

theorem visibleEntry_ended (h : RowsEnded now rows) : visibleEntry kind rows now = none := by
  cases hprobe : visibleEntry kind rows now with
  | none => rfl
  | some e =>
    obtain ⟨k, hk⟩ := probe_mem hprobe
    exact absurd (h k e hk) (not_le.2 (probe_visible hprobe).2)

/-- a view at the newest commit reads the newest value -/
theorem getFitting_newest (h : Settled now c) (hnow : now < Ts.MAX) (hrows : RowsEnded now rows)
    (hview : view.readTs = now) :
    getFitting pages frontier view kind c rows cell = newest pages c cell := by
  cases c with
  | nil =>
    simp only [getFitting, visibleAt, find?_nil, historyIsCandidate, all_nil, if_true, hview, visibleEntry_ended hrows]
    rfl
  | cons e c =>
    have hvisible : versionVisibleTo frontier view e = true := by
      refine visible_of_committed (h.committed e mem_cons_self) ⟨?_, ?_⟩
      · rw [hview]
        exact h.started e mem_cons_self
      · rw [hview, h.current e rfl]
        exact hnow
    rw [getFitting, visibleAt, find?_cons_of_pos hvisible]
    rfl

/-! ### Commits -/

/-- the chain with a new committed version -/
def pushCommitted (c : Chain) (ts : Ts) (txnId : TxnId) (op : WriteOp) : Chain :=
  ⟨ts, Ts.MAX, txnId, .committed, op.payload.1, op.payload.2⟩ :: supersede ts c

/-- the newest version ends where the new one starts -/
theorem supersede_settled (h : Settled now (e :: c)) : supersede ts (e :: c) = { e with stopTs := ts } :: c := by
  rw [supersede, if_pos]
  rw [isLiveHead_iff, h.committed e mem_cons_self]
  exact ⟨h.current e rfl, by decide⟩

variable {checkpointTs oldestRequiredTs : Ts} {rows' : HistoryRows}

theorem getFitting_empty : getFitting pages frontier view kind c empty cell =
    match visibleAt frontier view c with
    | some e => entryValue pages e
    | none => cell.map (resolveVersionData pages) := by
  unfold getFitting
  cases visibleAt frontier view c with
  | some e => rfl
  | none =>
    cases historyIsCandidate view.readTs c <;> rfl

variable (h : Settled now c)

include h

theorem flip_pushPending (txnId : TxnId) (op : WriteOp) :
    flipPendingInChain (pushPending c ts txnId op) txnId (some ts) = pushCommitted c ts txnId op := by
  rw [flip_committed, pushPending, map_cons]
  refine congrArg₂ _ ?_ ?_
  · simp [commitEntry, pendingEntry, isPendingOf]
  · refine map_congr_left (fun e he => ?_) |>.trans (map_id _)
    obtain ⟨e', he', ts', rfl⟩ := exists_of_forgetStop_eq (forgetStop_supersede ts c) he
    simp [commitEntry, h.committed e' he']

theorem flip_settled (txnId : TxnId) : flipPendingInChain c txnId (some ts) = c :=
  flipLoop_of_none (fun e he => by rw [h.committed e he]; simp) _

theorem settled_push (hts : now < ts) (hmax : ts < Ts.MAX) (txnId : TxnId) (op : WriteOp) :
    Settled ts (pushCommitted c ts txnId op) := by
  cases c with
  | nil => exact ⟨by simp [pushCommitted, supersede],
      ⟨by simp [pushCommitted, supersede], by simp [pushCommitted, supersede, hmax]⟩,
      by simp [pushCommitted, supersede], by simp [pushCommitted, supersede]⟩
  | cons e c =>
    rw [pushCommitted, supersede_settled h]
    have hcommitted : ∀ d ∈ (⟨ts, Ts.MAX, txnId, .committed, op.payload.1, op.payload.2⟩ ::
        { e with stopTs := ts } :: c : Chain), d.state = .committed :=
      forall_mem_cons.2
        ⟨rfl, forall_mem_cons.2 ⟨h.committed e mem_cons_self, fun d hd => h.committed d (mem_cons_of_mem _ hd)⟩⟩
    have hstart := (h.started e mem_cons_self).trans_lt hts
    have hrest : ∀ d ∈ c, d.stopTs ≤ e.startTs := fun d hd => h.ended hd
    have htail : c.Pairwise fun newer older => older.stopTs ≤ newer.startTs := by
      have hp := h.disjoint.apart
      rw [filter_eq_self.2 fun d hd => decide_eq_true (h.committed d hd)] at hp
      exact (pairwise_cons.1 hp).2
    refine ⟨hcommitted, ⟨?_, ?_⟩, fun d hd => by cases hd; rfl, ?_⟩
    · rw [filter_eq_self.2 fun d hd => decide_eq_true (hcommitted d hd)]
      refine pairwise_cons.2 ⟨forall_mem_cons.2 ⟨le_rfl, fun d hd => ?_⟩, pairwise_cons.2 ⟨hrest, htail⟩⟩
      exact (hrest d hd).trans hstart.le
    · refine forall_mem_cons.2 ⟨fun _ => hmax, forall_mem_cons.2 ⟨fun _ => hstart, fun d hd hc => ?_⟩⟩
      exact h.disjoint.proper d (mem_cons_of_mem _ hd) hc
    · refine forall_mem_cons.2 ⟨le_rfl, forall_mem_cons.2 ⟨hstart.le, fun d hd => ?_⟩⟩
      exact (h.started d (mem_cons_of_mem _ hd)).trans hts.le

/-- a view from before reads what it has read -/
theorem getFitting_push (hts : now < ts) (hmax : ts < Ts.MAX) (hview : view.readTs ≤ now) (txnId : TxnId)
    (op : WriteOp) (frontier' : Ts) : getFitting pages frontier' view kind (pushCommitted c ts txnId op) rows cell =
      getFitting pages frontier view kind c rows cell := by
  have hlt := hview.trans_lt hts
  have hnew : ¬ versionVisibleTo frontier' view ⟨ts, Ts.MAX, txnId, .committed, op.payload.1, op.payload.2⟩ = true := by
    simp [versionVisibleTo, hlt]
  have hcommitted : ∀ e ∈ c, versionVisibleTo frontier' view e = versionVisibleTo frontier view e := by
    intro e he
    simp [versionVisibleTo, h.committed e he]
  cases c with
  | nil =>
    simp [getFitting, pushCommitted, supersede, visibleAt, versionVisibleTo, historyIsCandidate, hlt]
  | cons e c =>
    have hpush : pushCommitted (e :: c) ts txnId op =
        ⟨ts, Ts.MAX, txnId, .committed, op.payload.1, op.payload.2⟩ :: { e with stopTs := ts } :: c := by
      rw [pushCommitted, supersede_settled h]
    have hec := h.committed e mem_cons_self
    have hsame : versionVisibleTo frontier' view { e with stopTs := ts } = versionVisibleTo frontier view e := by
      simp [versionVisibleTo, hec, h.current e rfl, hlt, hlt.trans hmax]
    have hcand : historyIsCandidate view.readTs (pushCommitted (e :: c) ts txnId op) =
        historyIsCandidate view.readTs (e :: c) := by
      simp [hpush, historyIsCandidate, hlt]
    have hrest : c.find? (versionVisibleTo frontier' view) = c.find? (versionVisibleTo frontier view) :=
      find?_congr fun d hd => hcommitted d (mem_cons_of_mem _ hd)
    unfold getFitting
    rw [hcand]
    rw [hpush, visibleAt, visibleAt, find?_cons_of_neg hnew, find?_cons, find?_cons, hsame, hrest]
    cases versionVisibleTo frontier view e <;> rfl

/-! ### Folds -/

theorem Settled.kept_iff (he : e ∈ c) : kept checkpointTs e = true ↔ checkpointTs < e.startTs := by
  simp [kept, h.committed e he]

/-- a fold takes all versions behind a certain one, or none -/
theorem Settled.fold_cases (checkpointTs : Ts) :
    (∃ e d, c = e :: d ∧ c.filter (kept checkpointTs) = e :: d.filter (kept checkpointTs)) ∨
      c.filter (kept checkpointTs) = [] ∧ checkpointWinner c checkpointTs = c.head? := by
  cases c with
  | nil => exact .inr ⟨rfl, rfl⟩
  | cons e d =>
    have hmem : e ∈ e :: d := mem_cons_self
    by_cases hk : kept checkpointTs e = true
    · exact .inl ⟨e, d, rfl, filter_cons_of_pos hk⟩
    · have hle : e.startTs ≤ checkpointTs := not_lt.1 fun hlt => hk ((h.kept_iff hmem).2 hlt)
      refine .inr ⟨filter_eq_nil_iff.2 (forall_mem_cons.2 ⟨hk, fun x hx hkx => ?_⟩), ?_⟩
      · have hxm : x ∈ e :: d := mem_cons_of_mem _ hx
        have hlt := (h.disjoint.proper x hxm (h.committed x hxm)).trans_le ((h.ended hx).trans hle)
        exact absurd ((h.kept_iff hxm).1 hkx) (not_lt.2 hlt.le)
      · rw [h.disjoint.winner_eq, find?_cons_of_pos (foldable_iff.2 ⟨h.committed e hmem, hle⟩)]
        rfl

theorem settled_fold : Settled now (c.filter (kept checkpointTs)) where
  committed e he := h.committed e (mem_filter.1 he).1
  disjoint := ⟨h.disjoint.apart.sublist (filter_sublist.filter _), fun e he => h.disjoint.proper e (mem_filter.1 he).1⟩
  current := by
    intro e he
    rcases h.fold_cases checkpointTs with ⟨x, d, rfl, hfilter⟩ | ⟨hfilter, -⟩
    · rw [hfilter] at he
      exact h.current e he
    · rw [hfilter] at he
      cases he
  started e he := h.started e (mem_filter.1 he).1

/-- the newest value stays -/
theorem newest_fold :
    newest pages (c.filter (kept checkpointTs)) (cellAfter checkpointTs c cell) = newest pages c cell := by
  rcases h.fold_cases checkpointTs with ⟨x, d, rfl, hfilter⟩ | ⟨hfilter, hwin⟩
  · rw [hfilter]
    rfl
  · rw [hfilter]
    refine cellAfter_value.trans ?_
    rw [hwin]
    cases c <;> rfl

/-- spilled versions have ended -/
theorem rowsEnded_fold (hrows : RowsEnded now rows) (hspill : Spilled checkpointTs oldestRequiredTs c rows rows') :
    RowsEnded now rows' := by
  intro k e he
  rcases (hspill k e).1 he with hold | ⟨-, hmem, hsp, hwin⟩
  · exact hrows k e hold
  · cases c with
    | nil => cases hmem
    | cons x d =>
      rcases mem_cons.1 hmem with rfl | hd
      · -- the newest version is the winner when it can be folded
        exfalso
        refine hwin ?_
        rw [h.disjoint.winner_eq, find?_cons_of_pos (spilled_iff.1 hsp).1]
      · exact (h.ended hd).trans (h.started x mem_cons_self)

/-- **A fold and a scan without history probe.** -/
theorem present_fold_iff :
    ((getFitting pages frontier view kind (c.filter (kept checkpointTs)) empty (cellAfter checkpointTs c cell)).isSome =
      (getFitting pages frontier view kind c empty cell).isSome) ↔
        KeyKept pages frontier view kind checkpointTs c cell := by
  by_cases hk : ∃ e ∈ visibleAt frontier view c, checkpointTs < e.startTs
  · obtain ⟨e, he, hlt⟩ := hk
    have hkept := (h.kept_iff (mem_of_find?_eq_some he)).2 hlt
    refine iff_of_true ?_ (.inl ⟨e, he, hlt⟩)
    rw [getFitting_empty, getFitting_empty, visibleAt_filter_of_kept he hkept, mem_def.1 he]
  · -- the version read, if there is one, leaves the chain, and no other is visible
    have hnone : visibleAt frontier view (c.filter (kept checkpointTs)) = none := by
      refine find?_eq_none.2 fun d hd hv => ?_
      obtain ⟨hdm, hdk⟩ := mem_filter.1 hd
      cases he : visibleAt frontier view c with
      | none => exact find?_eq_none.1 he d hdm hv
      | some e =>
        have hem := mem_of_find?_eq_some he
        have hve := find?_some he
        have hde : d = e := by
          simp only [versionVisibleTo, h.committed d hdm, h.committed e hem, decide_eq_true_eq] at hv hve
          exact h.disjoint.unique hdm hem (h.committed d hdm) (h.committed e hem) hv hve
        subst hde
        exact hk ⟨d, he, (h.kept_iff hdm).1 hdk⟩
    rw [KeyKept, or_iff_right hk]
    cases hw : checkpointWinner c checkpointTs with
    | some w =>
      have hafter : (getFitting pages frontier view kind (c.filter (kept checkpointTs)) empty
          (cellAfter checkpointTs c cell)).isSome = !w.isTombstone := by
        rw [getFitting_empty, hnone]
        rw [cellAfter_value, hw]
        cases hdead : w.isTombstone <;> simp [entryValue, hdead]
      rw [hafter, eq_comm]
      simp
    | none =>
      -- nothing can be folded, so the view reads the cell, and the cell stays
      have hvis : visibleAt frontier view c = none := by
        refine find?_eq_none.2 fun e he hv => ?_
        rw [h.disjoint.winner_eq] at hw
        have hf := find?_eq_none.1 hw e he
        rw [foldable_iff, not_and, not_le] at hf
        have hkept := (h.kept_iff he).2 (hf (h.committed e he))
        exact find?_eq_none.1 hnone e (mem_filter.2 ⟨he, hkept⟩) hv
      refine iff_of_true ?_ (fun w hw => by cases hw)
      rw [getFitting_empty, getFitting_empty, hnone, hvis]
      rw [cellAfter_value, hw]

end Settled

/-! ## One step -/

/-- the live head is a Pending entry of the transaction -/
def headPending (txnId : TxnId) (c : Chain) : Bool := (liveHead c).any (VersionEntry.isPendingOf txnId)

theorem headPending_push (c : Chain) (ts : Ts) (txnId : TxnId) (op : WriteOp) :
    headPending txnId (pushPending c ts txnId op) = true := by
  simp [headPending, liveHead, pushPending, pendingEntry, find?_cons_of_pos, isLiveHead]

theorem headPending_settled {now : Ts} {c : Chain} (h : Settled now c) (txnId : TxnId) :
    headPending txnId c = false := by
  cases hh : liveHead c with
  | none => simp [headPending, hh]
  | some e => simp [headPending, hh, isPendingOf, h.committed e (mem_of_find?_eq_some hh)]

/-- an install on an index key is never refused -/
theorem installOnChain_secondary (c : Chain) (key : Key) (ts : Ts) (txnId : TxnId) (op : WriteOp) :
    installOnChain c none .secondary key ts txnId op =
      .ok (if headPending txnId c then c else pushPending c ts txnId op) := by
  unfold installOnChain classifyDeltaInstall headPending
  cases liveHead c with
  | none => simp
  | some e =>
    by_cases he : e.state = .pending txnId <;> simp [he, isPendingOf]

section Step

variable {cfg : Setup} {s t : Db} {ts : Ts} {txnId : TxnId} {staged : List SecIndexWrite}

/-- each key gets the first of its writes -/
theorem installSecIndex_ok {chains chains' : Key → Chain}
    (h : installSecIndex cfg ts txnId staged chains = .ok chains') (k : Key) :
    chains' k = if headPending txnId (chains k) then chains k else
      match staged.find? (·.key = k) with
      | none => chains k
      | some w => pushPending (chains k) ts txnId (w.op.writeOp cfg) := by
  induction staged generalizing chains with
  | nil =>
    cases h
    simp
  | cons w staged ih =>
    rw [installSecIndex, installOnChain_secondary] at h
    rw [ih h, setChain]
    by_cases hk : k = w.key
    · subst hk
      by_cases hp : headPending txnId (chains w.key) = true
      · simp [hp]
      · simp [hp, headPending_push]
    · rw [if_neg hk, find?_cons_of_neg (by simpa using Ne.symm hk)]

/-- chains are settled, and every registered view sees the image -/
structure Inv (cfg : Setup) (s : Db) : Prop where
  primary : ∀ key, Settled s.now (s.primary.chains key)
  secondary : ∀ k, Settled s.now (s.secondary.chains k)
  rows : ∀ key, RowsEnded s.now (s.history cfg.primaryIdent key)
  fits : ∀ key, RowsFit (s.history cfg.primaryIdent key)
  bounded : s.now < Ts.MAX
  readers : ∀ view ∈ s.readers, view.readTs ≤ s.now ∧ Agrees cfg s view
  latest : ∀ view : ReadView, view.readTs = s.now → Agrees cfg s view

/-! ### Commits -/

variable {expectedHead : Option ExpectedHead} {w : StagedWrite} {view : ReadView} {checkpointTs oldestRequiredTs : Ts}

/-- the trees after a commit -/
theorem commit_ok (hI : Inv cfg s) (h : Index.commit cfg s ts txnId expectedHead w = some t) :
    t.now = ts ∧ t.readers = s.readers ∧ t.history = s.history ∧ t.primary.cells = s.primary.cells ∧
      t.secondary.cells = s.secondary.cells ∧ (∀ key, t.primary.chains key =
        if key = w.key then pushCommitted (s.primary.chains key) ts txnId w.op else s.primary.chains key) ∧
      ∀ k, t.secondary.chains k =
        match w.index.find? (·.key = k) with
        | none => s.secondary.chains k
        | some x => pushCommitted (s.secondary.chains k) ts txnId (x.op.writeOp cfg) := by
  unfold Index.commit at h
  have hpending : ∀ e ∈ s.primary.chains w.key, e.state ≠ .pending txnId := fun e he => by
    simp [(hI.primary w.key).committed e he]
  rcases installOnChain_cases hpending expectedHead .primary w.key ts w.op with ⟨r, -, hr⟩ | ⟨-, hr⟩
  · rw [hr] at h
    cases h
  · rw [hr] at h
    cases hsec : installSecIndex cfg ts txnId w.index s.secondary.chains with
    | error err => rw [hsec] at h; cases h
    | ok chains =>
      rw [hsec] at h
      cases h
      refine ⟨rfl, rfl, rfl, rfl, rfl, fun key => ?_, fun k => ?_⟩
      · dsimp only [setChain]
        split_ifs with hk
        · rw [hk, flip_pushPending (hI.primary w.key)]
        · rfl
      · dsimp only
        rw [installSecIndex_ok hsec, headPending_settled (hI.secondary k)]
        cases w.index.find? (·.key = k) with
        | none => exact flip_settled (hI.secondary k) txnId
        | some x => exact flip_pushPending (hI.secondary k) txnId _

/-- the value that a write leaves -/
def WriteOp.value : WriteOp → Option Bytes
  | .insert data => some data
  | .update data => some data
  | .delete => none

/-- staged writes are the difference between the keys of the old document and the new one -/
theorem stage_ok {view : WriterView} {request : Request} (h : stage cfg s view request = some w) :
    let old := s.docAt cfg s.latest w.key
    let new : Except ReadError (Option Document) := .ok ((WriteOp.value w.op).bind cfg.decode)
    Stages w.index (fun k => HasKey cfg new k ∧ ¬ HasKey cfg old k) (fun k => HasKey cfg old k ∧ ¬ HasKey cfg new k) ∧
      (s.Unshared cfg request → ∀ k, HasKey cfg old k → ¬ HasKey cfg new k → ¬ s.OtherHas cfg w.key k) := by
  cases request with
  | insert data =>
    rw [stage] at h
    split at h
    · cases h
    next doc hdoc =>
      split at h
      next hfresh =>
        split at h
        · cases h
        next index multikey hindex =>
          cases h
          dsimp only [WriteOp.value]
          rw [hfresh, bind_some, hdoc]
          refine ⟨(insert_stages hindex).congr (fun k => ?_) fun k => ?_, fun _ k hold => ?_⟩
          · simp [HasKey]
          · simp [HasKey]
          · obtain ⟨d, hd, -⟩ := hold
            cases hd
      · cases h
  | update key data =>
    rw [stage] at h
    split at h
    next old doc hold hdoc =>
      split at h
      · cases h
      next index multikey hindex =>
        cases h
        dsimp only [WriteOp.value]
        rw [hold, bind_some, hdoc]
        refine ⟨(update_stages hindex).congr (fun k => ?_) fun k => ?_, fun hunshared k => ?_⟩
        · simp [HasKey]
        · simp [HasKey]
        · have := hunshared k
          rwa [hold, hdoc] at this
    · cases h
  | delete key =>
    rw [stage] at h
    split at h
    next old hold =>
      split at h
      · cases h
      next index hindex =>
        cases h
        dsimp only [WriteOp.value]
        rw [hold]
        refine ⟨(delete_stages hindex).congr (fun k => ?_) fun k => ?_, fun hunshared k hk _ => ?_⟩
        · simp [HasKey]
        · simp [HasKey]
        · exact hunshared k (hold ▸ hk)
    · cases h

theorem Stages.find?_cases {ins dels : Bytes → Prop} (h : Stages staged ins dels) (k : Bytes) :
    match staged.find? (·.key = k) with
    | none => ¬ ins k ∧ ¬ dels k
    | some x => if x.op.isInsert then ins k else dels k := by
  cases hfind : staged.find? (·.key = k) with
  | none =>
    have hnone : ¬ (ins k ∨ dels k) := by
      intro hk
      obtain ⟨w, hw, hwk⟩ := h.all k hk
      exact find?_eq_none.1 hfind w hw (by simpa using hwk)
    exact not_or.1 hnone
  | some x =>
    have hx := h.op x (mem_of_find?_eq_some hfind)
    have hk : x.key = k := by simpa using find?_some hfind
    rwa [hk] at hx

theorem exists_hasKey_iff (docs : Key → Except ReadError (Option Document)) (key : Key) (k : Bytes) :
    (∃ key' doc, docs key' = .ok (some doc) ∧ k ∈ keysOf cfg.env cfg.entry doc) ↔
      HasKey cfg (docs key) k ∨ ∃ key', key' ≠ key ∧ HasKey cfg (docs key') k := by
  constructor
  · rintro ⟨key', doc, hdoc, hk⟩
    by_cases hkey : key' = key
    · exact .inl ⟨doc, hkey ▸ hdoc, hk⟩
    · exact .inr ⟨key', hkey, doc, hdoc, hk⟩
  · rintro (⟨doc, hdoc, hk⟩ | ⟨key', -, doc, hdoc, hk⟩)
    · exact ⟨key, doc, hdoc, hk⟩
    · exact ⟨key', doc, hdoc, hk⟩

/-- one key of the tree and the spilled rows change -/
theorem foldTree_ok {tree tree' : TreeState} {ident : TreeIdent} {history history' : HistoryStore} {key : Key}
    {now : Ts} (hc : Settled now (tree.chains key))
    (h : foldTree tree ident history key checkpointTs oldestRequiredTs = some (tree', history')) :
    tree'.chains key = (tree.chains key).filter (kept checkpointTs) ∧
      tree'.cells key = cellAfter checkpointTs (tree.chains key) (tree.cells key) ∧
      (∀ k, k ≠ key → tree'.chains k = tree.chains k ∧ tree'.cells k = tree.cells k) ∧
      Spilled checkpointTs oldestRequiredTs (tree.chains key) (history ident key) (history' ident key) ∧
      ∀ i k, (i, k) ≠ (ident, key) → ∀ j e, (history' i k).get? j = some e ↔ (history i k).get? j = some e := by
  unfold foldTree at h
  split at h
  · cases h
  next f hf =>
    split at h
    · cases h
    next store hstore =>
      cases h
      obtain ⟨hcell, hretained, -⟩ := foldKey_ok hf
      have hspill := hc.disjoint.spill_iff hf
      refine ⟨?_, ?_, fun k hk => ?_, fun j e => ?_, fun i k hik j e => ?_⟩
      · rw [← hretained]
        simp [setChain]
      · dsimp only
        rw [if_pos rfl, hcell]
        rfl
      · simp [setChain, hk]
      · rw [commitSpillTxn_get? hstore]
        refine or_congr_right ⟨?_, ?_⟩
        · rintro ⟨w, hw, -, -, rfl, rfl⟩
          obtain ⟨-, -, h0, hm, hsp, hwin⟩ := (hspill w).1 hw
          exact ⟨by rw [HistorySpillEntry.rowKey, h0], hm, hsp, hwin⟩
        · rintro ⟨rfl, hm, hsp, hwin⟩
          exact ⟨⟨ident, key, e, 0⟩, (hspill _).2 ⟨rfl, rfl, rfl, hm, hsp, hwin⟩, rfl, rfl, rfl, rfl⟩
      · rw [commitSpillTxn_get? hstore]
        refine or_iff_left ?_
        rintro ⟨w, hw, rfl, rfl, -⟩
        obtain ⟨hi, hk, -⟩ := (hspill w).1 hw
        exact hik (by rw [hi, hk])

/-- a lookup sees rows by their content only -/
theorem getMvcc_rows_congr {pages : ℕ → ℕ → Bytes} {frontier : Ts} {kind : TreeKind} {c : Chain}
    {rows rows' : HistoryRows} {cell : Option VersionData} (h : ∀ j e, rows'.get? j = some e ↔ rows.get? j = some e) :
    getMvcc pages frontier view kind c rows' cell = getMvcc pages frontier view kind c rows cell := by
  have hentries : rows'.entries = rows.entries := OrdMap.ext_get? fun j => Option.ext (h j)
  simp only [getMvcc, probeVisibleEntry, hentries]

variable (hI : Inv cfg s)

include hI

theorem present_newest (hview : view.readTs = s.now) (k : Key) :
    s.present cfg view k = (newest cfg.pages (s.secondary.chains k) (s.secondary.cells k)).isSome := by
  rw [present, getFitting_newest (hI.secondary k) hI.bounded rowsEnded_empty hview]

theorem docAt_newest (hview : view.readTs = s.now) (key : Key) :
    s.docAt cfg view key = .ok ((newest cfg.pages (s.primary.chains key) (s.primary.cells key)).bind cfg.decode) := by
  rw [docAt, getMvcc_fits (hI.fits key), getFitting_newest (hI.primary key) hI.bounded (hI.rows key) hview]
  rfl

/-- a commit with what the state before it has to offer -/
theorem commit_chains (hts : s.now < ts) (hmax : ts < Ts.MAX)
    (h : Index.commit cfg s ts txnId expectedHead w = some t) :
    (∀ key, Settled ts (t.primary.chains key)) ∧ (∀ k, Settled ts (t.secondary.chains k)) := by
  obtain ⟨-, -, -, -, -, hprimary, hsecondary⟩ := commit_ok hI h
  constructor
  · intro key
    rw [hprimary]
    split_ifs
    · exact settled_push (hI.primary key) hts hmax _ _
    · exact (hI.primary key).mono hts.le
  · intro k
    rw [hsecondary]
    split
    · exact (hI.secondary k).mono hts.le
    · exact settled_push (hI.secondary k) hts hmax _ _

/-- views from before the commit read the same of both trees -/
theorem commit_old_views (hts : s.now < ts)
    (hmax : ts < Ts.MAX) (h : Index.commit cfg s ts txnId expectedHead w = some t) (hview : view.readTs ≤ s.now) :
    (∀ key, t.docAt cfg view key = s.docAt cfg view key) ∧ ∀ k, t.present cfg view k = s.present cfg view k := by
  obtain ⟨hnow, -, hhistory, hcells, hcells', hprimary, hsecondary⟩ := commit_ok hI h
  have hsame : ∀ {c : Chain} {rows : HistoryRows} {kind : TreeKind} {cell : Option VersionData}, Settled s.now c →
      getFitting cfg.pages ts view kind c rows cell = getFitting cfg.pages s.now view kind c rows cell := by
    intro c rows kind cell hc
    have hvis : visibleAt ts view c = visibleAt s.now view c :=
      find?_congr fun e he => by simp [versionVisibleTo, hc.committed e he]
    rw [getFitting, getFitting, hvis]
  constructor
  · intro key
    rw [docAt, docAt, hprimary, hhistory, hcells, hnow, getMvcc_fits (hI.fits key), getMvcc_fits (hI.fits key)]
    split_ifs
    · rw [getFitting_push (hI.primary key) hts hmax hview]
    · rw [hsame (hI.primary key)]
  · intro k
    rw [present, present, hsecondary, hcells', hnow]
    split
    · rw [hsame (hI.secondary k)]
    · rw [getFitting_push (hI.secondary k) hts hmax hview]

/-- **A commit** keeps the invariant if it removes no shared key. -/
theorem commit_inv {request : Request} {writer : WriterView}
    (hts : s.now < ts) (hmax : ts < Ts.MAX) (hunshared : s.Unshared cfg request)
    (hstage : stage cfg s writer request = some w)
    (h : Index.commit cfg s ts txnId expectedHead w = some t) : Inv cfg t := by
  obtain ⟨hnow, hreaders, hhistory, hcells, hcells', hprimary, hsecondary⟩ := commit_ok hI h
  obtain ⟨hsettled, hsettled'⟩ := commit_chains hI hts hmax h
  obtain ⟨hstages, hremoved⟩ := stage_ok hstage
  replace hremoved := hremoved hunshared
  have hrows : ∀ key, RowsEnded ts (t.history cfg.primaryIdent key) := by
    intro key k e he
    rw [hhistory] at he
    exact (hI.rows key k e he).trans hts.le
  refine ⟨hnow ▸ hsettled, hnow ▸ hsettled', hnow ▸ hrows, hhistory ▸ hI.fits, hnow ▸ hmax, fun view hview => ?_,
    fun view hview k => ?_⟩
  · rw [hreaders] at hview
    obtain ⟨hle, hagrees⟩ := hI.readers view hview
    obtain ⟨hdocs, hpresent⟩ := commit_old_views hI hts hmax h hle
    refine ⟨hnow ▸ hle.trans hts.le, fun k => ?_⟩
    simp only [hdocs, hpresent]
    exact hagrees k
  · rw [hnow] at hview
    -- the new view reads the written document, and the others as before
    have hnewest : ∀ key, t.docAt cfg view key =
        .ok ((newest cfg.pages (t.primary.chains key) (t.primary.cells key)).bind cfg.decode) := by
      intro key
      rw [docAt, getMvcc_fits (hhistory ▸ hI.fits key), getFitting_newest (hsettled key) hmax (hrows key) hview]
      rfl
    have hdoc : t.docAt cfg view w.key = .ok ((WriteOp.value w.op).bind cfg.decode) := by
      rw [hnewest, hprimary, if_pos rfl]
      cases w.op <;> rfl
    have hothers : ∀ key, key ≠ w.key → t.docAt cfg view key = s.docAt cfg s.latest key := by
      intro key hkey
      rw [hnewest, hprimary, if_neg hkey, hcells, docAt_newest hI rfl]
    have hbefore : s.present cfg s.latest k = true ↔ HasKey cfg (s.docAt cfg s.latest w.key) k ∨
        s.OtherHas cfg w.key k :=
      (hI.latest s.latest rfl k).trans (exists_hasKey_iff _ w.key k)
    have hafter : (∃ key, key ≠ w.key ∧ HasKey cfg (t.docAt cfg view key) k) ↔ s.OtherHas cfg w.key k :=
      exists_congr fun key => and_congr_right fun hkey => by rw [hothers key hkey]
    have hpresent : t.present cfg view k =
        match w.index.find? (·.key = k) with
        | none => s.present cfg s.latest k
        | some x => x.op.isInsert := by
      rw [present, getFitting_newest (hsettled' k) hmax rowsEnded_empty hview, hsecondary, hcells']
      cases w.index.find? (·.key = k) with
      | none => exact (present_newest hI rfl k).symm
      | some x =>
        dsimp only
        cases x.op <;> rfl
    rw [exists_hasKey_iff _ w.key, hdoc, hafter, hpresent]
    have hcases := hstages.find?_cases k
    have hremoved := hremoved k
    cases hfind : w.index.find? (·.key = k) with
    | none =>
      rw [hfind] at hcases
      tauto
    | some x =>
      rw [hfind] at hcases
      dsimp only at hcases ⊢
      cases hop : x.op.isInsert with
      | true =>
        rw [hop] at hcases
        exact iff_of_true rfl (.inl hcases.1)
      | false =>
        rw [hop] at hcases
        have := hremoved hcases.1 hcases.2
        simp [hcases.2, this]

/-! ### Folds -/

/-- what a fold of the collection does to a lookup -/
theorem foldPrimary_inv {p : TreeState × HistoryStore} {key : Key}
    (hreaders : ∀ view ∈ s.readers, oldestRequiredTs ≤ view.readTs)
    (hsafe : s.Safe cfg (.foldPrimary key checkpointTs oldestRequiredTs))
    (h : foldTree s.primary cfg.primaryIdent s.history key checkpointTs oldestRequiredTs = some p) :
    Inv cfg { s with primary := p.1, history := p.2 } := by
  obtain ⟨tree, history⟩ := p
  obtain ⟨hchain, hcell, hother, hspilled, hrows⟩ := foldTree_ok (hI.primary key) h
  have hprimary : ∀ k, Settled s.now (tree.chains k) := by
    intro k
    by_cases hk : k = key
    · rw [hk, hchain]
      exact settled_fold (hI.primary key)
    · rw [(hother k hk).1]
      exact hI.primary k
  have hended : ∀ k, RowsEnded s.now (history cfg.primaryIdent k) := by
    intro k
    by_cases hk : k = key
    · rw [hk]
      exact rowsEnded_fold (hI.primary key) (hI.rows key) hspilled
    · exact fun j e he => hI.rows k j e ((hrows _ _ (by simp [hk]) j e).1 he)
  have hfits : ∀ k, RowsFit (history cfg.primaryIdent k) := by
    intro k
    by_cases hk : k = key
    · rw [hk]
      exact hsafe.1.spilled hspilled
    · exact fun j e he => hI.fits k j e ((hrows _ _ (by simp [hk]) j e).1 he)
  -- a view whose version of the key survives reads the same of every key
  have hsame : ∀ view : ReadView,
    (getMvcc cfg.pages s.now view .primary (tree.chains key) (history cfg.primaryIdent key)
      (tree.cells key) = getMvcc cfg.pages s.now view .primary (s.primary.chains key) (s.history cfg.primaryIdent key)
      (s.primary.cells key)) → Agrees cfg s view → Agrees cfg { s with primary := tree, history := history } view := by
    intro view hkey hagrees k
    refine (hagrees k).trans (exists_congr fun key' => exists_congr fun doc => ?_)
    have : docAt cfg { s with primary := tree, history := history } view key' = s.docAt cfg view key' := by
      rw [docAt, docAt]
      by_cases hk : key' = key
      · rw [hk, hkey]
      · rw [(hother key' hk).1, (hother key' hk).2, getMvcc_rows_congr (hrows _ _ (by simp [hk]))]
    rw [this]
  refine ⟨hprimary, hI.secondary, hended, hfits, hI.bounded, fun view hview => ?_, fun view hview => ?_⟩
  · obtain ⟨hle, hagrees⟩ := hI.readers view hview
    refine ⟨hle, hsame view ?_ hagrees⟩
    rw [hchain, hcell, getMvcc_fits (hfits key), getMvcc_fits (hI.fits key)]
    exact congrArg _ ((lookup_fold_iff (hI.primary key).disjoint hspilled (min_le_of_left_le (hreaders view hview))).2
      (hsafe.2 view hview))
  · refine hsame view ?_ (hI.latest view hview)
    rw [getMvcc_fits (hfits key), getMvcc_fits (hI.fits key),
      getFitting_newest (hprimary key) hI.bounded (hended key) hview, getFitting_newest (hI.primary key) hI.bounded
        (hI.rows key) hview, hchain, hcell, newest_fold (hI.primary key)]

theorem foldSecondary_inv {p : TreeState × HistoryStore} {k : Key}
    (hsafe : s.Safe cfg (.foldSecondary k checkpointTs oldestRequiredTs))
    (h : foldTree s.secondary cfg.secondaryIdent s.history k checkpointTs oldestRequiredTs = some p) :
    Inv cfg { s with secondary := p.1, history := p.2 } := by
  obtain ⟨tree, history⟩ := p
  obtain ⟨hchain, hcell, hother, -, hrows⟩ := foldTree_ok (hI.secondary k) h
  have hsecondary : ∀ j, Settled s.now (tree.chains j) := by
    intro j
    by_cases hj : j = k
    · rw [hj, hchain]
      exact settled_fold (hI.secondary k)
    · rw [(hother j hj).1]
      exact hI.secondary j
  -- the rows of the collection are not touched
  have hprimaryRows : ∀ key j e, (history cfg.primaryIdent key).get? j = some e ↔
      (s.history cfg.primaryIdent key).get? j = some e :=
    fun key => hrows _ _ (by simp [Setup.primaryIdent, Setup.secondaryIdent])
  have hsame : ∀ view : ReadView, (getFitting cfg.pages s.now view cfg.secondaryIdent.kind (tree.chains k) empty
      (tree.cells k)).isSome = s.present cfg view k → Agrees cfg s view →
      Agrees cfg { s with secondary := tree, history := history } view := by
    intro view hkey hagrees j
    have hdocs : ∀ key, docAt cfg { s with secondary := tree, history := history } view key = s.docAt cfg view key := by
      intro key
      rw [docAt, docAt]
      rw [getMvcc_rows_congr (hprimaryRows key)]
    have hpresent : present cfg { s with secondary := tree, history := history } view j = s.present cfg view j := by
      by_cases hj : j = k
      · rw [hj, ← hkey]
        rfl
      · rw [present, present]
        rw [(hother j hj).1, (hother j hj).2]
    rw [hpresent]
    simp only [hdocs]
    exact hagrees j
  refine ⟨hI.primary, hsecondary, fun key j e he => hI.rows key j e ((hprimaryRows key j e).1 he),
    fun key j e he => hI.fits key j e ((hprimaryRows key j e).1 he), hI.bounded, fun view hview =>
      ?_, fun view hview => ?_⟩
  · obtain ⟨hle, hagrees⟩ := hI.readers view hview
    refine ⟨hle, hsame view ?_ hagrees⟩
    rw [hchain, hcell]
    exact (present_fold_iff (hI.secondary k)).2 (hsafe view hview)
  · refine hsame view ?_ (hI.latest view hview)
    rw [getFitting_newest (hsecondary k) hI.bounded rowsEnded_empty hview, present_newest hI hview, hchain, hcell,
      newest_fold (hI.secondary k)]

/-! ### Every step -/

theorem step_inv {a : Act} (hsafe : s.Safe cfg a) (h : s.step cfg a = some t) : Inv cfg t := by
  cases a with
  | register txnId =>
    cases h
    refine ⟨hI.primary, hI.secondary, hI.rows, hI.fits, hI.bounded, fun view hview => ?_, hI.latest⟩
    rcases mem_cons.1 hview with rfl | hview
    · exact ⟨le_rfl, hI.latest _ rfl⟩
    · exact hI.readers view hview
  | release view =>
    cases h
    exact ⟨hI.primary, hI.secondary, hI.rows, hI.fits, hI.bounded,
      fun v hv => hI.readers v (mem_of_mem_erase hv), hI.latest⟩
  | commit ts txnId expectedHead request writer =>
    rw [Db.step] at h
    split_ifs at h with hts
    obtain ⟨w, hw, h⟩ := bind_eq_some_iff.1 h
    exact commit_inv hI hts.1 hts.2 hsafe hw h
  | foldPrimary key checkpointTs oldestRequiredTs =>
    rw [Db.step] at h
    split_ifs at h with hreaders
    obtain ⟨p, hp, rfl⟩ := map_eq_some_iff.1 h
    exact foldPrimary_inv hI hreaders hsafe hp
  | foldSecondary k checkpointTs oldestRequiredTs =>
    rw [Db.step] at h
    split_ifs at h with hreaders
    obtain ⟨p, hp, rfl⟩ := map_eq_some_iff.1 h
    exact foldSecondary_inv hI hsafe hp

end Step

/-! ## Main result -/

/-- a database as it is opened: no versions in memory, no views, nothing current in the history store, whose rows fit,
and the index is the image of the collection -/
structure Opened (cfg : Setup) (s : Db) : Prop where
  primary : ∀ key, s.primary.chains key = []
  secondary : ∀ k, s.secondary.chains k = []
  rows : ∀ key, RowsEnded s.now (s.history cfg.primaryIdent key)
  fits : ∀ key, RowsFit (s.history cfg.primaryIdent key)
  bounded : s.now < Ts.MAX
  readers : s.readers = []
  image : Agrees cfg s s.latest

/-- one index, one kind of document -/
def oneIndex : Setup where
  env := noLibraries
  entry := ⟨"a_1", [("a", .int32 1)], false, false, none⟩
  decode data := if data = [1] then some [("_id", .int32 1), ("a", .int32 3)] else none
  idBytes _ := []
  pages _ _ := []
  collectionId := 1
  indexId := 1

def emptyDb : Db := ⟨⟨fun _ => [], fun _ => none⟩, ⟨fun _ => [], fun _ => none⟩, fun _ _ => OrdMap.empty, [], ⟨5, 0⟩⟩

/-- a tree whose leaves hold the chains and cells of the modelled one -/
structure Realises (b : Btree.BTree) (leaves : List ℕ) (tree : TreeState) : Prop where
  sound : Btree.Sound b leaves
  same : ∀ q ∈ leaves, ∀ n, b.store q = some (.leaf n) → ∀ k, n.holds k → n.chainOf k = tree.chains k ∧
    n.cells.get? k = tree.cells k
  covers : ∀ k, tree.chains k ≠ [] ∨ tree.cells k ≠ none → ∃ q ∈ leaves, Btree.Holds b.store q k

/-- **A scan without history probe** visits the index keys that are present. -/
theorem scan_without_history (cfg : Setup) (s : Db) (view : ReadView) {b : Btree.BTree} {leaves : List ℕ}
    {start stop : Btree.Bound} {fuel : ℕ} (hb : Realises b leaves s.secondary) (hfuel : leaves.length ≤ fuel)
    (hok : Btree.RangesOk b leaves start stop) :
    ∃ visited, b.rangeScanMvccBounded ⟨cfg.pages, s.now, view, cfg.secondaryIdent.kind, fun _ => empty⟩ start stop
      fuel = .ok visited ∧
      ∀ k, (∃ v, (k, v) ∈ visited) ↔ Btree.inBounds start stop k = true ∧ s.present cfg view k = true := by
  let r : Btree.Reader := ⟨cfg.pages, s.now, view, cfg.secondaryIdent.kind, fun _ => empty⟩
  obtain ⟨visited, hscan, -, hmem⟩ := @Btree.rangeScan_spec _ _ _ _ _ r (fun _ _ => rowsFit_empty) hb.sound hfuel hok
  refine ⟨visited, hscan, fun k => ?_⟩
  simp only [hmem, exists_and_left]
  refine and_congr_right fun _ => ⟨?_, fun h => ?_⟩
  · rintro ⟨v, q, hq, n, hn, hk, hget⟩
    obtain ⟨hchain, hcell⟩ := hb.same q hq n hn k hk
    rw [Btree.LeafNode.getMvcc, hchain, hcell, getMvcc_fits rowsFit_empty, Except.ok.injEq] at hget
    rw [present, hget]
    rfl
  · have hholds : s.secondary.chains k ≠ [] ∨ s.secondary.cells k ≠ none := by
      by_contra hnot
      obtain ⟨hchain, hcell⟩ := not_or.1 hnot
      rw [present, not_ne_iff.1 hchain, not_ne_iff.1 hcell] at h
      cases h
    obtain ⟨q, hq, n, hn, hk⟩ := hb.covers k hholds
    obtain ⟨hchain, hcell⟩ := hb.same q hq n hn k hk
    obtain ⟨v, hv⟩ := isSome_iff_exists.1 h
    refine ⟨v, q, hq, n, hn, hk, ?_⟩
    rw [Btree.LeafNode.getMvcc, hchain, hcell, getMvcc_fits rowsFit_empty]
    exact congrArg _ hv

/-- a base cell in the first leaf and a chain in the second, below an internal node -/
def twoLeaves : Btree.BTree where
  store page := match page with
    | 1 => some (.leaf ⟨OrdMap.empty.insert [3] (.inline [1]), OrdMap.empty, 2, 0⟩)
    | 2 => some (.leaf ⟨OrdMap.empty, OrdMap.empty.insert [8] Btree.chainAt10, 0, 1⟩)
    | 3 => some (.internal ⟨[([5], 1)], 2⟩)
    | _ => none
  rootPage := 3
  rootLevel := 1

/-- the index of these leaves -/
def twoEntries : TreeState :=
  ⟨fun k => if k = [8] then Btree.chainAt10 else [], fun k => if k = [3] then some (.inline [1]) else none⟩

theorem holds_twoLeaves (q : ℕ) {n : Btree.LeafNode} (hq : q ∈ [1, 2]) (hn : twoLeaves.store q = some (.leaf n)) :
    (∀ k, n.holds k ↔ k = if q = 1 then [3] else [8]) ∧
      ∀ k, n.holds k → n.chainOf k = twoEntries.chains k ∧ n.cells.get? k = twoEntries.cells k := by
  have hq : q = 1 ∨ q = 2 := by simpa using hq
  rcases hq with rfl | rfl <;> cases hn <;>
    simp [Btree.LeafNode.holds, Btree.LeafNode.chainOf, twoEntries, get?_insert, get?_empty]

theorem twoLeaves_realises : Realises twoLeaves [1, 2] twoEntries where
  sound := by
    have hleft : Btree.LeafAt twoLeaves.store 1 none (some [5]) := by
      refine ⟨one_ne_zero, _, rfl, fun k hk => ?_⟩
      rw [((holds_twoLeaves 1 (by simp) rfl).1 k).1 hk]
      exact ⟨nofun, by simp; decide⟩
    have hright : Btree.LeafAt twoLeaves.store 2 (some [5]) none := by
      refine ⟨two_ne_zero, _, rfl, fun k hk => ?_⟩
      rw [((holds_twoLeaves 2 (by simp) rfl).1 k).1 hk]
      exact ⟨by simp; decide, nofun⟩
    exact ⟨⟨_, rfl, ⟨nofun, nofun⟩, [1], [2], rfl, ⟨rfl, hleft⟩, rfl, hright⟩,
      ⟨⟨_, rfl, rfl, rfl⟩, ⟨_, rfl, rfl, rfl⟩, trivial⟩⟩
  same q hq n hn := (holds_twoLeaves q hq hn).2
  covers k hk := by
    have hk : k = [8] ∨ k = [3] := by
      refine hk.imp (fun h => ?_) fun h => ?_
      · by_contra hne
        exact h (if_neg hne)
      · by_contra hne
        exact h (if_neg hne)
    rcases hk with rfl | rfl
    · exact ⟨2, by simp, _, rfl, .inr rfl⟩
    · exact ⟨1, by simp, _, rfl, .inl rfl⟩

theorem scan_without_history_two_leaves : ∃ visited, twoLeaves.rangeScanMvccBounded
      ⟨oneIndex.pages, ⟨20, 0⟩, ⟨⟨15, 0⟩, 9⟩, oneIndex.secondaryIdent.kind, fun _ => OrdMap.empty⟩ .unbounded .unbounded
        2 = .ok visited ∧
    (∃ v, ([3], v) ∈ visited) ∧ ∃ v, ([8], v) ∈ visited := by
  obtain ⟨visited, hscan, hmem⟩ :=
    scan_without_history oneIndex { emptyDb with secondary := _, now := ⟨20, 0⟩ } ⟨⟨15, 0⟩, 9⟩
    twoLeaves_realises le_rfl (show Btree.RangesOk _ _ .unbounded .unbounded from .inl rfl)
  exact ⟨visited, hscan, (hmem [3]).2 ⟨rfl, by decide⟩, (hmem [8]).2 ⟨rfl, by decide⟩⟩

end Mqlite.Index
