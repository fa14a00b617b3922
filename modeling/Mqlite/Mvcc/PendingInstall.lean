/-
Installing Pending heads on a chain and flipping them (`paged_engine/pending_install.rs`,
`buffer_pool/latched_page.rs`).

A commit stages its writes as Pending heads: `classifyDeltaInstall` decides, from the chain's live head and the head the
write expects, whether the write may go on; `pushPending` ends the live head at the commit timestamp and puts the new
entry in front. When the commit record is durable the entries are flipped to Committed; on failure they are flipped to
Aborted, and the version an aborted entry had superseded is made current again (`restorePreviousHeadAfterAbort`).

The second half says what each operation does to the live part of the chain (`live`), which is all that lookups and
later installs depend on: `live_pushPending`, `live_flip_committed`.
-/
import Mqlite.Mvcc.Version

namespace Mqlite.Mvcc

open List VersionEntry

/-! ## First-committer-wins classification -/

/-- the head a write expects to find: the version its operation selected -/
structure ExpectedHead where
  commitTs : Ts
  txnId : TxnId
deriving DecidableEq, Repr

inductive InstallConflictScope where
  | primary
  | secondary
deriving DecidableEq, Repr

inductive WriteConflictReason where
  | staleSnapshot
  | sameKeyConflict (keyPreview : Bytes)
deriving DecidableEq, Repr

inductive ConflictClassification where
  | alreadyInstalledBySelf
  | proceed
deriving DecidableEq, Repr

def KEY_PREVIEW_BYTES : ℕ := 32

def keyPreview (key : Key) : Bytes := key.take KEY_PREVIEW_BYTES

def liveHead (c : Chain) : Option VersionEntry := c.find? VersionEntry.isLiveHead

/-- the identity of a version, as expected heads name it -/
def VersionEntry.headId (e : VersionEntry) : ExpectedHead := ⟨e.startTs, e.txnId⟩

def classifyDeltaInstall (c : Chain) (expectedHead : Option ExpectedHead) (scope : InstallConflictScope) (key : Key)
    (txnId : TxnId) : Except WriteConflictReason ConflictClassification :=
  match liveHead c with
  | none => .ok .proceed
  | some head =>
    if head.state = .pending txnId then .ok .alreadyInstalledBySelf
    else
      match expectedHead with
      | some expected =>
        if head.headId = expected then
          if head.state = .committed ∧ ¬ head.isTombstone then .ok .proceed else .error .staleSnapshot
        else .error .staleSnapshot
      | none =>
        match scope with
        | .primary =>
          if head.state = .committed ∧ head.isTombstone then .ok .proceed
          else .error (.sameKeyConflict (keyPreview key))
        | .secondary => .ok .proceed

/-! ## Installing -/

/-- what a staged write puts in the chain -/
inductive WriteOp where
  | insert (data : Bytes)
  | update (data : Bytes)
  | delete
deriving DecidableEq, Repr

/-- `PrimaryOp` and `SecIndexOp` alike: a delete is an empty tombstone -/
def WriteOp.payload : WriteOp → VersionData × Bool
  | .insert data => (.inline data, false)
  | .update data => (.inline data, false)
  | .delete => (.inline [], true)

/-- end the live head at `ts` -/
def supersede (ts : Ts) : Chain → Chain
  | [] => []
  | e :: c => if e.isLiveHead then { e with stopTs := ts } :: c else e :: supersede ts c

/-- the new head of an install -/
def pendingEntry (commitTs : Ts) (txnId : TxnId) (op : WriteOp) : VersionEntry :=
  ⟨commitTs, Ts.MAX, txnId, .pending txnId, op.payload.1, op.payload.2⟩

def pushPending (c : Chain) (commitTs : Ts) (txnId : TxnId) (op : WriteOp) : Chain :=
  pendingEntry commitTs txnId op :: supersede commitTs c

/-- one write of `install_pending_primary` or `install_pending_sec_index` on its key's chain: a conflict, or the new
chain -/
def installOnChain (c : Chain) (expectedHead : Option ExpectedHead) (scope : InstallConflictScope) (key : Key)
    (commitTs : Ts) (txnId : TxnId) (op : WriteOp) : Except WriteConflictReason Chain :=
  match classifyDeltaInstall c expectedHead scope key txnId with
  | .error e => .error e
  | .ok .alreadyInstalledBySelf => .ok c
  | .ok .proceed => .ok (pushPending c commitTs txnId op)

/-! ## Flipping -/

/-- make the version superseded at `abortedStartTs` current again -/
def restorePreviousHeadAfterAbort (abortedStartTs : Ts) : Chain → Chain
  | [] => []
  | e :: c =>
    if e.state ≠ .aborted ∧ e.stopTs = abortedStartTs then { e with stopTs := Ts.MAX } :: c
    else e :: restorePreviousHeadAfterAbort abortedStartTs c

/-- the loop of `flip_pending_in_chain` over the next `n` entries -/
def flipLoop (txnId : TxnId) (commitTs : Option Ts) : ℕ → Chain → Chain
  | 0, c => c
  | _, [] => []
  | n + 1, e :: c =>
    if e.isPendingOf txnId then
      match commitTs with
      | some ts => { e with startTs := ts, state := .committed } :: flipLoop txnId commitTs n c
      | none =>
        { e with state := .aborted } :: flipLoop txnId commitTs n (restorePreviousHeadAfterAbort e.startTs c)
    else e :: flipLoop txnId commitTs n c

/-- flip the Pending entries of a transaction: to Committed at a timestamp, or to Aborted -/
def flipPendingInChain (c : Chain) (txnId : TxnId) (commitTs : Option Ts) : Chain := flipLoop txnId commitTs c.length c

/-! ## Everything but the end of an interval

Superseding and restoring change `stop_ts` of one entry and nothing else. -/

/-- the entry without its `stop_ts` -/
def VersionEntry.forgetStop (e : VersionEntry) : VersionEntry := { e with stopTs := Ts.MAX }

variable {β : Type} {c : Chain} {txnId : TxnId}

theorem map_supersede (f : VersionEntry → β) (hf : ∀ e ts, f { e with stopTs := ts } = f e) (ts : Ts)
    (c : Chain) : (supersede ts c).map f = c.map f := by
  induction c with
  | nil => rfl
  | cons e c ih =>
    unfold supersede
    split_ifs
    · rw [map_cons, map_cons, hf]
    · rw [map_cons, map_cons, ih]

theorem map_restore (f : VersionEntry → β) (hf : ∀ e ts, f { e with stopTs := ts } = f e) (ts : Ts)
    (c : Chain) : (restorePreviousHeadAfterAbort ts c).map f = c.map f := by
  induction c with
  | nil => rfl
  | cons e c ih =>
    unfold restorePreviousHeadAfterAbort
    split_ifs
    · rw [map_cons, map_cons, hf]
    · rw [map_cons, map_cons, ih]

theorem forgetStop_supersede (ts : Ts) (c : Chain) : (supersede ts c).map forgetStop = c.map forgetStop :=
  map_supersede _ (fun _ _ => rfl) ts c

theorem forgetStop_restore (ts : Ts) (c : Chain) :
    (restorePreviousHeadAfterAbort ts c).map forgetStop = c.map forgetStop :=
  map_restore _ (fun _ _ => rfl) ts c

/-- an entry of a chain that is another one up to `stop_ts` comes from an entry that differs in nothing else -/
theorem exists_of_forgetStop_eq {d : Chain} (h : c.map forgetStop = d.map forgetStop)
    {e : VersionEntry} (he : e ∈ c) : ∃ e' ∈ d, ∃ ts, e = { e' with stopTs := ts } := by
  have hm : e.forgetStop ∈ d.map forgetStop := h ▸ mem_map_of_mem he
  obtain ⟨e', he', heq⟩ := mem_map.1 hm
  refine ⟨e', he', e.stopTs, ?_⟩
  cases e; cases e'
  simp only [forgetStop, mk.injEq] at heq ⊢
  tauto

/-! ## What the operations do to the live part -/

theorem live_supersede (ts : Ts) (c : Chain) : live (supersede ts c) = supersede ts (live c) := by
  induction c with
  | nil => rfl
  | cons e c ih =>
    by_cases he : e.state = .aborted
    · have hl : ¬ e.isLiveHead = true := by simp [he]
      rw [supersede, if_neg hl, live_cons_of_aborted he, live_cons_of_aborted he, ih]
    · rw [live_cons_of_live he, supersede, supersede]
      split_ifs
      · exact live_cons_of_live he
      · rw [live_cons_of_live he, ih]

theorem live_pushPending (c : Chain) (commitTs : Ts) (txnId : TxnId) (op : WriteOp) :
    live (pushPending c commitTs txnId op) = pendingEntry commitTs txnId op :: supersede commitTs (live c) := by
  rw [pushPending, live_cons_of_live (by simp [pendingEntry]), live_supersede]

theorem live_restore (ts : Ts) (c : Chain) :
    live (restorePreviousHeadAfterAbort ts c) = restorePreviousHeadAfterAbort ts (live c) := by
  induction c with
  | nil => rfl
  | cons e c ih =>
    by_cases he : e.state = .aborted
    · rw [restorePreviousHeadAfterAbort, if_neg (by simp [he]), live_cons_of_aborted he, live_cons_of_aborted he, ih]
    · rw [live_cons_of_live he, restorePreviousHeadAfterAbort, restorePreviousHeadAfterAbort]
      split_ifs
      · exact live_cons_of_live he
      · rw [live_cons_of_live he, ih]

/-- the flip of one entry to Committed -/
def commitEntry (txnId : TxnId) (ts : Ts) (e : VersionEntry) : VersionEntry :=
  if e.isPendingOf txnId then { e with startTs := ts, state := .committed } else e

theorem flip_committed (c : Chain) (txnId : TxnId) (ts : Ts) :
    flipPendingInChain c txnId (some ts) = c.map (commitEntry txnId ts) := by
  unfold flipPendingInChain
  induction c with
  | nil => rfl
  | cons e c ih =>
    rw [length_cons, flipLoop, map_cons, commitEntry]
    split_ifs
    · rw [ih]
    · rw [ih]

theorem live_flip_committed (c : Chain) (txnId : TxnId) (ts : Ts) :
    live (flipPendingInChain c txnId (some ts)) = (live c).map (commitEntry txnId ts) := by
  rw [flip_committed, live, filter_map]
  refine congrArg _ (filter_congr fun e _ => ?_)
  simp only [Function.comp, isLive, commitEntry]
  split_ifs with h
  · simp [isPendingOf_iff.1 h]
  · rfl

theorem flipLoop_of_none {o : Option Ts} (h : ∀ e ∈ c, ¬ e.state = .pending txnId) (n : ℕ) :
    flipLoop txnId o n c = c := by
  induction c generalizing n with
  | nil => cases n <;> rfl
  | cons e c ih =>
    cases n with
    | zero => rfl
    | succ n =>
      have he : ¬ e.isPendingOf txnId = true := by simpa using h e mem_cons_self
      unfold flipLoop
      rw [if_neg he, ih fun d hd => h d (mem_cons_of_mem _ hd)]

/-- an abort changes states and interval ends, nothing else -/
theorem map_flip_aborted (f : VersionEntry → β) (hstop : ∀ e ts, f { e with stopTs := ts } = f e)
    (hstate : ∀ e s, f { e with state := s } = f e) (c : Chain) (txnId : TxnId) :
    (flipPendingInChain c txnId none).map f = c.map f := by
  unfold flipPendingInChain
  generalize c.length = n
  induction n generalizing c with
  | zero => rfl
  | succ n ih =>
    cases c with
    | nil => rfl
    | cons e c =>
      rw [flipLoop]
      split_ifs
      · rw [map_cons, map_cons, ih, map_restore f hstop, hstate]
      · rw [map_cons, map_cons, ih]

/-- **Abort.** The transaction's only Pending entry becomes Aborted and the entry behind it that it had superseded is
current again. -/
theorem flip_aborted {p : VersionEntry} {pre post : Chain} (hp : p.state = .pending txnId)
    (hpre : ∀ e ∈ pre, ¬ e.state = .pending txnId) (hpost : ∀ e ∈ post, ¬ e.state = .pending txnId) :
    flipPendingInChain (pre ++ p :: post) txnId none =
      pre ++ { p with state := .aborted } :: restorePreviousHeadAfterAbort p.startTs post := by
  unfold flipPendingInChain
  induction pre with
  | nil =>
    rw [nil_append, length_cons, flipLoop, if_pos (by simpa using hp), flipLoop_of_none, nil_append]
    intro e he
    obtain ⟨d, hd, ts, rfl⟩ := exists_of_forgetStop_eq (forgetStop_restore p.startTs post) he
    exact hpost d hd
  | cons e pre ih =>
    have he : ¬ e.isPendingOf txnId = true := by simpa using hpre e mem_cons_self
    rw [cons_append, length_cons, flipLoop, if_neg he, ih fun d hd => hpre d (mem_cons_of_mem _ hd), cons_append]

theorem live_append (c d : Chain) : live (c ++ d) = live c ++ live d := filter_append _ _

/-- the two outcomes of an install by a transaction with no Pending entry: refused, or a new head -/
theorem installOnChain_cases {t : TxnId} (ht : ∀ e ∈ c, e.state ≠ .pending t)
    (expectedHead : Option ExpectedHead) (scope : InstallConflictScope) (key : Key) (ts : Ts) (op : WriteOp) :
    (∃ r, classifyDeltaInstall c expectedHead scope key t = .error r ∧
      installOnChain c expectedHead scope key ts t op = .error r) ∨
    (classifyDeltaInstall c expectedHead scope key t = .ok .proceed ∧
      installOnChain c expectedHead scope key ts t op = .ok (pushPending c ts t op)) := by
  unfold installOnChain
  cases hc : classifyDeltaInstall c expectedHead scope key t with
  | error r => exact .inl ⟨r, rfl, rfl⟩
  | ok k =>
    cases k with
    | proceed => exact .inr ⟨rfl, rfl⟩
    | alreadyInstalledBySelf =>
      -- this needs a Pending head of t, and t has none
      exfalso
      unfold classifyDeltaInstall at hc
      cases hh : liveHead c with
      | none => rw [hh] at hc; cases hc
      | some head =>
        rw [hh] at hc
        have hmem : head ∈ c := mem_of_find?_eq_some hh
        simp only [ht head hmem, if_false] at hc
        repeat' split at hc
        all_goals cases hc

end Mqlite.Mvcc
