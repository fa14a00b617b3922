/-
The history store (`storage/history_store.rs`) and the point lookup that falls through to it (`get_mvcc` in
`storage/btree/scan.rs`).

A version that has left its chain is a row keyed by the tree, the key, its `start_ts` and a counter. The byte layout of
keys and values is left out: row keys are compared field by field, which is the order of the encoded ones, and a row
holds the version itself. Rows are written by a checkpoint only (`apply_spill`): writing the same row twice does
nothing, and writing another version over a row is an error.

A probe takes the newest row whose interval holds `read_ts`. On a secondary tree a tombstone found there is reported as
"nothing found". A row whose value is too long for a leaf cell can be written, but not read: a probe that gets to it
fails, and so does every garbage collection (`cell_value_bytes`). `visibleEntry` and `getFitting` are the probe and the
lookup on rows that all fit.

- `probeVisibleEntry_fits`, `getMvcc_fits`: if all rows fit, nothing fails;
- `newestVisible_congr`: a probe depends only on the rows visible at `read_ts`;
- `commitSpillTxn_get?`: what the store holds after a batch of spills;
- `gc_unnoticed`: garbage collection (`gc_pass`, without the reference counts of overflow pages) and the probes.
-/
import Mqlite.Lib.Except
import Mqlite.Lib.OrdMap
import Mqlite.Mvcc.Version

namespace Mqlite.Btree

/-- longer values are stored in an overflow chain -/
def OVERFLOW_THRESHOLD : ℕ := 30 * 1024

end Mqlite.Btree

namespace Mqlite.Storage

open Lib Mvcc List
open Btree (OVERFLOW_THRESHOLD)

/-! ## Rows -/

inductive TreeKind where
  | primary
  | secondary (indexId : ℤ)
deriving DecidableEq, Repr

structure TreeIdent where
  collectionId : ℤ
  kind : TreeKind
deriving DecidableEq, Repr

/-- the versions kept for one key of one tree, by `start_ts` and counter -/
abbrev HistoryRows := OrdMap (Ts ×ₗ ℕ) VersionEntry

abbrev HistoryStore := TreeIdent → Key → HistoryRows

/-- the length of a row's value (`encode_version_entry_value`): a header of 34 bytes, and the payload -/
def rowValueLen (e : VersionEntry) : ℕ :=
  34 + match e.data with
    | .inline bytes => 4 + bytes.length
    | .overflow _ _ => 12

/-- the value of the row stands in the leaf cell itself -/
def RowFits (e : VersionEntry) : Prop := rowValueLen e ≤ OVERFLOW_THRESHOLD

instance (e : VersionEntry) : Decidable (RowFits e) := inferInstanceAs (Decidable (_ ≤ _))

def RowsFit (rows : HistoryRows) : Prop := ∀ k e, rows.get? k = some e → RowFits e

/-- the probe hides a tombstone of a secondary tree -/
def TreeKind.hides (kind : TreeKind) (e : VersionEntry) : Bool :=
  match kind with
  | .primary => false
  | .secondary _ => e.isTombstone

/-- how a read fails -/
inductive ReadError where
  | badPage
  | panic
  | outOfFuel
  | internal (message : String)
deriving DecidableEq, Repr

/-- the loop of the probe, newest row first -/
def probeRows (kind : TreeKind) (readTs : Ts) : List VersionEntry → Except ReadError (Option VersionEntry)
  | [] => .ok none
  | e :: rows =>
    -- `cell_value_bytes`
    if OVERFLOW_THRESHOLD < rowValueLen e then
      .error (.internal "history_store: value spilled to overflow — not supported in v1")
    else if e.startTs ≤ readTs ∧ readTs < e.stopTs then .ok (if kind.hides e then none else some e)
    else probeRows kind readTs rows

def probeVisibleEntry (kind : TreeKind) (rows : HistoryRows) (readTs : Ts) : Except ReadError (Option VersionEntry) :=
  probeRows kind readTs ((rows.entries.filter fun row => (ofLex row.1).1 ≤ readTs).map Prod.snd).reverse

/-- a row the probe takes: in the scanned range, and its interval holds `read_ts` -/
def rowVisible (readTs : Ts) (row : (Ts ×ₗ ℕ) × VersionEntry) : Bool :=
  (ofLex row.1).1 ≤ readTs ∧ row.2.startTs ≤ readTs ∧ readTs < row.2.stopTs

def newestVisible (rows : HistoryRows) (readTs : Ts) : Option VersionEntry :=
  (rows.entries.reverse.find? (rowVisible readTs)).map Prod.snd

/-- what a probe finds on rows that fit -/
def visibleEntry (kind : TreeKind) (rows : HistoryRows) (readTs : Ts) : Option VersionEntry :=
  match newestVisible rows readTs with
  | none => none
  | some e => if kind.hides e then none else some e

/-! ## Point lookup -/

/-- the bytes of a payload; `pages` reads an overflow chain by first page and total length -/
def resolveVersionData (pages : ℕ → ℕ → Bytes) : VersionData → Bytes
  | .inline bytes => bytes
  | .overflow firstPage totalLength => pages firstPage totalLength

/-- what a lookup returns when it ends at a version -/
def entryValue (pages : ℕ → ℕ → Bytes) (e : VersionEntry) : Option Bytes :=
  if e.isTombstone then none else some (resolveVersionData pages e.data)

/-- the history row that was found, else the base cell -/
def rowOrCell (pages : ℕ → ℕ → Bytes) (cell : Option VersionData) : Option VersionEntry → Option Bytes
  | some e => entryValue pages e
  | none => cell.map (resolveVersionData pages)

/-- the value of one key: the visible chain entry, else the visible history row, else the base cell. A key without a
chain is a key with an empty one. -/
def getMvcc (pages : ℕ → ℕ → Bytes) (frontier : Ts) (view : ReadView) (kind : TreeKind) (c : Chain) (rows : HistoryRows)
    (cell : Option VersionData) : Except ReadError (Option Bytes) :=
  match visibleAt frontier view c with
  | some e => .ok (entryValue pages e)
  | none =>
    (if historyIsCandidate view.readTs c then probeVisibleEntry kind rows view.readTs else .ok none).map
      (rowOrCell pages cell)

/-- the lookup on rows that fit -/
def getFitting (pages : ℕ → ℕ → Bytes) (frontier : Ts) (view : ReadView) (kind : TreeKind) (c : Chain)
    (rows : HistoryRows) (cell : Option VersionData) : Option Bytes :=
  match visibleAt frontier view c with
  | some e => entryValue pages e
  | none =>
    match if historyIsCandidate view.readTs c then visibleEntry kind rows view.readTs else none with
    | some e => entryValue pages e
    | none => cell.map (resolveVersionData pages)

section

variable (kind : TreeKind) (rows : HistoryRows) (readTs : Ts)

/-- a probe fails, or it finds the newest visible row -/
theorem probeRows_eq (l : List VersionEntry) : (∃ err, probeRows kind readTs l = .error err ∧ ∃ e ∈ l, ¬ RowFits e) ∨
    probeRows kind readTs l = .ok ((l.find? fun e => e.startTs ≤ readTs ∧ readTs < e.stopTs).filter fun e =>
      !kind.hides e) := by
  induction l with
  | nil => exact .inr rfl
  | cons e l ih =>
    rw [probeRows]
    split_ifs with hfit hv hh
    · exact .inl ⟨_, rfl, e, mem_cons_self, not_le.2 hfit⟩
    · right; rw [find?_cons_of_pos (by simpa using hv), Option.filter_some_neg (by simp [hh])]
    · right; rw [find?_cons_of_pos (by simpa using hv), Option.filter_some_pos (by simp [hh])]
    · rw [find?_cons_of_neg (by simpa using hv)]
      exact ih.imp_left fun ⟨err, herr, d, hd, hnot⟩ => ⟨err, herr, d, mem_cons_of_mem _ hd, hnot⟩

theorem probeVisibleEntry_eq : (∃ err, probeVisibleEntry kind rows readTs = .error err ∧ ¬ RowsFit rows) ∨
    probeVisibleEntry kind rows readTs = .ok (visibleEntry kind rows readTs) := by
  rcases probeRows_eq kind readTs
    ((rows.entries.filter fun row => (ofLex row.1).1 ≤ readTs).map Prod.snd).reverse with ⟨err, herr, e, he, hnot⟩ | hok
  · refine .inl ⟨err, herr, fun hfits => ?_⟩
    obtain ⟨row, hrow, rfl⟩ := mem_map.1 (mem_reverse.1 he)
    exact hnot (hfits row.1 row.2 (OrdMap.get?_eq_some_iff.2 (mem_filter.1 hrow).1))
  · right
    have hfind : (((rows.entries.filter fun row => (ofLex row.1).1 ≤ readTs).map Prod.snd).reverse.find?
        fun e => e.startTs ≤ readTs ∧ readTs < e.stopTs) = newestVisible rows readTs := by
      rw [← map_reverse, find?_map, ← filter_reverse, find?_filter, newestVisible]
      congr 2
      funext row
      simp [rowVisible]
    rw [probeVisibleEntry, hok, hfind, visibleEntry]
    cases newestVisible rows readTs with
    | none => rfl
    | some e => cases hh : kind.hides e <;> simp [hh]

variable {kind rows readTs}

theorem probe_ok {found : Option VersionEntry} (h : probeVisibleEntry kind rows readTs = .ok found) :
    visibleEntry kind rows readTs = found := by
  rcases probeVisibleEntry_eq kind rows readTs with ⟨err, herr, -⟩ | hok
  · rw [h] at herr; cases herr
  · rw [h, Except.ok.injEq] at hok
    exact hok.symm

theorem probeVisibleEntry_fits (h : RowsFit rows) :
    probeVisibleEntry kind rows readTs = .ok (visibleEntry kind rows readTs) :=
  (probeVisibleEntry_eq kind rows readTs).resolve_left fun ⟨_, _, hnot⟩ => hnot h

theorem getMvcc_fits {pages : ℕ → ℕ → Bytes} {frontier : Ts} {view : ReadView} {c : Chain} {cell : Option VersionData}
    (h : RowsFit rows) :
    getMvcc pages frontier view kind c rows cell = .ok (getFitting pages frontier view kind c rows cell) := by
  unfold getMvcc getFitting
  rw [probeVisibleEntry_fits h]
  cases visibleAt frontier view c with
  | some e => rfl
  | none =>
    split_ifs
    · cases visibleEntry kind rows view.readTs <;> rfl
    · rfl

end

/-! ## Spills -/

/-- one committed version that a checkpoint writes to the history store -/
structure HistorySpillEntry where
  ident : TreeIdent
  key : Key
  entry : VersionEntry
  counter : ℕ
deriving DecidableEq, Repr

def HistorySpillEntry.rowKey (w : HistorySpillEntry) : Ts ×ₗ ℕ := toLex (w.entry.startTs, w.counter)

inductive SpillError where
  | duplicateKey
deriving DecidableEq, Repr

def applySpill (store : HistoryStore) (w : HistorySpillEntry) : Except SpillError HistoryStore :=
  match (store w.ident w.key).get? w.rowKey with
  | some existing => if existing = w.entry then .ok store else .error .duplicateKey
  | none => .ok fun ident key =>
    if ident = w.ident ∧ key = w.key then (store ident key).insert w.rowKey w.entry else store ident key

def commitSpillTxn (store : HistoryStore) (staged : List HistorySpillEntry) : Except SpillError HistoryStore :=
  staged.foldlM applySpill store

theorem applySpill_get? {store store' : HistoryStore} {w : HistorySpillEntry} (h : applySpill store w = .ok store')
    (ident : TreeIdent) (key : Key) (k : Ts ×ₗ ℕ) (e : VersionEntry) :
    (store' ident key).get? k = some e ↔
      (store ident key).get? k = some e ∨ (ident = w.ident ∧ key = w.key ∧ k = w.rowKey ∧ e = w.entry) := by
  unfold applySpill at h
  cases hold : (store w.ident w.key).get? w.rowKey with
  | some existing =>
    rw [hold] at h
    simp only at h
    split_ifs at h with heq
    cases h
    refine ⟨.inl, fun hor => hor.elim id ?_⟩
    rintro ⟨rfl, rfl, rfl, rfl⟩
    rw [hold, heq]
  | none =>
    rw [hold] at h
    cases h
    by_cases hik : ident = w.ident ∧ key = w.key
    · obtain ⟨rfl, rfl⟩ := hik
      simp only [and_self, if_true, true_and]
      rw [OrdMap.get?_insert]
      by_cases hk : k = w.rowKey
      · subst hk
        simp [hold, eq_comm]
      · simp [hk]
    · simp only [if_neg hik]
      exact ⟨.inl, fun hor => hor.elim id fun h => absurd ⟨h.1, h.2.1⟩ hik⟩

/-- **After the spills** the store holds what it held and every spilled version, and nothing else. -/
theorem commitSpillTxn_get? {store store' : HistoryStore} {staged : List HistorySpillEntry}
    (h : commitSpillTxn store staged = .ok store') (ident : TreeIdent) (key : Key) (k : Ts ×ₗ ℕ) (e : VersionEntry) :
    (store' ident key).get? k = some e ↔ (store ident key).get? k = some e ∨
      ∃ w ∈ staged, ident = w.ident ∧ key = w.key ∧ k = w.rowKey ∧ e = w.entry := by
  induction staged generalizing store with
  | nil => cases h; simp
  | cons w l ih =>
    simp only [commitSpillTxn, foldlM_cons] at h
    cases hw : applySpill store w with
    | error err => rw [hw] at h; cases h
    | ok mid =>
      rw [hw] at h
      rw [ih h, applySpill_get? hw]
      simp only [mem_cons, exists_eq_or_imp, or_assoc]

theorem rowsFit_empty : RowsFit OrdMap.empty := fun _ _ h => by cases h

/-- rows that fit stay so, if the spilled versions fit -/
theorem RowsFit.spill {store store' : HistoryStore} {staged : List HistorySpillEntry} {ident : TreeIdent} {key : Key}
    (hfits : RowsFit (store ident key)) (h : commitSpillTxn store staged = .ok store')
    (hs : ∀ w ∈ staged, w.ident = ident → w.key = key → RowFits w.entry) : RowsFit (store' ident key) := by
  intro k e hk
  rcases (commitSpillTxn_get? h ident key k e).1 hk with hold | ⟨w, hw, hi, hkey, -, rfl⟩
  · exact hfits k e hold
  · exact hs w hw hi.symm hkey.symm

/-! ## Probes see only visible rows -/

variable {rows : HistoryRows} {readTs : Ts} {kind : TreeKind} {e : VersionEntry}

theorem newestVisible_congr {rows' : HistoryRows}
    (h : ∀ k e, rowVisible readTs (k, e) = true → (rows.get? k = some e ↔ rows'.get? k = some e)) :
    newestVisible rows readTs = newestVisible rows' readTs := by
  have hfilter : rows.entries.filter (rowVisible readTs) = rows'.entries.filter (rowVisible readTs) := by
    refine OrdMap.filter_eq_of_get? fun k e hv => ?_
    exact h k e hv
  simp only [newestVisible, ← getLast?_filter, hfilter]

section

variable (h : visibleEntry kind rows readTs = some e)

include h

theorem probe_newest : newestVisible rows readTs = some e := by
  unfold visibleEntry at h
  cases hn : newestVisible rows readTs with
  | none => rw [hn] at h; cases h
  | some d =>
    rw [hn] at h
    simp only at h
    split_ifs at h
    exact h

theorem probe_mem : ∃ k, rows.get? k = some e := by
  obtain ⟨row, hrow, rfl⟩ := Option.map_eq_some_iff.1 (probe_newest h)
  exact ⟨row.1, OrdMap.get?_eq_some_iff.2 (mem_reverse.1 (mem_of_find?_eq_some hrow))⟩

/-- a probe finds a version whose interval holds the timestamp -/
theorem probe_visible : e.startTs ≤ readTs ∧ readTs < e.stopTs := by
  obtain ⟨row, hrow, rfl⟩ := Option.map_eq_some_iff.1 (probe_newest h)
  have hv := find?_some hrow
  simp only [rowVisible, decide_eq_true_eq] at hv
  exact hv.2

end

/-! ## Garbage collection -/

/-- rows that have ended by `ort` go; all rows fit and decode -/
def gcPass (store : HistoryStore) (ort : Ts) : HistoryStore := fun ident key =>
  ⟨(store ident key).entries.filter fun row => row.2.stopTs = Ts.MAX ∨ ort < row.2.stopTs,
    (store ident key).sorted.filter _⟩

def historyStep (store : HistoryStore) : HistorySpillEntry ⊕ Ts → Except SpillError HistoryStore
  | .inl w => applySpill store w
  | .inr ort => .ok (gcPass store ort)

/-- `thin` is `full` without some of the rows that have ended by `readTs` -/
def Thinned (readTs : Ts) (thin full : HistoryStore) : Prop := ∀ ident key k e,
  ((thin ident key).get? k = some e → (full ident key).get? k = some e) ∧
  ((full ident key).get? k = some e → readTs < e.stopTs → (thin ident key).get? k = some e)

section

variable {thin full full' : HistoryStore} {readTs : Ts} (h : Thinned readTs thin full)

include h

theorem Thinned.gc {ort : Ts} (hle : ort ≤ readTs) : Thinned readTs (gcPass thin ort) full := by
  intro ident key k e
  obtain ⟨hsub, hkeep⟩ := h ident key k e
  rw [OrdMap.get?_eq_some_iff, gcPass, mem_filter, ← OrdMap.get?_eq_some_iff]
  exact ⟨fun hk => hsub hk.1, fun hk hlt => ⟨hkeep hk hlt, decide_eq_true (.inr (hle.trans_lt hlt))⟩⟩

/-- a spill that succeeds on all rows succeeds on fewer -/
theorem Thinned.spill {w : HistorySpillEntry} (hw : applySpill full w = .ok full') :
    ∃ thin', applySpill thin w = .ok thin' ∧ Thinned readTs thin' full' := by
  obtain ⟨thin', hthin⟩ : ∃ thin', applySpill thin w = .ok thin' := by
    have hsub := fun e => (h w.ident w.key w.rowKey e).1
    unfold applySpill at hw ⊢
    grind
  refine ⟨thin', hthin, fun ident key k e => ?_⟩
  rw [applySpill_get? hw, applySpill_get? hthin]
  exact ⟨Or.imp_left (h ident key k e).1, fun hk hlt => hk.imp_left fun hk => (h ident key k e).2 hk hlt⟩

theorem Thinned.run {acts : List (HistorySpillEntry ⊕ Ts)} (hort : ∀ ort, .inr ort ∈ acts → ort ≤ readTs)
    (hr : commitSpillTxn full (acts.filterMap Sum.getLeft?) = .ok full') :
    ∃ thin', acts.foldlM historyStep thin = .ok thin' ∧ Thinned readTs thin' full' := by
  induction acts generalizing thin full with
  | nil => cases hr; exact ⟨thin, rfl, h⟩
  | cons act acts ih =>
    have hort' : ∀ ort, .inr ort ∈ acts → ort ≤ readTs := fun ort ho => hort ort (mem_cons_of_mem _ ho)
    cases act with
    | inr ort => exact ih (h.gc (hort ort mem_cons_self)) hort' hr
    | inl w =>
      obtain ⟨mid, hw, hr⟩ := bind_eq_ok hr
      obtain ⟨thin₁, hthin, h₁⟩ := h.spill hw
      rw [foldlM_cons, bind_ok (show historyStep thin (.inl w) = .ok thin₁ from hthin)]
      exact ih h₁ hort' hr

end

end Mqlite.Storage
