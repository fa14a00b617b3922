/-
The TTL sweep (`storage/paged_engine/ttl_sweep.rs`, with `find` and `delete` of `doc_ops.rs`).

The sweep takes the TTL indexes of the published catalog and goes through them. For each it finds the documents that
have the field, looks at the dates in code, and deletes the expired ones by their `_id`s. Finding is one snapshot read.
Deleting is another, which selects the documents with these `_id`s, and a commit, which asks that their newest versions
are the selected ones.

Other writers commit at any time. A commit of theirs is whatever it leaves in a namespace. The check of the commit has
gaps (see `Conflict`), so a commit of the sweep comes with keys whose change goes unnoticed. I/O errors, and conflicts
that are found between the selection and its heads, are the action `fail`.

`sweep_removes_expired`:
- when no other writer puts a fresh document in the place of one whose `_id` is already collected, what is removed has
  expired;
- without other writers, a sweep that gets through removes what has expired, if the index that the planner finds the
  candidates with has them all. A fresh date that is written between scan and deletion is lost (`sweep_removes_fresh`).
-/
import Mathlib.Data.String.Basic
import Mqlite.Index.Scan

namespace Mqlite.PagedEngine.Ttl

open Lib Mvcc Keys Query Index List Option OrdMap

/-! ## Dates -/

/-- saturating arithmetic on `i64` -/
def saturate (x : ℤ) : ℤ := max (-2 ^ 63) (min (2 ^ 63 - 1) x)

def MILLIS_PER_SECOND : ℤ := 1000

def dateIsExpired (date : Int64) (cutoffMillis : ℤ) : Bool := date.toInt < cutoffMillis

def valueIsExpired (value : Bson) (cutoffMillis : ℤ) : Bool :=
  match value with
  | .dateTime date => dateIsExpired date cutoffMillis
  | .array elements => elements.any fun element =>
    match element with
    | .dateTime date => dateIsExpired date cutoffMillis
    | _ => false
  | _ => false

/-- a date, or an array with a date, before the cutoff -/
def HasDateBefore (value : Bson) (cutoffMillis : ℤ) : Prop :=
  ∃ date : Int64, date.toInt < cutoffMillis ∧
    (value = .dateTime date ∨ ∃ elements, value = .array elements ∧ .dateTime date ∈ elements)

theorem valueIsExpired_iff {value : Bson} {cutoffMillis : ℤ} :
    valueIsExpired value cutoffMillis = true ↔ HasDateBefore value cutoffMillis := by
  constructor
  · intro h
    cases value with
    | dateTime date => exact ⟨date, of_decide_eq_true h, .inl rfl⟩
    | array elements =>
      obtain ⟨element, hmem, helement⟩ := any_eq_true.1 h
      cases element with
      | dateTime date => exact ⟨date, of_decide_eq_true helement, .inr ⟨elements, rfl, hmem⟩⟩
      | _ => cases helement
    | _ => cases h
  · rintro ⟨date, hdate, rfl | ⟨elements, rfl, hmem⟩⟩
    · exact decide_eq_true hdate
    · exact any_eq_true.2 ⟨_, hmem, decide_eq_true hdate⟩

/-! ## Targets -/

structure PublishedIndex extends ReadyIndex where
  ready : Bool
  expireAfterSeconds : Option Int64

/-- a namespace: documents, the newest version of each key, and indexes -/
structure Namespace where
  coll : Collection
  head : Bytes → ℕ
  indexes : List PublishedIndex

structure TtlTarget where
  ns : String
  field : String
  expireAfterSeconds : Int64
  partialFilterExpression : Option Document

def PublishedIndex.target (i : PublishedIndex) (name : String) : Option TtlTarget :=
  match i.expireAfterSeconds with
  | none => none
  | some seconds =>
    if !i.ready then none
    else match i.entry.keyPattern with
      | [] => none
      | (field, _) :: _ => some ⟨name, field, seconds, i.entry.partialFilterExpression⟩

def Namespace.targets (ns : Namespace) (name : String) : List TtlTarget := ns.indexes.filterMap fun i => i.target name

/-- the namespaces come in the order of a hash map -/
def collectTtlTargets (spaces : OrdMap String Namespace) (order : List String) : List TtlTarget :=
  order.flatMap fun name =>
    match spaces.get? name with
    | none => []
    | some ns => ns.targets name

def TtlTarget.cutoffMillis (t : TtlTarget) (nowMillis : Int64) : ℤ :=
  saturate (nowMillis.toInt - saturate (t.expireAfterSeconds.toInt * MILLIS_PER_SECOND))

/-- **Expiry.** The field has a date before the cutoff, and the document passes the filter expression of the index. -/
def Expired (env : Env) (nowMillis : Int64) (t : TtlTarget) (doc : Document) : Prop :=
  (∃ value, getNestedField doc t.field = some value ∧ HasDateBefore value (t.cutoffMillis nowMillis)) ∧
    ∀ pfe ∈ t.partialFilterExpression, evalFilter env doc pfe = .ok true

/-! ## The steps -/

def existsFilter (field : String) : Document := [(field, .document [("$exists", .boolean true)])]

def buildScanFilter (field : String) : Option Document → Document
  | none => existsFilter field
  | some pfe => [("$and", .array [.document (existsFilter field), .document pfe])]

def TtlTarget.scanFilter (t : TtlTarget) : Document := buildScanFilter t.field t.partialFilterExpression

def expiredIds (t : TtlTarget) (nowMillis : Int64) (docs : List Document) : List Bson :=
  docs.filterMap fun doc =>
    match getNestedField doc t.field with
    | none => none
    | some value => if valueIsExpired value (t.cutoffMillis nowMillis) then doc.get "_id" else none

def deleteFilter (expiredIds : List Bson) : Document := [("_id", .document [("$in", .array expiredIds)])]

def Namespace.readyIndexes (ns : Namespace) : List ReadyIndex :=
  (ns.indexes.filter PublishedIndex.ready).map PublishedIndex.toReadyIndex

inductive Phase where
  | idle
  | next (targets : List TtlTarget)
  | scanned (target : TtlTarget) (expiredIds : List Bson) (rest : List TtlTarget)
  | selected (target : TtlTarget) (pairs : List (Pair × ℕ)) (rest : List TtlTarget)
  | done
  | failed

/-- `removed`: the versions that the sweep has removed, each with the index it was removed for -/
structure State where
  spaces : OrdMap String Namespace
  now : Int64
  phase : Phase
  deleted : ℕ
  removed : List (TtlTarget × Document)

inductive Act where
  | other (name : String) (ns : Namespace)
  | start (nowMillis : Int64) (order : List String)
  | scan
  | select
  | commit (missed : List Bytes)
  | fail

section Steps

variable (env : Env)

def find (ns : Namespace) (filter : Document) : Except ScanError (List Pair) :=
  executePlan env ns.coll filter none ns.readyIndexes
    (selectPlan filter (ns.readyIndexes.map fun idx => idx.entry.planned))

/-- the candidates of a deletion are found without secondary indexes -/
def collectMutationCandidates (ns : Namespace) (filter : Document) : Except ScanError (List (Pair × ℕ)) :=
  (executePlan env ns.coll filter none [] (selectPlan filter [])).map fun pairs => pairs.map fun p => (p, ns.head p.1)

def maintainSecondaryOnDelete (doc : Document) : List PublishedIndex → Except IndexError (List PublishedIndex)
  | [] => .ok []
  | i :: rest =>
    match updateIndexOnDelete env i.entry doc (idOf doc) with
    | .error e => .error e
    | .ok staged => (maintainSecondaryOnDelete doc rest).map fun rest =>
      { i with entries := applyWrites i.entries staged } :: rest

def maintainAll (pairs : List (Pair × ℕ)) (indexes : List PublishedIndex) : Except IndexError (List PublishedIndex) :=
  pairs.foldlM (fun indexes p => maintainSecondaryOnDelete env p.1.2 indexes) indexes

def Collection.without (coll : Collection) (keys : List Bytes) : Collection where
  docs := coll.docs.filter (· ∉ keys)
  keyed := fun p hp => coll.keyed p (List.mem_of_mem_filter hp)

def Namespace.remove (ns : Namespace) (keys : List Bytes) (indexes : List PublishedIndex) : Namespace where
  coll := Collection.without ns.coll keys
  head := fun key => if key ∈ keys then ns.head key + 1 else ns.head key
  indexes := indexes

def State.scan (s : State) : TtlTarget → List TtlTarget → State := fun t rest =>
  match s.spaces.get? t.ns with
  | none => { s with phase := .next rest }
  | some ns =>
    match find env ns t.scanFilter with
    | .error _ => { s with phase := .failed }
    | .ok pairs =>
      match expiredIds t s.now (pairs.map Prod.snd) with
      | [] => { s with phase := .next rest }
      | id :: ids => { s with phase := .scanned t (id :: ids) rest }

def State.select (s : State) (t : TtlTarget) (ids : List Bson) (rest : List TtlTarget) : State :=
  match s.spaces.get? t.ns with
  | none => { s with phase := .next rest }
  | some ns =>
    match collectMutationCandidates env ns (deleteFilter ids) with
    | .error _ => { s with phase := .failed }
    | .ok [] => { s with phase := .next rest }
    | .ok (p :: pairs) => { s with phase := .selected t (p :: pairs) rest }

/-- all or nothing -/
def State.commit (s : State) (t : TtlTarget) (pairs : List (Pair × ℕ)) (rest : List TtlTarget) (missed : List Bytes) :
    State :=
  match s.spaces.get? t.ns with
  | none => { s with phase := .failed }
  | some ns =>
    match maintainAll env pairs ns.indexes with
    | .error _ => { s with phase := .failed }
    | .ok indexes =>
      if pairs.all fun p => ns.head p.1.1 = p.2 || p.1.1 ∈ missed then
        { s with
          spaces := s.spaces.insert t.ns (ns.remove (pairs.map fun p => p.1.1) indexes)
          phase := .next rest
          deleted := s.deleted + pairs.length
          removed := s.removed ++ (pairs.filterMap fun p => ns.coll.docs.get? p.1.1).map fun doc => (t, doc) }
      else { s with phase := .failed }

def step (s : State) : Act → Option State
  | .other name ns => some { s with spaces := s.spaces.insert name ns }
  | .start nowMillis order =>
    match s.phase with
    | .idle =>
      if order.Perm (s.spaces.entries.map Prod.fst) then
        some { s with now := nowMillis, phase := .next (collectTtlTargets s.spaces order) }
      else none
    | _ => none
  | .scan =>
    match s.phase with
    | .next [] => some { s with phase := .done }
    | .next (t :: rest) => some (s.scan env t rest)
    | _ => none
  | .select =>
    match s.phase with
    | .scanned t ids rest => some (s.select env t ids rest)
    | _ => none
  | .commit missed =>
    match s.phase with
    | .selected t pairs rest => some (s.commit env t pairs rest missed)
    | _ => none
  | .fail => some { s with phase := .failed }

end Steps

/-! ## Filters -/

section Filters

variable {env : Env} {doc : Document} {field : String}

theorem evalFilter_and (pfe : Document) : evalFilter env doc (buildScanFilter field (some pfe)) =
      (do if ← evalFilter env doc (existsFilter field) then evalFilter env doc pfe else .ok false) := by
  have hand : evalFilter env doc (buildScanFilter field (some pfe)) =
      (do if ← evalLogicalAnd env [.document (existsFilter field), .document pfe] doc then .ok true else .ok false) :=
    rfl
  rw [hand, ifTrue_self, ← ifTrue_self (evalFilter env doc pfe)]
  rfl

/-- a field that is there is found by the filter, if the filter does not fail -/
theorem existsFilter_of_some (hfield : field ≠ "$expr") (h : (getNestedField doc field).isSome = true) :
    evalFilter env doc (existsFilter field) ≠ .ok false := by
  have htop : evalTopLevel env (.document [("$exists", .boolean true)]) field doc ≠ .ok false := by
    cases hdollar : startsWithDollar field with
    | false =>
      rw [evalTopLevel_operator hdollar rfl (by decide) (by decide)]
      simp only [evalSingleOp, evalExists, bsonToBool, h]
      exact fun hfalse => by cases hfalse
    | true =>
      -- the keys that are operators fail on a document, but for the comment
      rw [evalTopLevel]
      split_ifs <;> exact fun hfalse => by cases hfalse
  unfold evalFilter guardCollation
  split_ifs
  · exact fun hfalse => by cases hfalse
  · rw [existsFilter, evalFields_singleton]
    exact htop

/-- an expired document is found, if the filter does not fail on it -/
theorem scanFilter_of_expired {t : TtlTarget} {nowMillis : Int64} (hfield : t.field ≠ "$expr")
    (h : Expired env nowMillis t doc) :
    evalFilter env doc t.scanFilter ≠ .ok false := by
  obtain ⟨⟨value, hvalue, -⟩, hpfe⟩ := h
  have hexists := @existsFilter_of_some env doc t.field hfield (by rw [hvalue]; rfl)
  unfold TtlTarget.scanFilter
  cases hsome : t.partialFilterExpression with
  | none => exact hexists
  | some pfe =>
    rw [evalFilter_and, hpfe pfe hsome]
    cases hresult : evalFilter env doc (existsFilter t.field) with
    | error e => exact fun hfalse => by cases hfalse
    | ok b =>
      cases b with
      | false => exact absurd hresult hexists
      | true => exact fun hfalse => by cases hfalse

theorem extractPrimaryKeyCondition_scanFilter (t : TtlTarget) : extractPrimaryKeyCondition t.scanFilter = none := by
  unfold TtlTarget.scanFilter
  cases t.partialFilterExpression with
  | some pfe => rfl
  | none =>
    by_cases hfield : t.field = "_id"
    · rw [hfield]
      rfl
    · have hget : (buildScanFilter t.field none).get "_id" = none := by
        simp [buildScanFilter, existsFilter, Document.get, hfield]
      simp [extractPrimaryKeyCondition, extractFieldCondition, hget]

theorem evalFilter_deleteFilter {ids : List Bson} {id : Bson} (hid : doc.get "_id" = some id) :
    evalFilter env doc (deleteFilter ids) = .ok (ids.any fun target => matchesValue id target) := by
  have hop : evalSingleOp env (.array ids) "$in" (some id) = .ok (ids.any fun target => matchesValue id target) := by
    simp [evalSingleOp, evalIn, requireArray]
    rfl
  change evalFields env [("_id", .document [("$in", .array ids)])] doc = _
  rw [evalFields_singleton, evalTopLevel_operator rfl rfl (by decide) (by decide), getNestedField_id, hid, hop]

theorem selectPlan_deleteFilter (ids : List Bson) :
    selectPlan (deleteFilter ids) [] = .primaryKeyLookup (.inList ids) := by
  have hcondition : extractOperatorCondition [("$in", .array ids)] = some (.inList ids) := by
    simp [extractOperatorCondition, Document.containsKey, Document.get, existsFalse]
  have hget : (deleteFilter ids).get "_id" = some (.document [("$in", .array ids)]) := by
    simp [deleteFilter, Document.get]
  have hdollar : startsWithDollar "$in" = true := rfl
  simp [selectPlan, extractPrimaryKeyCondition, extractFieldCondition, hget, hasOps, hdollar, hcondition]

end Filters

/-! ## What the steps find -/

section Found

variable {env : Env} {ns : Namespace} {t : TtlTarget} {nowMillis : Int64}

/-- an id that is collected is that of a document that has expired -/
theorem expired_of_mem_ids {pairs : List Pair} {id : Bson} (hfind : find env ns t.scanFilter = .ok pairs)
    (h : id ∈ expiredIds t nowMillis (pairs.map Prod.snd)) :
    ∃ doc, ns.coll.docs.get? (encodeKey id) = some doc ∧ Expired env nowMillis t doc := by
  obtain ⟨keys, rfl, -, -⟩ := executePlan_ok hfind
  obtain ⟨doc, hdoc, hid⟩ := mem_filterMap.1 h
  obtain ⟨p, hp, rfl⟩ := mem_map.1 hdoc
  obtain ⟨key, -, hfound⟩ := mem_filterMap.1 hp
  obtain ⟨-, haccepted⟩ := mem_foundPair.1 hfound
  split at hid
  · cases hid
  next value hvalue =>
    split_ifs at hid with hexpired
    obtain ⟨id', hid', hkey⟩ := ns.coll.keyed p (mem_of_mem_filter haccepted)
    obtain rfl : id' = id := Option.some.inj (hid'.symm.trans hid)
    obtain ⟨hmem, haccepts⟩ := mem_filter.1 haccepted
    rw [hkey]
    refine ⟨p.2, get?_eq_some_iff.2 hmem, ⟨value, hvalue, valueIsExpired_iff.1 hexpired⟩, fun pfe hpfe => ?_⟩
    -- what the scan finds passes the filter expression
    have haccepts := of_decide_eq_true haccepts
    rw [TtlTarget.scanFilter, mem_def.1 hpfe, evalFilter_and] at haccepts
    obtain ⟨b, -, hpasses⟩ := bind_eq_ok haccepts
    cases b with
    | false => cases hpasses
    | true => exact hpasses

/-- the selection of a deletion -/
theorem mem_candidates {ids : List Bson} {pairs : List (Pair × ℕ)}
    (h : collectMutationCandidates env ns (deleteFilter ids) = .ok pairs) {q : Pair × ℕ} :
    q ∈ pairs ↔ q.1 ∈ ns.coll.docs.entries ∧ q.2 = ns.head q.1.1 ∧ ∃ id ∈ ids, encodeKey id = q.1.1 := by
  obtain ⟨found, hplan, rfl⟩ := map_eq_ok h
  rw [selectPlan_deleteFilter] at hplan
  obtain ⟨keys, -, hkeys, ⟨hlookup, -⟩ | ⟨key, -, e, -, hlookup⟩⟩ :=
    @executePrimaryKeyLookup_cases env ns.coll (deleteFilter ids) (.inList ids)
  · rw [mapError_ok hplan] at hlookup
    obtain rfl := Except.ok.inj hlookup
    obtain ⟨p, head⟩ := q
    simp only [List.mem_map, List.mem_filterMap, mem_foundPair, Prod.mk.injEq]
    constructor
    · rintro ⟨p', ⟨key, hkey, rfl, haccepted⟩, rfl, rfl⟩
      exact ⟨List.mem_of_mem_filter haccepted, rfl, (hkeys p'.1).1 hkey⟩
    · rintro ⟨hp, rfl, id, hid, hkey⟩
      refine ⟨p, ⟨p.1, (hkeys p.1).2 ⟨id, hid, hkey⟩, rfl, List.mem_filter.2 ⟨hp, decide_eq_true ?_⟩⟩, rfl, rfl⟩
      obtain ⟨pid, hpid, hpkey⟩ := ns.coll.keyed p hp
      rw [evalFilter_deleteFilter hpid]
      have hmatches : matchesValue pid id = true :=
        Bool.or_eq_true_iff.2 (.inl (decide_eq_true (hpkey.trans hkey.symm)))
      rw [any_eq_true.2 ⟨id, hid, hmatches⟩]
  · rw [mapError_ok hplan] at hlookup
    cases hlookup

end Found

/-! ## What is removed -/

/-- the keys that a deletion is under way for -/
def Phase.Awaits (t : TtlTarget) (key : Bytes) : Phase → Prop
  | .scanned target ids _ => target = t ∧ ∃ id ∈ ids, encodeKey id = key
  | .selected target pairs _ => target = t ∧ ∃ p ∈ pairs, p.1.1 = key
  | _ => False

def State.doc? (s : State) (name : String) (key : Bytes) : Option Document :=
  (s.spaces.get? name).bind fun ns => ns.coll.docs.get? key

/-- between the scan and the deletion, other writers leave no fresh document in the place of a collected one -/
def KeepsExpired (env : Env) (s : State) : Act → Prop
  | .other name ns => ∀ t key doc, s.phase.Awaits t key → t.ns = name → ns.coll.docs.get? key = some doc →
      s.doc? name key = some doc ∨ Expired env s.now t doc
  | _ => True

structure Safe (env : Env) (s : State) : Prop where
  begun : s.phase = .idle → s.removed = []
  removed : ∀ r ∈ s.removed, Expired env s.now r.1 r.2
  pending : ∀ t key doc, s.phase.Awaits t key → s.doc? t.ns key = some doc → Expired env s.now t doc

section Removed

variable {env : Env} {s s' : State} {t : TtlTarget} {rest : List TtlTarget}

variable (h : Safe env s)

include h

/-- a phase that no deletion is under way in -/
theorem Safe.calm {phase : Phase} (hidle : phase ≠ .idle) (hcalm : ∀ t key, ¬ phase.Awaits t key) :
    Safe env { s with phase := phase } where
  begun := fun heq => absurd heq hidle
  removed := h.removed
  pending := fun t key _ hawaits => absurd hawaits (hcalm t key)

theorem Safe.scan : Safe env (s.scan env t rest) := by
  unfold State.scan
  split
  · exact h.calm (by simp) fun _ _ => id
  next ns hns =>
    split
    · exact h.calm (by simp) fun _ _ => id
    next pairs hfind =>
      split
      · exact h.calm (by simp) fun _ _ => id
      next id ids hids =>
        refine ⟨fun heq => (by cases heq), h.removed, ?_⟩
        rintro t' key doc ⟨rfl, id', hid', rfl⟩ hdoc
        obtain ⟨doc', hdoc', hexpired⟩ := expired_of_mem_ids hfind (hids ▸ hid')
        have hsame : s.doc? t.ns (encodeKey id') = some doc' := by rw [State.doc?, hns, bind_some, hdoc']
        obtain rfl : doc = doc' := Option.some.inj (hdoc.symm.trans hsame)
        exact hexpired

theorem Safe.select {ids : List Bson} (hphase : s.phase = .scanned t ids rest) :
    Safe env (s.select env t ids rest) := by
  unfold State.select
  split
  · exact h.calm (by simp) fun _ _ => id
  next ns hns =>
    split
    · exact h.calm (by simp) fun _ _ => id
    · exact h.calm (by simp) fun _ _ => id
    next p pairs hselect =>
      refine ⟨fun heq => (by cases heq), h.removed, ?_⟩
      rintro t' key doc ⟨rfl, q, hq, rfl⟩ hdoc
      obtain ⟨-, -, hid⟩ := (mem_candidates hselect).1 hq
      exact h.pending t q.1.1 doc (by rw [hphase]; exact ⟨rfl, hid⟩) hdoc

theorem Safe.commit {pairs : List (Pair × ℕ)} {missed : List Bytes} (hphase : s.phase = .selected t pairs rest) :
    Safe env (s.commit env t pairs rest missed) := by
  unfold State.commit
  split
  · exact h.calm (by simp) fun _ _ => id
  next ns hns =>
    split
    · exact h.calm (by simp) fun _ _ => id
    · split_ifs
      · refine ⟨fun heq => (by cases heq), ?_, fun t key _ hawaits => (by cases hawaits)⟩
        intro r hr
        rcases mem_append.1 hr with hr | hr
        · exact h.removed r hr
        · obtain ⟨doc, hdoc, rfl⟩ := mem_map.1 hr
          obtain ⟨p, hp, hget⟩ := mem_filterMap.1 hdoc
          refine h.pending t p.1.1 doc (by rw [hphase]; exact ⟨rfl, p, hp, rfl⟩) ?_
          rw [State.doc?, hns, bind_some, hget]
      · exact h.calm (by simp) fun _ _ => id

theorem Safe.other {name : String} {ns : Namespace} (hkeeps : KeepsExpired env s (.other name ns)) :
    Safe env { s with spaces := s.spaces.insert name ns } where
  begun := h.begun
  removed := h.removed
  pending := by
    intro t key doc hawaits hdoc
    rw [State.doc?, get?_insert] at hdoc
    split_ifs at hdoc with hname
    · rcases hkeeps t key doc hawaits hname hdoc with hsame | hexpired
      · exact h.pending t key doc hawaits (hname ▸ hsame)
      · exact hexpired
    · exact h.pending t key doc hawaits hdoc

theorem step_safe {a : Act} (hkeeps : KeepsExpired env s a) (hstep : step env s a = some s') : Safe env s' := by
  cases a with rw [step] at hstep
  | other name ns =>
    cases hstep
    exact h.other hkeeps
  | start nowMillis order =>
    split at hstep
    next hphase =>
      split_ifs at hstep
      cases hstep
      refine ⟨fun heq => (by cases heq), fun r hr => ?_, fun t key _ hawaits => (by cases hawaits)⟩
      rw [h.begun hphase] at hr
      cases hr
    · cases hstep
  | scan =>
    split at hstep
    · cases hstep
      exact h.calm (by simp) fun _ _ => id
    · cases hstep
      exact h.scan
    · cases hstep
  | select =>
    split at hstep
    next hphase =>
      cases hstep
      exact h.select hphase
    · cases hstep
  | commit missed =>
    split at hstep
    next hphase =>
      cases hstep
      exact h.commit hphase
    · cases hstep
  | fail =>
    cases hstep
    exact h.calm (by simp) fun _ _ => id

end Removed

/-! ## Indexes during a sweep -/

section Indexes

variable {env : Env} {doc : Document} {docs : List Document} {i : PublishedIndex}

theorem updateIndexOnDelete_ok {e : IndexEntry} {staged : List SecIndexWrite}
    (h : updateIndexOnDelete env e doc (idOf doc) = .ok staged) :
    staged = (keysOf env e doc).map fun key => ⟨key, .delete⟩ := by
  unfold updateIndexOnDelete at h
  unfold keysOf
  split at h
  · cases h
  next hmatch =>
    cases h
    rw [hmatch]
    rfl
  next hmatch =>
    rw [hmatch]
    split at h
    · cases h
    next hkeys =>
      cases h
      rw [hkeys]

theorem get?_applyWrites_deletes (index : Entries) (keys : List Bytes) (key : Bytes) :
    (applyWrites index (keys.map fun key => ⟨key, .delete⟩)).get? key = if key ∈ keys then none
      else index.get? key := by
  induction keys generalizing index with
  | nil => rfl
  | cons k keys ih =>
    rw [map_cons, applyWrites, foldl_cons, ← applyWrites, ih]
    change (if key ∈ keys then none else (index.erase k).get? key) = _
    rw [get?_erase]
    split_ifs <;> simp_all

/-- an index after the deletion of a document -/
def thin (env : Env) (i : PublishedIndex) (doc : Document) : PublishedIndex :=
  { i with entries := applyWrites i.entries ((keysOf env i.entry doc).map fun key => ⟨key, .delete⟩) }

variable {indexes indexes' : List PublishedIndex}

theorem maintainSecondaryOnDelete_ok (h : maintainSecondaryOnDelete env doc indexes = .ok indexes') :
    indexes' = indexes.map fun i => thin env i doc := by
  induction indexes generalizing indexes' with
  | nil =>
    cases h
    rfl
  | cons i rest ih =>
    rw [maintainSecondaryOnDelete] at h
    split at h
    · cases h
    next staged hstaged =>
      obtain ⟨rest', hrest, rfl⟩ := map_eq_ok h
      rw [ih hrest, updateIndexOnDelete_ok hstaged]
      rfl

theorem maintainAll_ok {pairs : List (Pair × ℕ)} (h : maintainAll env pairs indexes = .ok indexes') :
    indexes' = indexes.map fun i => (pairs.map fun p => p.1.2).foldl (thin env) i := by
  induction pairs generalizing indexes with
  | nil =>
    cases h
    simp
  | cons p pairs ih =>
    obtain ⟨indexes₁, h₁, h⟩ := bind_eq_ok h
    rw [ih h, maintainSecondaryOnDelete_ok h₁, List.map_map]
    rfl

/-- what the catalog says about an index -/
def PublishedIndex.definition (i : PublishedIndex) : IndexEntry × Bool × Option Int64 :=
  (i.entry, i.ready, i.expireAfterSeconds)

theorem definition_thinned : (docs.foldl (thin env) i).definition = i.definition := by
  induction docs generalizing i with
  | nil => rfl
  | cons doc docs ih => exact ih

theorem entry_thinned : (docs.foldl (thin env) i).entry = i.entry :=
  congrArg Prod.fst (@definition_thinned env docs i)

theorem get?_thinned {key : Bytes} {id : Bson} : (docs.foldl (thin env) i).entries.get? key = some id ↔
    i.entries.get? key = some id ∧ ∀ doc ∈ docs, key ∉ keysOf env i.entry doc := by
  induction docs generalizing i with
  | nil => simp
  | cons doc docs ih =>
    rw [foldl_cons, ih]
    have hthin : (thin env i doc).entries.get? key = if key ∈ keysOf env i.entry doc then none
        else i.entries.get? key :=
      get?_applyWrites_deletes _ _ _
    rw [hthin]
    change (_ ∧ ∀ doc ∈ docs, key ∉ keysOf env i.entry doc) ↔ _
    split_ifs with hkey
    · simp [hkey]
    · simp [hkey]

theorem get?_without {coll : Collection} {keys : List Bytes} {key : Bytes} {doc : Document} :
    (Collection.without coll keys).docs.get? key = some doc ↔ coll.docs.get? key = some doc ∧ key ∉ keys := by
  rw [Collection.without, get?_filter]
  by_cases hkey : key ∈ keys <;> simp [hkey]

/-- the entries of an exact index stay exact when documents and their entries are removed -/
theorem isImage_thinned {coll : Collection} {pairs : List Pair} (h : i.toReadyIndex.IsImage env coll)
    (hpairs : ∀ p ∈ pairs, p ∈ coll.docs.entries) :
    ((pairs.map Prod.snd).foldl (thin env) i).toReadyIndex.IsImage env
      (Collection.without coll (pairs.map Prod.fst)) := by
  intro key id
  rw [get?_thinned, h key id, entry_thinned]
  constructor
  · rintro ⟨⟨p, hp, hkey, hid⟩, hothers⟩
    refine ⟨p, ?_, hkey, hid⟩
    refine get?_eq_some_iff.1 (get?_without.2 ⟨get?_eq_some_iff.2 hp, fun hremoved => ?_⟩)
    obtain ⟨q, hq, hqkey⟩ := mem_map.1 hremoved
    have hget := get?_eq_some_iff.2 hp
    rw [← hqkey, get?_eq_some_iff.2 (hpairs q hq)] at hget
    rw [← Option.some.inj hget] at hkey
    exact hothers q.2 (mem_map_of_mem hq) hkey
  · rintro ⟨p, hp, hkey, hid⟩
    obtain ⟨hget, hkept⟩ := get?_without.1 (get?_eq_some_iff.2 hp)
    have hp := get?_eq_some_iff.1 hget
    refine ⟨⟨p, hp, hkey, hid⟩, ?_⟩
    intro doc hdoc hshared
    obtain ⟨q, hq, rfl⟩ := mem_map.1 hdoc
    -- the entry of a shared key would have both ids
    have hlive := (h key (idOf q.2)).2 ⟨q, hpairs q hq, hshared, rfl⟩
    rw [(h key id).2 ⟨p, hp, hkey, hid⟩] at hlive
    obtain ⟨pid, hpid, hpkey⟩ := coll.keyed p hp
    obtain ⟨qid, hqid, hqkey⟩ := coll.keyed q (hpairs q hq)
    rw [idOf, hpid, getD_some] at hid
    rw [idOf, hqid, getD_some] at hlive
    refine hkept (mem_map.2 ⟨q, hq, ?_⟩)
    rw [← hqkey, ← Option.some.inj hlive, ← hid, hpkey]

end Indexes

/-! ## A sweep without other writers -/

/-- the index that the candidates of a target are found with has an entry within the scan for every expired document -/
def Covers (env : Env) (nowMillis : Int64) (ns : Namespace) (t : TtlTarget) : Prop :=
  t.field ≠ "$expr" ∧ ∀ indexName field condition,
    selectPlan t.scanFilter (ns.readyIndexes.map fun idx => idx.entry.planned) = .indexScan indexName field condition →
    ∀ idx, (ns.readyIndexes.find? fun idx => idx.entry.name = indexName) = some idx →
    ∀ key doc, ns.coll.docs.get? key = some doc → Expired env nowMillis t doc →
      ∃ range ∈ scanRanges (scanAscending idx.entry field) condition, ∃ k ∈ keysOf env idx.entry doc, range k = true

/-- indexes are exact, and those that are swept by are complete for their targets -/
structure Sweepable (env : Env) (nowMillis : Int64) (spaces : OrdMap String Namespace) : Prop where
  image : ∀ name ns, spaces.get? name = some ns → ∀ i ∈ ns.indexes, i.toReadyIndex.IsImage env ns.coll
  covers : ∀ name ns, spaces.get? name = some ns → ∀ t ∈ ns.targets name, Covers env nowMillis ns t

/-- a namespace that some targets were swept in -/
structure Swept (env : Env) (nowMillis : Int64) (done : List TtlTarget) (name : String) (ns₀ ns : Namespace) :
    Prop where
  docs : ∀ key doc, ns.coll.docs.get? key = some doc ↔
    ns₀.coll.docs.get? key = some doc ∧ ∀ t ∈ done, t.ns = name → ¬ Expired env nowMillis t doc
  definitions : ns.indexes.map PublishedIndex.definition = ns₀.indexes.map PublishedIndex.definition
  image : ∀ i ∈ ns.indexes, i.toReadyIndex.IsImage env ns.coll

def Left (env : Env) (nowMillis : Int64) (done : List TtlTarget) (spaces₀ spaces : OrdMap String Namespace) : Prop :=
  ∀ name ns₀, spaces₀.get? name = some ns₀ → ∃ ns, spaces.get? name = some ns ∧ Swept env nowMillis done name ns₀ ns

section Alone

variable {env : Env} {nowMillis : Int64} {done rest : List TtlTarget} {t : TtlTarget} {name : String}
  {ns₀ ns : Namespace} {spaces₀ : OrdMap String Namespace} {s s' : State}

theorem readyIndexes_entries (ns : Namespace) : (ns.readyIndexes.map fun idx => idx.entry) =
    ((ns.indexes.map PublishedIndex.definition).filter fun d => d.2.1).map Prod.fst := by
  rw [Namespace.readyIndexes, List.filter_map, List.map_map, List.map_map]
  rfl

section

variable (h : Swept env nowMillis done name ns₀ ns)

include h

theorem Swept.entries_eq : (ns.readyIndexes.map fun idx => idx.entry) = ns₀.readyIndexes.map fun idx => idx.entry := by
  rw [readyIndexes_entries, readyIndexes_entries, h.definitions]

theorem Swept.planned_eq :
    (ns.readyIndexes.map fun idx => idx.entry.planned) = ns₀.readyIndexes.map fun idx => idx.entry.planned := by
  have := congrArg (List.map IndexEntry.planned) h.entries_eq
  rwa [List.map_map, List.map_map] at this

/-- the scan comes by all expired documents -/
theorem Swept.reaches (hcovers : Covers env nowMillis ns₀ t) {p : Pair}
    (hp : p ∈ ns.coll.docs.entries) (hexpired : Expired env nowMillis t p.2) :
    Reaches ns.readyIndexes p (selectPlan t.scanFilter (ns.readyIndexes.map fun idx => idx.entry.planned)) := by
  have hp₀ := ((h.docs p.1 p.2).1 (get?_eq_some_iff.2 hp)).1
  cases hplan : selectPlan t.scanFilter (ns.readyIndexes.map fun idx => idx.entry.planned) with
  | collScan => trivial
  | primaryKeyLookup condition =>
    have hprimary := selectPlan_primaryKeyLookup hplan
    rw [extractPrimaryKeyCondition_scanFilter] at hprimary
    cases hprimary
  | indexScan indexName field condition =>
    intro idx hfind
    -- the index of the plan is the one that the plan was made with
    have hentry : (ns.readyIndexes.map fun idx => idx.entry).find? (fun e => e.name = indexName) = some idx.entry := by
      rw [find?_map]
      exact congrArg (Option.map _) hfind
    rw [h.entries_eq, find?_map] at hentry
    obtain ⟨idx₀, hfind₀, heq⟩ := map_eq_some_iff.1 hentry
    rw [h.planned_eq] at hplan
    obtain ⟨range, hrange, k, hk, hwithin⟩ := hcovers.2 indexName field condition hplan idx₀ hfind₀ p.1 p.2 hp₀ hexpired
    change idx₀.entry = idx.entry at heq
    rw [heq] at hrange hk
    obtain ⟨i, hi, rfl⟩ := mem_map.1 (mem_of_find?_eq_some hfind)
    exact ⟨range, hrange, k, hwithin, (h.image i (mem_of_mem_filter hi) k (idOf p.2)).2 ⟨p, hp, hk, rfl⟩⟩

/-- the ids of a scan are those of the expired documents -/
theorem Swept.ids_iff (hcovers : Covers env nowMillis ns₀ t) {pairs : List Pair}
    (hfind : find env ns t.scanFilter = .ok pairs) {key : Bytes} {doc : Document}
    (hdoc : ns.coll.docs.get? key = some doc) :
    (∃ id ∈ expiredIds t nowMillis (pairs.map Prod.snd), encodeKey id = key) ↔ Expired env nowMillis t doc := by
  constructor
  · rintro ⟨id, hid, rfl⟩
    obtain ⟨doc', hdoc', hexpired⟩ := expired_of_mem_ids hfind hid
    obtain rfl : doc = doc' := Option.some.inj (hdoc.symm.trans hdoc')
    exact hexpired
  · intro hexpired
    have hp := get?_eq_some_iff.1 hdoc
    have hreach := h.reaches hcovers hp hexpired
    obtain ⟨keys, rfl, hnone, hkeys⟩ := executePlan_ok hfind
    have haccepted : (key, doc) ∈ acceptedPairs env ns.coll t.scanFilter := by
      refine mem_filter.2 ⟨hp, decide_eq_true ?_⟩
      cases heval : evalFilter env doc t.scanFilter with
      | error e => exact absurd ⟨doc, hdoc, heval⟩ (hnone key (hkeys _ hp hreach) e)
      | ok b =>
        cases b with
        | true => rfl
        | false => exact absurd heval (scanFilter_of_expired hcovers.1 hexpired)
    obtain ⟨id, hid, hkey⟩ := ns.coll.keyed _ hp
    obtain ⟨⟨value, hvalue, hdate⟩, -⟩ := hexpired
    have hfound := mem_filterMap.2 ⟨key, hkeys _ hp hreach, mem_foundPair.2 ⟨rfl, haccepted⟩⟩
    refine ⟨id, mem_filterMap.2 ⟨doc, mem_map_of_mem hfound, ?_⟩, hkey⟩
    rw [hvalue]
    dsimp only
    rw [if_pos (valueIsExpired_iff.2 hdate), hid]

/-- nothing to remove -/
theorem Swept.skip (hnone : t.ns = name → ∀ key doc, ns.coll.docs.get? key = some doc → ¬ Expired env nowMillis t doc) :
    Swept env nowMillis (done ++ [t]) name ns₀ ns where
  docs := by
    intro key doc
    constructor
    · intro hdoc
      refine ⟨((h.docs key doc).1 hdoc).1, fun t' ht' hname => ?_⟩
      rcases mem_append.1 ht' with ht' | ht'
      · exact ((h.docs key doc).1 hdoc).2 t' ht' hname
      · obtain rfl := mem_singleton.1 ht'
        exact hnone hname key doc hdoc
    · rintro ⟨hdoc, hothers⟩
      exact (h.docs key doc).2 ⟨hdoc, fun t' ht' => hothers t' (mem_append_left _ ht')⟩
  definitions := h.definitions
  image := h.image

/-- the expired documents are removed -/
theorem Swept.remove (hname : t.ns = name) {pairs : List (Pair × ℕ)} (hpairs : ∀ p ∈ pairs, p.1 ∈ ns.coll.docs.entries)
    (hexpired : ∀ key doc, ns.coll.docs.get? key = some doc →
      ((∃ p ∈ pairs, p.1.1 = key) ↔ Expired env nowMillis t doc))
    {indexes : List PublishedIndex} (hmaintain : maintainAll env pairs ns.indexes = .ok indexes) :
    Swept env nowMillis (done ++ [t]) name ns₀ (ns.remove (pairs.map fun p => p.1.1) indexes) where
  docs := by
    intro key doc
    rw [Namespace.remove, get?_without, h.docs]
    constructor
    · rintro ⟨⟨hdoc, hothers⟩, hkept⟩
      refine ⟨hdoc, fun t' ht' hname' => ?_⟩
      rcases mem_append.1 ht' with ht' | ht'
      · exact hothers t' ht' hname'
      · obtain rfl := mem_singleton.1 ht'
        intro hbad
        obtain ⟨p, hp, hkey⟩ := (hexpired key doc ((h.docs key doc).2 ⟨hdoc, hothers⟩)).2 hbad
        exact hkept (mem_map.2 ⟨p, hp, hkey⟩)
    · rintro ⟨hdoc, hothers⟩
      have hothers' : ∀ t' ∈ done, t'.ns = name → ¬ Expired env nowMillis t' doc :=
        fun t' ht' => hothers t' (mem_append_left _ ht')
      refine ⟨⟨hdoc, hothers'⟩, fun hremoved => ?_⟩
      obtain ⟨p, hp, hkey⟩ := mem_map.1 hremoved
      exact hothers t (mem_append_right _ (mem_singleton_self t)) hname
        ((hexpired key doc ((h.docs key doc).2 ⟨hdoc, hothers'⟩)).1 ⟨p, hp, hkey⟩)
  definitions := by
    rw [Namespace.remove, maintainAll_ok hmaintain, List.map_map, ← h.definitions]
    exact List.map_congr_left fun i _ => definition_thinned
  image := by
    intro i hi
    rw [maintainAll_ok hmaintain] at hi
    obtain ⟨j, hj, rfl⟩ := mem_map.1 hi
    have himage := @isImage_thinned env j ns.coll (pairs.map Prod.fst) (h.image j hj)
      (fun p hp => by obtain ⟨q, hq, rfl⟩ := List.mem_map.1 hp; exact hpairs q hq)
    rw [List.map_map, List.map_map] at himage
    exact himage

end

/-- how far a sweep is -/
def Progress (env : Env) (nowMillis : Int64) (targets : List TtlTarget) (spaces₀ : OrdMap String Namespace)
    (s : State) : Prop :=
  s.now = nowMillis ∧ match s.phase with
    | .idle => False
    | .next rest => ∃ done, targets = done ++ rest ∧ Left env nowMillis done spaces₀ s.spaces
    | .scanned t ids rest => ∃ done, targets = done ++ t :: rest ∧ Left env nowMillis done spaces₀ s.spaces ∧
        ∀ key doc, s.doc? t.ns key = some doc → ((∃ id ∈ ids, encodeKey id = key) ↔ Expired env nowMillis t doc)
    | .selected t pairs rest => ∃ done, targets = done ++ t :: rest ∧ Left env nowMillis done spaces₀ s.spaces ∧
        (∀ p ∈ pairs, s.doc? t.ns p.1.1 = some p.1.2) ∧
        ∀ key doc, s.doc? t.ns key = some doc → ((∃ p ∈ pairs, p.1.1 = key) ↔ Expired env nowMillis t doc)
    | .done => Left env nowMillis targets spaces₀ s.spaces
    | .failed => True

theorem State.doc?_eq {s : State} (hns : s.spaces.get? name = some ns) (key : Bytes) :
    s.doc? name key = ns.coll.docs.get? key := by
  rw [State.doc?, hns, bind_some]

theorem Left.skip (h : Left env nowMillis done spaces₀ s.spaces)
    (hnone : ∀ key doc, s.doc? t.ns key = some doc → ¬ Expired env nowMillis t doc) :
    Left env nowMillis (done ++ [t]) spaces₀ s.spaces := by
  intro name ns₀ hns₀
  obtain ⟨ns, hns, hswept⟩ := h name ns₀ hns₀
  refine ⟨ns, hns, hswept.skip fun hname key doc hdoc => hnone key doc ?_⟩
  rw [hname, State.doc?_eq hns, hdoc]

/-- all targets of the start, each in a namespace -/
def AllTargets (spaces₀ : OrdMap String Namespace) (targets : List TtlTarget) : Prop :=
  ∀ t, t ∈ targets ↔ ∃ ns₀, spaces₀.get? t.ns = some ns₀ ∧ t ∈ ns₀.targets t.ns

theorem targets_ns (h : t ∈ ns.targets name) : t.ns = name := by
  obtain ⟨i, -, hi⟩ := mem_filterMap.1 h
  unfold PublishedIndex.target at hi
  split at hi
  · cases hi
  · split_ifs at hi
    split at hi
    · cases hi
    · cases hi
      rfl

theorem allTargets_collect {order : List String} (horder : order.Perm (spaces₀.entries.map Prod.fst)) :
    AllTargets spaces₀ (collectTtlTargets spaces₀ order) := by
  intro t
  rw [collectTtlTargets, mem_flatMap]
  constructor
  · rintro ⟨name, -, ht⟩
    split at ht
    · cases ht
    next ns hns =>
      have hname := targets_ns ht
      rw [hname]
      exact ⟨ns, hns, ht⟩
  · rintro ⟨ns, hns, ht⟩
    refine ⟨t.ns, horder.mem_iff.2 (mem_map.2 ⟨_, get?_eq_some_iff.1 hns, rfl⟩), ?_⟩
    rw [hns]
    exact ht

variable {targets : List TtlTarget}

/-- the namespace of the target at hand -/
theorem Left.at (h : Left env nowMillis done spaces₀ s.spaces) (hall : AllTargets spaces₀ targets)
    (hsweep : Sweepable env nowMillis spaces₀)
    (htargets : targets = done ++ t :: rest) : targets = (done ++ [t]) ++ rest ∧
      ∃ ns₀ ns, s.spaces.get? t.ns = some ns ∧ Swept env nowMillis done t.ns ns₀ ns ∧ Covers env nowMillis ns₀ t := by
  obtain ⟨ns₀, hns₀, ht⟩ := (hall t).1 (by rw [htargets]; simp)
  obtain ⟨ns, hns, hswept⟩ := h t.ns ns₀ hns₀
  exact ⟨by rw [htargets]; simp, ns₀, ns, hns, hswept, hsweep.covers _ _ hns₀ t ht⟩

section

variable (hall : AllTargets spaces₀ targets) (hsweep : Sweepable env nowMillis spaces₀) (hnow : s.now = nowMillis)
  (htargets : targets = done ++ t :: rest) (h : Left env nowMillis done spaces₀ s.spaces)

include hall hsweep hnow htargets h

theorem Progress.scan : Progress env nowMillis targets spaces₀ (s.scan env t rest) := by
  obtain ⟨hrest, ns₀, ns, hns, hswept, hcovers⟩ := h.at hall hsweep htargets
  unfold State.scan
  rw [hns]
  dsimp only
  cases hfind : find env ns t.scanFilter with
  | error e => exact ⟨hnow, trivial⟩
  | ok pairs =>
    dsimp only
    subst hnow
    have hids : ∀ key doc, s.doc? t.ns key = some doc →
        ((∃ id ∈ expiredIds t s.now (pairs.map Prod.snd), encodeKey id = key) ↔ Expired env s.now t doc) := by
      intro key doc hdoc
      rw [State.doc?_eq hns] at hdoc
      exact hswept.ids_iff hcovers hfind hdoc
    cases hcase : expiredIds t s.now (pairs.map Prod.snd) with
    | nil =>
      refine ⟨rfl, done ++ [t], hrest, h.skip fun key doc hdoc hexpired => ?_⟩
      obtain ⟨id, hid, -⟩ := (hids key doc hdoc).2 hexpired
      rw [hcase] at hid
      cases hid
    | cons id ids =>
      rw [hcase] at hids
      exact ⟨rfl, done, htargets, h, hids⟩

theorem Progress.select {ids : List Bson}
    (hids : ∀ key doc, s.doc? t.ns key = some doc → ((∃ id ∈ ids, encodeKey id = key) ↔ Expired env nowMillis t doc)) :
    Progress env nowMillis targets spaces₀ (s.select env t ids rest) := by
  obtain ⟨hrest, ns₀, ns, hns, hswept, hcovers⟩ := h.at hall hsweep htargets
  unfold State.select
  rw [hns]
  dsimp only
  cases hselect : collectMutationCandidates env ns (deleteFilter ids) with
  | error e => exact ⟨hnow, trivial⟩
  | ok pairs =>
    have hpairs : ∀ key doc, s.doc? t.ns key = some doc →
        ((∃ p ∈ pairs, p.1.1 = key) ↔ Expired env nowMillis t doc) := by
      intro key doc hdoc
      rw [← hids key doc hdoc]
      rw [State.doc?_eq hns] at hdoc
      constructor
      · rintro ⟨p, hp, rfl⟩
        exact ((mem_candidates hselect).1 hp).2.2
      · intro hid
        exact ⟨((key, doc), ns.head key), (mem_candidates hselect).2 ⟨get?_eq_some_iff.1 hdoc, rfl, hid⟩, rfl⟩
    cases pairs with
    | nil =>
      refine ⟨hnow, done ++ [t], hrest, h.skip fun key doc hdoc hexpired => ?_⟩
      obtain ⟨p, hp, -⟩ := (hpairs key doc hdoc).2 hexpired
      cases hp
    | cons p pairs =>
      refine ⟨hnow, done, htargets, h, fun q hq => ?_, hpairs⟩
      exact (State.doc?_eq hns q.1.1).trans (get?_eq_some_iff.2 ((mem_candidates hselect).1 hq).1)

theorem Progress.commit {pairs : List (Pair × ℕ)} (hcurrent : ∀ p ∈ pairs, s.doc? t.ns p.1.1 = some p.1.2)
    (hpairs : ∀ key doc, s.doc? t.ns key = some doc → ((∃ p ∈ pairs, p.1.1 = key) ↔ Expired env nowMillis t doc))
    {missed : List Bytes} :
    Progress env nowMillis targets spaces₀ (s.commit env t pairs rest missed) := by
  obtain ⟨hrest, ns₀, ns, hns, hswept, hcovers⟩ := h.at hall hsweep htargets
  simp only [State.doc?_eq hns] at hcurrent hpairs
  unfold State.commit
  rw [hns]
  dsimp only
  cases hmaintain : maintainAll env pairs ns.indexes with
  | error e => exact ⟨hnow, trivial⟩
  | ok indexes =>
    split_ifs
    · refine ⟨hnow, done ++ [t], hrest, fun name ns₁ hns₁ => ?_⟩
      rw [get?_insert]
      obtain ⟨ns', hns', hswept'⟩ := h name ns₁ hns₁
      split_ifs with hname
      · subst hname
        obtain rfl : ns = ns' := Option.some.inj (hns.symm.trans hns')
        exact ⟨_, rfl, hswept'.remove rfl (fun p hp => get?_eq_some_iff.1 (hcurrent p hp)) hpairs hmaintain⟩
      · exact ⟨ns', hns', hswept'.skip fun h => absurd h.symm hname⟩
    · exact ⟨hnow, trivial⟩

end

/-- whether an action is one of the sweep -/
def Act.isSweep : Act → Bool
  | .other _ _ => false
  | _ => true

theorem step_progress {a : Act} (hall : AllTargets spaces₀ targets) (hsweep : Sweepable env nowMillis spaces₀)
    (h : Progress env nowMillis targets spaces₀ s) (ha : a.isSweep = true) (hstep : step env s a = some s') :
    Progress env nowMillis targets spaces₀ s' := by
  obtain ⟨hnow, hphase⟩ := h
  cases a with rw [step] at hstep
  | other name ns => cases ha
  | start nowMillis' order =>
    split at hstep
    next hidle =>
      rw [hidle] at hphase
      exact hphase.elim
    · cases hstep
  | scan =>
    split at hstep
    next hnext =>
      rw [hnext] at hphase
      obtain ⟨done, htargets, hleft⟩ := hphase
      cases hstep
      rw [append_nil] at htargets
      exact ⟨hnow, htargets ▸ hleft⟩
    next hnext =>
      rw [hnext] at hphase
      obtain ⟨done, htargets, hleft⟩ := hphase
      cases hstep
      exact Progress.scan hall hsweep hnow htargets hleft
    · cases hstep
  | select =>
    split at hstep
    next hscanned =>
      rw [hscanned] at hphase
      obtain ⟨done, htargets, hleft, hids⟩ := hphase
      cases hstep
      exact Progress.select hall hsweep hnow htargets hleft hids
    · cases hstep
  | commit missed =>
    split at hstep
    next hselected =>
      rw [hselected] at hphase
      obtain ⟨done, htargets, hleft, hcurrent, hpairs⟩ := hphase
      cases hstep
      exact Progress.commit hall hsweep hnow htargets hleft hcurrent hpairs
    · cases hstep
  | fail =>
    cases hstep
    exact ⟨hnow, trivial⟩

end Alone

/-- **The sweep.** Along every run in which no other writer leaves a fresh document in the place of one that the sweep
has collected, what is removed has expired. In a run of the sweep alone, to its end, exactly the expired documents are
removed. -/
theorem sweep_removes_expired (env : Env) (s : State) (hidle : s.phase = .idle) (hnone : s.removed = []) :
    (∀ acts t, run (step env) s acts = some t → Along (step env) (KeepsExpired env) s acts →
      ∀ r ∈ t.removed, Expired env t.now r.1 r.2) ∧
    ∀ nowMillis order acts t, run (step env) s (.start nowMillis order :: acts) = some t →
      (∀ a ∈ acts, a.isSweep = true) → t.phase = .done → Sweepable env nowMillis s.spaces →
      ∀ name ns, s.spaces.get? name = some ns → ∃ ns', t.spaces.get? name = some ns' ∧
        ∀ key doc, ns'.coll.docs.get? key = some doc ↔
          ns.coll.docs.get? key = some doc ∧ ∀ target ∈ ns.targets name, ¬ Expired env nowMillis target doc := by
  constructor
  · intro acts t hrun halong
    have hsafe : Safe env s := by
      refine ⟨fun _ => hnone, fun r hr => ?_, fun t key doc hawaits => ?_⟩
      · rw [hnone] at hr
        cases hr
      · rw [hidle] at hawaits
        cases hawaits
    exact (run_invariant (fun _ _ _ hI hC hstep => step_safe hI hC hstep) hsafe halong hrun).removed
  · intro nowMillis order acts t hrun hacts hdone hsweep name ns hns
    obtain ⟨s₁, hstart, hrun⟩ := run_cons_some hrun
    rw [step, hidle] at hstart
    split_ifs at hstart with horder
    cases hstart
    have hall := allTargets_collect horder
    have hleft : Left env nowMillis [] s.spaces s.spaces := by
      intro name ns hns
      exact ⟨ns, hns, fun key doc => by simp, rfl, hsweep.image name ns hns⟩
    have hfirst : Progress env nowMillis (collectTtlTargets s.spaces order) s.spaces
        { s with now := nowMillis, phase := .next (collectTtlTargets s.spaces order) } := ⟨rfl, [], rfl, hleft⟩
    obtain ⟨-, hprogress⟩ := run_invariant (fun _ _ _ hI hC hstep => step_progress hall hsweep hI hC.2 hstep) hfirst
      ((along_true _ acts).and_mem hacts) hrun
    rw [hdone] at hprogress
    obtain ⟨ns', hns', hswept⟩ := hprogress name ns hns
    refine ⟨ns', hns', fun key doc => ?_⟩
    rw [hswept.docs]
    refine and_congr_right fun _ => ⟨fun h target ht => ?_, fun h target ht hname => ?_⟩
    · have hname := targets_ns ht
      exact h target ((hall target).2 ⟨ns, hname ▸ hns, hname ▸ ht⟩) hname
    · obtain ⟨ns₁, hns₁, ht⟩ := (hall target).1 ht
      rw [hname] at hns₁ ht
      obtain rfl : ns = ns₁ := Option.some.inj (hns.symm.trans hns₁)
      exact h target ht

/-! ## Two documents -/

/-- the date in a field -/
def dated (id : Int32) (field : Bson) : Document := [("_id", .int32 id), ("a", field)]

def twoDated (first second : Bson) : Collection where
  docs := ⟨[(encodeKey (.int32 1), dated 1 first), (encodeKey (.int32 2), dated 2 second)], by simp; decide⟩
  keyed := by simp [dated, Document.get]

/-- a TTL index of one minute -/
def minuteIndex (path : String) (sparse : Bool) (keys : Entries) : PublishedIndex where
  entry := ⟨"ttl", [(path, .int32 1)], false, sparse, none⟩
  entries := keys
  ready := true
  expireAfterSeconds := some 60

def idleWith (ns : Namespace) : State := ⟨OrdMap.empty.insert "app.events" ns, 0, .idle, 0, []⟩

def datedKey (id : Int32) (date : Int64) : Bytes := encodeCompoundKey [(.dateTime date, true), (.int32 id, true)]

def datedEntries (first second : Int64) : Entries :=
  (OrdMap.empty.insert (datedKey 1 first) (.int32 1)).insert (datedKey 2 second) (.int32 2)

/-- the versions of the two documents, and their dates -/
def events (version₁ version₂ : ℕ) (first second : Int64) : Namespace where
  coll := twoDated (.dateTime first) (.dateTime second)
  head key := if key = encodeKey (.int32 1) then version₁ else version₂
  indexes := [minuteIndex "a" false (datedEntries first second)]

/-- the first document has expired at 1000000, the second has not -/
def oldEvents : Namespace := events 0 0 0 999998

theorem getNestedField_dated (id : Int32) (field : Bson) : getNestedField (dated id field) "a" = some field := by
  have hsegments : segments "a" = ["a"] := by decide
  rfl

theorem not_expired_dated {id : Int32} {date nowMillis : Int64} {t : TtlTarget} {env : Env} (hfield : t.field = "a")
    (h : valueIsExpired (.dateTime date) (t.cutoffMillis nowMillis) = false) :
    ¬ Expired env nowMillis t (dated id (.dateTime date)) := by
  rintro ⟨⟨value, hvalue, hdate⟩, -⟩
  rw [hfield] at hvalue
  obtain rfl := Option.some.inj ((getNestedField_dated _ _).symm.trans hvalue)
  rw [valueIsExpired_iff.2 hdate] at h
  cases h

theorem idleWith_get? {name : String} {ns ns' : Namespace} (h : (idleWith ns).spaces.get? name = some ns') :
    name = "app.events" ∧ ns' = ns := by
  rw [idleWith, get?_insert] at h
  split_ifs at h with hname
  · exact ⟨hname, (Option.some.inj h).symm⟩
  · cases h

theorem oldEvents_sweepable : Sweepable noLibraries 1000000 (idleWith oldEvents).spaces where
  image := by
    intro name ns hns i hi
    obtain ⟨-, rfl⟩ := idleWith_get? hns
    obtain rfl := mem_singleton.1 hi
    exact isImage_of_entries rfl
  covers := by
    intro name ns hns t ht
    obtain ⟨rfl, rfl⟩ := idleWith_get? hns
    obtain rfl : t = ⟨"app.events", "a", 60, none⟩ := mem_singleton.1 ht
    refine ⟨by decide, fun indexName field condition hplan idx hfind key doc hdoc _ => ?_⟩
    have hany : selectPlan (existsFilter "a") (oldEvents.readyIndexes.map fun idx => idx.entry.planned) =
        .indexScan "ttl" "a" .any := rfl
    obtain ⟨rfl, rfl, rfl⟩ := ScanPlan.indexScan.inj (hany.symm.trans hplan)
    obtain rfl :=
      Option.some.inj (hfind.symm.trans (rfl : _ = some (minuteIndex "a" false (datedEntries 0 999998)).toReadyIndex))
    rcases mem_pair.1 (get?_eq_some_iff.1 hdoc) with hdoc | hdoc <;> obtain ⟨-, rfl⟩ := Prod.mk.inj hdoc <;>
      exact ⟨_, mem_singleton_self _, _, mem_singleton_self _, decide_eq_true (within_unbounded _)⟩

/-- another writer updates the second document between the scan and the deletion -/
def besideWriter : List Act :=
  [.start 1000000 ["app.events"], .scan, .other "app.events" (events 0 1 0 999999), .select, .commit [], .scan]

/-- the only expired document is removed, beside another writer too -/
theorem sweep_removes_old : (idleWith oldEvents).phase = .idle ∧ (idleWith oldEvents).removed = [] ∧
    (∃ t, run (step noLibraries) (idleWith oldEvents) besideWriter = some t ∧ t.phase = .done ∧ t.removed.length = 1 ∧
      ∀ r ∈ t.removed, Expired noLibraries t.now r.1 r.2) ∧
    ∃ t ns, run (step noLibraries) (idleWith oldEvents) [.start 1000000 ["app.events"], .scan, .select, .commit [],
      .scan] = some t ∧ t.spaces.get? "app.events" = some ns ∧ ns.coll.docs.get? (encodeKey (.int32 1)) = none ∧
      ns.coll.docs.get? (encodeKey (.int32 2)) = some (dated 2 (.dateTime 999998)) := by
  have hsweep := sweep_removes_expired noLibraries (idleWith oldEvents) rfl rfl
  refine ⟨rfl, rfl, ⟨_, rfl, rfl, rfl, hsweep.1 besideWriter _ rfl ?_⟩, ?_⟩
  · refine .cons trivial rfl (.cons trivial rfl
      (.cons ?_ rfl (.cons trivial rfl (.cons trivial rfl (.cons trivial rfl trivial)))))
    -- the collected document is as it was
    rintro t key doc ⟨-, id, hid, rfl⟩ - hdoc
    obtain rfl := mem_singleton.1 hid
    exact .inl hdoc
  · obtain ⟨ns, hns, hdocs⟩ := hsweep.2 1000000 ["app.events"] [.scan, .select, .commit [], .scan] _ rfl (by decide) rfl
      oldEvents_sweepable "app.events" oldEvents rfl
    refine ⟨_, ns, rfl, hns, eq_none_iff_forall_ne_some.2 fun doc hdoc => ?_, (hdocs _ _).2 ⟨rfl, fun target ht => ?_⟩⟩
    · obtain ⟨hold, hfresh⟩ := (hdocs _ doc).1 hdoc
      obtain rfl := Option.some.inj ((rfl : _ = some (dated 1 (.dateTime 0))).symm.trans hold)
      exact hfresh _ (mem_singleton_self _)
        ⟨⟨_, getNestedField_dated _ _, 0, by decide, .inl rfl⟩, fun _ h => (by cases h)⟩
    · obtain rfl := mem_singleton.1 ht
      exact not_expired_dated rfl (by decide)

/-- the date is refreshed between the scan and the deletion -/
theorem sweep_removes_fresh : ∃ t r, run (step noLibraries) (idleWith oldEvents)
      [.start 1000000 ["app.events"], .scan, .other "app.events" (events 1 0 999999 999998), .select, .commit [],
        .scan] = some t ∧
    t.phase = .done ∧ r ∈ t.removed ∧ ¬ Expired noLibraries t.now r.1 r.2 :=
  ⟨_, (⟨"app.events", "a", 60, none⟩, dated 1 (.dateTime 999999)), rfl, rfl, mem_singleton.2 rfl,
    not_expired_dated rfl (by decide)⟩

end Mqlite.PagedEngine.Ttl
