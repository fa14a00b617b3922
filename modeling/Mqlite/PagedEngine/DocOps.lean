/-
Document operations on one collection (`storage/paged_engine/doc_ops.rs`, `btree_ops.rs`, `doc_helpers.rs`,
`validation.rs`).

A collection is its primary tree: encoded keys with documents. Inserts encode the key of the document's `_id`. Updates
and replacements write the new document under the key the old one was found with, and trust that the `_id` is still the
same; a pipeline update and a replacement check it, an operator update does not.

An operation comes with what it gets from elsewhere: the keys that the plan of its filter has found (in the order of the
sort, where there is one), the clock, and the ObjectId generator's next value. A key without a document is answered as
the engine does when the selected version is gone. Secondary indexes are left out: maintaining them stages other writes
or rejects the operation.

Result: `primary_keys_agree`. In every run in which no operator update on an existing document writes a path below
`_id`, every document is stored under the key of its `_id`. An update to `_id.x` breaks that (`id_below_key`), and so
does a `$rename` to it.
-/
import Mqlite.Lib.OrdMap
import Mqlite.Lib.Run
import Mqlite.Update.Ids

namespace Mqlite.PagedEngine

open Lib Mvcc Keys Update List

inductive DocError where
  | duplicateKey (detail : String)
  | documentValidationFailure (detail : String)
  | documentTooLarge (size max : ℕ)
  | writeConflict
  | internal (message : String)
  | update (e : UpdateError)
deriving DecidableEq, Repr

/-- the libraries, the aggregation engine on one document, and the length of a document's BSON bytes -/
structure DocEnv where
  libraries : Update.Env
  pipeline : Document → List Document → Except UpdateError Document
  size : Document → ℕ

variable (env : DocEnv)

/-! ## Validation -/

def MAX_DOCUMENT_SIZE : ℕ := 16777216

def MAX_NESTING_DEPTH : ℕ := 100

def MAX_FIELD_COUNT : ℕ := 10000

def MAX_FIELD_NAME_LEN : ℕ := 1024

mutual

/-- the loop of `validate_doc_recursive`; the result is the number of fields so far -/
def validateFields : List (String × Bson) → ℕ → ℕ → Except DocError ℕ
  | [], _, count => .ok count
  | (name, v) :: rest, depth, count =>
    if name.utf8ByteSize > MAX_FIELD_NAME_LEN || name.toList.contains '\x00' then
      .error (.documentValidationFailure "field name too long or contains null byte")
    else if count + 1 > MAX_FIELD_COUNT then .error (.documentValidationFailure "field count exceeds maximum (10000)")
    else do
      let count ← validateValue v (depth + 1) (count + 1)
      validateFields rest depth count
termination_by structural fields => fields

def validateValue : Bson → ℕ → ℕ → Except DocError ℕ
  | .document fields, depth, count =>
    if depth > MAX_NESTING_DEPTH then .error (.documentValidationFailure "maximum nesting depth (100) exceeded")
    else validateFields fields depth count
  | .array elems, depth, count => validateElems elems (depth + 1) count
  | _, _, count => .ok count
termination_by structural v => v

def validateElems : List Bson → ℕ → ℕ → Except DocError ℕ
  | [], _, count => .ok count
  | v :: rest, depth, count => do
    let count ← validateValue v depth count
    validateElems rest depth count
termination_by structural elems => elems

end

def validateDocument (doc : Document) : Except DocError Unit := do
  let _ ← validateFields doc 0 0
  if env.size doc > MAX_DOCUMENT_SIZE then .error (.documentTooLarge (env.size doc) MAX_DOCUMENT_SIZE) else .ok ()

/-! ## Operations -/

/-- an update document or an aggregation pipeline -/
inductive UpdateModifications where
  | document (update : Document)
  | pipeline (stages : List Document)

/-- what an update is given besides its candidates -/
structure UpdateArgs where
  filter : Document
  mods : UpdateModifications
  arrayFilters : Option (List Document)
  upsert : Bool
  nowMs : Int64
  oid : ObjectId

inductive DocOp where
  | insert (doc : Document) (oid : ObjectId)
  | update (keys : List Key) (many : Bool) (args : UpdateArgs)
  | findOneAndUpdate (key : Option Key) (args : UpdateArgs)
  | findOneAndReplace (key : Option Key) (replacement : Document) (upsert : Bool) (oid : ObjectId)
  | replaceOne (key : Option Key) (filter replacement : Document) (upsert : Bool) (oid : ObjectId)
  | delete (keys : List Key)

/-- a primary tree -/
abbrev Coll := OrdMap Key Document

/-- an ObjectId is generated for a document without `_id` -/
def ensureId (doc : Document) (oid : ObjectId) : Document × Bson :=
  match doc.get "_id" with
  | some id => (doc, id)
  | none => (doc.insert "_id" (.objectId oid), .objectId oid)

/-- `prepare_insert_document`, and the write it is made for -/
def stageInsert (coll : Coll) (doc : Document) (oid : ObjectId) : Except DocError Coll := do
  validateDocument env doc
  let (doc, id) := ensureId doc oid
  if (coll.get? (encodeKey id)).isSome then .error (.duplicateKey "document with _id already exists")
  else .ok (coll.insert (encodeKey id) doc)

/-- the documents under the keys -/
def candidates (coll : Coll) (keys : List Key) : Except DocError (List (Key × Document)) :=
  keys.mapM fun key =>
    match coll.get? key with
    | some doc => .ok (key, doc)
    | none => .error .writeConflict

def applyModifications (doc : Document) (args : UpdateArgs) (isInsert : Bool) : Except DocError Document :=
  match args.mods with
  | .document update =>
    (applyUpdate env.libraries args.nowMs doc update args.filter args.arrayFilters isInsert).mapError .update
  | .pipeline stages => (applyUpdatePipeline env.pipeline doc stages).mapError .update

def upsertForUpdate (coll : Coll) (args : UpdateArgs) : Except DocError Coll := do
  let base := upsertBaseFromFilter env.libraries args.filter
  let doc ← applyModifications env base args true
  stageInsert env coll doc args.oid

/-- here the `_id` is generated before the document is validated -/
def upsertForFindOneAndUpdate (coll : Coll) (args : UpdateArgs) : Except DocError Coll := do
  let base := upsertBaseFromFilter env.libraries args.filter
  let doc ← applyModifications env base args true
  stageInsert env coll (ensureId doc args.oid).1 args.oid

/-- an update document has operators -/
def requireOperators (message : String) : UpdateModifications → Except DocError Unit
  | .document update => if isOperatorUpdate update then .ok () else .error (.internal message)
  | .pipeline _ => .ok ()

def rejectNonOperatorUpdate : UpdateModifications → Except DocError Unit :=
  requireOperators ("update requires an operator update document (e.g. \x7b$set: \x7b...\x7d\x7d); " ++
    "use find_one_and_replace for replacements")

/-- one document of an update; an unchanged one is not written -/
def updateOne (args : UpdateArgs) (coll : Coll) (pair : Key × Document) : Except DocError Coll := do
  let doc ← applyModifications env pair.2 args false
  .ok (if Bson.same (.document doc) (.document pair.2) then coll else coll.insert pair.1 doc)

def update (coll : Coll) (keys : List Key) (many : Bool) (args : UpdateArgs) : Except DocError Coll := do
  rejectNonOperatorUpdate args.mods
  let pairs ← candidates coll keys
  if pairs.isEmpty && args.upsert then upsertForUpdate env coll args
  else (if many then pairs else pairs.take 1).foldlM (updateOne env args) coll

def findOneAndUpdate (coll : Coll) (key : Option Key) (args : UpdateArgs) : Except DocError Coll := do
  requireOperators "find_one_and_update requires an operator update document" args.mods
  let pairs ← candidates coll key.toList
  match pairs with
  | [] => if args.upsert then upsertForFindOneAndUpdate env coll args else .ok coll
  | (key, before) :: _ => do
    let doc ← applyModifications env before args false
    .ok (coll.insert key doc)

def findOneAndReplace (coll : Coll) (key : Option Key) (replacement : Document) (upsert : Bool) (oid : ObjectId) :
    Except DocError Coll := do
  let pairs ← candidates coll key.toList
  match pairs with
  | [] => if upsert then stageInsert env coll (ensureId replacement oid).1 oid else .ok coll
  | (oldKey, oldDoc) :: _ => do
    let newDoc := replacement.insert "_id" ((oldDoc.get "_id").getD .null)
    validateDocument env newDoc
    .ok (coll.insert oldKey newDoc)

def rejectReplacementOperators (replacement : Document) : Except DocError Unit :=
  if replacement.any fun p => startsWithDollar p.1 then
    .error (.documentValidationFailure "replacement document must not contain update operators")
  else .ok ()

/-- the `_id` of the replacement, else one from the filter, else a generated one -/
def replaceUpsertInsert (coll : Coll) (filter replacement : Document) (oid : ObjectId) : Except DocError Coll :=
  let doc := match replacement.get "_id", (upsertBaseFromFilter env.libraries filter).get "_id" with
    | none, some id => replacement.insert "_id" id
    | _, _ => replacement
  stageInsert env coll (ensureId doc oid).1 oid

/-- a replacement keeps the `_id` of the document it replaces -/
def keepId (replacement : Document) (originalId : Bson) : Except DocError Document :=
  match replacement.get "_id" with
  | none => .ok (replacement.insert "_id" originalId)
  | some replacementId =>
    if idsEqual replacementId originalId then .ok replacement
    else .error (.documentValidationFailure "replacement _id differs from the matched document _id; _id is immutable")

def replaceOne (coll : Coll) (key : Option Key) (filter replacement : Document) (upsert : Bool) (oid : ObjectId) :
    Except DocError Coll := do
  rejectReplacementOperators replacement
  let pairs ← candidates coll key.toList
  match pairs with
  | [] => if upsert then replaceUpsertInsert env coll filter replacement oid else .ok coll
  | (oldKey, oldDoc) :: _ => do
    let newDoc ← keepId replacement ((oldDoc.get "_id").getD .null)
    validateDocument env newDoc
    .ok (coll.insert oldKey newDoc)

def delete (coll : Coll) (keys : List Key) : Except DocError Coll := do
  let pairs ← candidates coll keys
  .ok (pairs.foldl (fun coll pair => coll.erase pair.1) coll)

def DocOp.exec (coll : Coll) : DocOp → Except DocError Coll
  | .insert doc oid => stageInsert env coll doc oid
  | .update keys many args => PagedEngine.update env coll keys many args
  | .findOneAndUpdate key args => PagedEngine.findOneAndUpdate env coll key args
  | .findOneAndReplace key replacement upsert oid => PagedEngine.findOneAndReplace env coll key replacement upsert oid
  | .replaceOne key filter replacement upsert oid => PagedEngine.replaceOne env coll key filter replacement upsert oid
  | .delete keys => PagedEngine.delete coll keys

/-- an operation that the engine accepts -/
def DocOp.step (coll : Coll) (op : DocOp) : Option Coll := (op.exec env coll).toOption

/-! ## Keys and `_id`s -/

/-- every document is stored under the key of its `_id` -/
def KeysAgree (coll : Coll) : Prop :=
  ∀ key doc, coll.get? key = some doc → ∃ id, doc.get "_id" = some id ∧ encodeKey id = key

/-- an operator update writes no path below `_id` -/
def UpdateModifications.guarded : UpdateModifications → Bool
  | .document update => (writtenPaths false update).all fun path => !underId path
  | .pipeline _ => true

/-- an update of documents that are there -/
def DocOp.guarded : DocOp → Bool
  | .update keys _ args => keys.isEmpty || args.mods.guarded
  | .findOneAndUpdate key args => key.isNone || args.mods.guarded
  | _ => true

/-- what an operation writes: a document that is new, under the key of its `_id`; what an update makes of a stored one;
a replacement with the `_id` of the stored one. `checked` are the upserts that have their `_id` before they are
checked. -/
inductive Writes (coll : Coll) : DocOp → Key → Document → Prop
  | insert {doc : Document} {oid : ObjectId} (hvalid : validateDocument env doc = .ok ()) :
    Writes coll (.insert doc oid) (encodeKey (ensureId doc oid).2) (ensureId doc oid).1
  | upsert {many : Bool} {args : UpdateArgs} {doc : Document} (hup : args.upsert = true)
    (hdoc : applyModifications env (upsertBaseFromFilter env.libraries args.filter) args true = .ok doc)
    (hvalid : validateDocument env doc = .ok ()) :
    Writes coll (.update [] many args) (encodeKey (ensureId doc args.oid).2) (ensureId doc args.oid).1
  | checked {op : DocOp} {doc : Document} {id : Bson} (hid : doc.get "_id" = some id)
    (hvalid : validateDocument env doc = .ok ()) :
    Writes coll op (encodeKey id) doc
  | updated {keys : List Key} {key : Key} {many : Bool} {args : UpdateArgs} {old doc : Document}
    (hkey : key ∈ if many then keys else keys.take 1) (hold : coll.get? key = some old)
    (hdoc : applyModifications env old args false = .ok doc) : Writes coll (.update keys many args) key doc
  | updatedOne {key : Key} {args : UpdateArgs} {old doc : Document} (hold : coll.get? key = some old)
    (hdoc : applyModifications env old args false = .ok doc) : Writes coll (.findOneAndUpdate (some key) args) key doc
  | replaced {op : DocOp} {key : Key} {old doc : Document} (hold : coll.get? key = some old)
    (hvalid : validateDocument env doc = .ok ())
    (hid : ∀ id, old.get "_id" = some id → ∃ id', doc.get "_id" = some id' ∧ encodeKey id' = encodeKey id) :
    Writes coll op key doc

section Writes

variable {env : DocEnv} {coll coll' c : Coll} {key : Key} {keys : List Key} {doc doc' old : Document} {id : Bson}
  {oid : ObjectId} {args : UpdateArgs} {pairs : List (Key × Document)} {many : Bool} {op : DocOp}
  {W : Key → Document → Prop}

/-- every document is an old one or one of W -/
def Changed (W : Key → Document → Prop) (coll coll' : Coll) : Prop :=
  ∀ key doc, coll'.get? key = some doc → coll.get? key = some doc ∨ W key doc

theorem Changed.refl : Changed W coll coll := fun _ _ => .inl

theorem Changed.insert (h : Changed W coll c) (hw : W key doc) : Changed W coll (c.insert key doc) := by
  intro k d hget
  rw [OrdMap.get?_insert] at hget
  split_ifs at hget with heq
  · cases hget
    exact .inr (heq ▸ hw)
  · exact h k d hget

theorem ensureId_get (doc : Document) (oid : ObjectId) :
    (ensureId doc oid).1.get "_id" = some (ensureId doc oid).2 := by
  unfold ensureId
  split
  · assumption
  · exact doc.get_insert_self _

theorem stageInsert_changed
    (hw : validateDocument env doc = .ok () → W (encodeKey (ensureId doc oid).2) (ensureId doc oid).1)
    (hok : stageInsert env coll doc oid = .ok coll') : Changed W coll coll' := by
  obtain ⟨_, hvalid, hok⟩ := bind_eq_ok hok
  dsimp only at hok
  split_ifs at hok
  cases hok
  exact Changed.refl.insert (hw hvalid)

/-- an insert of a document that has got its `_id` already -/
theorem stageInsert_ensureId_changed (hok : stageInsert env coll (ensureId doc oid).1 oid = .ok coll') :
    Changed (Writes env coll op) coll coll' := by
  refine stageInsert_changed (fun hvalid => ?_) hok
  have hid := ensureId_get doc oid
  have hagain : ensureId (ensureId doc oid).1 oid = ensureId doc oid := by
    conv_lhs => rw [ensureId, hid]
  rw [hagain]
  exact .checked hid hvalid

theorem candidates_stored (h : candidates coll keys = .ok pairs) :
    pairs.map Prod.fst = keys ∧ ∀ p ∈ pairs, coll.get? p.1 = some p.2 := by
  induction keys generalizing pairs with
  | nil =>
    cases h
    simp
  | cons key keys ih =>
    rw [candidates, mapM_cons] at h
    obtain ⟨pair, hpair, h⟩ := bind_eq_ok h
    obtain ⟨rest, hrest, h⟩ := bind_eq_ok h
    cases h
    obtain ⟨hkeys, hstored⟩ := ih hrest
    split at hpair <;> cases hpair
    exact ⟨by rw [map_cons, hkeys], forall_mem_cons.2 ⟨‹_›, hstored⟩⟩

theorem updateAll_changed (hw : ∀ p ∈ pairs, ∀ doc, applyModifications env p.2 args false = .ok doc → W p.1 doc)
    (hok : pairs.foldlM (updateOne env args) coll = .ok coll') : Changed W coll coll' := by
  refine foldlM_invariant (fun p hp c c' hc hstep => ?_) Changed.refl hok
  obtain ⟨doc, hdoc, hstep⟩ := bind_eq_ok hstep
  cases hstep
  split_ifs
  · exact hc
  · exact hc.insert (hw p hp doc hdoc)

theorem update_changed (hok : update env coll keys many args = .ok coll') :
    Changed (Writes env coll (.update keys many args)) coll coll' := by
  obtain ⟨-, -, hok⟩ := bind_eq_ok hok
  obtain ⟨pairs, hpairs, hok⟩ := bind_eq_ok hok
  obtain ⟨hkeys, hstored⟩ := candidates_stored hpairs
  split_ifs at hok with hupsert hmany
  · obtain ⟨hempty, hup⟩ := Bool.and_eq_true_iff.1 hupsert
    rw [← hkeys, isEmpty_iff.1 hempty]
    obtain ⟨doc, hdoc, hok⟩ := bind_eq_ok hok
    exact stageInsert_changed (.upsert hup hdoc) hok
  · refine updateAll_changed (fun p hp doc => .updated ?_ (hstored p hp)) hok
    rw [if_pos hmany, ← hkeys]
    exact mem_map_of_mem hp
  · refine updateAll_changed (fun p hp doc => .updated ?_ (hstored p (mem_of_mem_take hp))) hok
    rw [if_neg hmany, ← hkeys, ← map_take]
    exact mem_map_of_mem hp

/-- the operations on one document: it is replaced, or there is none -/
theorem one_changed {key : Option Key} {none : Except DocError Coll} {some : Key → Document → Except DocError Coll}
    (hok : (candidates coll key.toList >>= fun pairs => match pairs with
      | [] => none
      | (key, doc) :: _ => some key doc) = .ok coll') (hnone : none = .ok coll' → Changed W coll coll')
    (hsome : ∀ k doc, key = Option.some k → coll.get? k = Option.some doc → some k doc = .ok coll' →
      Changed W coll coll') :
    Changed W coll coll' := by
  obtain ⟨pairs, hpairs, hok⟩ := bind_eq_ok hok
  obtain ⟨hkeys, hstored⟩ := candidates_stored hpairs
  cases pairs with
  | nil => exact hnone hok
  | cons pair rest =>
    refine hsome pair.1 pair.2 ?_ (hstored pair mem_cons_self) hok
    cases key with
    | none => cases hkeys
    | some k => exact congrArg Option.some (List.cons.inj hkeys).1.symm

/-- **Writes.** After an accepted operation every document is an old one or one that the operation writes. -/
theorem exec_changed (hok : op.exec env coll = .ok coll') : Changed (Writes env coll op) coll coll' := by
  cases op with
  | insert doc oid => exact stageInsert_changed .insert hok
  | update keys many args => exact update_changed hok
  | findOneAndUpdate key args =>
    obtain ⟨-, -, hok⟩ := bind_eq_ok hok
    refine one_changed hok (fun hok => ?_) fun k old hkey hold hok => ?_
    · split_ifs at hok
      · obtain ⟨doc, -, hok⟩ := bind_eq_ok hok
        exact stageInsert_ensureId_changed hok
      · cases hok
        exact Changed.refl
    · obtain ⟨doc, hdoc, hok⟩ := bind_eq_ok hok
      cases hok
      exact Changed.refl.insert (hkey ▸ .updatedOne hold hdoc)
  | findOneAndReplace key replacement upsert oid =>
    refine one_changed hok (fun hok => ?_) fun k old hkey hold hok => ?_
    · split_ifs at hok
      · exact stageInsert_ensureId_changed hok
      · cases hok
        exact Changed.refl
    · obtain ⟨_, hvalid, hok⟩ := bind_eq_ok hok
      cases hok
      refine Changed.refl.insert (.replaced hold hvalid fun id hid => ⟨id, ?_, rfl⟩)
      rw [hid]
      exact Document.get_insert_self ..
  | replaceOne key filter replacement upsert oid =>
    obtain ⟨-, -, hok⟩ := bind_eq_ok hok
    refine one_changed hok (fun hok => ?_) fun k old hkey hold hok => ?_
    · split_ifs at hok
      · exact stageInsert_ensureId_changed hok
      · cases hok
        exact Changed.refl
    · obtain ⟨doc, hdoc, hok⟩ := bind_eq_ok hok
      obtain ⟨_, hvalid, hok⟩ := bind_eq_ok hok
      cases hok
      refine Changed.refl.insert (.replaced hold hvalid fun id hid => ?_)
      rw [hid, keepId] at hdoc
      split at hdoc
      · cases hdoc
        exact ⟨id, Document.get_insert_self .., rfl⟩
      · rename_i replacementId hid'
        split_ifs at hdoc with hsame
        cases hdoc
        exact ⟨replacementId, hid', of_decide_eq_true hsame⟩
  | delete keys =>
    obtain ⟨pairs, -, hok⟩ := bind_eq_ok hok
    cases hok
    refine List.foldlRecOn pairs _ Changed.refl fun c hc p _ k d hget => hc k d ?_
    rw [OrdMap.get?_erase] at hget
    split_ifs at hget
    exact hget

theorem DocOp.exec_of_step {op : DocOp} (hstep : op.step env coll = some coll') : op.exec env coll = .ok coll' := by
  rw [DocOp.step] at hstep
  cases hexec : op.exec env coll with
  | error e =>
    rw [hexec] at hstep
    cases hstep
  | ok c =>
    rw [hexec] at hstep
    cases hstep
    rfl

/-- a pipeline update checks the `_id` -/
theorem applyUpdatePipeline_keeps_key {stages : List Document} (hid : doc.get "_id" = some id)
    (h : applyUpdatePipeline env.pipeline doc stages = .ok doc') :
    ∃ id', doc'.get "_id" = some id' ∧ encodeKey id' = encodeKey id := by
  obtain ⟨-, -, h⟩ := bind_eq_ok h
  obtain ⟨result, -, h⟩ := bind_eq_ok h
  rw [hid] at h
  split at h
  · rename_i original newId horiginal hnew
    cases horiginal
    split_ifs at h with hsame
    cases h
    exact ⟨newId, hnew, (of_decide_eq_true hsame).symm⟩
  · rename_i original horiginal hnew
    cases horiginal
    cases h
    exact ⟨id, by simp [insertIdFirst, Document.get], rfl⟩
  · rename_i hnone
    cases hnone

theorem applyModifications_keeps_key (hguard : args.mods.guarded = true) (hid : doc.get "_id" = some id)
    (h : applyModifications env doc args false = .ok doc') :
    ∃ id', doc'.get "_id" = some id' ∧ encodeKey id' = encodeKey id := by
  unfold applyModifications at h
  split at h
  · rename_i update hmods
    rw [hmods, UpdateModifications.guarded, all_eq_true] at hguard
    refine ⟨id, ?_, rfl⟩
    rw [applyUpdate_keeps_id (fun path hpath => by simpa using hguard path hpath) (mapError_ok h), hid]
  · exact applyUpdatePipeline_keeps_key hid (mapError_ok h)

/-- a written document has the key it is written under -/
theorem KeysAgree.writes (h : KeysAgree coll) (hguard : op.guarded = true) (hw : Writes env coll op key doc) :
    ∃ id, doc.get "_id" = some id ∧ encodeKey id = key := by
  cases hw with
  | insert | upsert => exact ⟨_, ensureId_get .., rfl⟩
  | checked hid => exact ⟨_, hid, rfl⟩
  | updated hkey hold hdoc =>
    obtain ⟨id, hid, rfl⟩ := h _ _ hold
    refine applyModifications_keeps_key ?_ hid hdoc
    refine (Bool.or_eq_true_iff.1 hguard).resolve_left fun hempty => ?_
    rw [isEmpty_iff.1 hempty] at hkey
    simp at hkey
  | updatedOne hold hdoc =>
    obtain ⟨id, hid, rfl⟩ := h _ _ hold
    exact applyModifications_keeps_key (by simpa [DocOp.guarded] using hguard) hid hdoc
  | replaced hold _ hid =>
    obtain ⟨id, hget, rfl⟩ := h _ _ hold
    exact hid id hget

/-- one accepted operation -/
theorem KeysAgree.step (h : KeysAgree coll) (hguard : op.guarded = true) (hstep : op.step env coll = some coll') :
    KeysAgree coll' := by
  intro key doc hget
  rcases exec_changed (DocOp.exec_of_step hstep) key doc hget with hold | hw
  · exact h key doc hold
  · exact h.writes hguard hw

/-- only a document has the key of one -/
theorem encodeKey_ne_document (hid : ∀ d, id ≠ .document d) (d : Document) :
    encodeKey (.document d) ≠ encodeKey id := by
  intro h
  have hhead := congrArg List.head? h
  cases id
  case document d' => exact hid d' rfl
  all_goals exact absurd hhead (by simp [encodeKey, encodeInto]; decide)

end Writes

/-- **Keys and `_id`s agree.** In every run of accepted operations in which no operator update on an existing document
writes a path below `_id`, every document is stored under the key of its `_id`. For one operator update: without such a
path it keeps the `_id`; with one, and an `_id` that is neither a document nor an array, the key of the `_id` becomes
another one (unless the path is a `$rename`'s, which may find nothing to rename). -/
theorem primary_keys_agree (env : DocEnv) :
    (∀ ops coll, run (DocOp.step env) .empty ops = some coll → (∀ op ∈ ops, op.guarded = true) → KeysAgree coll) ∧
    ∀ nowMs doc update filter arrayFilters isInsert doc' id, doc.get "_id" = some id →
      applyUpdate env.libraries nowMs doc update filter arrayFilters isInsert = .ok doc' →
        ((∀ path ∈ writtenPaths isInsert update, underId path = false) → doc'.get "_id" = some id) ∧
        (SetsUnderId isInsert update → (∀ d, id ≠ .document d) → (∀ arr, id ≠ .array arr) →
          ∃ id', doc'.get "_id" = some id' ∧ encodeKey id' ≠ encodeKey id) := by
  refine ⟨fun ops coll hrun hguard => ?_, fun nowMs doc update filter arrayFilters isInsert doc' id hid h =>
    ⟨fun hpaths => ?_, ?_⟩⟩
  · refine run_invariant_on (fun coll op coll' h hop hstep => h.step hop hstep) ?_ hguard hrun
    intro key doc hget
    cases hget
  · rw [applyUpdate_keeps_id hpaths h, hid]
  · intro hunder hdoc harr
    obtain ⟨d, hd⟩ := applyUpdate_id_becomes_document hunder hid harr h
    exact ⟨_, hd, encodeKey_ne_document hdoc d⟩

/-- for operations without regular expressions, expressions and pipelines -/
def plainDocEnv : DocEnv := ⟨⟨Query.noLibraries, fun _ => ""⟩, fun doc _ => .ok doc, fun _ => 0⟩

def someOid : ObjectId := ⟨List.replicate 12 0, rfl⟩

/-- an update of the document with `_id` 1 -/
def updateArgs (u : Document) (upsert : Bool) : UpdateArgs :=
  ⟨[("_id", .int32 1)], .document u, none, upsert, 0, someOid⟩

/-- an insert, an update that names `_id` itself, and an upsert that builds its `_id` -/
def guardedRun : List DocOp :=
  [.insert [("_id", .int32 1), ("a", .int32 1)] someOid,
    .update [encodeKey (.int32 1)] true (updateArgs [("$set", .document [("_id", .int32 2), ("a.b", .int32 3)])] false),
    .update [] false (updateArgs [("$set", .document [("_id.x", .int32 3)])] true)]

theorem primary_keys_agree_guarded : (∀ op ∈ guardedRun, op.guarded = true) ∧
    ∃ coll, run (DocOp.step plainDocEnv) .empty guardedRun = some coll ∧ coll.entries.length = 2 ∧ KeysAgree coll := by
  have hguard : ∀ op ∈ guardedRun, op.guarded = true := by decide
  exact ⟨hguard, _, rfl, rfl, (primary_keys_agree plainDocEnv).1 _ _ rfl hguard⟩

/-- the `_id` of the document under the key of 1 becomes a document -/
theorem id_below_key : ∃ coll doc, run (DocOp.step plainDocEnv) .empty [.insert [("_id", .int32 1)] someOid,
        .update [encodeKey (.int32 1)] false (updateArgs [("$set", .document [("_id.x", .int32 5)])] false)] =
          some coll ∧
    coll.get? (encodeKey (.int32 1)) = some doc ∧ doc.get "_id" = some (.document [("x", .int32 5)]) ∧
      encodeKey (.document [("x", .int32 5)]) ≠ encodeKey (.int32 1) ∧ ¬ KeysAgree coll := by
  refine ⟨_, _, rfl, rfl, rfl, by decide, fun h => ?_⟩
  obtain ⟨id, hid, hkey⟩ := h (encodeKey (.int32 1)) [("_id", .document [("x", .int32 5)])] rfl
  cases hid
  exact absurd hkey (by decide)

end Mqlite.PagedEngine
