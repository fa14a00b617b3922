/-
Limits on stored documents (`validation.rs`; `insert_many` of `client/crud.rs`, `insert_many_batch` of
`commit_envelope.rs`).

`validate_document` walks a document with its depth and a count of the fields. It looks at the depth where it enters a
document, not where it enters an array, and not at the scope of a JavaScript value.
- `validated_within_limits_iff`: only arrays can be deeper than the limit in a document that passes. Arrays in arrays
  with no document at their end are (`deep_arrays_pass`).

Inserts, upserts and replacements check their documents. A single insert generates a missing `_id` after the check, and
an update of a document that is there checks nothing.
- `stored_documents_valid`: in every run in which inserts have room for the `_id` they get, and updates have paths of
  field names, well nested arguments and room for them in the stored documents, all stored documents pass the check. One
  `$set` of a deep document is enough to store another (`deep_document_stored`).
-/
import Mqlite.PagedEngine.DocOps
import Mqlite.PagedEngine.UpdateLimits

namespace Mqlite.PagedEngine

open Lib Mvcc Keys Update List

/-! ## Limits -/

/-- a value, and how many documents and arrays are around it -/
inductive Inside (root : Document) : ℕ → Bson → Prop
  | root : Inside root 0 (.document root)
  | field {depth : ℕ} {fields : Document} {name : String} {v : Bson} :
    Inside root depth (.document fields) → (name, v) ∈ fields → Inside root (depth + 1) v
  | elem {depth : ℕ} {elems : List Bson} {v : Bson} :
      Inside root depth (.array elems) → v ∈ elems → Inside root (depth + 1) v

mutual

/-- the fields of all documents in a value -/
def fieldCount : Bson → ℕ
  | .document fields => fieldsCount fields
  | .array elems => elemsCount elems
  | _ => 0
termination_by structural v => v

def fieldsCount : List (String × Bson) → ℕ
  | [] => 0
  | (_, v) :: rest => 1 + fieldCount v + fieldsCount rest
termination_by structural fields => fields

def elemsCount : List Bson → ℕ
  | [] => 0
  | v :: rest => fieldCount v + elemsCount rest
termination_by structural elems => elems

end

structure WithinLimits (doc : Document) : Prop where
  documents : ∀ depth fields, Inside doc depth (.document fields) → depth ≤ MAX_NESTING_DEPTH
  arrays : ∀ depth elems, Inside doc depth (.array elems) → depth ≤ MAX_NESTING_DEPTH
  names : ∀ depth fields, Inside doc depth (.document fields) → ∀ p ∈ fields, p.1.utf8ByteSize ≤ MAX_FIELD_NAME_LEN ∧
    '\x00' ∉ p.1.toList
  count : fieldsCount doc ≤ MAX_FIELD_COUNT

section Walk

variable {fields : List (String × Bson)} {elems : List Bson} {v : Bson} {name : String} {depth count n : ℕ}

theorem nameFits_iff : nameFits name = true ↔ name.utf8ByteSize ≤ MAX_FIELD_NAME_LEN ∧ '\x00' ∉ name.toList := by
  simp [nameFits]

/-- one field: its name is checked, then its value, then the fields after it -/
theorem validateFields_cons {rest : List (String × Bson)} : validateFields ((name, v) :: rest) depth count = .ok n ↔
    nameFits name = true ∧ count + 1 ≤ MAX_FIELD_COUNT ∧
      ∃ m, validateValue v (depth + 1) (count + 1) = .ok m ∧ validateFields rest depth m = .ok n := by
  have hname : (name.utf8ByteSize > MAX_FIELD_NAME_LEN || name.toList.contains '\x00') = !nameFits name := by
    rw [nameFits, Bool.not_and, Bool.not_not, ← decide_not]
    simp only [gt_iff_lt, not_le]
  rw [validateFields, hname]
  cases nameFits name with
  | false => simp
  | true =>
    simp only [Bool.not_true, Bool.false_eq_true, if_false, true_and]
    split_ifs with hcount
    · exact iff_of_false nofun fun h => absurd h.1 (not_le.2 hcount)
    · refine ⟨fun h => ⟨not_lt.1 hcount, bind_eq_ok h⟩, fun ⟨_, m, hv, hrest⟩ => ?_⟩
      rw [bind_ok hv, hrest]

mutual

/-- the count after a value -/
theorem validateValue_iff (v : Bson) {depth count n : ℕ} (hcount : count ≤ MAX_FIELD_COUNT) :
    validateValue v depth count = .ok n ↔ wellNested v depth = true ∧ n = count + fieldCount v ∧
      n ≤ MAX_FIELD_COUNT := by
  have hscalar : (Except.ok count : Except DocError ℕ) = .ok n ↔ true = true ∧ n = count + 0 ∧ n ≤ MAX_FIELD_COUNT := by
    simp only [Except.ok.injEq, true_and]
    omega
  cases v with
  | document fields =>
    have hfields := @validateFields_iff fields depth count n hcount
    rw [validateValue, wellNested, fieldCount, Bool.and_eq_true, decide_eq_true_eq, and_assoc, ← hfields]
    split_ifs with hdepth
    · exact iff_of_false nofun fun h => absurd h.1 (not_le.2 hdepth)
    · exact (and_iff_right (not_lt.1 hdepth)).symm
  | array elems => exact validateElems_iff elems hcount
  | _ => exact hscalar
termination_by structural v

theorem validateFields_iff (fields : List (String × Bson)) {depth count n : ℕ} (hcount : count ≤ MAX_FIELD_COUNT) :
    validateFields fields depth count = .ok n ↔
      wellNestedFields fields depth = true ∧ n = count + fieldsCount fields ∧ n ≤ MAX_FIELD_COUNT := by
  match fields with
  | [] =>
    simp only [validateFields, wellNestedFields, fieldsCount, Except.ok.injEq, true_and]
    omega
  | (name, v) :: rest =>
    have hv := fun m hroom => @validateValue_iff v (depth + 1) (count + 1) m hroom
    have hrest := fun m hm => @validateFields_iff rest depth m n hm
    rw [validateFields_cons, wellNestedFields, fieldsCount, Bool.and_eq_true, Bool.and_eq_true]
    constructor
    · rintro ⟨hname, hroom, m, hok, hok'⟩
      obtain ⟨hnested, rfl, hm⟩ := (hv m hroom).1 hok
      obtain ⟨hnested', rfl, hn⟩ := (hrest _ hm).1 hok'
      exact ⟨⟨⟨hname, hnested⟩, hnested'⟩, by omega, hn⟩
    · rintro ⟨⟨⟨hname, hnested⟩, hnested'⟩, rfl, hn⟩
      have hm : count + 1 + fieldCount v ≤ MAX_FIELD_COUNT := by omega
      exact ⟨hname, by omega, _, (hv _ (by omega)).2 ⟨hnested, rfl, hm⟩, (hrest _ hm).2 ⟨hnested', by omega, hn⟩⟩
termination_by structural fields

theorem validateElems_iff (elems : List Bson) {depth count n : ℕ} (hcount : count ≤ MAX_FIELD_COUNT) :
    validateElems elems depth count = .ok n ↔
      wellNestedElems elems depth = true ∧ n = count + elemsCount elems ∧ n ≤ MAX_FIELD_COUNT := by
  match elems with
  | [] =>
    simp only [validateElems, wellNestedElems, elemsCount, Except.ok.injEq, true_and]
    omega
  | v :: rest =>
    have hv := fun m => @validateValue_iff v depth count m hcount
    have hrest := fun m hm => @validateElems_iff rest depth m n hm
    rw [wellNestedElems, elemsCount, Bool.and_eq_true]
    constructor
    · intro h
      obtain ⟨m, hok, hok'⟩ := bind_eq_ok h
      obtain ⟨hnested, rfl, hm⟩ := (hv m).1 hok
      obtain ⟨hnested', rfl, hn⟩ := (hrest _ hm).1 hok'
      exact ⟨⟨hnested, hnested'⟩, by omega, hn⟩
    · rintro ⟨⟨hnested, hnested'⟩, rfl, hn⟩
      have hm : count + fieldCount v ≤ MAX_FIELD_COUNT := by omega
      rw [validateElems, bind_ok ((hv _).2 ⟨hnested, rfl, hm⟩)]
      exact (hrest _ hm).2 ⟨hnested', by omega, hn⟩
termination_by structural elems

end

theorem Inside.wellNested {doc : Document} (hin : Inside doc depth v) (h : wellNestedFields doc 0 = true) :
    wellNested v depth = true := by
  induction hin with
  | root => exact h
  | field _ hmem ih =>
    obtain ⟨-, hfields⟩ := Bool.and_eq_true_iff.1 ih
    exact (wellNestedFields_iff.1 hfields _ hmem).2
  | elem _ hmem ih => exact wellNestedElems_iff.1 ih _ hmem

end Walk

/-- **Limits of a document that passes.** Its documents, field names and number of fields are within the limits; its
arrays are if and only if no array is deeper than the limit. -/
theorem validated_within_limits_iff (env : DocEnv) (doc : Document) (h : validateDocument env doc = .ok ()) :
    WithinLimits doc ↔ ∀ depth elems, Inside doc depth (.array elems) → depth ≤ MAX_NESTING_DEPTH := by
  obtain ⟨n, hwalk, -⟩ := bind_eq_ok h
  obtain ⟨hnested, hn, hmax⟩ := (validateFields_iff doc (Nat.zero_le _)).1 hwalk
  have hdoc : ∀ depth fields, Inside doc depth (.document fields) →
      depth ≤ MAX_NESTING_DEPTH ∧ wellNestedFields fields depth = true := by
    intro depth fields hin
    simpa [wellNested] using hin.wellNested hnested
  refine ⟨WithinLimits.arrays, fun harrays =>
    ⟨fun depth fields hin => (hdoc depth fields hin).1, harrays, ?_, by omega⟩⟩
  exact fun depth fields hin p hp => nameFits_iff.1 (wellNestedFields_iff.1 (hdoc depth fields hin).2 p hp).1

/-- so many arrays in each other -/
def nestedArray : ℕ → Bson
  | 0 => .array []
  | n + 1 => .array [nestedArray n]

theorem inside_nestedArray (k n : ℕ) : Inside [("a", nestedArray (k + n))] (k + 1) (nestedArray n) := by
  induction k generalizing n with
  | zero =>
    rw [Nat.zero_add]
    exact .field .root mem_cons_self
  | succ k ih =>
    have hin := ih (n + 1)
    rw [show k + (n + 1) = k + 1 + n by omega] at hin
    exact .elem hin mem_cons_self

theorem validated_within_limits_iff_array : WithinLimits [("a", .array [])] := by
  refine (validated_within_limits_iff plainDocEnv _ rfl).2 fun depth elems hin => ?_
  have hshape : ∀ d v, Inside [("a", .array [])] d v → (v = .document [("a", .array [])] ∧ d = 0) ∨
      (v = .array [] ∧ d = 1) := by
    intro d v h
    induction h with
    | root => exact .inl ⟨rfl, rfl⟩
    | field h hmem ih | elem h hmem ih => grind
  rcases hshape _ _ hin with ⟨h, -⟩ | ⟨-, rfl⟩
  · cases h
  · decide

set_option maxRecDepth 2000 in
/-- 101 arrays in each other -/
theorem deep_arrays_pass :
    validateDocument plainDocEnv [("a", nestedArray 100)] = .ok () ∧ ¬ WithinLimits [("a", nestedArray 100)] := by
  refine ⟨rfl, fun h => ?_⟩
  have hdepth := h.arrays 101 [] (inside_nestedArray 100 0)
  exact absurd hdepth (by decide)

/-! ## Bulk inserts -/

variable (env : DocEnv)

/-- `preflight_insert_many_primary_keys`: every document is checked, gets an `_id`, and no two have the same key; a
refused one is told by its index -/
def preflightInsertManyPrimaryKeys :
    List (Document × ObjectId) → List Key → ℕ → Except (ℕ × DocError) (List (Document × ObjectId))
  | [], _, _ => .ok []
  | (doc, oid) :: rest, keys, index => do
    (validateDocument env doc).mapError (index, ·)
    let (doc, id) := ensureId doc oid
    if keys.contains (encodeKey id) then .error (index, .duplicateKey "document with _id already exists")
    else do
      let docs ← preflightInsertManyPrimaryKeys rest (encodeKey id :: keys) (index + 1)
      .ok ((doc, oid) :: docs)

/-- the body of the transaction; `refuse` is what the indexes answer -/
def stageEach (refuse : Coll → Document → Option DocError) :
    Coll → List (Document × ObjectId) → ℕ → Except (ℕ × DocError) Coll
  | coll, [], _ => .ok coll
  | coll, (doc, oid) :: rest, index =>
    match stageInsert env coll doc oid, refuse coll doc with
    | .ok coll, none => stageEach refuse coll rest (index + 1)
    | .error e, _ => .error (index, e)
    | .ok _, some e => .error (index, e)

def insertManyBatch (refuse : Coll → Document → Option DocError) (coll : Coll) (docs : List (Document × ObjectId)) :
    Except (ℕ × DocError) Coll := do
  let docs ← preflightInsertManyPrimaryKeys env docs [] 0
  stageEach env refuse coll docs 0

/-- an ordered call: after a refusal, again with the documents before it -/
def insertManyOrdered (refuse : Coll → Document → Option DocError) (coll : Coll) (docs : List (Document × ObjectId)) :
    ℕ → Coll
  | 0 => coll
  | n + 1 =>
    match insertManyBatch env refuse coll (docs.take (n + 1)) with
    | .ok coll => coll
    | .error (index, _) => insertManyOrdered refuse coll docs (min index n)
termination_by n => n
decreasing_by omega

/-- an unordered call: after a refusal, again without the document -/
def insertManyUnordered (refuse : Coll → Document → Option DocError) (coll : Coll) : List (Document × ObjectId) → Coll
  | [] => coll
  | doc :: rest =>
    match insertManyBatch env refuse coll (doc :: rest) with
    | .ok coll => coll
    | .error (index, _) => insertManyUnordered refuse coll ((doc :: rest).eraseIdx (min index rest.length))
termination_by docs => docs.length
decreasing_by
  rw [List.length_eraseIdx_of_lt (by simp)]
  simp

inductive WriteOp where
  | one (op : DocOp)
  | insertMany (docs : List (Document × ObjectId)) (ordered : Bool) (refuse : Coll → Document → Option DocError)

def WriteOp.step (coll : Coll) : WriteOp → Option Coll
  | .one op => op.step env coll
  | .insertMany docs ordered refuse =>
    some (if ordered then insertManyOrdered env refuse coll docs docs.length
      else insertManyUnordered env refuse coll docs)

/-! ## Stored documents -/

def StoredValid (coll : Coll) : Prop := ∀ key doc, coll.get? key = some doc → validateDocument env doc = .ok ()

/-- the meter of `fieldsCount` -/
def countMeter : Meter := ⟨fun _ => 1, 0, 0, fun _ => 0, 0, fun _ _ => le_rfl⟩

/-- no document has more bytes than the meter charges for it -/
def DocEnv.MeasuredBy (m : Meter) : Prop := ∀ doc, env.size doc ≤ m.value (.document doc)

/-- so much can be added to the document -/
def HasRoom (m : Meter) (doc : Document) (extra : Meter → ℕ) : Prop :=
  countMeter.fields doc + extra countMeter ≤ MAX_FIELD_COUNT ∧ m.value (.document doc) + extra m ≤ MAX_DOCUMENT_SIZE

def idField (doc : Document) : Document :=
  match doc.get "_id" with
  | some id => [("_id", id)]
  | none => []

/-- the update fits, and the document has room for it and for more fields; a pipeline's result has room for the `_id`
that it may lack -/
def UpdateModifications.WithinLimits (m : Meter) (doc more : Document) : UpdateModifications → Prop
  | .document update => updateFits update = true ∧ HasRoom m doc fun m => m.update update + m.fields more
  | .pipeline stages => ∀ result, env.pipeline doc stages = .ok result →
      wellNestedFields result 0 = true ∧ HasRoom m result fun m => m.fields (idField doc) + m.fields more

/-- nothing is written below the `_id` -/
def UpdateModifications.keepsId : UpdateModifications → Bool
  | .document update => (writtenPaths true update).all fun path => !underId path
  | .pipeline _ => true

/-- the filter gives the document its `_id`, or there is room for the one that it gets -/
def UpdateArgs.UpsertWithinLimits (m : Meter) (args : UpdateArgs) : Prop :=
  ((upsertBaseFromFilter env.libraries args.filter).get "_id").isSome = true ∧ args.mods.keepsId = true ∨
    wellNestedFields (upsertBaseFromFilter env.libraries args.filter) 0 = true ∧
      args.mods.WithinLimits env m (upsertBaseFromFilter env.libraries args.filter) [("_id", .objectId args.oid)]

/-- an insert has an `_id` or room for one, and an update is within the limits in the documents that it is applied to -/
def WriteOp.WithinLimits (m : Meter) (coll : Coll) : WriteOp → Prop
  | .one (.insert doc oid) => (doc.get "_id").isSome = true ∨ HasRoom m doc fun m => m.fields [("_id", .objectId oid)]
  | .one (.update keys many args) =>
    (∀ key ∈ if many then keys else keys.take 1, ∀ doc, coll.get? key = some doc →
      args.mods.WithinLimits env m doc []) ∧
    (keys = [] → args.upsert = true → args.UpsertWithinLimits env m)
  | .one (.findOneAndUpdate key args) => ∀ k ∈ key, ∀ doc, coll.get? k = some doc → args.mods.WithinLimits env m doc []
  | _ => True

section Limits

variable {env} {m : Meter} {doc doc' base more : Document} {extra rest : Meter → ℕ} {oid : ObjectId} {args : UpdateArgs}
  {isInsert : Bool}

mutual

theorem fieldCount_eq (v : Bson) : fieldCount v = countMeter.value v := by
  cases v with
  | document fields => exact (fieldsCount_eq fields).trans (Nat.zero_add _).symm
  | array elems => exact (elemsCount_eq elems).trans (Nat.zero_add _).symm
  | _ => rfl
termination_by structural v

theorem fieldsCount_eq (fields : List (String × Bson)) : fieldsCount fields = countMeter.fields fields := by
  match fields with
  | [] => rfl
  | (name, v) :: rest => rw [fieldsCount, fieldCount_eq v, fieldsCount_eq rest, Meter.fields, countMeter]
termination_by structural fields

theorem elemsCount_eq (elems : List Bson) : elemsCount elems = countMeter.elems elems := by
  match elems with
  | [] => rfl
  | v :: rest => rw [elemsCount, fieldCount_eq v, elemsCount_eq rest, Meter.elems, countMeter, Nat.zero_add]
termination_by structural elems

end

theorem validateDocument_iff : validateDocument env doc = .ok () ↔
    wellNestedFields doc 0 = true ∧ countMeter.fields doc ≤ MAX_FIELD_COUNT ∧ env.size doc ≤ MAX_DOCUMENT_SIZE := by
  have hwalk := fun n => @validateFields_iff doc 0 0 n (Nat.zero_le _)
  rw [← fieldsCount_eq]
  constructor
  · intro h
    obtain ⟨n, hok, h⟩ := bind_eq_ok h
    obtain ⟨hnested, rfl, hn⟩ := (hwalk n).1 hok
    split_ifs at h with hsize
    exact ⟨hnested, by omega, not_lt.1 hsize⟩
  · rintro ⟨hnested, hcount, hsize⟩
    rw [validateDocument, bind_ok ((hwalk _).2 ⟨hnested, rfl, by omega⟩), if_neg (not_lt.2 hsize)]

/-- what is left of the room after a document has grown -/
theorem HasRoom.of_le (hroom : HasRoom m doc fun m => extra m + rest m)
    (hle : ∀ m : Meter, m.fields doc' ≤ m.fields doc + extra m) :
    HasRoom m doc' rest := by
  obtain ⟨hcount, hsize⟩ := hroom
  have hcount' := hle countMeter
  have hsize' := hle m
  rw [HasRoom, Meter.value]
  rw [Meter.value] at hsize
  dsimp only at hcount hsize
  constructor <;> omega

/-- a document that has grown no more than there was room for -/
theorem HasRoom.valid (hroom : HasRoom m doc extra) (hm : env.MeasuredBy m) (hnested : wellNestedFields doc' 0 = true)
    (hle : ∀ m : Meter, m.fields doc' ≤ m.fields doc + extra m) : validateDocument env doc' = .ok () := by
  obtain ⟨hcount, hsize⟩ := hroom
  have hbytes := hm doc'
  have hsize' := hle m
  rw [Meter.value] at hsize hbytes
  exact validateDocument_iff.2 ⟨hnested, (hle countMeter).trans hcount, by omega⟩

theorem insertId_grows (m : Meter) (doc : Document) (oid : ObjectId) :
    m.fields (doc.insert "_id" (.objectId oid)) ≤ m.fields doc + m.fields [("_id", .objectId oid)] := by
  have hinsert := m.fields_insert doc "_id" (.objectId oid)
  simp only [Meter.fields] at hinsert ⊢
  omega

/-- with the `_id` that an insert gives a document -/
theorem ensureId_valid (hm : env.MeasuredBy m) (hvalid : validateDocument env doc = .ok ())
    (h : (doc.get "_id").isSome = true ∨ HasRoom m doc fun m => m.fields [("_id", .objectId oid)]) :
    validateDocument env (ensureId doc oid).1 = .ok () := by
  rw [ensureId]
  split
  · exact hvalid
  next hnone =>
    have hroom := h.resolve_left (by simp [hnone])
    refine hroom.valid hm ?_ fun m => insertId_grows m doc oid
    exact insert_wellNested (validateDocument_iff.1 hvalid).1 (by decide) rfl

theorem insertIdFirst_grows (m : Meter) (doc : Document) (id : Bson) :
    m.fields (insertIdFirst doc id) ≤ m.fields doc + m.fields [("_id", id)] := by
  have hfilter : m.fields (doc.filter fun p => p.1 ≠ "_id") ≤ m.fields doc := by
    induction doc with
    | nil => exact le_rfl
    | cons p doc ih =>
      rw [filter_cons]
      split_ifs
      · simp only [Meter.fields]
        omega
      · simp only [Meter.fields]
        omega
  simp only [insertIdFirst, Meter.fields]
  omega

/-- what a modification within the limits makes of a document -/
theorem applyModifications_grows (hdoc : wellNestedFields doc 0 = true) (hlim : args.mods.WithinLimits env m doc more)
    (h : applyModifications env doc args isInsert = .ok doc') :
    wellNestedFields doc' 0 = true ∧ HasRoom m doc' fun m => m.fields more := by
  unfold applyModifications at h
  split at h
  next update hmods =>
    rw [hmods] at hlim
    have hgrows := fun m => applyUpdate_grows m hlim.1 hdoc (mapError_ok h)
    exact ⟨(hgrows m).1, hlim.2.of_le fun m => (hgrows m).2⟩
  next stages hmods =>
    rw [hmods] at hlim
    obtain ⟨-, -, h⟩ := bind_eq_ok (mapError_ok h)
    obtain ⟨result, hresult, h⟩ := bind_eq_ok h
    obtain ⟨hnested, hroom⟩ := hlim result hresult
    have hcase : doc' = result ∨ ∃ id, doc.get "_id" = some id ∧ doc' = insertIdFirst result id := by
      split at h
      · split_ifs at h
        cases h
        exact .inl rfl
      next original hid _ =>
        cases h
        exact .inr ⟨original, hid, rfl⟩
      · cases h
        exact .inl rfl
    rcases hcase with rfl | ⟨id, hid, rfl⟩
    · exact ⟨hnested, hroom.of_le fun m => Nat.le_add_right _ _⟩
    · rw [idField, hid] at hroom
      refine ⟨wellNestedFields_iff.2 (forall_mem_cons.2 ⟨?_, fun p hp => ?_⟩),
        hroom.of_le fun m => insertIdFirst_grows m result id⟩
      · exact wellNestedFields_iff.1 hdoc _ (Document.mem_of_get hid)
      · exact wellNestedFields_iff.1 hnested p (mem_of_mem_filter hp)

/-- an upsert whose filter gives the document its `_id` -/
theorem applyModifications_has_id (hbase : (base.get "_id").isSome = true) (hkeeps : args.mods.keepsId = true)
    (h : applyModifications env base args true = .ok doc) : (doc.get "_id").isSome = true := by
  obtain ⟨id, hid⟩ := Option.isSome_iff_exists.1 hbase
  unfold applyModifications at h
  split at h
  next update hmods =>
    rw [hmods, UpdateModifications.keepsId, all_eq_true] at hkeeps
    rw [applyUpdate_keeps_id (fun path hpath => by simpa using hkeeps path hpath) (mapError_ok h), hid]
    rfl
  next stages hmods =>
    obtain ⟨id', hid', -⟩ := applyUpdatePipeline_keeps_key hid (mapError_ok h)
    rw [hid']
    rfl

end Limits

section Stored

variable {env} {coll coll' : Coll} {key : Key} {doc : Document} {docs : List (Document × ObjectId)} {n : ℕ}
  {refuse : Coll → Document → Option DocError}

theorem preflight_ids {keys : List Key} {docs' : List (Document × ObjectId)}
    (h : preflightInsertManyPrimaryKeys env docs keys n = .ok docs') : ∀ p ∈ docs', ∃ id, p.1.get "_id" = some id := by
  induction docs generalizing keys n docs' with
  | nil =>
    cases h
    simp
  | cons p rest ih =>
    obtain ⟨-, -, h⟩ := bind_eq_ok h
    dsimp only at h
    split_ifs at h
    obtain ⟨docs'', hrest, h⟩ := bind_eq_ok h
    cases h
    exact forall_mem_cons.2 ⟨⟨_, ensureId_get p.1 p.2⟩, ih hrest⟩

variable {m : Meter} (hm : env.MeasuredBy m)

include hm in
/-- a written document passes the check -/
theorem WriteOp.WithinLimits.writes {op : DocOp} (hlim : (WriteOp.one op).WithinLimits env m coll)
    (h : StoredValid env coll) (hw : Writes env coll op key doc) : validateDocument env doc = .ok () := by
  have hupdated : ∀ {args : UpdateArgs} {old doc : Document} {key : Key}, coll.get? key = some old →
      args.mods.WithinLimits env m old [] → applyModifications env old args false = .ok doc →
        validateDocument env doc = .ok () := by
    intro args old doc key hold hlim hdoc
    obtain ⟨hnested, hroom⟩ := applyModifications_grows (validateDocument_iff.1 (h key old hold)).1 hlim hdoc
    exact hroom.valid hm hnested fun m => Nat.le_add_right _ _
  cases hw with
  | insert hvalid => exact ensureId_valid hm hvalid hlim
  | upsert hup hdoc hvalid =>
    refine ensureId_valid hm hvalid ((hlim.2 rfl hup).imp (fun hid => ?_) fun hroom => ?_)
    · exact applyModifications_has_id hid.1 hid.2 hdoc
    · exact (applyModifications_grows hroom.1 hroom.2 hdoc).2
  | checked _ hvalid | replaced _ hvalid => exact hvalid
  | updated hkey hold hdoc => exact hupdated hold (hlim.1 _ hkey _ hold) hdoc
  | updatedOne hold hdoc => exact hupdated hold (hlim _ rfl _ hold) hdoc

variable (h : StoredValid env coll)

include h

theorem StoredValid.changed (hc : Changed (fun _ doc => validateDocument env doc = .ok ()) coll coll') :
    StoredValid env coll' := fun key doc hget => (hc key doc hget).elim (h key doc) id

/-- the documents have their `_id`s when they are checked -/
theorem StoredValid.stageEach (hids : ∀ p ∈ docs, ∃ id, p.1.get "_id" = some id)
    (hok : PagedEngine.stageEach env refuse coll docs n = .ok coll') : StoredValid env coll' := by
  induction docs generalizing coll n with
  | nil =>
    cases hok
    exact h
  | cons p rest ih =>
    obtain ⟨⟨id, hid⟩, hrest⟩ := forall_mem_cons.1 hids
    rw [PagedEngine.stageEach] at hok
    split at hok
    · rename_i hstage _
      refine ih (h.changed (stageInsert_changed (fun hvalid => ?_) hstage)) hrest hok
      rwa [ensureId, hid]
    · cases hok
    · cases hok

theorem StoredValid.insertManyBatch (hok : PagedEngine.insertManyBatch env refuse coll docs = .ok coll') :
    StoredValid env coll' := by
  obtain ⟨docs', hpre, hok⟩ := bind_eq_ok hok
  exact h.stageEach (preflight_ids hpre) hok

theorem StoredValid.insertManyOrdered (n : ℕ) :
    StoredValid env (PagedEngine.insertManyOrdered env refuse coll docs n) := by
  fun_induction PagedEngine.insertManyOrdered env refuse coll docs n with
  | case1 => exact h
  | case2 n coll' hok => exact h.insertManyBatch hok
  | case3 n index e _ ih => exact ih

theorem StoredValid.insertManyUnordered (docs : List (Document × ObjectId)) :
    StoredValid env (PagedEngine.insertManyUnordered env refuse coll docs) := by
  fun_induction PagedEngine.insertManyUnordered env refuse coll docs with
  | case1 => exact h
  | case2 doc rest coll' hok => exact h.insertManyBatch hok
  | case3 doc rest index e _ ih => exact ih

include hm in
/-- one accepted operation -/
theorem StoredValid.step {op : WriteOp} (hlim : op.WithinLimits env m coll) (hstep : op.step env coll = some coll') :
    StoredValid env coll' := by
  cases op with
  | one op => exact h.changed fun key doc hget =>
    (exec_changed (DocOp.exec_of_step hstep) key doc hget).imp_right (hlim.writes hm h)
  | insertMany docs ordered refuse =>
    cases hstep
    split_ifs
    · exact h.insertManyOrdered _
    · exact h.insertManyUnordered _

end Stored

/-- **Stored documents are valid.** In every run in which single inserts, and upserts of updates, have an `_id` or room
for one, and the updates of stored documents are by paths of field names, with well nested arguments and room for them
in the document, `validate_document` accepts every stored document. Nothing is asked of the other operations. -/
theorem stored_documents_valid (m : Meter) (hm : env.MeasuredBy m) (ops : List WriteOp) (coll : Coll)
    (hlim : Along (WriteOp.step env) (WriteOp.WithinLimits env m) .empty ops)
    (hrun : run (WriteOp.step env) .empty ops = some coll) :
    StoredValid env coll := by
  refine run_invariant (fun coll op coll' h hop hstep => h.step hm hop hstep) ?_ hlim hrun
  intro key doc hget
  cases hget

/-- enough for the bytes of a document with values of at most 16 bytes -/
def roughMeter : Meter := ⟨fun name => name.utf8ByteSize + 2, 22, 5, fun _ => 16, 16, fun _ _ => le_rfl⟩

def roughDocEnv : DocEnv := { plainDocEnv with size := fun doc => roughMeter.value (.document doc) }

/-- the array of the second update is in a document that the update makes -/
def limitedRun : List WriteOp :=
  [.one (.insert [("a", .int32 1)] someOid),
    .one (.update [encodeKey (.objectId someOid)] false (updateArgs [("$set", .document [("a", .int32 3)])] false)),
    .one (.update [encodeKey (.objectId someOid)] false
      (updateArgs [("$push", .document [("b.c", .document [("x", .null)])])] false))]

theorem stored_documents_valid_limited :
    Along (WriteOp.step roughDocEnv) (WriteOp.WithinLimits roughDocEnv roughMeter) .empty limitedRun ∧
      ∃ coll, run (WriteOp.step roughDocEnv) .empty limitedRun = some coll ∧ coll.entries.length = 1 ∧
        StoredValid roughDocEnv coll := by
  have hlim : Along (WriteOp.step roughDocEnv) (WriteOp.WithinLimits roughDocEnv roughMeter) .empty limitedRun := by
    refine .cons (.inr ⟨by decide, by decide⟩) rfl (.cons ⟨fun key hkey doc hget => ?_, nofun⟩ rfl
      (.cons ⟨fun key hkey doc hget => ?_, nofun⟩ rfl trivial))
    all_goals
      cases mem_singleton.1 hkey
      cases hget
      exact ⟨by decide, by decide, by decide⟩
  exact ⟨hlim, _, rfl, rfl, stored_documents_valid roughDocEnv roughMeter (fun _ => le_rfl) _ _ hlim rfl⟩

/-- so many documents in each other -/
def nestedDocument : ℕ → Bson
  | 0 => .null
  | n + 1 => .document [("a", nestedDocument n)]

set_option maxRecDepth 2000 in
/-- `{$set: {a: ...}}` with a document of depth 101 -/
theorem deep_document_stored :
    ∃ coll doc, run (WriteOp.step plainDocEnv) .empty [.one (.insert [("_id", .int32 1)] someOid),
        .one (.update [encodeKey (.int32 1)] false
          (updateArgs [("$set", .document [("a", nestedDocument 101)])] false))] = some coll ∧
    coll.get? (encodeKey (.int32 1)) = some doc ∧
      validateDocument plainDocEnv doc = .error (.documentValidationFailure "maximum nesting depth (100) exceeded") ∧
      ¬ StoredValid plainDocEnv coll := by
  refine ⟨_, _, rfl, rfl, rfl, fun h => ?_⟩
  have hvalid := h (encodeKey (.int32 1)) _ rfl
  cases hvalid

end Mqlite.PagedEngine
