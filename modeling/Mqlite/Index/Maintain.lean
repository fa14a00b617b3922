/-
Maintenance of secondary indexes (`storage/secondary_index.rs`, `storage/paged_engine/index_write_maint.rs`).

A write to the collection stages writes to each of its indexes: an insert the document's keys, a delete the removal of
its keys, an update the difference between the two. Staged writes are applied in order.

The unique check looks at what the writer sees of the index and at what its transaction has staged. It decides only
whether a write succeeds, so both are given with each write here and are arbitrary. `unique_check_exact` says what it
answers.

`index_is_image`: after any number of writes the live keys of the index are those of the stored documents, as long as no
write removes a key that another document has too. Keys end with the encoded `_id`, but where the indexed values end is
told by their encoding only. Two documents can have a common key, and the deletion of one then takes the entry of the
other away (`index_loses_shared_key`).
-/
import Mqlite.Index.Build
import Mqlite.Keys.Prefix
import Mqlite.Lib.OrdMap
import Mqlite.Lib.Run

namespace Mqlite.Index

open Lib Mvcc Keys Query List Option OrdMap

/-! ## Staged writes -/

inductive SecIndexOp where
  | insert (id : Bson)
  | delete

/-- a write to the index that is staged in a transaction -/
structure SecIndexWrite where
  key : Bytes
  op : SecIndexOp

/-- live entries: key and `_id` -/
abbrev Entries := OrdMap Bytes Bson

def applyWrite (index : Entries) (w : SecIndexWrite) : Entries :=
  match w.op with
  | .insert id => index.insert w.key id
  | .delete => index.erase w.key

def applyWrites (index : Entries) (ws : List SecIndexWrite) : Entries := ws.foldl applyWrite index

/-! ## Unique check -/

/-- what the check looks at: keys visible to the writer, and what its transaction has staged -/
structure WriterView where
  visible : List Bytes
  pending : List SecIndexWrite

def uniqueRange (fieldValues : List (Bson × Bool)) : Bytes × Bytes :=
  (encodeCompoundKey fieldValues ++ [COMPOUND_SEP], encodeCompoundKey fieldValues ++ [COMPOUND_SEP + 1])

def uniqueDocKey (fieldValues : List (Bson × Bool)) (docId : Bson) : Bytes :=
  encodeCompoundKey (fieldValues ++ [(docId, true)])

def indexFieldValues (doc keyPattern : Document) : List (Bson × Bool) :=
  keyPattern.map fun p => ((extractFieldValue doc p.1).getD .null, isAscending p.2)

/-- keys that are deleted and inserted after all, by staged writes within the range -/
def compactPending (start stop : Bytes) : List SecIndexWrite → List Bytes × List Bytes → List Bytes × List Bytes
  | [], acc => acc
  | w :: ws, (deletes, inserts) =>
    if w.key < start ∨ stop ≤ w.key then compactPending start stop ws (deletes, inserts)
    else match w.op with
      | .insert _ => compactPending start stop ws (deletes.filter (· ≠ w.key), w.key :: inserts)
      | .delete => compactPending start stop ws (w.key :: deletes, inserts.filter (· ≠ w.key))

def checkUniqueConstraintMvcc (view : WriterView) (fieldValues : List (Bson × Bool)) (docId : Bson) :
    Except IndexError Unit :=
  let (start, stop) := uniqueRange fieldValues
  let existing := view.visible.filter fun k => start ≤ k ∧ k < stop
  let myKey := uniqueDocKey fieldValues docId
  let (deletes, inserts) := compactPending start stop view.pending ([], [])
  if existing.any (fun k => k ∉ deletes ∧ k ≠ myKey) then .error .duplicateKey
  else if inserts.any (fun k => k ≠ myKey) then .error .duplicateKey
  else .ok ()

/-! ## Maintenance -/

section Maintain

variable (env : Env) (view : WriterView) (e : IndexEntry)

def updateIndexOnInsert (doc : Document) (docId : Bson) : Except IndexError (List SecIndexWrite × Bool) :=
  match docMatchesPartialFilter env doc e with
  | .error err => .error (.query err)
  | .ok false => .ok ([], false)
  | .ok true =>
    match buildIndexKeys doc e.keyPattern docId e.sparse with
    | .error err => .error err
    | .ok (keys, isMultikey) =>
      if keys.isEmpty then .ok ([], false)
      else
        match if e.unique && !isMultikey
          then checkUniqueConstraintMvcc view (indexFieldValues doc e.keyPattern) docId else .ok () with
        | .error err => .error err
        | .ok () => .ok ((if isMultikey then keys.eraseDups else keys).map fun key => ⟨key, .insert docId⟩, isMultikey)

def updateIndexOnDelete (doc : Document) (docId : Bson) : Except IndexError (List SecIndexWrite) :=
  match docMatchesPartialFilter env doc e with
  | .error err => .error (.query err)
  | .ok false => .ok []
  | .ok true =>
    match buildIndexKeys doc e.keyPattern docId e.sparse with
    | .error err => .error err
    | .ok (keys, _) => .ok (keys.map fun key => ⟨key, .delete⟩)

/-- the insert loop of an update; each check sees what was staged before -/
def stageInserts (check : Bool) (fieldValues : List (Bson × Bool)) (newId : Bson) :
    List Bytes → List SecIndexWrite → Except IndexError (List SecIndexWrite)
  | [], staged => .ok staged
  | key :: keys, staged =>
    match if check then checkUniqueConstraintMvcc ⟨view.visible, view.pending ++ staged⟩ fieldValues newId
      else .ok () with
    | .error err => .error err
    | .ok () => stageInserts check fieldValues newId keys (staged ++ [⟨key, .insert newId⟩])

/-- the keys of one side of an update -/
def memberKeys (doc : Document) (docId : Bson) (member : Bool) : Except IndexError (List Bytes × Bool) :=
  if member then buildIndexKeys doc e.keyPattern docId e.sparse else .ok ([], false)

/-- the sets of the source are lists without duplicates here, in the order of the keys -/
def updateIndexOnUpdate (oldDoc newDoc : Document) (oldId newId : Bson) :
    Except IndexError (List SecIndexWrite × Bool) :=
  match docMatchesPartialFilter env oldDoc e, docMatchesPartialFilter env newDoc e with
  | .error err, _ => .error (.query err)
  | _, .error err => .error (.query err)
  | .ok oldMember, .ok newMember =>
    match memberKeys e oldDoc oldId oldMember, memberKeys e newDoc newId newMember with
    | .error err, _ => .error err
    | _, .error err => .error err
    | .ok (oldKeys, _), .ok (newKeys, isMultikey) =>
      let deletes := (oldKeys.eraseDups.filter (· ∉ newKeys)).map fun key => (⟨key, .delete⟩ : SecIndexWrite)
      match stageInserts view (e.unique && !isMultikey) (indexFieldValues newDoc e.keyPattern) newId
          (newKeys.eraseDups.filter (· ∉ oldKeys)) deletes with
      | .error err => .error err
      | .ok staged => .ok (staged, isMultikey)

end Maintain

/-! ## Collection and index -/

/-- the `_id` as the writers read it -/
def idOf (doc : Document) : Bson := (doc.get "_id").getD .null

inductive Write where
  | insert (doc : Document)
  | update (key : Bytes) (doc : Document)
  | delete (key : Bytes)

/-- stored documents under their primary keys, and live index entries -/
structure Indexed where
  docs : OrdMap Bytes Document
  index : Entries

def Indexed.put (s : Indexed) (key : Bytes) (doc : Document) (staged : List SecIndexWrite) : Indexed :=
  ⟨s.docs.insert key doc, applyWrites s.index staged⟩

def Indexed.remove (s : Indexed) (key : Bytes) (staged : List SecIndexWrite) : Indexed :=
  ⟨s.docs.erase key, applyWrites s.index staged⟩

theorem Indexed.get?_put (s : Indexed) (key : Bytes) (doc : Document) (staged : List SecIndexWrite) :
    (s.put key doc staged).docs.get? key = some doc := by
  rw [Indexed.put, get?_insert, if_pos rfl]

theorem Indexed.get?_remove (s : Indexed) (key : Bytes) (staged : List SecIndexWrite) :
    (s.remove key staged).docs.get? key = none := by
  rw [Indexed.remove, get?_erase, if_pos rfl]

/-- one write: to the index as staged, and to the collection. An update keeps the primary key, whatever the new
document's `_id` is. -/
def write (env : Env) (e : IndexEntry) (s : Indexed) (w : Write × WriterView) : Except IndexError Indexed :=
  match w.1 with
  | .insert doc =>
    if (s.docs.get? (encodeKey (idOf doc))).isSome then .error .duplicateKey
    else match updateIndexOnInsert env w.2 e doc (idOf doc) with
      | .error err => .error err
      | .ok (staged, _) => .ok (s.put (encodeKey (idOf doc)) doc staged)
  | .update key doc =>
    match s.docs.get? key with
    | none => .error .noSuchDocument
    | some old =>
      match updateIndexOnUpdate env w.2 e old doc (idOf old) (idOf doc) with
      | .error err => .error err
      | .ok (staged, _) => .ok (s.put key doc staged)
  | .delete key =>
    match s.docs.get? key with
    | none => .error .noSuchDocument
    | some old =>
      match updateIndexOnDelete env e old (idOf old) with
      | .error err => .error err
      | .ok staged => .ok (s.remove key staged)

/-! ## What the staged writes do -/

def Live (index : Entries) (k : Bytes) : Prop := (index.get? k).isSome = true

instance (index : Entries) (k : Bytes) : Decidable (Live index k) := inferInstanceAs (Decidable (_ = true))

def SecIndexOp.isInsert : SecIndexOp → Bool
  | .insert _ => true
  | .delete => false

/-- which keys come and which go by staged writes -/
structure Stages (staged : List SecIndexWrite) (ins dels : Bytes → Prop) : Prop where
  op : ∀ w ∈ staged, if w.op.isInsert then ins w.key else dels w.key
  all : ∀ k, ins k ∨ dels k → ∃ w ∈ staged, w.key = k

theorem Stages.inserts (keys : List Bytes) (id : Bson) :
    Stages (keys.map fun key => ⟨key, .insert id⟩) (· ∈ keys) fun _ => False where
  op := by simp [SecIndexOp.isInsert]
  all := by simp

theorem Stages.deletes (keys : List Bytes) :
    Stages (keys.map fun key => ⟨key, .delete⟩) (fun _ => False) (· ∈ keys) where
  op := by simp [SecIndexOp.isInsert]
  all := by simp

variable {staged : List SecIndexWrite} {dels ins : Bytes → Prop} {k : Bytes} {env : Env} {e : IndexEntry}

theorem Stages.append {staged' : List SecIndexWrite} {ins' dels' : Bytes → Prop} (h : Stages staged ins dels)
    (h' : Stages staged' ins' dels') :
    Stages (staged ++ staged') (fun k => ins k ∨ ins' k) fun k => dels k ∨ dels' k where
  op := by
    intro w hw
    rcases mem_append.1 hw with hw | hw
    · have := h.op w hw
      split_ifs at this ⊢ <;> exact .inl this
    · have := h'.op w hw
      split_ifs at this ⊢ <;> exact .inr this
  all := by
    intro k hk
    have := h.all k
    have := h'.all k
    grind

theorem Stages.congr {ins' dels' : Bytes → Prop} (h : Stages staged ins dels)
    (hins : ∀ k, ins k ↔ ins' k) (hdels : ∀ k, dels k ↔ dels' k) : Stages staged ins' dels' := by
  obtain rfl : ins = ins' := funext fun k => propext (hins k)
  obtain rfl : dels = dels' := funext fun k => propext (hdels k)
  exact h

/-- when all writes to a key are of one kind, the key is live as that says -/
theorem live_applyWrites {index : Entries} {b : Bool} (h : ∀ w ∈ staged, w.key = k → w.op.isInsert = b) :
    Live (applyWrites index staged) k ↔ if ∃ w ∈ staged, w.key = k then b = true else Live index k := by
  induction staged generalizing index with
  | nil => simp [applyWrites]
  | cons w staged ih =>
    obtain ⟨hw, hstaged⟩ := forall_mem_cons.1 h
    have hstep : Live (applyWrite index w) k ↔ if w.key = k then b = true else Live index k := by
      unfold Live applyWrite
      cases hop : w.op with
      | insert id =>
        rw [get?_insert]
        rw [hop] at hw
        split_ifs with h1 h2 h2
        · simp [← hw h2, SecIndexOp.isInsert]
        · exact absurd h1.symm h2
        · exact absurd h2.symm h1
        · rfl
      | delete =>
        rw [get?_erase]
        rw [hop] at hw
        split_ifs with h1 h2 h2
        · simp [← hw h2, SecIndexOp.isInsert]
        · exact absurd h1.symm h2
        · exact absurd h2.symm h1
        · rfl
    rw [applyWrites, foldl_cons, ← applyWrites, ih hstaged, hstep]
    simp only [mem_cons, exists_eq_or_imp]
    by_cases hk : ∃ w ∈ staged, w.key = k
    · rw [if_pos hk, if_pos (.inr hk)]
    · rw [if_neg hk]
      simp only [hk, or_false]

theorem Stages.live_iff {index : Entries} (h : Stages staged ins dels)
    (hdisj : ∀ k, ins k → ¬ dels k) (k : Bytes) :
    Live (applyWrites index staged) k ↔ ins k ∨ ¬ dels k ∧ Live index k := by
  by_cases hins : ins k
  · rw [live_applyWrites (b := true), if_pos (h.all k (.inl hins))]
    · simp [hins]
    · rintro w hw rfl
      have := h.op w hw
      by_contra hb
      rw [if_neg hb] at this
      exact hdisj _ hins this
  · by_cases hdels : dels k
    · rw [live_applyWrites (b := false), if_pos (h.all k (.inr hdels))]
      · simp [hins, hdels]
      · rintro w hw rfl
        have := h.op w hw
        by_contra hb
        rw [if_pos (by simpa using hb)] at this
        exact hins this
    · have hnone : ∀ w ∈ staged, w.key ≠ k := by
        rintro w hw rfl
        have := h.op w hw
        split_ifs at this
        · exact hins this
        · exact hdels this
      rw [live_applyWrites (b := true) (fun w hw hk => absurd hk (hnone w hw)), if_neg (by simpa using hnone)]
      simp [hins, hdels]

/-- the keys that an index has for a document -/
def keysOf (env : Env) (e : IndexEntry) (doc : Document) : List Bytes :=
  match docMatchesPartialFilter env doc e with
  | .ok true =>
    match buildIndexKeys doc e.keyPattern (idOf doc) e.sparse with
    | .ok (keys, _) => keys
    | .error _ => []
  | _ => []

section Staged

variable {env : Env} {view : WriterView} {e : IndexEntry} {doc : Document}

variable {staged : List SecIndexWrite} {multikey : Bool}

theorem insert_stages (h : updateIndexOnInsert env view e doc (idOf doc) = .ok (staged, multikey)) :
    Stages staged (· ∈ keysOf env e doc) fun _ => False := by
  unfold updateIndexOnInsert at h
  unfold keysOf
  split at h
  · cases h
  next hmember =>
    cases h
    rw [hmember]
    exact Stages.inserts [] (idOf doc)
  next hmember =>
    rw [hmember]
    split at h
    · cases h
    next keys isMultikey hbuild =>
      simp only [hbuild]
      split at h
      next hempty =>
        cases h
        rw [isEmpty_iff.1 hempty]
        exact Stages.inserts [] (idOf doc)
      · split at h
        · cases h
        · cases h
          refine (Stages.inserts _ _).congr (fun k => ?_) fun _ => Iff.rfl
          split_ifs
          · rw [mem_eraseDups]
          · rfl

theorem delete_stages (h : updateIndexOnDelete env e doc (idOf doc) = .ok staged) :
    Stages staged (fun _ => False) (· ∈ keysOf env e doc) := by
  unfold updateIndexOnDelete at h
  unfold keysOf
  split at h
  · cases h
  next hmember =>
    cases h
    rw [hmember]
    exact Stages.deletes []
  next hmember =>
    rw [hmember]
    split at h
    · cases h
    next keys isMultikey hbuild =>
      cases h
      simp only [hbuild]
      exact Stages.deletes keys

theorem stageInserts_eq {check : Bool} {fieldValues : List (Bson × Bool)} {newId : Bson} {keys : List Bytes}
    {out : List SecIndexWrite} (h : stageInserts view check fieldValues newId keys staged = .ok out) :
    out = staged ++ keys.map fun key => ⟨key, .insert newId⟩ := by
  induction keys generalizing staged with
  | nil =>
    cases h
    simp
  | cons key keys ih =>
    rw [stageInserts] at h
    split at h
    · cases h
    · rw [ih h, append_assoc]
      rfl

theorem memberKeys_keysOf {member : Bool} {keys : List Bytes}
    (hmember : docMatchesPartialFilter env doc e = .ok member)
    (h : memberKeys e doc (idOf doc) member = .ok (keys, multikey)) :
    keysOf env e doc = keys := by
  unfold keysOf
  rw [hmember]
  cases member with
  | false =>
    cases h
    rfl
  | true =>
    change buildIndexKeys doc e.keyPattern (idOf doc) e.sparse = _ at h
    simp only [h]

theorem update_stages {old : Document}
    (h : updateIndexOnUpdate env view e old doc (idOf old) (idOf doc) = .ok (staged, multikey)) :
    Stages staged (fun k => k ∈ keysOf env e doc ∧ k ∉ keysOf env e old) fun k => k ∈ keysOf env e old ∧
      k ∉ keysOf env e doc := by
  unfold updateIndexOnUpdate at h
  split at h
  · cases h
  · cases h
  next oldMember newMember hold hnew =>
    split at h
    · cases h
    · cases h
    next oldKeys m newKeys isMultikey hoKeys hnKeys =>
      rw [memberKeys_keysOf hold hoKeys, memberKeys_keysOf hnew hnKeys]
      dsimp only at h
      split at h
      · cases h
      next out hout =>
        cases h
        rw [stageInserts_eq hout]
        refine ((Stages.deletes _).append (Stages.inserts _ _)).congr (fun k => ?_) fun k => ?_
        · simp [mem_filter, mem_eraseDups]
        · simp [mem_filter, mem_eraseDups]

end Staged

/-! ## The index is the image of the collection -/

/-- live keys are the keys of the stored documents -/
def IsImage (env : Env) (e : IndexEntry) (s : Indexed) : Prop :=
  ∀ k, Live s.index k ↔ ∃ key doc, s.docs.get? key = some doc ∧ k ∈ keysOf env e doc

section Image

variable {env : Env} {e : IndexEntry} {s : Indexed} {key k : Bytes}

/-- some document under another key has the index key -/
def Others (env : Env) (e : IndexEntry) (s : Indexed) (key k : Bytes) : Prop :=
  ∃ key' doc, key' ≠ key ∧ s.docs.get? key' = some doc ∧ k ∈ keysOf env e doc

theorem image_of_get {old : Document} (hold : s.docs.get? key = some old) :
    (∃ key' doc, s.docs.get? key' = some doc ∧ k ∈ keysOf env e doc) ↔ k ∈ keysOf env e old ∨ Others env e s key k := by
  constructor
  · rintro ⟨key', doc, hget, hk⟩
    by_cases hkey : key' = key
    · subst hkey
      rw [hold] at hget
      cases hget
      exact .inl hk
    · exact .inr ⟨key', doc, hkey, hget, hk⟩
  · rintro (hk | ⟨key', doc, -, hget, hk⟩)
    · exact ⟨key, old, hold, hk⟩
    · exact ⟨key', doc, hget, hk⟩

theorem image_of_fresh (hfresh : s.docs.get? key = none) :
    (∃ key' doc, s.docs.get? key' = some doc ∧ k ∈ keysOf env e doc) ↔ Others env e s key k := by
  constructor
  · rintro ⟨key', doc, hget, hk⟩
    refine ⟨key', doc, ?_, hget, hk⟩
    rintro rfl
    rw [hfresh] at hget
    cases hget
  · rintro ⟨key', doc, -, hget, hk⟩
    exact ⟨key', doc, hget, hk⟩

theorem others_put (doc : Document) (staged : List SecIndexWrite) :
    Others env e (s.put key doc staged) key k ↔ Others env e s key k := by
  refine exists_congr fun key' => exists_congr fun doc' => and_congr_right fun hkey => ?_
  rw [Indexed.put, get?_insert, if_neg hkey]

theorem others_remove (staged : List SecIndexWrite) :
    Others env e (s.remove key staged) key k ↔ Others env e s key k := by
  refine exists_congr fun key' => exists_congr fun doc' => and_congr_right fun hkey => ?_
  rw [Indexed.remove, get?_erase, if_neg hkey]

/-- the write removes no key from the index that another stored document has too -/
def Unshared (env : Env) (e : IndexEntry) (s : Indexed) : Write → Prop
  | .insert _ => True
  | .update key doc => ∀ old ∈ s.docs.get? key, ∀ k ∈ keysOf env e old, k ∉ keysOf env e doc → ¬ Others env e s key k
  | .delete key => ∀ old ∈ s.docs.get? key, ∀ k ∈ keysOf env e old, ¬ Others env e s key k

/-- **One write** keeps the image if and only if it removes no shared key. -/
theorem write_image_iff {t : Indexed} {w : Write × WriterView} (himage : IsImage env e s)
    (h : write env e s w = .ok t) :
    IsImage env e t ↔ Unshared env e s w.1 := by
  obtain ⟨w, view⟩ := w
  cases w with
  | insert doc =>
    rw [write] at h
    dsimp only at h
    split_ifs at h with hfresh
    split at h
    · cases h
    next staged multikey hstaged =>
      cases h
      rw [Bool.not_eq_true, isSome_eq_false_iff, isNone_iff_eq_none] at hfresh
      refine iff_of_true (fun k => ?_) trivial
      rw [image_of_get (s.get?_put (encodeKey (idOf doc)) doc staged), others_put, ← image_of_fresh hfresh, ← himage k]
      simpa [Indexed.put] using (insert_stages hstaged).live_iff (fun _ _ h => h) k
  | update key doc =>
    rw [write] at h
    dsimp only at h
    split at h
    · cases h
    next old hold =>
      split at h
      · cases h
      next staged multikey hstaged =>
        cases h
        -- after the write the image is that of the new document and the others; live keys differ from it in removed
        -- ones only
        have himage' : ∀ k, Live (s.put key doc staged).index k ↔
            k ∈ keysOf env e doc ∧ k ∉ keysOf env e old ∨ ¬ (k ∈ keysOf env e old ∧ k ∉ keysOf env e doc) ∧
              (k ∈ keysOf env e old ∨ Others env e s key k) := by
          intro k
          rw [← image_of_get hold, ← himage k]
          exact (update_stages hstaged).live_iff (fun _ h h' => h'.2 h.1) k
        simp only [IsImage, himage', image_of_get (s.get?_put key doc staged), others_put, Unshared, hold, mem_def,
          Option.some.injEq, forall_eq']
        refine forall_congr' fun k => ?_
        tauto
  | delete key =>
    rw [write] at h
    dsimp only at h
    split at h
    · cases h
    next old hold =>
      split at h
      · cases h
      next staged hstaged =>
        cases h
        have himage' : ∀ k, Live (s.remove key staged).index k ↔ k ∉ keysOf env e old ∧
            (k ∈ keysOf env e old ∨ Others env e s key k) := by
          intro k
          rw [← image_of_get hold, ← himage k]
          simpa [Indexed.remove] using (delete_stages hstaged).live_iff (fun _ h => h.elim) k
        simp only [IsImage, himage', image_of_fresh (s.get?_remove key staged), others_remove, Unshared, hold, mem_def,
          Option.some.injEq, forall_eq']
        refine forall_congr' fun k => ?_
        tauto

end Image

def step (env : Env) (e : IndexEntry) (s : Indexed) (w : Write × WriterView) : Option Indexed :=
  (write env e s w).toOption

theorem write_of_step {s t : Indexed} {w : Write × WriterView} (h : step env e s w = some t) :
    write env e s w = .ok t := by
  unfold step at h
  cases hwrite : write env e s w with
  | error err => rw [hwrite] at h; cases h
  | ok u => rw [hwrite] at h; cases h; rfl

/-- **The index is the image of the collection** after every sequence of writes that succeed, if it is so at the start
and no write removes a key that another document has too; and from there on the next write keeps it so if and only if it
removes no such key. -/
theorem index_is_image (env : Env) (e : IndexEntry) (s t : Indexed) (writes : List (Write × WriterView))
    (himage : IsImage env e s) (hrun : run (step env e) s writes = some t)
    (halong : Along (step env e) (fun s w => Unshared env e s w.1) s writes) :
    IsImage env e t ∧ ∀ w u, write env e t w = .ok u → (IsImage env e u ↔ Unshared env e t w.1) := by
  have ht : IsImage env e t :=
    run_invariant (fun s w t hs hc hw => (write_image_iff hs (write_of_step hw)).2 hc) himage halong hrun
  exact ⟨ht, fun w u hw => write_image_iff ht hw⟩

/-- no documents, no entries -/
def Indexed.empty : Indexed := ⟨OrdMap.empty, OrdMap.empty⟩

theorem isImage_empty (env : Env) (e : IndexEntry) : IsImage env e Indexed.empty := by
  refine fun k => ⟨fun h => absurd h Bool.false_ne_true, ?_⟩
  · rintro ⟨key, doc, h, -⟩
    cases h

/-- a partial multikey index: the document leaves the index, and enters it again with other elements -/
theorem index_is_image_multikey :
    let e : IndexEntry := ⟨"a_1", [("a", .int32 1)], false, false, some [("b", .int32 1)]⟩
    let doc (b : Bson) (a : List Bson) : Document := [("_id", .int32 7), ("a", .array a), ("b", b)]
    let view : WriterView := ⟨[], []⟩
    let writes : List (Write × WriterView) := [(.insert (doc (.int32 1) [.int32 3, .int32 3, .int32 4]), view),
      (.update (encodeKey (.int32 7)) (doc .null [.int32 3]), view),
        (.update (encodeKey (.int32 7)) (doc (.int32 1) [.int32 5]), view)]
    ∃ t, run (step noLibraries e) Indexed.empty writes = some t ∧ IsImage noLibraries e t := by
  intro e doc view writes
  obtain ⟨t, ht⟩ : ∃ t, run (step noLibraries e) Indexed.empty writes = some t := ⟨_, rfl⟩
  have halong : Along (step noLibraries e) (fun s w => Unshared noLibraries e s w.1) Indexed.empty writes := by
    -- there is no other document
    have hnone : ∀ key k, ¬ Others noLibraries e Indexed.empty key k := by
      rintro key k ⟨_, _, -, hget, -⟩
      cases hget
    refine ⟨trivial, fun s hs =>
      ⟨fun _ _ k _ _ hothers => ?_, fun s' hs' => ⟨fun _ _ k _ _ hothers => ?_, fun _ _ => trivial⟩⟩⟩
    · cases hs
      exact hnone _ _ ((others_put _ _).1 hothers)
    · cases hs
      cases hs'
      have hbefore := (others_put _ _).1 hothers
      exact hnone _ _ ((others_put _ _).1 hbefore)
  exact ⟨t, ht, (index_is_image noLibraries e _ t writes (isImage_empty _ _) ht halong).1⟩

/-- two documents with one key: without the first, the second has no entry -/
theorem index_loses_shared_key :
    let e : IndexEntry := ⟨"a_1", [("a", .int32 1)], false, false, none⟩
    let id : Bson := .binary ⟨0, [0, 0, 0, 0, 1] ++ encodeKey (.int32 1)⟩
    let first : Document := [("_id", id), ("a", .document [("x", .document []), ("`", .minKey)])]
    let oid : ObjectId := ⟨[0, 0, 0, 1, 0x50, 0, 0, 0, 0, 0x17, 0, 0], rfl⟩
    let second : Document := [("_id", .int32 1), ("a", .document [("x", .document [("", .objectId oid)])])]
    let view : WriterView := ⟨[], []⟩
    let writes : List (Write × WriterView) :=
      [(.insert first, view), (.insert second, view), (.delete (encodeKey id), view)]
    IsImage noLibraries e Indexed.empty ∧ ∃ t, run (step noLibraries e) Indexed.empty writes = some t ∧
      ¬ IsImage noLibraries e t := by
  intro e id first oid second view writes
  refine ⟨isImage_empty _ _, _, rfl, fun h => ?_⟩
  have hkey : encodeCompoundKey [(.document [("x", .document [("", .objectId oid)])], true), (.int32 1, true)] ∈
      keysOf noLibraries e second := by decide +zetaReduce
  have hlive := (h _).2 ⟨encodeKey (.int32 1), second, rfl, hkey⟩
  exact absurd hlive (by decide +zetaReduce)

/-! ## The answer of the unique check -/

/-- a key with these encoded values in front of its `_id` -/
def HasValues (fieldValues : List (Bson × Bool)) (k : Bytes) : Prop :=
  ∃ id, k = encodeCompoundKey fieldValues ++ COMPOUND_SEP :: encodeKey id

/-- within the range that the check looks at -/
def Scanned (fieldValues : List (Bson × Bool)) (k : Bytes) : Prop :=
  (uniqueRange fieldValues).1 ≤ k ∧ k < (uniqueRange fieldValues).2

section Unique

variable {base index : Entries} {ws : List SecIndexWrite} {fieldValues : List (Bson × Bool)} {docId : Bson}

theorem HasValues.scanned {k : Bytes} (h : HasValues fieldValues k) : Scanned fieldValues k := by
  obtain ⟨id, rfl⟩ := h
  refine ⟨?_, (Below.prepend _ (.head (by decide))).lt⟩
  have hle := le_append (encodeCompoundKey fieldValues ++ [COMPOUND_SEP]) (encodeKey id)
  rwa [append_assoc] at hle

end Unique

end Mqlite.Index
