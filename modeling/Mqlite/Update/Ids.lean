/-
What an operator update does to `_id` (`update/mod.rs`).

`modify_nested_inner` leaves the path `_id` alone. It does not look at longer paths, so that a path that goes on behind
`_id` is walked like any other one: in a document that is the `_id` it changes a field, and an `_id` of another kind is
overwritten with a document. `$rename` removes and sets its paths in the same way.

Results:
- `applyUpdate_keeps_id`: an update that writes no path below `_id` leaves `_id` as it is;
- `applyUpdate_id_becomes_document`: with an `_id` that is no array, every other update that is not a `$rename` makes it
  a document.
-/
import Mqlite.Lib.Except
import Mqlite.Update.Operators

namespace Mqlite.Update

open Lib Query List

/-- a path that goes on behind `_id` -/
def underId (path : String) : Bool := (segments path).head? = some "_id" && 1 < (segments path).length

/-- the paths that an operator writes -/
def operatorPaths (isInsert : Bool) (op : UpdateOperator) (args : Document) : List String :=
  match op with
  | .rename => args.flatMap fun p =>
      match p.2 with
      | .string newPath => [p.1, newPath]
      | _ => [p.1]
  | .setOnInsert => if isInsert then args.map Prod.fst else []
  | _ => args.map Prod.fst

def writtenPaths (isInsert : Bool) (update : Document) : List String := update.flatMap fun p =>
  match UpdateOperator.ofName? p.1, p.2 with
  | some op, .document args => operatorPaths isInsert op args
  | _, _ => []

/-! ## From writes to updates -/

section Invariants

variable {env : Env} {ctx : UpdateContext} {args update : Document} {t t' : Target} {P Q : Target → Prop}
  {nowMs : Int64} {isInsert : Bool}

variable {parse : String → Bson → Except UpdateError LeafOp} {p : String × Bson} {op : UpdateOperator}

theorem applyEach_step
    (h : (do let op ← parse p.1 p.2; write env ctx p.1 op t) = Except.ok t') :
    ∃ op, write env ctx p.1 op t = .ok t' := by
  obtain ⟨op, -, h⟩ := bind_eq_ok h
  exact ⟨op, h⟩

/-- every operator but `$rename` writes each of its paths once, or none at all -/
theorem applyOperator_inv (h : applyOperator env ctx nowMs isInsert op args t = .ok t') :
    op = .rename ∧ applyRename env ctx args t = .ok t' ∨ (operatorPaths isInsert op args = [] ∧ t' = t) ∨
      (operatorPaths isInsert op args = args.map Prod.fst ∧ ∃ parse, applyEach env ctx parse args t = .ok t') := by
  cases op
  case rename => exact .inl ⟨rfl, h⟩
  case setOnInsert =>
    cases isInsert with
    | false =>
      cases h
      exact .inr (.inl ⟨rfl, rfl⟩)
    | true => exact .inr (.inr ⟨rfl, fun _ value => .ok (setOp value), h⟩)
  all_goals
    simp only [applyOperator, applySet, applyUnset, applyArithmeticUpdate, applyMinMax, applyPush, applyPull,
      applyPullAll, applyAddToSet, applyPop, applyBit, applyCurrentDate] at h
    exact .inr (.inr ⟨rfl, _, h⟩)

/-- what every write to one of the operator's paths keeps -/
theorem applyOperator_invariant
    (hwrite : ∀ path ∈ operatorPaths isInsert op args, ∀ leaf t t', P t → write env ctx path leaf t = .ok t' → P t')
    (ht : P t) (h : applyOperator env ctx nowMs isInsert op args t = .ok t') : P t' := by
  rcases applyOperator_inv h with ⟨rfl, h⟩ | ⟨-, rfl⟩ | ⟨hpaths, parse, h⟩
  · refine foldlM_invariant (fun p hp t t' ht h => ?_) ht h
    unfold renameOne at h
    split at h
    next newPath hnew =>
      have hmem : ∀ path ∈ [p.1, newPath], path ∈ operatorPaths isInsert .rename args :=
        fun path hpath => mem_flatMap.2 ⟨p, hp, by rw [hnew]; exact hpath⟩
      split_ifs at h
      split at h
      · obtain ⟨t₁, h₁, h⟩ := bind_eq_ok h
        exact hwrite newPath (hmem _ (by simp)) _ _ _ (hwrite p.1 (hmem _ (by simp)) _ _ _ ht h₁) h
      · cases h
        exact ht
    next => cases h
  · exact ht
  · refine foldlM_invariant (fun p hp t t' ht h => ?_) ht h
    obtain ⟨leaf, h⟩ := applyEach_step h
    refine hwrite p.1 ?_ leaf t t' ht h
    rw [hpaths]
    exact mem_map_of_mem hp

/-- the step of the loop over the operators -/
theorem updateStep_inv (h : (match UpdateOperator.ofName? p.1, p.2 with
    | some op, .document args => applyOperator env ctx nowMs isInsert op args t
    | some _, args =>
      .error (.internal ("update operator '" ++ p.1 ++ "' requires a document argument, got " ++ env.debug args))
    | none, _ =>
      if startsWithDollar p.1 then .error (.unsupportedOperator p.1)
      else .error (.internal ("invalid update operator '" ++ p.1 ++ "': top-level keys must start with '$'"))) =
        Except.ok t') :
    ∃ op args, UpdateOperator.ofName? p.1 = some op ∧ p.2 = .document args ∧
      applyOperator env ctx nowMs isInsert op args t = .ok t' := by
  split at h
  · rename_i op args hop hargs
    exact ⟨op, args, hop, hargs, h⟩
  · cases h
  · split_ifs at h

end Invariants

/-! ## Writes and `_id` -/

section Writes

variable {env : Env} {ctx : UpdateContext} {path : String} {op : LeafOp} {doc : Document} {used : List String}
  {t t' : Target} {id : Bson}

theorem write_ok (h : write env ctx path op t = .ok t') :
    modifyNested env ctx path op t.doc t.used = (t'.doc, .ok t'.used) := by
  unfold write at h
  split at h
  · rename_i heq
    cases h
    exact heq
  · cases h

theorem modifyNested_id (hpath : underId path = false) :
    (modifyNested env ctx path op doc used).1.get "_id" = doc.get "_id" := by
  rw [modifyNested]
  split_ifs
  · rfl
  cases hsegs : segments path with
  | nil => rfl
  | cons head tail =>
    rw [modifyNestedInner.eq_def]
    dsimp only
    split
    · rfl
    · rfl
    · rfl
    · rfl
    · rename_i field hfield
      have hhead := classifySegment_field hfield
      subst hhead
      cases tail with
      | nil =>
        split_ifs with hid
        · rfl
        · exact get_applyLeaf fun h => hid ⟨rfl, h.symm⟩
      | cons next rest =>
        -- the path goes on, so its first segment is not `_id`
        refine get_descendField env fun h => ?_
        simp [underId, hsegs, ← h] at hpath

theorem write_keeps_id (hpath : underId path = false) (h : write env ctx path op t = .ok t') :
    t'.doc.get "_id" = t.doc.get "_id" := by
  have hwrite := @modifyNested_id env ctx path op t.doc t.used hpath
  rw [write_ok h] at hwrite
  exact hwrite

theorem underId_segments (hpath : underId path = true) : ∃ next rest, segments path = "_id" :: next :: rest := by
  cases hsegs : segments path with
  | nil => simp [underId, hsegs] at hpath
  | cons head tail =>
    cases tail with
    | nil => simp [underId, hsegs] at hpath
    | cons next rest =>
      simp [underId, hsegs] at hpath
      exact ⟨next, rest, by rw [hpath]⟩

/-- an array operator fails on a value that is no array -/
theorem inField_not_array {field missing : String} {value : Bson} {f : List Bson → Outcome (List Bson)}
    {used' : List String} (hget : doc.get field = some value) (hvalue : ∀ arr, value ≠ .array arr) {doc' : Document} :
    inField doc field missing (fun value => onArray env field value f) ≠ (doc', .ok used') := by
  intro h
  rw [inField, hget] at h
  cases value
  case array arr => exact hvalue arr rfl
  all_goals cases h

/-- a write below an `_id` that is no array leaves a document there -/
theorem write_under_id (hpath : underId path = true) (hid : t.doc.get "_id" = some id) (hnot : ∀ arr, id ≠ .array arr)
    (h : write env ctx path op t = .ok t') : ∃ d, t'.doc.get "_id" = some (.document d) := by
  obtain ⟨next, rest, hsegs⟩ := underId_segments hpath
  have hclass : classifySegment "_id" = .field "_id" := by decide
  obtain ⟨doc', used'⟩ := t'
  have hmod := write_ok h
  rw [modifyNested] at hmod
  split_ifs at hmod
  · cases hmod
  rw [hsegs, modifyNestedInner.eq_def] at hmod
  dsimp only at hmod
  rw [hclass] at hmod
  dsimp only [descendField] at hmod
  split at hmod
  · exact absurd hmod (inField_not_array hid hnot)
  · split at hmod
    · cases hmod
    · exact absurd hmod (inField_not_array hid hnot)
  · split at hmod
    · cases hmod
    · exact absurd hmod (inField_not_array hid hnot)
  · cases hmod
  · rw [hid] at hmod
    split at hmod
    · obtain ⟨rfl, -⟩ := Prod.mk.inj hmod
      exact ⟨_, Document.get_insert_self ..⟩
    · split at hmod
      · obtain ⟨rfl, -⟩ := Prod.mk.inj hmod
        exact ⟨_, Document.get_insert_self ..⟩
      · cases hmod
    · rename_i hnone
      cases hnone

end Writes

/-! ## Updates and `_id` -/

section Updates

variable {env : Env} {ctx : UpdateContext} {nowMs : Int64} {doc doc' update filter : Document}
  {arrayFilters : Option (List Document)} {isInsert : Bool} {id : Bson}

theorem applyUpdate_inv (h : applyUpdate env nowMs doc update filter arrayFilters isInsert = .ok doc') :
    ∃ ctx t', applyUpdateWithCtx env ctx nowMs isInsert update ⟨doc, []⟩ = .ok t' ∧ t'.doc = doc' := by
  obtain ⟨ctx, -, h⟩ := bind_eq_ok h
  obtain ⟨t', ht', h⟩ := bind_eq_ok h
  obtain ⟨-, -, h⟩ := bind_eq_ok h
  cases h
  exact ⟨ctx, t', ht', rfl⟩

/-- **An update that writes nothing below `_id` keeps it.** -/
theorem applyUpdate_keeps_id (hpaths : ∀ path ∈ writtenPaths isInsert update, underId path = false)
    (h : applyUpdate env nowMs doc update filter arrayFilters isInsert = .ok doc') :
    doc'.get "_id" = doc.get "_id" := by
  obtain ⟨ctx, t', ht', rfl⟩ := applyUpdate_inv h
  refine @foldlM_invariant _ _ _ _ (fun t => t.doc.get "_id" = doc.get "_id") _ _ _ (fun p hp t t' ht h => ?_) rfl ht'
  obtain ⟨op, args, hop, hargs, h⟩ := updateStep_inv h
  refine @applyOperator_invariant _ _ _ _ _ (fun t => t.doc.get "_id" = doc.get "_id") _ _ _
    (fun path hpath leaf t t₁ ht hwrite => ?_) ht h
  have hwritten : path ∈ writtenPaths isInsert update := mem_flatMap.2 ⟨p, hp, by rw [hop, hargs]; exact hpath⟩
  rw [write_keeps_id (hpaths path hwritten) hwrite, ht]

/-- an `_id` that is no array -/
def PlainId (t : Target) : Prop := ∃ id, t.doc.get "_id" = some id ∧ ∀ arr, id ≠ .array arr

def DocumentId (t : Target) : Prop := ∃ d, t.doc.get "_id" = some (.document d)

variable {t : Target}

theorem DocumentId.plain (h : DocumentId t) : PlainId t := by
  obtain ⟨d, hd⟩ := h
  exact ⟨_, hd, fun arr harr => by cases harr⟩

theorem PlainId.write {t' : Target} (ht : PlainId t) {path : String} {leaf : LeafOp}
    (h : write env ctx path leaf t = .ok t') :
    PlainId t' := by
  obtain ⟨id, hid, hnot⟩ := ht
  cases hpath : underId path with
  | false => exact ⟨id, (write_keeps_id hpath h).trans hid, hnot⟩
  | true => exact DocumentId.plain (write_under_id hpath hid hnot h)

theorem DocumentId.write {t' : Target} (ht : DocumentId t) {path : String} {leaf : LeafOp}
    (h : write env ctx path leaf t = .ok t') :
    DocumentId t' := by
  obtain ⟨d, hd⟩ := ht
  cases hpath : underId path with
  | false => exact ⟨d, (write_keeps_id hpath h).trans hd⟩
  | true => exact write_under_id hpath hd (fun arr harr => by cases harr) h

/-- the update has an operator other than `$rename` with a path below `_id` -/
def SetsUnderId (isInsert : Bool) (update : Document) : Prop :=
  ∃ p ∈ update, ∃ op args, UpdateOperator.ofName? p.1 = some op ∧
  p.2 = .document args ∧ op ≠ .rename ∧ ∃ path ∈ operatorPaths isInsert op args, underId path = true

/-- **Every other update makes it a document**, unless it is an array or the path is one of a `$rename`. -/
theorem applyUpdate_id_becomes_document (hunder : SetsUnderId isInsert update) (hid : doc.get "_id" = some id)
    (hnot : ∀ arr, id ≠ .array arr) (h : applyUpdate env nowMs doc update filter arrayFilters isInsert = .ok doc') :
    ∃ d, doc'.get "_id" = some (.document d) := by
  obtain ⟨p, hp, op, args, hop, hargs, hrename, path, hpath, hid'⟩ := hunder
  obtain ⟨ctx, t', ht', rfl⟩ := applyUpdate_inv h
  refine foldlM_reaches (Q := PlainId) (P := DocumentId) ?_ ?_ hp ?_ ⟨id, hid, hnot⟩ ht'
  · intro q hq t t₁ ht hstep
    obtain ⟨op, args, -, -, hstep⟩ := updateStep_inv hstep
    exact applyOperator_invariant (fun path _ leaf t t₁ ht hwrite => ht.write hwrite) ht hstep
  · intro q hq t t₁ ht hstep
    obtain ⟨op, args, -, -, hstep⟩ := updateStep_inv hstep
    exact applyOperator_invariant (fun path _ leaf t t₁ ht hwrite => ht.write hwrite) ht hstep
  · intro t t₁ ht hstep
    obtain ⟨op', args', hop', hargs', hstep⟩ := updateStep_inv hstep
    rw [hop] at hop'
    cases hop'
    rw [hargs] at hargs'
    cases hargs'
    rcases applyOperator_inv hstep with ⟨rfl, -⟩ | ⟨hnil, -⟩ | ⟨hmap, parse, hstep⟩
    · exact absurd rfl hrename
    · rw [hnil] at hpath
      cases hpath
    · rw [hmap] at hpath
      obtain ⟨q, hq, rfl⟩ := mem_map.1 hpath
      refine foldlM_reaches (Q := PlainId) (P := DocumentId) ?_ ?_ hq ?_ ht hstep
      · intro r hr t t₁ ht hwrite
        obtain ⟨leaf, hwrite⟩ := applyEach_step hwrite
        exact ht.write hwrite
      · intro r hr t t₁ ht hwrite
        obtain ⟨leaf, hwrite⟩ := applyEach_step hwrite
        exact ht.write hwrite
      · rintro t t₁ ⟨id, hid, hnot⟩ hwrite
        obtain ⟨leaf, hwrite⟩ := applyEach_step hwrite
        exact write_under_id hid' hid hnot hwrite

end Updates

end Mqlite.Update
