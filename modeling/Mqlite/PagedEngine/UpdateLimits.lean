/-
What an operator update can add to a document (`update/mod.rs`), for the limits of `validation.rs`.

Every operation leaves at the end of its path nothing, what was there, a number or a time, one of its arguments, or an
array of old elements and arguments (`Leaf`). So an update by paths of field names adds to the document at most its
arguments, and the documents on the way of its paths.

A meter charges for the parts of a document, as the count of fields and the length of the BSON bytes do.
- `applyUpdate_grows`: the document stays well nested, and by every meter it costs at most what it did and what the
  update costs.
-/
import Mqlite.PagedEngine.DocOps
import Mqlite.Update.PathLaws

namespace Mqlite.PagedEngine

open Lib Query Update List Document

/-! ## Nesting and names -/

def nameFits (name : String) : Bool := name.utf8ByteSize ≤ MAX_FIELD_NAME_LEN && !name.toList.contains '\x00'

mutual

/-- the names are allowed, and no document is deeper than it may be, if the value is at this depth -/
def wellNested : Bson → ℕ → Bool
  | .document fields, depth => depth ≤ MAX_NESTING_DEPTH && wellNestedFields fields depth
  | .array elems, depth => wellNestedElems elems (depth + 1)
  | _, _ => true
termination_by structural v => v

def wellNestedFields : List (String × Bson) → ℕ → Bool
  | [], _ => true
  | (name, v) :: rest, depth => nameFits name && wellNested v (depth + 1) && wellNestedFields rest depth
termination_by structural fields => fields

def wellNestedElems : List Bson → ℕ → Bool
  | [], _ => true
  | v :: rest, depth => wellNested v depth && wellNestedElems rest depth
termination_by structural elems => elems

end

section Nesting

variable {doc : Document} {elems : List Bson} {name : String} {v : Bson} {depth depth' : ℕ} {segs : List String}
  {new : Option Bson}

theorem wellNestedFields_iff {fields : List (String × Bson)} :
    wellNestedFields fields depth = true ↔ ∀ p ∈ fields, nameFits p.1 = true ∧ wellNested p.2 (depth + 1) = true := by
  induction fields with
  | nil => simp [wellNestedFields]
  | cons p rest ih => simp [wellNestedFields, ih]

theorem wellNestedElems_iff : wellNestedElems elems depth = true ↔ ∀ v ∈ elems, wellNested v depth = true := by
  induction elems with
  | nil => simp [wellNestedElems]
  | cons v rest ih => simp [wellNestedElems, ih]

mutual

/-- a value that is well nested is so further up -/
theorem wellNested_mono (v : Bson) {depth depth' : ℕ} (h : wellNested v depth = true) (hle : depth' ≤ depth) :
    wellNested v depth' = true := by
  cases v with
  | document fields =>
    rw [wellNested, Bool.and_eq_true, decide_eq_true_eq] at h ⊢
    exact ⟨hle.trans h.1, wellNestedFields_mono fields h.2 hle⟩
  | array elems => exact wellNestedElems_mono elems h (Nat.succ_le_succ hle)
  | _ => rfl
termination_by structural v

theorem wellNestedFields_mono (fields : List (String × Bson)) {depth depth' : ℕ}
    (h : wellNestedFields fields depth = true) (hle : depth' ≤ depth) : wellNestedFields fields depth' = true := by
  match fields with
  | [] => rfl
  | (name, v) :: rest =>
    rw [wellNestedFields, Bool.and_eq_true, Bool.and_eq_true] at h ⊢
    exact ⟨⟨h.1.1, wellNested_mono v h.1.2 (Nat.succ_le_succ hle)⟩, wellNestedFields_mono rest h.2 hle⟩
termination_by structural fields

theorem wellNestedElems_mono (elems : List Bson) {depth depth' : ℕ} (h : wellNestedElems elems depth = true)
    (hle : depth' ≤ depth) :
    wellNestedElems elems depth' = true := by
  match elems with
  | [] => rfl
  | v :: rest =>
    rw [wellNestedElems, Bool.and_eq_true] at h ⊢
    exact ⟨wellNested_mono v h.1 hle, wellNestedElems_mono rest h.2 hle⟩
termination_by structural elems

end

theorem mem_insert {p : String × Bson} (h : p ∈ doc.insert name v) : p = (name, v) ∨ p ∈ doc := by
  induction doc with
  | nil => exact .inl (mem_singleton.1 h)
  | cons q doc ih =>
    rw [Document.insert] at h
    split_ifs at h
    · exact (mem_cons.1 h).imp_right (mem_cons_of_mem _)
    · rcases mem_cons.1 h with rfl | h
      · exact .inr mem_cons_self
      · exact (ih h).imp_right (mem_cons_of_mem _)

theorem insert_wellNested (hdoc : wellNestedFields doc depth = true) (hname : nameFits name = true)
    (hv : wellNested v (depth + 1) = true) : wellNestedFields (doc.insert name v) depth = true := by
  rw [wellNestedFields_iff] at hdoc ⊢
  intro p hp
  rcases mem_insert hp with rfl | hp
  · exact ⟨hname, hv⟩
  · exact hdoc p hp

theorem subDocument_wellNested (hdoc : wellNestedFields doc depth = true) (name : String) :
    wellNestedFields (subDocument doc name) (depth + 1) = true := by
  rw [subDocument]
  split
  next sub hget =>
    have hsub := (wellNestedFields_iff.1 hdoc _ (mem_of_get hget)).2
    rw [wellNested, Bool.and_eq_true] at hsub
    exact hsub.2
  · rfl

/-- the documents on the way of a path are not too deep, and neither is what is put at its end -/
theorem putAt_wellNested (hdoc : wellNestedFields doc depth = true) (hnames : ∀ s ∈ segs, nameFits s = true)
    (hdepth : depth + segs.length ≤ MAX_NESTING_DEPTH + 1)
    (hnew : ∀ v ∈ new, wellNested v (depth + segs.length) = true) :
    wellNestedFields (putAt new doc segs) depth = true := by
  induction segs generalizing doc depth with
  | nil => exact hdoc
  | cons name rest ih =>
    obtain ⟨hname, hrest⟩ := forall_mem_cons.1 hnames
    cases rest with
    | nil =>
      cases new with
      | some v => exact insert_wellNested hdoc hname (hnew v rfl)
      | none => exact wellNestedFields_iff.2 fun p hp => wellNestedFields_iff.1 hdoc p (mem_of_mem_eraseP hp)
    | cons next rest =>
      have hlen : depth + (name :: next :: rest).length = depth + 1 + (next :: rest).length := by simp; omega
      rw [hlen] at hdepth hnew
      refine insert_wellNested hdoc hname ?_
      rw [wellNested, Bool.and_eq_true, decide_eq_true_eq]
      refine ⟨?_, ih (subDocument_wellNested hdoc name) hrest hdepth hnew⟩
      simp only [length_cons] at hdepth
      omega

/-- the reader finds values that are well nested where they are -/
theorem getNested_wellNested (hdoc : wellNestedFields doc depth = true) (h : getNested doc segs = some v) :
    wellNested v (depth + segs.length) = true := by
  induction segs generalizing doc depth with
  | nil => cases h
  | cons name rest ih =>
    cases rest with
    | nil => exact (wellNestedFields_iff.1 hdoc _ (mem_of_get h)).2
    | cons next rest =>
      have hlen : depth + (name :: next :: rest).length = depth + 1 + (next :: rest).length := by simp; omega
      rw [hlen]
      rw [getNested] at h
      split at h
      next sub hget =>
        have hsub := (wellNestedFields_iff.1 hdoc _ (mem_of_get hget)).2
        rw [wellNested, Bool.and_eq_true] at hsub
        exact ih hsub.2 h
      next arr hget =>
        split_ifs at h with hlast
        subst hlast
        obtain ⟨i, -, hi⟩ := Option.bind_eq_some_iff.1 h
        have harr := (wellNestedFields_iff.1 hdoc _ (mem_of_get hget)).2
        exact wellNestedElems_iff.1 harr v (mem_of_getElem? hi)
      · cases h

end Nesting

/-! ## Meters -/

/-- numbers and times: what an operator can compute -/
def isComputed : Bson → Bool
  | .double _ => true
  | .int32 _ => true
  | .int64 _ => true
  | .dateTime _ => true
  | .timestamp _ => true
  | _ => false

/-- what the parts of a document cost; `computed` is enough for every number and time -/
structure Meter where
  field : String → ℕ
  elem : ℕ
  container : ℕ
  scalar : Bson → ℕ
  computed : ℕ
  computed_le : ∀ v, isComputed v = true → scalar v ≤ computed

namespace Meter

variable (m : Meter)

mutual

def value : Bson → ℕ
  | .document doc => m.container + fields doc
  | .array arr => m.container + elems arr
  | v => m.scalar v
termination_by structural v => v

def fields : List (String × Bson) → ℕ
  | [] => 0
  | (name, v) :: rest => m.field name + value v + fields rest
termination_by structural doc => doc

def elems : List Bson → ℕ
  | [] => 0
  | v :: rest => m.elem + value v + elems rest
termination_by structural arr => arr

end

/-- the documents and names on the way of a path -/
def path (segs : List String) : ℕ := (segs.map fun s => m.field s + m.container).sum

/-- what can be left at the end of a path, besides what was there -/
def leaf (added : List Bson) : ℕ := m.computed + m.container + m.elems added

def opt (v : Option Bson) : ℕ := (v.map m.value).getD 0

variable {doc : Document} {name : String} {v : Bson} {segs : List String} {elems elems' : List Bson} {new : Option Bson}

theorem elems_eq_sum (elems : List Bson) : m.elems elems = (elems.map fun v => m.elem + m.value v).sum := by
  induction elems with
  | nil => rfl
  | cons v rest ih => rw [Meter.elems, ih, map_cons, sum_cons]

theorem elems_append (elems elems' : List Bson) : m.elems (elems ++ elems') = m.elems elems + m.elems elems' := by
  simp only [elems_eq_sum, map_append, sum_append]

theorem elems_le_of_subperm (h : elems <+~ elems') : m.elems elems ≤ m.elems elems' := by
  obtain ⟨l, hperm, hsub⟩ := h
  rw [elems_eq_sum, elems_eq_sum, ← (hperm.map _).sum_eq]
  exact (hsub.map _).sum_le_sum fun _ _ => Nat.zero_le _

theorem value_le_elems (h : v ∈ elems) : m.value v ≤ m.elems elems := by
  rw [elems_eq_sum]
  exact (Nat.le_add_left _ _).trans (single_le_sum (fun _ _ => Nat.zero_le _) _ (mem_map_of_mem h))

/-- the old value of the field is not there any more -/
theorem fields_insert (doc : Document) (name : String) (v : Bson) :
    m.fields (doc.insert name v) + m.opt (doc.get name) ≤ m.fields doc + m.field name + m.value v := by
  induction doc with
  | nil => simp [Document.insert, Document.get, opt, fields]
  | cons p doc ih =>
    rw [Document.insert]
    split_ifs with hp
    · simp only [Document.get, find?_cons_of_pos (p := fun q : String × Bson => decide (q.1 = name))
        (decide_eq_true hp), opt, Option.map_some, Option.getD_some, fields, hp]
      omega
    · have hget : Document.get (p :: doc) name = Document.get doc name := by simp [Document.get, hp]
      rw [hget, fields, fields]
      omega

theorem fields_remove (doc : Document) (name : String) :
    m.fields (doc.remove name) + m.opt (doc.get name) ≤ m.fields doc := by
  induction doc with
  | nil => simp [Document.remove, Document.get, opt, fields]
  | cons p doc ih =>
    by_cases hp : p.1 = name
    · simp [Document.remove, Document.get, hp, opt, fields]
      omega
    · have hget : Document.get (p :: doc) name = Document.get doc name := by simp [Document.get, hp]
      have hrem : Document.remove (p :: doc) name = p :: Document.remove doc name := by simp [Document.remove, hp]
      rw [hget, hrem, fields, fields]
      omega

/-- what the reader finds at the path is not there any more -/
theorem fields_putAt (new : Option Bson) (doc : Document) (segs : List String) (hne : segs ≠ []) :
    m.fields (putAt new doc segs) + m.opt (getNested doc segs) ≤ m.fields doc + m.path segs + m.opt new := by
  induction segs generalizing doc with
  | nil => exact absurd rfl hne
  | cons name rest ih =>
    cases rest with
    | nil =>
      cases new with
      | some v =>
        have := m.fields_insert doc name v
        simp only [putAt, getNested, path, map_cons, map_nil, sum_cons, sum_nil, opt, Option.map_some,
          Option.getD_some] at *
        omega
      | none =>
        have := m.fields_remove doc name
        simp only [putAt, getNested]
        omega
    | cons next rest =>
      have hpath : m.path (name :: next :: rest) = m.field name + m.container + m.path (next :: rest) := rfl
      have hinsert := m.fields_insert doc name (.document (putAt new (subDocument doc name) (next :: rest)))
      have hbelow := ih (subDocument doc name) (cons_ne_nil _ _)
      rw [putAt, hpath, getNested]
      rw [value] at hinsert
      split
      next sub hget =>
        rw [hget] at hinsert
        rw [subDocument_of_get hget] at hinsert hbelow ⊢
        simp only [opt, Option.map_some, Option.getD_some, value] at hinsert hbelow ⊢
        omega
      next arr hget =>
        have hsub : subDocument doc name = [] := by rw [subDocument, hget]
        rw [hget] at hinsert
        rw [hsub] at hinsert hbelow ⊢
        have helem : m.opt (if rest = [] then (parseUsize next).bind (arr[·]?) else none) ≤ m.value (.array arr) := by
          split_ifs
          · cases hi : (parseUsize next).bind (arr[·]?) with
            | none => exact Nat.zero_le _
            | some v =>
              obtain ⟨i, -, hi⟩ := Option.bind_eq_some_iff.1 hi
              exact (m.value_le_elems (mem_of_getElem? hi)).trans (Nat.le_add_left _ _)
          · exact Nat.zero_le _
        simp only [opt, Option.map_some, Option.getD_some, fields] at hinsert hbelow helem ⊢
        omega
      next hnot _ =>
        have hsub : subDocument doc name = [] := by
          refine subDocument_of_not ?_
          rintro ⟨sub, h⟩
          exact hnot sub h
        rw [hsub] at hinsert hbelow ⊢
        simp only [fields] at hbelow
        simp only [opt, Option.map_none, Option.getD_none] at hinsert hbelow ⊢
        omega

end Meter

/-! ## What operations leave -/

/-- the values of an argument that can come into the document -/
def addedValues (op : UpdateOperator) (arg : Bson) : List Bson :=
  match op with
  | .set => [arg]
  | .setOnInsert => [arg]
  | .min => [arg]
  | .max => [arg]
  | .push => addToSetElements arg
  | .addToSet => addToSetElements arg
  | _ => []

/-- how far below the end of the path they are -/
def addedDepth (op : UpdateOperator) : ℕ :=
  match op with
  | .push => 1
  | .addToSet => 1
  | _ => 0

/-- what an operation can leave where it has found `current` -/
inductive Leaf (added : List Bson) (below : ℕ) (current : Option Bson) : Option Bson → Prop
  | removed : Leaf added below current none
  | same : Leaf added below current current
  | computed {v : Bson} (h : isComputed v = true) : Leaf added below current (some v)
  | value {v : Bson} (h : v ∈ added) (hbelow : below = 0) : Leaf added below current (some v)
  | array {arr out : List Bson} (hcur : current = some (.array arr) ∨ arr = []) (hout : out <+~ arr ++ added)
    (hbelow : added = [] ∨ below = 1) : Leaf added below current (some (.array out))

section Leaves

variable {env : Update.Env} {ctx : UpdateContext} {op : UpdateOperator} {current new : Option Bson}
  {added arr out each : List Bson} {below : ℕ} {path : String} {arg : Bson} {leaf : LeafOp} {args : Document}
  {nowMs : Int64} {isInsert : Bool} {t t' : Target}

theorem arrayOr_ok {name : String} (h : arrayOr name path current = .ok arr) :
    current = some (.array arr) ∨ arr = [] := by
  unfold arrayOr at h
  split at h
  · cases h
    exact .inr rfl
  · cases h
    exact .inl rfl
  · cases h

theorem insertAt_perm (arr each : List Bson) (pos : ℤ) : insertAt arr each pos ~ arr ++ each := by
  rw [insertAt]
  generalize (if pos < 0 then (arr.length + pos).toNat else min pos.toNat arr.length) = n
  calc arr.take n ++ each ++ arr.drop n ~ arr.take n ++ (arr.drop n ++ each) := by
        rw [append_assoc]
        exact perm_append_comm.append_left _
    _ = arr ++ each := by rw [← append_assoc, take_append_drop]

theorem sortBsonArray_perm {spec : Bson} (h : sortBsonArray env arr spec = .ok out) : out ~ arr := by
  unfold sortBsonArray at h
  split at h
  · split_ifs at h <;> cases h <;> exact mergeSort_perm ..
  · cases h
    exact mergeSort_perm ..
  · cases h

theorem sliceBsonArray_sublist (arr : List Bson) (n : ℤ) : sliceBsonArray arr n <+ arr := by
  rw [sliceBsonArray]
  split_ifs
  · exact take_sublist ..
  · exact drop_sublist ..

theorem addToSet_sublist (arr each : List Bson) : addToSet arr each <+ arr ++ each := by
  induction each generalizing arr with
  | nil => simp [addToSet]
  | cons v each ih =>
    rw [addToSet]
    split_ifs
    · exact (ih arr).trans ((Sublist.refl arr).append (sublist_cons_self v each))
    · simpa using ih (arr ++ [v])

theorem pullElements_sublist {condition : Bson} (h : pullElements env condition arr = .ok out) : out <+ arr := by
  induction arr generalizing out with
  | nil =>
    cases h
    exact Sublist.refl _
  | cons v arr ih =>
    obtain ⟨pulled, -, h⟩ := bind_eq_ok h
    obtain ⟨rest, hrest, h⟩ := bind_eq_ok h
    cases h
    split_ifs
    · exact (ih hrest).cons v
    · exact (ih hrest).cons_cons v

/-- an operator that takes elements out of an array -/
theorem onArrayOnly_leaf {f : List Bson → Except UpdateError (List Bson)} (hf : ∀ arr out, f arr = .ok out → out <+ arr)
    (h : onArrayOnly f current = .ok new) : Leaf [] below current new := by
  unfold onArrayOnly at h
  split at h
  · obtain ⟨out, hout, h⟩ := bind_eq_ok h
    cases h
    exact .array (.inl rfl) (by simpa using (hf _ _ hout).subperm) (.inl rfl)
  · cases h
    exact .same

theorem pushOp_leaf (h : pushOp path arg current = .ok new) : Leaf [arg] 1 current new := by
  obtain ⟨arr, harr, h⟩ := bind_eq_ok h
  cases h
  exact .array (arrayOr_ok harr) (Subperm.refl _) (.inr rfl)

theorem addedValues_push (h : ∀ modifier, arg = .document modifier → Document.containsKey modifier "$each" = false) :
    addedValues .push arg = [arg] := by
  cases arg with
  | document modifier =>
    have hnone : Document.get modifier "$each" = none := by simpa [Document.containsKey] using h modifier rfl
    simp only [addedValues, addToSetElements, hnone]
  | _ => rfl

theorem pushModifiersOp_leaf {modifiers : Document} (hparse : pushModifiersOp env path modifiers = .ok leaf)
    (h : leaf current = .ok new) : Leaf (addToSetElements (.document modifiers)) 1 current new := by
  unfold pushModifiersOp at hparse
  split at hparse
  next each heach =>
    cases hparse
    obtain ⟨arr, harr, h⟩ := bind_eq_ok h
    simp only [addToSetElements, heach]
    -- the elements are put in, then sorted, then cut
    have hleaf : ∀ {put sorted cut : List Bson}, put ~ arr ++ each → sorted ~ put → cut <+~ sorted →
        Leaf each 1 current (some (.array cut)) := fun hput hsorted hcut =>
      .array (arrayOr_ok harr) (hcut.trans (hsorted.trans hput).subperm) (.inr rfl)
    dsimp only at h
    split at h
    · obtain ⟨sorted, hsorted, h⟩ := bind_eq_ok h
      cases h
      refine hleaf ?_ (sortBsonArray_perm hsorted) ?_ <;> split
      exacts [insertAt_perm .., Perm.refl _, (sliceBsonArray_sublist ..).subperm, Subperm.refl _]
    · cases h
      split
      · refine hleaf ?_ (Perm.refl _) (sliceBsonArray_sublist ..).subperm
        split
        exacts [insertAt_perm .., Perm.refl _]
      · refine hleaf ?_ (Perm.refl _) (Subperm.refl _)
        split
        exacts [insertAt_perm .., Perm.refl _]
  · cases hparse

theorem applyBitOps_leaf {ops : List BitOp} (h : applyBitOps env ops current = .ok new) :
    Leaf added below current new := by
  have hint : ∀ (wide : Bool) (acc : Int64), isComputed (if wide then .int64 acc else .int32 acc.toInt32) = true := by
    intro wide acc
    cases wide <;> rfl
  unfold applyBitOps at h
  split at h <;> cases h <;> exact .computed (hint ..)

theorem isComputed_numericResult (current : Option Bson) (x : F64) :
    isComputed (Bson.numericResult current x) = true := by
  unfold Bson.numericResult
  split
  · split_ifs <;> rfl
  · split_ifs <;> rfl
  · rfl

/-- **What operators leave.** Every operator but `$rename` does such an operation at each of its paths, or nothing. -/
theorem applyOperator_leaves (hop : op ≠ .rename) (h : applyOperator env ctx nowMs isInsert op args t = .ok t') :
    t' = t ∨ ∃ parse, applyEach env ctx parse args t = .ok t' ∧ ∀ path arg leaf current new,
      parse path arg = .ok leaf → leaf current = .ok new → Leaf (addedValues op arg) (addedDepth op) current new := by
  cases op with
  | rename => exact absurd rfl hop
  | set =>
    simp only [applyOperator, applySet] at h
    refine .inr ⟨_, h, fun path arg leaf current new hparse hnew => ?_⟩
    cases hparse
    cases hnew
    exact .value mem_cons_self rfl
  | setOnInsert =>
    cases isInsert with
    | false =>
      cases h
      exact .inl rfl
    | true =>
      simp only [applyOperator, if_true, applySet] at h
      refine .inr ⟨_, h, fun path arg leaf current new hparse hnew => ?_⟩
      cases hparse
      cases hnew
      exact .value mem_cons_self rfl
  | unset =>
    simp only [applyOperator, applyUnset] at h
    refine .inr ⟨_, h, fun path arg leaf current new hparse hnew => ?_⟩
    cases hparse
    cases hnew
    exact .removed
  | inc | mul =>
    simp only [applyOperator, applyArithmeticUpdate] at h
    refine .inr ⟨_, h, fun path arg leaf current new hparse hnew => ?_⟩
    split at hparse <;> cases hparse
    cases hnew
    exact .computed (isComputed_numericResult ..)
  | min | max =>
    simp only [applyOperator, applyMinMax] at h
    refine .inr ⟨_, h, fun path arg leaf current new hparse hnew => ?_⟩
    cases hparse
    dsimp only at hnew
    split at hnew
    · cases hnew
      exact .value mem_cons_self rfl
    · cases hnew
      split_ifs
      · exact .value mem_cons_self rfl
      · exact .same
  | push =>
    simp only [applyOperator, applyPush] at h
    refine .inr ⟨_, h, fun path arg leaf current new hparse hnew => ?_⟩
    split at hparse
    next modifier =>
      split_ifs at hparse with heach
      · exact pushModifiersOp_leaf hparse hnew
      · cases hparse
        rw [addedValues_push (by simpa using heach)]
        exact pushOp_leaf hnew
    next hnot =>
      cases hparse
      rw [addedValues_push fun modifier h => absurd h (hnot modifier)]
      exact pushOp_leaf hnew
  | addToSet =>
    simp only [applyOperator, applyAddToSet] at h
    refine .inr ⟨_, h, fun path arg leaf current new hparse hnew => ?_⟩
    cases hparse
    obtain ⟨arr, harr, hnew⟩ := bind_eq_ok hnew
    cases hnew
    exact .array (arrayOr_ok harr) (addToSet_sublist ..).subperm (.inr rfl)
  | pull =>
    simp only [applyOperator, applyPull] at h
    refine .inr ⟨_, h, fun path arg leaf current new hparse hnew => ?_⟩
    cases hparse
    exact onArrayOnly_leaf (fun _ _ => pullElements_sublist) hnew
  | pullAll =>
    simp only [applyOperator, applyPullAll] at h
    refine .inr ⟨_, h, fun path arg leaf current new hparse hnew => ?_⟩
    split at hparse <;> cases hparse
    refine onArrayOnly_leaf (fun _ _ hout => ?_) hnew
    cases hout
    exact filter_sublist
  | pop =>
    simp only [applyOperator, applyPop] at h
    refine .inr ⟨_, h, fun path arg leaf current new hparse hnew => ?_⟩
    split at hparse <;> cases hparse
    refine onArrayOnly_leaf (fun arr _ hout => ?_) hnew
    cases hout
    split_ifs
    · exact dropLast_sublist arr
    · exact tail_sublist arr
  | bit =>
    simp only [applyOperator, applyBit] at h
    refine .inr ⟨_, h, fun path arg leaf current new hparse hnew => ?_⟩
    split at hparse
    · obtain ⟨ops, -, hparse⟩ := bind_eq_ok hparse
      cases hparse
      exact applyBitOps_leaf hnew
    · cases hparse
  | currentDate =>
    simp only [applyOperator, applyCurrentDate] at h
    refine .inr ⟨_, h, fun path arg leaf current new hparse hnew => ?_⟩
    split at hparse
    · split at hparse <;> cases hparse <;> cases hnew <;> exact .computed rfl
    · cases hparse
      cases hnew
      exact .computed rfl

theorem Leaf.opt_le (m : Meter) (h : Leaf added below current new) : m.opt new ≤ m.opt current + m.leaf added := by
  cases h with
  | removed => exact Nat.zero_le _
  | same => exact Nat.le_add_right _ _
  | @computed v hv =>
    have hscalar : m.value v = m.scalar v := by
      cases v <;> first | rfl | cases hv
    have hle := m.computed_le v hv
    simp only [Meter.opt, Option.map_some, Option.getD_some, Meter.leaf, hscalar]
    omega
  | @value v hv =>
    have hle := m.value_le_elems hv
    simp only [Meter.opt, Option.map_some, Option.getD_some, Meter.leaf]
    omega
  | @array arr out hcur hout =>
    have hle := m.elems_le_of_subperm hout
    rw [Meter.elems_append] at hle
    have harr : m.elems arr ≤ m.opt current := by
      rcases hcur with rfl | rfl
      · exact Nat.le_add_left _ _
      · exact Nat.zero_le _
    rw [show m.opt (some (.array out)) = m.container + m.elems out from rfl, Meter.leaf]
    omega

theorem Leaf.wellNested {depth : ℕ} (h : Leaf added below current new)
    (hcurrent : ∀ v ∈ current, wellNested v depth = true)
    (hadded : ∀ v ∈ added, PagedEngine.wellNested v (depth + below) = true) :
    ∀ v ∈ new, PagedEngine.wellNested v depth = true := by
  intro w hw
  cases h with
  | removed => cases hw
  | same => exact hcurrent w hw
  | computed hv =>
    cases hw
    cases w <;> first | rfl | cases hv
  | value hv hbelow =>
    cases hw
    subst hbelow
    exact hadded w hv
  | @array arr out hcur hout hbelow =>
    cases hw
    refine wellNestedElems_iff.2 fun v hv => ?_
    rcases mem_append.1 (hout.subset hv) with hv | hv
    · rcases hcur with rfl | rfl
      · exact wellNestedElems_iff.1 (hcurrent _ rfl) v hv
      · cases hv
    · rcases hbelow with rfl | rfl
      · cases hv
      · exact hadded v hv

end Leaves

/-! ## Updates -/

/-- a path of field names, not too long for what is at its end -/
def pathFits (path : String) : Bool :=
  !pathHasPositional path && (segments path).all nameFits && (segments path).length ≤ MAX_NESTING_DEPTH + 1

/-- a `$rename` moves a value, which is not the `_id`, no further down; the values that other operators add are well
nested there -/
def argFits (op : UpdateOperator) (path : String) (arg : Bson) : Bool :=
  match op, arg with
  | .rename, .string newPath =>
    pathFits path && pathFits newPath && (segments newPath).length ≤ (segments path).length &&
      !protectedPath (segments path)
  | op, arg => pathFits path && (addedValues op arg).all fun v => wellNested v ((segments path).length + addedDepth op)

def updateFits (update : Document) : Bool := update.all fun p =>
  match UpdateOperator.ofName? p.1, p.2 with
  | some op, .document args => args.all fun a => argFits op a.1 a.2
  | _, _ => true

namespace Meter

variable (m : Meter)

/-- what a path and its argument can add -/
def arg (op : UpdateOperator) (path : String) (arg : Bson) : ℕ :=
  match op, arg with
  | .rename, .string newPath => m.path (segments path) + m.path (segments newPath) + m.elem + m.leaf []
  | op, arg => m.path (segments path) + m.leaf (addedValues op arg)

def update (update : Document) : ℕ := (update.map fun p =>
  match UpdateOperator.ofName? p.1, p.2 with
  | some op, .document args => (args.map fun a => m.arg op a.1 a.2).sum
  | _, _ => 0).sum

end Meter

section Updates

variable (m : Meter) {env : Update.Env} {ctx : UpdateContext} {op : UpdateOperator} {path newPath : String}
  {leaf : LeafOp} {args update filter doc doc' : Document} {nowMs : Int64} {isInsert : Bool} {t t' : Target}
  {added : List Bson} {below : ℕ} {arrayFilters : Option (List Document)} {p : String × Bson}

theorem pathFits_iff : pathFits path = true ↔
    pathHasPositional path = false ∧ (∀ s ∈ segments path, nameFits s = true) ∧
      (segments path).length ≤ MAX_NESTING_DEPTH + 1 := by
  simp [pathFits, and_assoc]

/-- a write puts what the operation returns, or what is there, at the end of the path -/
theorem write_putAt (hpath : pathFits path = true) (h : write env ctx path leaf t = .ok t') :
    ∃ new, (leaf (embedded t.doc (segments path)) = .ok new ∨ new = embedded t.doc (segments path)) ∧
      t'.doc = putAt new t.doc (segments path) := by
  rw [write_plain (pathFits_iff.1 hpath).1] at h
  obtain ⟨new, hnew, rfl⟩ := map_eq_ok h
  refine ⟨new, ?_, rfl⟩
  rw [atEnd] at hnew
  split_ifs at hnew
  · cases hnew
    exact .inr rfl
  · exact .inl hnew

theorem write_grows (hpath : pathFits path = true)
    (hleaf : ∀ new, leaf (embedded t.doc (segments path)) = .ok new →
      Leaf added below (embedded t.doc (segments path)) new)
    (hadded : ∀ v ∈ added, wellNested v ((segments path).length + below) = true) (ht : wellNestedFields t.doc 0 = true)
    (h : write env ctx path leaf t = .ok t') :
    wellNestedFields t'.doc 0 = true ∧ m.fields t'.doc ≤ m.fields t.doc + (m.path (segments path) + m.leaf added) := by
  obtain ⟨new, hnew, hdoc⟩ := write_putAt hpath h
  obtain ⟨-, hnames, hlen⟩ := pathFits_iff.1 hpath
  have hnew : Leaf added below (embedded t.doc (segments path)) new := hnew.elim (hleaf new) fun heq => heq ▸ .same
  have hfound : ∀ v ∈ embedded t.doc (segments path), getNested t.doc (segments path) = some v :=
    fun v => getNested_of_embedded
  have hopt : m.opt (embedded t.doc (segments path)) ≤ m.opt (getNested t.doc (segments path)) := by
    cases hemb : embedded t.doc (segments path) with
    | none => exact Nat.zero_le _
    | some v => rw [hfound v hemb]
  have hput := m.fields_putAt new t.doc _ (segments_ne_nil path)
  have hle := hnew.opt_le m
  rw [hdoc]
  refine ⟨putAt_wellNested ht hnames (by omega) ?_, by omega⟩
  rw [Nat.zero_add]
  refine hnew.wellNested (fun v hv => ?_) hadded
  simpa using getNested_wellNested ht (hfound v hv)

/-- the value that a `$rename` sets is one that it has removed -/
theorem renameOne_grows (hfits : argFits .rename p.1 p.2 = true) (ht : wellNestedFields t.doc 0 = true)
    (h : renameOne env ctx p.1 p.2 t = .ok t') :
    wellNestedFields t'.doc 0 = true ∧ m.fields t'.doc ≤ m.fields t.doc + m.arg .rename p.1 p.2 := by
  unfold renameOne at h
  split at h
  next newPath hnew =>
    rw [hnew, argFits, Bool.and_eq_true, Bool.and_eq_true, Bool.and_eq_true, decide_eq_true_eq,
      Bool.not_eq_true'] at hfits
    obtain ⟨⟨⟨hold, hto⟩, hlen⟩, hid⟩ := hfits
    rw [hnew, Meter.arg]
    split_ifs at h
    split at h
    next val hval =>
      obtain ⟨t₁, h₁, h⟩ := bind_eq_ok h
      rw [write_plain (pathFits_iff.1 hold).1, atEnd, if_neg (by simp [hid])] at h₁
      cases h₁
      obtain ⟨-, hnames, hlong⟩ := pathFits_iff.1 hold
      have hremoved := m.fields_putAt none t.doc _ (segments_ne_nil p.1)
      rw [show getNested t.doc (segments p.1) = some val from hval] at hremoved
      have hnested : wellNestedFields (putAt none t.doc (segments p.1)) 0 = true :=
        putAt_wellNested ht hnames (by omega) (by simp)
      have hvalue : wellNested val (segments newPath).length = true :=
        wellNested_mono val (getNested_wellNested ht hval) (by omega)
      have hleaf : ∀ current new, setOp val current = .ok new → Leaf [val] 0 current new := by
        intro current new hnew
        cases hnew
        exact .value mem_cons_self rfl
      obtain ⟨hnested', hset⟩ := write_grows m hto (hleaf _) (by simpa using hvalue) hnested h
      refine ⟨hnested', hset.trans ?_⟩
      simp only [Meter.opt, Option.map_some, Option.map_none, Option.getD_some, Option.getD_none, Meter.leaf,
        Meter.elems] at hremoved ⊢
      omega
    next =>
      cases h
      exact ⟨ht, Nat.le_add_right _ _⟩
  next => cases h

theorem argFits_of_ne {arg : Bson} (hop : op ≠ .rename) (h : argFits op path arg = true) :
    pathFits path = true ∧ ∀ v ∈ addedValues op arg, wellNested v ((segments path).length + addedDepth op) = true := by
  rw [argFits.eq_def] at h
  split at h
  · exact absurd rfl hop
  · simpa using h

theorem Meter.arg_of_ne {arg : Bson} (hop : op ≠ .rename) :
    m.arg op path arg = m.path (segments path) + m.leaf (addedValues op arg) := by
  rw [Meter.arg.eq_def]
  split
  · exact absurd rfl hop
  · rfl

/-- a loop adds at most what its steps add -/
theorem foldlM_grows {α : Type} {f : Target → α → Except UpdateError Target} {cost : α → ℕ} {l : List α}
    (hstep : ∀ a ∈ l, ∀ t t', wellNestedFields t.doc 0 = true → f t a = .ok t' →
      wellNestedFields t'.doc 0 = true ∧ m.fields t'.doc ≤ m.fields t.doc + cost a) (ht :
      wellNestedFields t.doc 0 = true)
    (h : l.foldlM f t = .ok t') :
    wellNestedFields t'.doc 0 = true ∧ m.fields t'.doc ≤ m.fields t.doc + (l.map cost).sum :=
  foldlM_cost (P := fun t : Target => wellNestedFields t.doc 0 = true) (C := fun t => m.fields t.doc) hstep ht h

theorem applyOperator_grows (hfits : ∀ a ∈ args, argFits op a.1 a.2 = true) (ht : wellNestedFields t.doc 0 = true)
    (h : applyOperator env ctx nowMs isInsert op args t = .ok t') :
    wellNestedFields t'.doc 0 = true ∧ m.fields t'.doc ≤ m.fields t.doc + (args.map fun a => m.arg op a.1 a.2).sum := by
  by_cases hop : op = .rename
  · subst hop
    exact foldlM_grows m (fun a ha t t' => renameOne_grows m (hfits a ha)) ht h
  · rcases applyOperator_leaves hop h with rfl | ⟨parse, h, hleaf⟩
    · exact ⟨ht, Nat.le_add_right _ _⟩
    · refine foldlM_grows m (fun a ha t t' ht h => ?_) ht h
      obtain ⟨leaf, hparse, h⟩ := bind_eq_ok h
      obtain ⟨hpath, hadded⟩ := argFits_of_ne hop (hfits a ha)
      rw [m.arg_of_ne hop]
      exact write_grows m hpath (fun new => hleaf _ _ _ _ _ hparse) hadded ht h

/-- **Growth.** An update that fits keeps a document well nested and adds to it at most what the meter charges for the
update. -/
theorem applyUpdate_grows (hfits : updateFits update = true) (hdoc : wellNestedFields doc 0 = true)
    (h : applyUpdate env nowMs doc update filter arrayFilters isInsert = .ok doc') :
    wellNestedFields doc' 0 = true ∧ m.fields doc' ≤ m.fields doc + m.update update := by
  obtain ⟨ctx, t', ht', rfl⟩ := applyUpdate_inv h
  refine @foldlM_grows m _ t' _ _ _ _ (fun p hp t t' ht h => ?_) hdoc ht'
  obtain ⟨op, args, hop, hargs, h⟩ := updateStep_inv h
  have hp' := all_eq_true.1 hfits p hp
  rw [hop, hargs] at hp' ⊢
  exact applyOperator_grows m (all_eq_true.1 hp') ht h

end Updates

end Mqlite.PagedEngine
