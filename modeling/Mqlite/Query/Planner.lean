/-
Plan selection (`query/planner.rs`), without hints.

A filter with a condition on `_id` that is an equality or a list of values is a primary key lookup. Otherwise the first
index whose leading field the filter has an eligible condition on is scanned; a partial index only if the filter repeats
its filter expression condition by condition.

`extract_accepts`: a field that passes the filter passes the condition that the planner takes from the filter. The
exception are regular expression literals: the planner takes them for equalities.
-/
import Mqlite.Lib.Except
import Mqlite.Query.Filter

namespace Mqlite.Query

open Lib Mvcc Keys List Except

/-! ## Plans -/

structure IndexMeta where
  name : String
  keys : Document
  pfe : Option Document

inductive IndexCondition where
  | eq (val : Bson)
  | range (gt gte lt lte : Option Bson)
  | inList (vals : List Bson)
  | any

inductive PrimaryKeyCondition where
  | eq (val : Bson)
  | inList (vals : List Bson)

inductive ScanPlan where
  | collScan
  | primaryKeyLookup (condition : PrimaryKeyCondition)
  | indexScan (indexName primaryField : String) (condition : IndexCondition)

/-- `$exists` with one of the three spellings of false that the planner knows -/
def existsFalse : Option Bson → Bool
  | some (.boolean b) => b = false
  | some (.int32 n) => n = 0
  | some (.int64 n) => n = 0
  | _ => false

def existsTrue : Option Bson → Bool
  | some (.boolean b) => b = true
  | some (.int32 n) => n = 1
  | some (.int64 n) => n = 1
  | _ => false

def extractOperatorCondition (ops : Document) : Option IndexCondition :=
  if ops.containsKey "$ne" ∨ ops.containsKey "$nin" ∨ ops.containsKey "$not" then none
  else if existsFalse (ops.get "$exists") then none
  else match ops.get "$eq" with
    | some val => some (.eq val)
    | none =>
      match ops.get "$in" with
      | some (.array vals) => some (.inList vals)
      | _ =>
        if ops.containsKey "$gt" ∨ ops.containsKey "$gte" ∨ ops.containsKey "$lt" ∨ ops.containsKey "$lte" then
          some (.range (ops.get "$gt") (ops.get "$gte") (ops.get "$lt") (ops.get "$lte"))
        else if existsTrue (ops.get "$exists") then some .any
        else if ops.containsKey "$all" ∨ ops.containsKey "$elemMatch" ∨ ops.containsKey "$regex" then some .any
        else none

/-- where the condition comes from -/
theorem extractOperatorCondition_cases {ops : Document} {c : IndexCondition}
    (h : extractOperatorCondition ops = some c) :
    (∃ v, c = .eq v ∧ ops.get "$eq" = some v) ∨ (∃ vals, c = .inList vals ∧ ops.get "$in" = some (.array vals)) ∨
      (c = .range (ops.get "$gt") (ops.get "$gte") (ops.get "$lt") (ops.get "$lte") ∧
        (ops.containsKey "$gt" ∨ ops.containsKey "$gte" ∨ ops.containsKey "$lt" ∨ ops.containsKey "$lte")) ∨
          c = .any := by
  unfold extractOperatorCondition at h
  split at h
  · cases h
  split at h
  · cases h
  split at h
  next v hget => exact .inl ⟨v, (Option.some.inj h).symm, hget⟩
  split at h
  next vals hget => exact .inr (.inl ⟨vals, (Option.some.inj h).symm, hget⟩)
  split at h
  next hkeys => exact .inr (.inr (.inl ⟨(Option.some.inj h).symm, hkeys⟩))
  split at h
  · exact .inr (.inr (.inr (Option.some.inj h).symm))
  split at h
  · exact .inr (.inr (.inr (Option.some.inj h).symm))
  · cases h

def extractFieldCondition (filter : Document) (field : String) : Option IndexCondition :=
  match filter.get field with
  | none => none
  | some (.document ops) => if hasOps ops then extractOperatorCondition ops else some (.eq (.document ops))
  | some other => some (.eq other)

def extractPrimaryKeyCondition (filter : Document) : Option PrimaryKeyCondition :=
  match extractFieldCondition filter "_id" with
  | some (.eq val) => some (.eq val)
  | some (.inList vals) => some (.inList vals)
  | _ => none

def filterCoversPfe (filter : Document) : Option Document → Bool
  | none => true
  | some pfe => pfe.all fun p => match filter.get p.1 with
    | some q => q.same p.2
    | none => false

def selectIndex (filter : Document) : List IndexMeta → ScanPlan
  | [] => .collScan
  | idx :: indexes =>
    match idx.keys with
    | [] => selectIndex filter indexes
    | (firstField, _) :: _ =>
      if filterCoversPfe filter idx.pfe then
        match extractFieldCondition filter firstField with
        | some condition => .indexScan idx.name firstField condition
        | none => selectIndex filter indexes
      else selectIndex filter indexes

def selectPlan (filter : Document) (indexes : List IndexMeta) : ScanPlan :=
  match extractPrimaryKeyCondition filter with
  | some condition => .primaryKeyLookup condition
  | none => selectIndex filter indexes

/-- an index scan is on one of the indexes, by its leading field -/
theorem selectPlan_indexScan {filter : Document} {indexes : List IndexMeta} {name field : String}
    {condition : IndexCondition} (h : selectPlan filter indexes = .indexScan name field condition) :
    ∃ idx ∈ indexes, idx.name = name ∧ (∃ dir rest, idx.keys = (field, dir) :: rest) ∧
      filterCoversPfe filter idx.pfe = true ∧ extractFieldCondition filter field = some condition := by
  unfold selectPlan at h
  split at h
  · cases h
  · induction indexes with
    | nil => cases h
    | cons idx indexes ih =>
      have hlater : selectIndex filter indexes = .indexScan name field condition →
          ∃ idx' ∈ idx :: indexes, idx'.name = name ∧ (∃ dir rest, idx'.keys = (field, dir) :: rest) ∧
            filterCoversPfe filter idx'.pfe = true ∧ extractFieldCondition filter field = some condition := fun h =>
        (ih h).imp fun idx' h' => ⟨mem_cons_of_mem _ h'.1, h'.2⟩
      rw [selectIndex] at h
      split at h
      · exact hlater h
      next first dir rest hkeys =>
        split_ifs at h with hpfe
        · split at h
          next c hc =>
            cases h
            exact ⟨idx, mem_cons_self, rfl, ⟨dir, rest, hkeys⟩, hpfe, hc⟩
          · exact hlater h
        · exact hlater h

/-! ## What a field that passes the filter passes -/

section Accepts

variable {env : Env}

/-- `if ← x then y else .ok false` -/
theorem and_then_true {x y : Result} (h : (do if ← x then y else .ok false) = ok true) :
    x = .ok true ∧ y = .ok true := by
  obtain ⟨b, hx, hb⟩ := bind_eq_ok h
  cases b with
  | true => exact ⟨hx, hb⟩
  | false => cases hb

variable {doc filter ops : Document} {fieldValue : Option Bson}

theorem evalFields_true (h : evalFields env filter doc = .ok true) :
    ∀ p ∈ filter, evalTopLevel env p.2 p.1 doc = .ok true := by
  induction filter with
  | nil => exact fun p hp => by cases hp
  | cons q filter ih =>
    obtain ⟨hq, hrest⟩ := and_then_true h
    exact forall_mem_cons.2 ⟨hq, ih hrest⟩

/-- every condition of an accepted filter holds -/
theorem evalFilter_true (h : evalFilter env doc filter = .ok true) :
    ∀ p ∈ filter, evalTopLevel env p.2 p.1 doc = .ok true := by
  unfold evalFilter guardCollation at h
  split_ifs at h
  · cases h
  · exact evalFields_true h

/-- every operator of an accepted operator document holds, `$regex` and `$options` apart -/
theorem evalOps_true {skip : Bool} (h : evalOps env ops skip fieldValue = .ok true) :
    ∀ p ∈ ops, p.1 ≠ "$regex" → p.1 ≠ "$options" → evalSingleOp env p.2 p.1 fieldValue = .ok true := by
  induction ops with
  | nil => exact fun p hp => by cases hp
  | cons q ops ih =>
    rw [evalOps] at h
    split_ifs at h with hskip
    · refine forall_mem_cons.2 ⟨fun h1 h2 => ?_, ih h⟩
      simp [h1, h2] at hskip
    · obtain ⟨hq, hrest⟩ := and_then_true h
      exact forall_mem_cons.2 ⟨fun _ _ => hq, ih hrest⟩

theorem evalRegex_true {pattern options : String} (h : evalRegex env fieldValue pattern options = .ok true) :
    fieldValue.isSome = true := by
  obtain ⟨re, -, h⟩ := bind_eq_ok h
  cases fieldValue with
  | none => cases h
  | some v => rfl

theorem operatorDocument_true {loop : Bool → Result} (h : operatorDocument env fieldValue ops loop = .ok true) :
    (∃ skip, loop skip = .ok true) ∧ (ops.containsKey "$regex" = true → fieldValue.isSome = true) := by
  unfold operatorDocument at h
  split at h
  next patternBson hget =>
    obtain ⟨pattern, -, h⟩ := bind_eq_ok h
    obtain ⟨options, -, h⟩ := bind_eq_ok h
    obtain ⟨hre, hloop⟩ := and_then_true h
    exact ⟨⟨true, hloop⟩, fun _ => evalRegex_true hre⟩
  next hget =>
    split_ifs at h
    · cases h
    · refine ⟨⟨false, h⟩, fun hkey => ?_⟩
      rw [Document.containsKey, hget] at hkey
      cases hkey

/-! ### Single operators -/

variable {arg : Bson} {fieldValue : Option Bson}

theorem evalSingleOp_gt : evalSingleOp env arg "$gt" fieldValue = .ok (evalCmp fieldValue arg .gt false) := by
  rw [evalSingleOp.eq_def]; rfl

theorem evalSingleOp_gte : evalSingleOp env arg "$gte" fieldValue = .ok (evalCmp fieldValue arg .gt true) := by
  rw [evalSingleOp.eq_def]; rfl

theorem evalSingleOp_lt : evalSingleOp env arg "$lt" fieldValue = .ok (evalCmp fieldValue arg .lt false) := by
  rw [evalSingleOp.eq_def]; rfl

theorem evalSingleOp_lte : evalSingleOp env arg "$lte" fieldValue = .ok (evalCmp fieldValue arg .lt true) := by
  rw [evalSingleOp.eq_def]; rfl

theorem evalSingleOp_exists : evalSingleOp env arg "$exists" fieldValue = evalExists fieldValue arg := by
  rw [evalSingleOp.eq_def]; rfl

theorem evalSingleOp_all (h : evalSingleOp env arg "$all" fieldValue = .ok true) : fieldValue.isSome = true := by
  cases fieldValue with
  | some v => rfl
  | none =>
    cases arg with
    | array required =>
      change (if required.isEmpty then ok false else ok false) = _ at h
      split_ifs at h <;> cases h
    | _ => cases h

theorem evalSingleOp_elemMatch (h : evalSingleOp env arg "$elemMatch" fieldValue = .ok true) :
    fieldValue.isSome = true := by
  cases fieldValue with
  | some v => rfl
  | none => cases arg <;> cases h

/-! ### Conditions -/

/-- what a condition of an index scan asks of the indexed field -/
def IndexCondition.accepts (fieldValue : Option Bson) : IndexCondition → Bool
  | .eq val => evalEq fieldValue val
  | .range gt gte lt lte =>
    gt.all (fun v => evalCmp fieldValue v .gt false) && gte.all (fun v => evalCmp fieldValue v .gt true) &&
      lt.all (fun v => evalCmp fieldValue v .lt false) && lte.all (fun v => evalCmp fieldValue v .lt true)
  | .inList vals =>
    match fieldValue with
    | none => vals.any isNull
    | some val => vals.any fun target => matchesValue val target
  | .any => fieldValue.isSome

/-- the spellings of true that the planner knows are true -/
theorem evalExists_true (hspelled : existsTrue (some arg) = true) (h : evalExists fieldValue arg = .ok true) :
    fieldValue.isSome = true := by
  obtain ⟨wanted, hwanted, h⟩ := bind_eq_ok h
  have hw : wanted = true := by
    cases arg with
    | boolean b =>
      cases hwanted
      exact of_decide_eq_true hspelled
    | int32 n | int64 n =>
      obtain rfl : n = 1 := of_decide_eq_true hspelled
      cases hwanted
      rfl
    | _ => cases hspelled
  subst hw
  exact of_decide_eq_true (ok.inj h)

theorem extractOperatorCondition_accepts {c : IndexCondition}
    (hops : ∀ p ∈ ops, p.1 ≠ "$regex" → p.1 ≠ "$options" → evalSingleOp env p.2 p.1 fieldValue = .ok true)
    (hregex : ops.containsKey "$regex" = true → fieldValue.isSome = true) (h : extractOperatorCondition ops = some c) :
    c.accepts fieldValue = true := by
  have hop : ∀ {name arg}, ops.get name = some arg → name ≠ "$regex" → name ≠ "$options" →
      evalSingleOp env arg name fieldValue = .ok true := fun hget => hops _ (Document.mem_of_get hget)
  have hall : ∀ (name : String) (f : Bson → Bool), name ≠ "$regex" → name ≠ "$options" →
      (∀ arg, evalSingleOp env arg name fieldValue = .ok (f arg)) → (ops.get name).all f = true := by
    intro name f h1 h2 hf
    cases hget : ops.get name with
    | none => rfl
    | some arg =>
      have := hop hget h1 h2
      rw [hf] at this
      exact ok.inj this
  have hpresent : ∀ (name : String), name ≠ "$regex" → name ≠ "$options" →
      (∀ arg, evalSingleOp env arg name fieldValue = .ok true → fieldValue.isSome = true) →
        ops.containsKey name = true →
      fieldValue.isSome = true := by
    intro name h1 h2 hf hkey
    obtain ⟨arg, hget⟩ := Option.isSome_iff_exists.1 hkey
    exact hf arg (hop hget h1 h2)
  unfold extractOperatorCondition at h
  split at h
  · cases h
  split at h
  · cases h
  split at h
  next val hget =>
    cases h
    have htrue := hop hget (by decide) (by decide)
    rw [evalSingleOp_eq] at htrue
    exact ok.inj htrue
  split at h
  next vals hget =>
    cases h
    have htrue := hop hget (by decide) (by decide)
    exact ok.inj htrue
  split at h
  · cases h
    simp only [IndexCondition.accepts, Bool.and_eq_true]
    exact ⟨⟨⟨hall "$gt" _ (by decide) (by decide) fun _ => evalSingleOp_gt,
      hall "$gte" _ (by decide) (by decide) fun _ => evalSingleOp_gte⟩,
      hall "$lt" _ (by decide) (by decide) fun _ => evalSingleOp_lt⟩,
      hall "$lte" _ (by decide) (by decide) fun _ => evalSingleOp_lte⟩
  split at h
  next hexists =>
    cases h
    cases hget : ops.get "$exists" with
    | none => rw [hget] at hexists; cases hexists
    | some arg =>
      have htrue := hop hget (by decide) (by decide)
      rw [evalSingleOp_exists] at htrue
      rw [hget] at hexists
      exact evalExists_true hexists htrue
  split at h
  next hkeys =>
    cases h
    rcases hkeys with hkey | hkey | hkey
    · exact hpresent "$all" (by decide) (by decide) (fun _ => evalSingleOp_all) hkey
    · exact hpresent "$elemMatch" (by decide) (by decide) (fun _ => evalSingleOp_elemMatch) hkey
    · exact hregex hkey
  · cases h

/-- **What the planner takes from a filter holds of every document that the filter accepts**, regular expression
literals apart. -/
theorem extract_accepts {field : String} {c : IndexCondition} (hf : evalFilter env doc filter = .ok true)
    (hfield : startsWithDollar field = false) (hlit : ∀ re, filter.get field ≠ some (.regularExpression re))
    (hc : extractFieldCondition filter field = some c) : c.accepts (getNestedField doc field) = true := by
  unfold extractFieldCondition at hc
  cases hget : filter.get field with
  | none => rw [hget] at hc; cases hc
  | some condition =>
    have htop := evalFilter_true hf _ (Document.mem_of_get hget)
    rw [evalTopLevel_field hfield] at htop
    rw [hget] at hc hlit
    cases condition with
    | document ops =>
      simp only at hc htop
      split_ifs at hc htop with hops
      · obtain ⟨⟨skip, hloop⟩, hregex⟩ := operatorDocument_true htop
        exact extractOperatorCondition_accepts (evalOps_true hloop) hregex hc
      · cases hc
        exact ok.inj htop
    | regularExpression re => exact absurd rfl (hlit re)
    | _ =>
      cases hc
      exact ok.inj htop

end Accepts

end Mqlite.Query
