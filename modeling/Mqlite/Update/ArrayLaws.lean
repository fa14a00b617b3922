/-
Arrays under update operators (`apply_pull`, `apply_pull_all` and `apply_add_to_set` in `update/mod.rs`).

The operators compare elements with the equality of values (`same`), not by encoded keys as filters do: an Int32 and an
Int64 of one value are different to `$pullAll`. A condition document of `$pull` is a filter on the elements that are
documents; the others it never matches, so that an operator condition on scalars takes none of them away.

- `array_operators`: what `$pullAll`, `$pull` and `$addToSet` make of a top-level array;
- `operators_miss_equals`: where that is not what a filter would say.
-/
import Mqlite.Update.PathLaws

namespace Mqlite.Update

open Mqlite.Lib Mqlite.Query

/-- a top-level field that holds an array -/
structure ArrayField (d : Document) (p : String) (arr : List Bson) : Prop where
  top : segments p = [p]
  name : classifySegment p = .field p
  get : d.get p = some (.array arr)

/-- an evaluation that fails accepts nothing -/
def accepted : Query.Result → Bool
  | .ok b => b
  | .error _ => false

/-- a document that the filter accepts; no other value is one -/
def acceptedElement (env : Env) (c : Document) : Bson → Bool
  | .document sub => accepted (evalFilter env.toEnv sub c)
  | _ => false

section Elements

variable {env : Env} {nowMs : Int64} {d filter : Document} {isInsert : Bool} {p name : String} {arr : List Bson}
  {arg v : Bson} {parse : String → Bson → Except UpdateError LeafOp} {leaf : LeafOp}

theorem ArrayField.plain (h : ArrayField d p arr) :
    pathHasPositional p = false := by simp [pathHasPositional, h.top, h.name]

theorem applyUpdate_field (hfield : ArrayField d p arr) (hid : p ≠ "_id") (hop : Parses env name parse)
    (hleaf : parse p arg = .ok leaf) (hnew : leaf (some (.array arr)) = .ok (some v)) :
    applyUpdate env nowMs d [(name, .document [(p, arg)])] filter none isInsert = .ok (d.insert p v) := by
  have hend : atEnd "" (segments p) leaf (embedded d (segments p)) = .ok (some v) := by
    rw [hfield.top, atEnd, if_neg (by simp [protectedPath, hid]), embedded, hfield.get, hnew]
  rw [applyUpdate_one hop hfield.plain hleaf hend, hfield.top]
  rfl

theorem parses_addToSet : Parses env "$addToSet" fun path value => .ok fun current =>
    arrayOr "$addToSet" path current >>= fun arr => .ok (some (.array (addToSet arr (addToSetElements value)))) :=
  ⟨.addToSet, rfl, fun _ _ _ _ _ => rfl⟩

/-- the elements that the condition does not match are left, in their order -/
theorem pullElements_eq {condition : Bson} {pulled : Bson → Bool}
    (h : ∀ e ∈ arr, matchesPullCondition env e condition = .ok (pulled e)) :
    pullElements env condition arr = .ok (arr.filter fun e => !pulled e) := by
  induction arr with
  | nil => rfl
  | cons e arr ih =>
    rw [pullElements, bind_ok (h e List.mem_cons_self), bind_ok (ih fun e he => h e (List.mem_cons_of_mem _ he))]
    cases hpull : pulled e <;> simp [hpull]

theorem pull_field {condition : Bson} {pulled : Bson → Bool} (hfield : ArrayField d p arr) (hid : p ≠ "_id")
    (h : ∀ e ∈ arr, matchesPullCondition env e condition = .ok (pulled e)) :
    applyUpdate env nowMs d [("$pull", .document [(p, condition)])] filter none isInsert =
      .ok (d.insert p (.array (arr.filter fun e => !pulled e))) := by
  refine applyUpdate_field hfield hid parses_pull rfl ?_
  change (pullElements env condition arr >>= fun arr => .ok (some (Bson.array arr))) = _
  rw [bind_ok (pullElements_eq h)]

theorem addToSet_field (hfield : ArrayField d p arr) (hid : p ≠ "_id") (hv : addToSetElements v = [v]) :
    applyUpdate env nowMs d [("$addToSet", .document [(p, v)])] filter none isInsert =
      .ok (if arr.any fun e => e.same v then d else d.insert p (.array (arr ++ [v]))) := by
  have hset : addToSet arr (addToSetElements v) = if arr.any fun e => e.same v then arr else arr ++ [v] := by
    rw [hv]; rfl
  rw [applyUpdate_field (v := .array (addToSet arr (addToSetElements v))) hfield hid parses_addToSet rfl rfl, hset]
  split_ifs
  · rw [Document.insert_eq_self_iff.2 hfield.get]
  · rfl

theorem ArrayField.insert (h : ArrayField d p arr) (arr' : List Bson) : ArrayField (d.insert p (.array arr')) p arr' :=
  ⟨h.top, h.name, d.get_insert_self _⟩

/-- **The array operators at a top-level field.** `$pullAll` takes the elements away that are the same as one of its
values, `$pull` those that are the same as a value, or the documents that a filter accepts; the others stay, in their
order. `$addToSet` appends a value that no element is the same as, once, and the filter on the value then accepts. -/
theorem array_operators (env : Env) (nowMs : Int64) (d filter : Document) (isInsert : Bool) (p : String)
    (arr : List Bson) (hfield : ArrayField d p arr) (hid : p ≠ "_id") :
    (∀ vs, applyUpdate env nowMs d [("$pullAll", .document [(p, .array vs)])] filter none isInsert =
      .ok (d.insert p (.array (arr.filter fun e => !vs.any fun v => v.same e)))) ∧
    (∀ c, (∀ sub, c ≠ .document sub) → applyUpdate env nowMs d [("$pull", .document [(p, c)])] filter none isInsert =
      .ok (d.insert p (.array (arr.filter fun e => !e.same c)))) ∧
    (∀ c, (∀ sub, .document sub ∈ arr → evalFilter env.toEnv sub c ≠ .error .panic) →
      applyUpdate env nowMs d [("$pull", .document [(p, .document c)])] filter none isInsert =
        .ok (d.insert p (.array (arr.filter fun e => !acceptedElement env c e)))) ∧
    (∀ v, addToSetElements v = [v] →
      ∃ d', applyUpdate env nowMs d [("$addToSet", .document [(p, v)])] filter none isInsert = .ok d' ∧
      d' = (if arr.any fun e => e.same v then d else d.insert p (.array (arr ++ [v]))) ∧
      (v.same v = true → applyUpdate env nowMs d' [("$addToSet", .document [(p, v)])] filter none isInsert = .ok d') ∧
      ((arr.any fun e => e.same v) = false → startsWithDollar p = false → p ≠ "collation" →
        (∀ re, v ≠ .regularExpression re) →
        (∀ sub, v = .document sub → hasOps sub = false) → evalFilter env.toEnv d' [(p, v)] = .ok true)) := by
  refine ⟨fun vs => ?_, fun c hc => ?_, fun c hpanic => ?_,
    fun v hv => ⟨_, addToSet_field hfield hid hv, rfl, fun hself => ?_, ?_⟩⟩
  · exact applyUpdate_field hfield hid parses_pullAll rfl rfl
  · refine pull_field hfield hid fun e _ => ?_
    cases c with
    | document sub => exact absurd rfl (hc sub)
    | _ => cases e <;> rfl
  · refine pull_field hfield hid fun e he => ?_
    cases e with
    | document sub =>
      have hsub := hpanic sub he
      rw [matchesPullCondition, acceptedElement]
      cases heval : evalFilter env.toEnv sub c with
      | ok b => rfl
      | error e =>
        cases e with
        | panic => exact absurd heval hsub
        | _ => rfl
    | _ => rfl
  · -- the value is there now
    cases hany : arr.any fun e => e.same v with
    | true => simpa [hany] using @addToSet_field env nowMs d filter isInsert p arr v hfield hid hv
    | false =>
      have hthere : ((arr ++ [v]).any fun e => e.same v) = true := by simp [hself]
      simpa [hany, hthere] using @addToSet_field env nowMs _ filter isInsert p _ v (hfield.insert (arr ++ [v])) hid hv
  · intro hany hdollar hcollation hregex hops
    have hget : getNestedField (d.insert p (.array (arr ++ [v]))) p = some (.array (arr ++ [v])) := by
      rw [getNestedField, hfield.top]
      exact d.get_insert_self _
    rw [hany, evalFilter, guardCollation, if_neg (by simp [Document.containsKey, Document.get, hcollation]),
      evalFields_direct (by simpa using hdollar) (by simpa using hregex) (by simpa using hops)]
    simp [hget, evalEq, matchesValue, bsonEq]

/-- of a number and two documents one document is pulled -/
theorem array_operators_numbers :
    let arr : List Bson := [.int32 1, .document [("b", .int32 2)], .document [("b", .int32 3)]]
    ArrayField [("a", .array arr)] "a" arr ∧
      applyUpdate bareEnv 0 [("a", .array arr)] [("$pullAll", .document [("a", .array [.int32 1])])] [] none false =
        .ok [("a", .array arr.tail)] ∧
      applyUpdate bareEnv 0 [("a", .array arr)]
        [("$pull", .document [("a", .document [("b", .document [("$gt", .int32 2)])])])] [] none
        false = .ok [("a", .array [.int32 1, .document [("b", .int32 2)]])] := by
  intro arr
  have hfield : ArrayField [("a", .array arr)] "a" arr := ⟨by decide, by decide, rfl⟩
  obtain ⟨hall, -, hpull, -⟩ := array_operators bareEnv 0 _ [] false "a" _ hfield (by decide)
  refine ⟨hfield, hall [.int32 1], hpull [("b", .document [("$gt", .int32 2)])] fun sub hsub => ?_⟩
  have hcases : sub = [("b", .int32 2)] ∨ sub = [("b", .int32 3)] := by simpa [arr] using hsub
  rcases hcases with rfl | rfl <;> exact nofun

/-- values with one key that are not the same, an operator condition on a number, and a value that is not the same as
itself -/
theorem operators_miss_equals :
    bsonEq (.int32 5) (.int64 5) = true ∧
      applyUpdate bareEnv 0 [("a", .array [.int32 5])] [("$pullAll", .document [("a", .array [.int64 5])])]
        [] none false = .ok [("a", .array [.int32 5])] ∧
      applyUpdate bareEnv 0 [("a", .array [.int32 5])] [("$addToSet", .document [("a", .int64 5)])] [] none false =
        .ok [("a", .array [.int32 5, .int64 5])] ∧
      evalFilter noLibraries [("x", .int32 5)] [("x", .document [("$gt", .int32 4)])] = .ok true ∧
      applyUpdate bareEnv 0 [("a", .array [.int32 5])] [("$pull", .document [("a", .document [("$gt", .int32 4)])])]
        [] none false = .ok [("a", .array [.int32 5])] ∧
      applyUpdate bareEnv 0 [("a", .array [.double .nan])] [("$addToSet", .document [("a", .double .nan)])]
        [] none false = .ok [("a", .array [.double .nan, .double .nan])] :=
  ⟨by decide, rfl, rfl, rfl, rfl, rfl⟩

end Elements

end Mqlite.Update
