/-
A path of field names, written and read (`modify_nested` of `update/mod.rs`, `get_nested_field` of
`query/filter/util.rs`).

The writer walks through embedded documents only. Where a document is missing it makes one; a value of another kind, an
array too, gives way to a new document. The reader also enters an array, by an index at the end of a path. So a value
that is set reads back, and a path that is no prefix of the written one and has it as no prefix reads as before, unless
both go through one array.

The writer protects `_id` where the path walked so far is the empty string. Behind a field with the empty name that is
so again.

Results:
- `set_get_frame`: what `$set` does to every path;
- `removal_laws`: when `$unset`, `$pull`, `$pullAll` and `$pop` of a missing path leave the document alone, and what
  `$unset` of an embedded field does to every path;
- `upsert_seed_iff`: when the document that an upsert starts from satisfies its filter;
- `paths_compose_iff`: when a path can be continued from the value at its end.
-/
import Mqlite.Lib.Except
import Mqlite.Update.Operators

namespace Mqlite

namespace Document

variable {doc : Document} {name : String} {v : Bson}

theorem insert_eq_self_iff : doc.insert name v = doc ↔ doc.get name = some v := by
  induction doc with
  | nil => simp [insert, get]
  | cons p doc ih =>
    obtain ⟨other, w⟩ := p
    rw [insert]
    split_ifs with h
    · subst h
      simp [get, eq_comm]
    · simpa [get, h] using ih

theorem remove_of_get_eq_none (h : doc.get name = none) : doc.remove name = doc := by
  refine List.eraseP_of_forall_not fun p hp hname => ?_
  simp only [get, Option.map_eq_none_iff, List.find?_eq_none] at h
  exact h p hp hname

theorem get_remove_self (h : (doc.map Prod.fst).Nodup) : (doc.remove name).get name = none := by
  induction doc with
  | nil => rfl
  | cons p doc ih =>
    rw [List.map_cons, List.nodup_cons] at h
    by_cases hp : p.1 = name
    · rw [remove, List.eraseP_cons_of_pos (by simpa using hp), get, Option.map_eq_none_iff, List.find?_eq_none]
      intro q hq hname
      have hq' : q.1 = p.1 := (of_decide_eq_true hname).trans hp.symm
      exact h.1 (hq' ▸ List.mem_map_of_mem hq)
    · simpa [remove, get, hp, List.eraseP_cons] using ih h.2

end Document

namespace Update

open Lib Query List Document

/-! ## The two walks -/

/-- `_id`, behind any number of empty names -/
def protectedPath : List String → Bool
  | [] => false
  | [last] => last = "_id"
  | name :: rest => name = "" && protectedPath rest

/-- the document that the writer goes on in -/
def subDocument (doc : Document) (name : String) : Document :=
  match doc.get name with
  | some (.document sub) => sub
  | _ => []

/-- the value at a path through embedded documents -/
def embedded (doc : Document) : List String → Option Bson
  | [] => none
  | [last] => doc.get last
  | name :: next :: rest => embedded (subDocument doc name) (next :: rest)

/-- the document with another value, or none, at the end of a path -/
def putAt (new : Option Bson) (doc : Document) : List String → Document
  | [] => doc
  | [last] =>
    match new with
    | some v => doc.insert last v
    | none => doc.remove last
  | name :: next :: rest => doc.insert name (.document (putAt new (subDocument doc name) (next :: rest)))

/-- the last name of the path is one in a document that is there -/
def HasParent (doc : Document) (p : List String) : Prop :=
  p.length = 1 ∨ ∃ sub, embedded doc p.dropLast = some (.document sub)

/-- no embedded document has a name twice -/
def DistinctNames (doc : Document) : Prop :=
  (doc.map Prod.fst).Nodup ∧ ∀ segs sub, embedded doc segs = some (.document sub) → (sub.map Prod.fst).Nodup

/-- neither path goes on from the other -/
def Incomparable (p q : List String) : Prop := ¬ p <+: q ∧ ¬ q <+: p

/-- both paths go through one array -/
def ShareArray (doc : Document) (p q : List String) : Prop :=
  ∃ r arr, r <+: p ∧ r <+: q ∧ getNested doc r = some (.array arr)

section Walks

variable {doc : Document} {name : String} {segs p q : List String} {new : Option Bson} {v : Bson}

variable {sub : Document}

theorem getNested_cons_document (h : doc.get name = some (.document sub)) (hne : segs ≠ []) :
    getNested doc (name :: segs) = getNested sub segs := by
  cases segs with
  | nil => exact absurd rfl hne
  | cons next rest => simp [getNested, h]

theorem subDocument_of_get (h : doc.get name = some (.document sub)) : subDocument doc name = sub := by
  simp [subDocument, h]

theorem subDocument_of_not (h : ¬ ∃ sub, doc.get name = some (.document sub)) : subDocument doc name = [] := by
  unfold subDocument
  split
  next sub hget => exact absurd ⟨sub, hget⟩ h
  · rfl

theorem getNested_nil_doc (segs : List String) : getNested [] segs = none := by
  cases segs with
  | nil => rfl
  | cons name rest => cases rest <;> rfl

theorem embedded_nil_doc (segs : List String) : embedded [] segs = none := by
  induction segs with
  | nil => rfl
  | cons name rest ih =>
    cases rest with
    | nil => rfl
    | cons next rest => exact ih

/-- what the writer finds the reader finds -/
theorem getNested_of_embedded (h : embedded doc p = some v) : getNested doc p = some v := by
  induction p generalizing doc with
  | nil => cases h
  | cons name rest ih =>
    cases rest with
    | nil => exact h
    | cons next rest =>
      rw [embedded, subDocument] at h
      split at h
      next sub hget =>
        rw [getNested_cons_document hget (cons_ne_nil _ _)]
        exact ih h
      · rw [embedded_nil_doc] at h
        cases h

theorem DistinctNames.subDocument (h : DistinctNames doc) (name : String) : DistinctNames (subDocument doc name) := by
  by_cases hdoc : ∃ sub, doc.get name = some (.document sub)
  · obtain ⟨sub, hget⟩ := hdoc
    rw [subDocument_of_get hget]
    refine ⟨h.2 [name] sub hget, fun segs sub' hsub => ?_⟩
    cases segs with
    | nil => cases hsub
    | cons next rest => exact h.2 (name :: next :: rest) sub' (by rw [embedded, subDocument_of_get hget]; exact hsub)
  · rw [subDocument_of_not hdoc]
    refine ⟨nodup_nil, fun segs sub hsub => ?_⟩
    rw [embedded_nil_doc] at hsub
    cases hsub

/-- what is put reads back; what is removed is gone, as names are distinct or nothing was there -/
theorem getNested_putAt_self (hne : p ≠ []) (hnone : new = none → embedded doc p = none ∨ DistinctNames doc) :
    getNested (putAt new doc p) p = new := by
  induction p generalizing doc with
  | nil => exact absurd rfl hne
  | cons name rest ih =>
    cases rest with
    | nil =>
      cases new with
      | some v => exact doc.get_insert_self v
      | none =>
        rcases hnone rfl with hget | hd
        · exact (congrArg (fun d => get d name) (remove_of_get_eq_none hget)).trans hget
        · exact get_remove_self hd.1
    | cons next rest =>
      rw [putAt, getNested_cons_document (doc.get_insert_self _) (cons_ne_nil _ _)]
      exact ih (cons_ne_nil _ _) fun h => (hnone h).imp id fun hd => hd.subDocument name

/-- on the way to what is put there are documents -/
theorem getNested_putAt_before (hq : q <+: p) (hne : q ≠ p) (hnil : q ≠ []) :
    ∃ sub, getNested (putAt new doc p) q = some (.document sub) := by
  induction p generalizing doc q with
  | nil => exact absurd (prefix_nil.1 hq) hne
  | cons name rest ih =>
    cases q with
    | nil => exact absurd rfl hnil
    | cons name' q =>
      obtain ⟨rfl, hq'⟩ := cons_prefix_cons.1 hq
      cases rest with
      | nil => exact absurd (congrArg (List.cons name') (prefix_nil.1 hq')) hne
      | cons next rest =>
        cases q with
        | nil => exact ⟨_, doc.get_insert_self _⟩
        | cons next' q =>
          rw [putAt, getNested_cons_document (doc.get_insert_self _) (cons_ne_nil _ _)]
          exact ih hq' (fun heq => hne (congrArg (List.cons name') heq)) (cons_ne_nil _ _)

/-- a path with one more name goes on in a document iff its first name leads to one and the rest goes on in a
document -/
theorem hasParent_cons_iff {next : String} {rest : List String} :
    HasParent doc (name :: next :: rest) ↔ ∃ sub, doc.get name = some (.document sub) ∧
      HasParent sub (next :: rest) := by
  have hlen : (name :: next :: rest).length ≠ 1 := by simp
  cases rest with
  | nil => simp [HasParent, embedded]
  | cons last rest =>
    have hlen' : (next :: last :: rest).length ≠ 1 := by simp
    simp only [HasParent, or_iff_right hlen', dropLast_cons_cons, embedded, subDocument]
    split
    next sub hget => simp [hget]
    next hget =>
      refine iff_of_false (by simp [embedded_nil_doc]) ?_
      rintro ⟨sub, h, -⟩
      exact hget sub h

/-- putting back what is there changes nothing iff the document that the path ends in is there -/
theorem putAt_embedded_iff (hne : p ≠ []) : putAt (embedded doc p) doc p = doc ↔ HasParent doc p := by
  induction p generalizing doc with
  | nil => exact absurd rfl hne
  | cons name rest ih =>
    cases rest with
    | nil =>
      refine iff_of_true ?_ (.inl rfl)
      rw [embedded]
      cases hget : doc.get name with
      | none => exact remove_of_get_eq_none hget
      | some v => exact insert_eq_self_iff.2 hget
    | cons next rest =>
      rw [putAt, embedded, insert_eq_self_iff, hasParent_cons_iff]
      constructor
      · intro h
        have hsub := subDocument_of_get h
        refine ⟨subDocument doc name, ?_, (ih (cons_ne_nil _ _)).1 hsub.symm⟩
        exact h.trans (congrArg (fun sub => some (Bson.document sub)) hsub.symm)
      · rintro ⟨sub, hget, hparent⟩
        rw [subDocument_of_get hget, (ih (cons_ne_nil _ _)).2 hparent, hget]

/-- on the way to an embedded value there are documents -/
theorem document_of_embedded (h : embedded doc p = some v) {r : List String} (hr : r <+: p) (hne : r ≠ p) {w : Bson}
    (hw : getNested doc r = some w) : ∃ sub, w = .document sub := by
  induction p generalizing doc r with
  | nil => exact absurd (prefix_nil.1 hr) hne
  | cons name rest ih =>
    cases r with
    | nil => cases hw
    | cons name' r =>
      obtain ⟨rfl, hr'⟩ := cons_prefix_cons.1 hr
      cases rest with
      | nil => exact absurd (congrArg (List.cons name') (prefix_nil.1 hr')) hne
      | cons next rest =>
        rw [embedded, subDocument] at h
        split at h
        next sub hget =>
          cases r with
          | nil => exact ⟨sub, Option.some.inj (hw.symm.trans hget)⟩
          | cons next' r =>
            rw [getNested_cons_document hget (cons_ne_nil _ _)] at hw
            exact ih h hr' (fun heq => hne (congrArg (List.cons name') heq)) hw
        · rw [embedded_nil_doc] at h
          cases h

theorem shareArray_cons_iff (h : doc.get name = some (.document sub)) :
    ShareArray doc (name :: p) (name :: q) ↔ ShareArray sub p q := by
  constructor
  · rintro ⟨r, arr, hp, hq, hr⟩
    cases r with
    | nil => cases hr
    | cons name' r =>
      obtain ⟨rfl, hp'⟩ := cons_prefix_cons.1 hp
      obtain ⟨-, hq'⟩ := cons_prefix_cons.1 hq
      cases r with
      | nil => rw [getNested, h] at hr; cases hr
      | cons next r => exact ⟨next :: r, arr, hp', hq', by rwa [getNested_cons_document h (cons_ne_nil _ _)] at hr⟩
  · rintro ⟨r, arr, hp, hq, hr⟩
    have hne : r ≠ [] := by
      rintro rfl
      cases hr
    exact ⟨name :: r, arr, cons_prefix_cons.2 ⟨rfl, hp⟩, cons_prefix_cons.2 ⟨rfl, hq⟩,
      by rwa [getNested_cons_document h hne]⟩

theorem get_putAt_of_ne {other : String} (h : other ≠ name) :
    (putAt new doc (name :: p)).get other = doc.get other := by
  cases p with
  | nil =>
    cases new with
    | none => exact doc.get_remove_of_ne h
    | some v => exact doc.get_insert_of_ne v h
  | cons next rest => exact doc.get_insert_of_ne _ h

theorem not_shareArray_of_ne {other : String} (h : other ≠ name) : ¬ ShareArray doc (name :: p) (other :: q) := by
  rintro ⟨r, arr, hp, hq, hr⟩
  cases r with
  | nil => cases hr
  | cons first r => exact h ((cons_prefix_cons.1 hq).1.symm.trans (cons_prefix_cons.1 hp).1)

theorem not_shareArray_nil_doc : ¬ ShareArray [] p q := by
  rintro ⟨r, arr, -, -, hr⟩
  rw [getNested_nil_doc] at hr
  cases hr

theorem Incomparable.tail (h : Incomparable (name :: p) (name :: q)) : Incomparable p q :=
  ⟨fun hp => h.1 (cons_prefix_cons.2 ⟨rfl, hp⟩), fun hq => h.2 (cons_prefix_cons.2 ⟨rfl, hq⟩)⟩

/-- **A path that is not comparable with the written one** reads as before; through an array that both go through it is
gone. -/
theorem getNested_putAt (h : Incomparable p q) :
    (¬ ShareArray doc p q → getNested (putAt new doc p) q = getNested doc q) ∧
      (ShareArray doc p q → getNested (putAt new doc p) q = none) := by
  induction p generalizing doc q with
  | nil => exact absurd nil_prefix h.1
  | cons name rest ih =>
    cases q with
    | nil => exact absurd nil_prefix h.2
    | cons other q =>
      by_cases hname : other = name
      · subst hname
        have htail := h.tail
        cases rest with
        | nil => exact absurd nil_prefix htail.1
        | cons next rest =>
          have hq : q ≠ [] := by
            rintro rfl
            exact htail.2 nil_prefix
          rw [putAt, getNested_cons_document (doc.get_insert_self _) hq]
          by_cases hdoc : ∃ sub, doc.get other = some (.document sub)
          · obtain ⟨sub, hget⟩ := hdoc
            rw [subDocument_of_get hget, shareArray_cons_iff hget, getNested_cons_document hget hq]
            exact ih htail
          · -- the value gives way to a document in which only the written path is
            have hgone : getNested (putAt new (subDocument doc other) (next :: rest)) q = none := by
              rw [subDocument_of_not hdoc]
              exact ((ih htail).1 not_shareArray_nil_doc).trans (getNested_nil_doc q)
            refine ⟨fun hshare => hgone.trans ?_, fun _ => hgone⟩
            cases q with
            | nil => exact absurd rfl hq
            | cons index q =>
              rw [getNested]
              split
              next sub hget => exact absurd ⟨sub, hget⟩ hdoc
              next arr hget =>
                exact absurd ⟨[other], arr, cons_prefix_cons.2 ⟨rfl, nil_prefix⟩,
                  cons_prefix_cons.2 ⟨rfl, nil_prefix⟩, hget⟩ hshare
              · rfl
      · refine ⟨fun _ => ?_, fun hshare => absurd hshare (not_shareArray_of_ne hname)⟩
        cases q <;> simp only [getNested, get_putAt_of_ne hname]

end Walks

/-! ## The writer on a path of field names -/

/-- the operation at the end of a path, the protected ones apart -/
def atEnd (parent : String) (segs : List String) (op : LeafOp) : LeafOp :=
  if parent = "" ∧ protectedPath segs = true then fun current => .ok current else op

section Writer

variable {env : Env} {ctx : UpdateContext} {fullPath parent name next path : String} {segs rest : List String}
  {op : LeafOp} {doc : Document} {used : List String} {new : Option Bson} {t : Target}

theorem joinPath_eq_empty_iff : joinPath parent name = "" ↔ parent = "" ∧ name = "" := by
  unfold joinPath
  split_ifs with h
  · simp [h]
  · simp [h]

theorem atEnd_cons : atEnd parent (name :: next :: rest) op = atEnd (joinPath parent name) (next :: rest) op := by
  simp only [atEnd, joinPath_eq_empty_iff, protectedPath, Bool.and_eq_true, decide_eq_true_eq, and_assoc]

/-- the writer goes on in the document that is there, or in a new one -/
theorem descendField_field {inner : Walk} {after : Option Walk} (hnext : classifySegment next = .field next) :
    (descendField env ctx fullPath op doc parent name next inner after used).2 =
        (inner (joinPath parent name) (subDocument doc name) used).2 ∧
      ∀ used', (inner (joinPath parent name) (subDocument doc name) used).2 = .ok used' →
        (descendField env ctx fullPath op doc parent name next inner after used).1 =
          doc.insert name (.document (inner (joinPath parent name) (subDocument doc name) used).1) := by
  rw [descendField, hnext]
  dsimp only
  split
  next sub hget =>
    rw [subDocument_of_get hget]
    exact ⟨rfl, fun _ _ => rfl⟩
  next w hnot hget =>
    have hsub : subDocument doc name = [] :=
      subDocument_of_not fun ⟨sub, h⟩ => hnot sub (Option.some.inj (hget.symm.trans h))
    rw [hsub]
    split
    next nested used' h => rw [h]; exact ⟨rfl, fun _ _ => rfl⟩
    next nested e h => rw [h]; exact ⟨rfl, fun _ hok => by cases hok⟩
  next hget =>
    have hsub : subDocument doc name = [] := subDocument_of_not fun ⟨sub, h⟩ => by rw [hget] at h; cases h
    rw [hsub]
    exact ⟨rfl, fun _ _ => rfl⟩

/-- the operation gets the value at the path, and its result is put there -/
theorem modifyNestedInner_fields (hfields : ∀ s ∈ segs, classifySegment s = .field s) (hne : segs ≠ []) :
    (modifyNestedInner env ctx fullPath op segs parent doc used).2 =
      (atEnd parent segs op (embedded doc segs)).map (fun _ => used) ∧
      ∀ new, atEnd parent segs op (embedded doc segs) = .ok new →
        (modifyNestedInner env ctx fullPath op segs parent doc used).1 = putAt new doc segs := by
  induction segs generalizing parent doc with
  | nil => exact absurd rfl hne
  | cons name rest ih =>
    rw [modifyNestedInner, hfields name mem_cons_self]
    cases rest with
    | nil =>
      simp only [atEnd, protectedPath, decide_eq_true_eq]
      split_ifs with hid
      · refine ⟨rfl, fun new hnew => ?_⟩
        cases hnew
        exact ((putAt_embedded_iff hne).2 (.inl rfl)).symm
      · rw [applyLeaf, embedded]
        cases hop : op (doc.get name) with
        | error e => exact ⟨rfl, fun new hnew => by cases hnew⟩
        | ok new =>
          cases new <;> exact ⟨rfl, fun new hnew => by cases hnew; rfl⟩
    | cons next rest =>
      have hnext := hfields next (mem_cons_of_mem _ mem_cons_self)
      obtain ⟨hres, hdoc⟩ := @ih (joinPath parent name) (subDocument doc name)
        (fun s hs => hfields s (mem_cons_of_mem _ hs)) (cons_ne_nil _ _)
      obtain ⟨hres', hdoc'⟩ := @descendField_field env ctx fullPath parent name next op doc used
        (modifyNestedInner env ctx fullPath op (next :: rest))
        (if rest = [] then none else some (modifyNestedInner env ctx fullPath op rest)) hnext
      rw [atEnd_cons, embedded]
      refine ⟨hres'.trans hres, fun new hnew => ?_⟩
      rw [hnew] at hres
      exact (hdoc' used hres).trans (by rw [hdoc new hnew]; rfl)

theorem segments_ne_nil (path : String) : segments path ≠ [] := by
  have hdots : ∀ l, splitDots l ≠ [] := by
    intro l
    cases l with
    | nil => exact cons_ne_nil _ _
    | cons c l =>
      rw [splitDots]
      split_ifs
      · exact cons_ne_nil _ _
      · split <;> exact cons_ne_nil _ _
  exact fun h => hdots _ (map_eq_nil_iff.1 h)

theorem fields_of_plain (h : pathHasPositional path = false) : ∀ s ∈ segments path, classifySegment s = .field s := by
  intro s hs
  have hs' := any_eq_false.1 h s hs
  cases hclass : classifySegment s with
  | field name => rw [classifySegment_field hclass]
  | _ => simp [hclass] at hs'

theorem modifyNested_plain (h : pathHasPositional path = false) :
    modifyNested env ctx path op doc used = modifyNestedInner env ctx path op (segments path) "" doc used := by
  have hcount : countPositionalSegments path = 0 := by
    refine countP_eq_zero.2 fun s hs => ?_
    simp [fields_of_plain h s hs]
  rw [modifyNested, if_neg (by omega)]

/-- **A write at a path of field names.** -/
theorem write_plain (h : pathHasPositional path = false) :
    write env ctx path op t = (atEnd "" (segments path) op (embedded t.doc (segments path))).map
      fun new => ⟨putAt new t.doc (segments path), t.used⟩ := by
  obtain ⟨hres, hdoc⟩ :=
    @modifyNestedInner_fields env ctx path "" (segments path) op t.doc t.used (fields_of_plain h) (segments_ne_nil path)
  rw [write, modifyNested_plain h]
  cases hop : atEnd "" (segments path) op (embedded t.doc (segments path)) with
  | ok new =>
    rw [hop] at hres
    have heq : modifyNestedInner env ctx path op (segments path) "" t.doc t.used =
        (putAt new t.doc (segments path), .ok t.used) :=
      Prod.ext (hdoc new hop) hres
    rw [heq]
    rfl
  | error e =>
    rw [hop] at hres
    split
    next doc used heq => rw [heq] at hres; cases hres
    next doc e' heq => rw [heq] at hres; cases hres; rfl

end Writer

/-! ## Updates with one operator and one path -/

section One

variable {env : Env} {nowMs : Int64} {doc doc' filter : Document} {arrayFilters : Option (List Document)}
  {isInsert : Bool} {name path : String} {arg : Bson} {op : UpdateOperator}
  {parse : String → Bson → Except UpdateError LeafOp} {leaf : LeafOp} {new : Option Bson}

/-- an operator that does one thing at each of its paths -/
def Parses (env : Env) (name : String) (parse : String → Bson → Except UpdateError LeafOp) : Prop :=
  ∃ op, UpdateOperator.ofName? name = some op ∧
    ∀ ctx nowMs isInsert args t, applyOperator env ctx nowMs isInsert op args t = applyEach env ctx parse args t

theorem applyUpdateWithCtx_one {ctx : UpdateContext} (hop : Parses env name parse) (t : Target) :
    applyUpdateWithCtx env ctx nowMs isInsert [(name, .document [(path, arg)])] t =
      (parse path arg >>= fun leaf => write env ctx path leaf t) := by
  obtain ⟨op, hname, hparse⟩ := hop
  have heach : applyEach env ctx parse [(path, arg)] t =
      (parse path arg >>= fun leaf => write env ctx path leaf t) := by
    simp [applyEach]
  simp [applyUpdateWithCtx, hname, hparse, heach]

/-- what such an update has done if it succeeds -/
theorem applyUpdate_one_inv (hop : Parses env name parse) (hplain : pathHasPositional path = false)
    (h : applyUpdate env nowMs doc [(name, .document [(path, arg)])] filter arrayFilters isInsert = .ok doc') :
    ∃ leaf new, parse path arg = .ok leaf ∧ atEnd "" (segments path) leaf (embedded doc (segments path)) = .ok new ∧
      doc' = putAt new doc (segments path) := by
  obtain ⟨ctx, -, h⟩ := bind_eq_ok h
  obtain ⟨t, ht, h⟩ := bind_eq_ok h
  obtain ⟨-, -, h⟩ := bind_eq_ok h
  cases h
  rw [applyUpdateWithCtx_one hop] at ht
  obtain ⟨leaf, hleaf, ht⟩ := bind_eq_ok ht
  rw [write_plain hplain] at ht
  obtain ⟨new, hnew, rfl⟩ := map_eq_ok ht
  exact ⟨leaf, new, hleaf, hnew, rfl⟩

/-- and it succeeds if its operation does, without array filters -/
theorem applyUpdate_one (hop : Parses env name parse) (hplain : pathHasPositional path = false)
    (hleaf : parse path arg = .ok leaf)
    (hnew : atEnd "" (segments path) leaf (embedded doc (segments path)) = .ok new) :
    applyUpdate env nowMs doc [(name, .document [(path, arg)])] filter none isInsert =
      .ok (putAt new doc (segments path)) := by
  have hctx : UpdateContext.new filter none = .ok ⟨filter, []⟩ := rfl
  have ht : applyUpdateWithCtx env ⟨filter, []⟩ nowMs isInsert [(name, .document [(path, arg)])] ⟨doc, []⟩ =
      .ok ⟨putAt new doc (segments path), []⟩ := by
    rw [applyUpdateWithCtx_one hop, bind_ok hleaf, write_plain hplain, hnew]
    rfl
  rw [applyUpdate, bind_ok hctx, bind_ok ht]
  rfl

theorem parses_set : Parses env "$set" fun _ value => .ok (setOp value) := ⟨.set, rfl, fun _ _ _ _ _ => rfl⟩

theorem parses_unset : Parses env "$unset" fun _ _ => .ok unsetOp := ⟨.unset, rfl, fun _ _ _ _ _ => rfl⟩

theorem parses_pull : Parses env "$pull" fun _ condition => .ok (onArrayOnly (pullElements env condition)) :=
  ⟨.pull, rfl, fun _ _ _ _ _ => rfl⟩

theorem parses_pullAll : Parses env "$pullAll" fun path values =>
    match values with
    | .array values => .ok (onArrayOnly fun arr => .ok (arr.filter fun elem => !values.any fun v => v.same elem))
    | values =>
      .error (.internal ("$pullAll: argument for '" ++ path ++ "' must be an array, got " ++ env.debug values)) :=
  ⟨.pullAll, rfl, fun _ _ _ _ _ => rfl⟩

theorem parses_pop : Parses env "$pop" fun _ dir =>
    match dir.asF64 with
    | none => .error (.internal ("$pop: value must be 1 or -1, got " ++ env.debug dir))
    | some dirN => .ok (onArrayOnly fun arr => .ok (if (F64.ofInt 1).le dirN then arr.dropLast else arr.tail)) :=
  ⟨.pop, rfl, fun _ _ _ _ _ => rfl⟩

/-- **`$set`.** The value reads back. Every path that is not comparable reads as before, unless it goes through an array
that the written path goes through too: such an array gives way to a document, and what was in it is gone. -/
theorem set_get_frame (env : Env) (nowMs : Int64) (d d' filter : Document) (arrayFilters : Option (List Document))
    (isInsert : Bool)
    (p : String) (v : Bson) (hplain : pathHasPositional p = false) (hopen : protectedPath (segments p) = false)
    (h : applyUpdate env nowMs d [("$set", .document [(p, v)])] filter arrayFilters isInsert = .ok d') :
    getNestedField d' p = some v ∧ ∀ q, Incomparable (segments p) (segments q) →
      (¬ ShareArray d (segments p) (segments q) → getNestedField d' q = getNestedField d q) ∧
        (ShareArray d (segments p) (segments q) → getNestedField d' q = none) := by
  obtain ⟨leaf, new, hleaf, hnew, rfl⟩ := applyUpdate_one_inv parses_set hplain h
  cases hleaf
  rw [atEnd, if_neg (by simp [hopen])] at hnew
  cases hnew
  exact ⟨getNested_putAt_self (segments_ne_nil p) (fun hnone => by cases hnone), fun q hq => getNested_putAt hq⟩

/-- without libraries, for closed inputs -/
def bareEnv : Env := ⟨noLibraries, fun _ => ""⟩

theorem set_get_frame_nested :
    let d : Document := [("a", .document [("b", .int32 1), ("c", .int32 2)])]
    let d' : Document := [("a", .document [("b", .int32 9), ("c", .int32 2)])]
    applyUpdate bareEnv 0 d [("$set", .document [("a.b", .int32 9)])] [] none false = .ok d' ∧
      getNestedField d' "a.b" = some (.int32 9) ∧ getNestedField d' "a.c" = getNestedField d "a.c" := by
  intro d d'
  have hok : applyUpdate bareEnv 0 d [("$set", .document [("a.b", .int32 9)])] [] none false = .ok d' := rfl
  have hab : segments "a.b" = ["a", "b"] := by decide
  have hac : segments "a.c" = ["a", "c"] := by decide
  obtain ⟨hself, hframe⟩ := set_get_frame bareEnv 0 d d' [] none false "a.b" (.int32 9) (by decide) (by decide) hok
  refine ⟨hok, hself, (hframe "a.c" ?_).1 ?_⟩
  · exact ⟨by decide, by decide⟩
  · rintro ⟨r, arr, hr, -, harr⟩
    obtain ⟨sub, hsub⟩ := @document_of_embedded d ["a", "b"] (.int32 1) rfl r hr (by rintro rfl; cases harr) _ harr
    cases hsub

/-- an index writes a field: the array is replaced; and behind the empty name the value of `_id` is not set -/
theorem set_replaces_array :
    let d : Document := [("a", .array [.int32 1, .int32 2])]
    let d' : Document := [("a", .document [("0", .int32 9)])]
    applyUpdate bareEnv 0 d [("$set", .document [("a.0", .int32 9)])] [] none false = .ok d' ∧
      getNestedField d "a.1" = some (.int32 2) ∧ getNestedField d' "a.1" = none ∧
      applyUpdate bareEnv 0 [] [("$set", .document [("._id", .int32 9)])] [] none false = .ok [("", .document [])] :=
  ⟨rfl, rfl, rfl, rfl⟩

/-- where there is nothing, the operators that remove want nothing -/
theorem removal_leaf (hname : name ∈ ["$unset", "$pull", "$pullAll", "$pop"]) :
    ∃ parse, Parses env name parse ∧ ∀ path arg leaf, parse path arg = .ok leaf → leaf none = .ok none := by
  simp only [mem_cons, not_mem_nil, or_false] at hname
  rcases hname with rfl | rfl | rfl | rfl
  · exact ⟨_, parses_unset, fun _ _ _ h => by cases h; rfl⟩
  · exact ⟨_, parses_pull, fun _ _ _ h => by cases h; rfl⟩
  · refine ⟨_, parses_pullAll, fun path arg leaf h => ?_⟩
    cases arg <;> cases h
    rfl
  · refine ⟨_, parses_pop, fun path arg leaf h => ?_⟩
    cases hdir : arg.asF64 with
    | none => rw [hdir] at h; cases h
    | some dir => rw [hdir] at h; cases h; rfl

/-- **The operators that remove.** Where the path is missing they leave the document alone iff the document that the
path ends in is there: they make it otherwise, in the place of whatever is on the way. Where an embedded field is there,
`$unset` removes it, unless the path is protected, and every path that is not comparable reads as before. -/
theorem removal_laws (env : Env) (nowMs : Int64) (d filter : Document) (arrayFilters : Option (List Document))
    (isInsert : Bool) (p : String) (hplain : pathHasPositional p = false) (hd : DistinctNames d) :
    (getNestedField d p = none → ∀ name ∈ ["$unset", "$pull", "$pullAll", "$pop"], ∀ arg d',
      applyUpdate env nowMs d [(name, .document [(p, arg)])] filter arrayFilters isInsert = .ok d' →
        (d' = d ↔ HasParent d (segments p))) ∧
    (∀ arg v, embedded d (segments p) = some v →
      (∃ d', applyUpdate env nowMs d [("$unset", .document [(p, arg)])] filter none isInsert = .ok d') ∧
      ∀ d', applyUpdate env nowMs d [("$unset", .document [(p, arg)])] filter arrayFilters isInsert = .ok d' →
        (getNestedField d' p = none ↔ protectedPath (segments p) = false) ∧
          ∀ q, Incomparable (segments p) (segments q) → getNestedField d' q = getNestedField d q) := by
  refine ⟨fun habsent name hname arg d' h => ?_, fun arg v hv => ⟨?_, fun d' h => ?_⟩⟩
  · obtain ⟨parse, hparses, hleaf⟩ := removal_leaf hname
    obtain ⟨leaf, new, hparse, hnew, rfl⟩ := applyUpdate_one_inv hparses hplain h
    have hmissing : embedded d (segments p) = none := by
      cases hv : embedded d (segments p) with
      | none => rfl
      | some v => rw [getNestedField, getNested_of_embedded hv] at habsent; cases habsent
    have hnone : new = embedded d (segments p) := by
      rw [hmissing] at hnew ⊢
      unfold atEnd at hnew
      split_ifs at hnew
      · exact (Except.ok.inj hnew).symm
      · exact Except.ok.inj (hnew.symm.trans (hleaf _ _ _ hparse))
    rw [hnone]
    exact putAt_embedded_iff (segments_ne_nil p)
  · cases hnew : atEnd "" (segments p) unsetOp (embedded d (segments p)) with
    | ok new => exact ⟨_, applyUpdate_one parses_unset hplain rfl hnew⟩
    | error e =>
      unfold atEnd at hnew
      split_ifs at hnew
      cases hnew
  · obtain ⟨leaf, new, hleaf, hnew, rfl⟩ := applyUpdate_one_inv parses_unset hplain h
    cases hleaf
    refine ⟨?_, fun q hq => (getNested_putAt hq).1 ?_⟩
    · rw [getNestedField, getNested_putAt_self (segments_ne_nil p) fun _ => .inr hd]
      unfold atEnd at hnew
      split_ifs at hnew with hprot <;> cases hnew
      · simp [hv, hprot.2]
      · exact iff_of_true rfl (by simpa using hprot)
    · rintro ⟨r, arr, hrp, hrq, harr⟩
      obtain ⟨sub, hsub⟩ := document_of_embedded hv hrp (by rintro rfl; exact hq.1 hrq) harr
      cases hsub

theorem removal_laws_field :
    let d : Document := [("a", .int32 1)]
    DistinctNames d ∧ applyUpdate bareEnv 0 d [("$pop", .document [("b", .int32 1)])] [] none false = .ok d ∧
      applyUpdate bareEnv 0 d [("$unset", .document [("a", .null)])] [] none false = .ok [] ∧
        getNestedField [] "a" = none := by
  intro d
  have hd : DistinctNames d := by
    refine ⟨nodup_singleton _, fun segs sub hsub => ?_⟩
    cases segs with
    | nil => cases hsub
    | cons name rest =>
      have hsub' : subDocument d name = [] := by
        by_cases hname : "a" = name <;> simp [d, subDocument, Document.get, hname]
      cases rest with
      | nil => by_cases hname : "a" = name <;> simp [d, embedded, Document.get, hname] at hsub
      | cons next rest =>
        rw [embedded, hsub', embedded_nil_doc] at hsub
        cases hsub
  obtain ⟨⟨d', hok⟩, hlaws⟩ := (removal_laws bareEnv 0 d [] none false "a" (by decide) hd).2 .null (.int32 1) rfl
  have hd' : d' = [] := Except.ok.inj (hok.symm.trans rfl)
  exact ⟨hd, rfl, rfl, hd' ▸ (hlaws d' hok).1.2 (by decide)⟩

/-- a missing path: the number on the way is lost, or a document is made; and a field is not removed -/
theorem unset_replaces_number :
    applyUpdate bareEnv 0 [("a", .int32 5)] [("$unset", .document [("a.b", .int32 1)])] [] none false =
      .ok [("a", .document [])] ∧
      applyUpdate bareEnv 0 [] [("$pull", .document [("a.b", .int32 1)])] [] none false = .ok [("a", .document [])] ∧
      applyUpdate bareEnv 0 [("", .document [("_id", .int32 5)])] [("$unset", .document [("._id", .int32 1)])]
        [] none false = .ok [("", .document [("_id", .int32 5)])] :=
  ⟨rfl, rfl, rfl⟩

end One

/-! ## The document that an upsert starts from -/

/-- direct conditions on paths of which none goes on from another -/
structure DirectFilter (f : Document) : Prop where
  names : ∀ c ∈ f, ∀ s ∈ segments c.1, startsWithDollar s = false
  noCollation : f.containsKey "collation" = false
  noRegex : ∀ c ∈ f, ∀ re, c.2 ≠ .regularExpression re
  noOps : ∀ c ∈ f, ∀ sub, c.2 = .document sub → hasOps sub = false
  incomparable : f.Pairwise fun a b => Incomparable (segments a.1) (segments b.1)

/-- a path that the seed has no value for -/
def Unseeded (path : String) : Prop := protectedPath (segments path) = true ∧ path ≠ "_id"

instance (path : String) : Decidable (Unseeded path) := inferInstanceAs (Decidable (_ ∧ _))

/-- what a direct condition does to the seed: a protected path is walked, and what is there is put back -/
def seedStep (base : Document) (c : String × Bson) : Document :=
  putAt (if Unseeded c.1 then embedded base (segments c.1) else some c.2) base (segments c.1)

/-- the seed after some of the conditions -/
structure Seeded (done : List (String × Bson)) (base : Document) : Prop where
  value : ∀ c ∈ done, getNestedField base c.1 = if Unseeded c.1 then none else some c.2
  covered : ∀ q w, getNested base q = some w → (∃ c ∈ done, segments c.1 <+: q) ∨ (∃ sub, w = .document sub) ∧
    ∃ c ∈ done, q <+: segments c.1

section Upsert

variable {env : Env} {done : List (String × Bson)} {base f : Document} {c : String × Bson}

variable {path : String}

theorem startsWithDollar_of_segments (h : ∀ s ∈ segments path, startsWithDollar s = false) :
    startsWithDollar path = false := by
  rw [startsWithDollar, decide_eq_false_iff_not]
  intro hhead
  obtain ⟨rest, hpath⟩ := head?_eq_some_iff.1 hhead
  have hfirst : ∃ first later, segments path = String.ofList ('$' :: first) :: later := by
    rw [segments, hpath, splitDots, if_neg (by decide)]
    split
    · exact ⟨[], [], rfl⟩
    · exact ⟨_, _, rfl⟩
  obtain ⟨first, later, hsegs⟩ := hfirst
  have hname := h _ (hsegs ▸ mem_cons_self)
  simp [startsWithDollar] at hname

theorem classifySegment_of_plain {s : String} (h : startsWithDollar s = false) : classifySegment s = .field s := by
  rw [startsWithDollar, decide_eq_false_iff_not] at h
  unfold classifySegment
  split_ifs with hall hpos
  · rw [hall] at h
    exact absurd (by decide) h
  · rw [hpos] at h
    exact absurd (by decide) h
  · split
    next rest hlist =>
      rw [hlist] at h
      exact absurd rfl h
    · rfl

theorem pathHasPositional_of_plain (h : ∀ s ∈ segments path, startsWithDollar s = false) :
    pathHasPositional path = false := by
  refine any_eq_false.2 fun s hs => ?_
  simp [classifySegment_of_plain (h s hs)]

theorem setPlainPath_plain {v : Bson} (h : pathHasPositional path = false) : setPlainPath env base path v =
      putAt (if protectedPath (segments path) = true then embedded base (segments path) else some v) base
        (segments path) := by
  rw [setPlainPath, modifyNested_plain h]
  refine (modifyNestedInner_fields (fields_of_plain h) (segments_ne_nil path)).2 _ ?_
  by_cases hprot : protectedPath (segments path) = true <;> simp [atEnd, hprot, setOp]

theorem upsertBaseFromFilter_eq (hf : DirectFilter f) : upsertBaseFromFilter env f = f.foldl seedStep [] := by
  refine foldl_ext _ _ _ fun base c hc => ?_
  have hplain := pathHasPositional_of_plain (hf.names c hc)
  have hid : segments "_id" = ["_id"] := by decide
  refine (if_neg (by simp [startsWithDollar_of_segments (hf.names c hc)])).trans ((if_neg ?_).trans ?_)
  · split
    next sub hsub => simpa using any_eq_false.1 (hf.noOps c hc sub hsub)
    · exact Bool.false_ne_true
  · rw [seedStep]
    split_ifs with hname hun hun
    · exact absurd hname hun.2
    · rw [hname]
      rfl
    · rw [setPlainPath_plain hplain, if_pos hun.1]
    · rw [setPlainPath_plain hplain, if_neg fun hprot => hun ⟨hprot, hname⟩]

theorem Seeded.step (h : Seeded done base) (hc : ∀ a ∈ done, Incomparable (segments a.1) (segments c.1)) :
    Seeded (done ++ [c]) (seedStep base c) := by
  have habsent : embedded base (segments c.1) = none := by
    cases hv : embedded base (segments c.1) with
    | none => rfl
    | some v =>
      rcases h.covered _ _ (getNested_of_embedded hv) with ⟨a, ha, hpre⟩ | ⟨-, a, ha, hpre⟩
      · exact absurd hpre (hc a ha).1
      · exact absurd hpre (hc a ha).2
  constructor
  · intro a ha
    rcases mem_append.1 ha with ha | ha
    · rw [← h.value a ha]
      refine (getNested_putAt ⟨(hc a ha).2, (hc a ha).1⟩).1 ?_
      rintro ⟨r, arr, hrc, hra, harr⟩
      rcases h.covered _ _ harr with ⟨b, hb, hpre⟩ | ⟨⟨sub, hsub⟩, -⟩
      · exact (hc b hb).1 (hpre.trans hrc)
      · cases hsub
    · cases mem_singleton.1 ha
      rw [getNestedField, seedStep, getNested_putAt_self (segments_ne_nil _) fun _ => .inl habsent, habsent]
  · intro q w hw
    by_cases hcq : segments c.1 <+: q
    · exact .inl ⟨c, by simp, hcq⟩
    by_cases hqc : q <+: segments c.1
    · have hnil : q ≠ [] := by
        rintro rfl
        cases hw
      obtain ⟨sub, hsub⟩ := @getNested_putAt_before base (segments c.1) q
        (if Unseeded c.1 then embedded base (segments c.1) else some c.2) hqc (fun heq => hcq (heq ▸ prefix_rfl)) hnil
      exact .inr ⟨⟨sub, Option.some.inj (hw.symm.trans hsub)⟩, c, by simp, hqc⟩
    · obtain ⟨hsame, hgone⟩ := @getNested_putAt base (segments c.1) q
        (if Unseeded c.1 then embedded base (segments c.1) else some c.2) ⟨hcq, hqc⟩
      by_cases hshare : ShareArray base (segments c.1) q
      · exact absurd (hw.symm.trans (hgone hshare)) (by simp)
      · rcases h.covered q w ((hsame hshare).symm.trans hw) with ⟨a, ha, hpre⟩ | ⟨hdoc, a, ha, hpre⟩
        · exact .inl ⟨a, mem_append_left _ ha, hpre⟩
        · exact .inr ⟨hdoc, a, mem_append_left _ ha, hpre⟩

theorem Seeded.run (h : Seeded done base) {rest : List (String × Bson)}
    (hf : (done ++ rest).Pairwise fun a b => Incomparable (segments a.1) (segments b.1)) :
    Seeded (done ++ rest) (rest.foldl seedStep base) := by
  induction rest generalizing done base with
  | nil => simpa using h
  | cons c rest ih =>
    have hc : ∀ a ∈ done, Incomparable (segments a.1) (segments c.1) := fun a ha =>
      (pairwise_append.1 hf).2.2 a ha c mem_cons_self
    have hstep := ih (h.step hc) (by simpa using hf)
    simpa using hstep

/-- a direct condition asks for the value -/
theorem evalFields_direct {doc : Document} (hnames : ∀ c ∈ f, startsWithDollar c.1 = false)
    (hre : ∀ c ∈ f, ∀ re, c.2 ≠ .regularExpression re)
    (hops : ∀ c ∈ f, ∀ sub, c.2 = .document sub → hasOps sub = false) :
    evalFields env.toEnv f doc = .ok (f.all fun c => evalEq (getNestedField doc c.1) c.2) := by
  induction f with
  | nil => rfl
  | cons c f ih =>
    have htop : evalTopLevel env.toEnv c.2 c.1 doc = .ok (evalEq (getNestedField doc c.1) c.2) := by
      rw [evalTopLevel_field (hnames c mem_cons_self)]
      split
      next sub hsub => rw [if_neg (by simp [hops c mem_cons_self sub hsub]), hsub]
      next re hsub => exact absurd hsub (hre c mem_cons_self re)
      · rfl
    rw [evalFields, htop, ih (fun a ha => hnames a (mem_cons_of_mem _ ha)) (fun a ha => hre a (mem_cons_of_mem _ ha))
      (fun a ha => hops a (mem_cons_of_mem _ ha)), all_cons]
    cases evalEq (getNestedField doc c.1) c.2 <;> rfl

/-- **The seed of an upsert satisfies its filter iff no condition on an unseeded path wants a value**, and it has no
path but those of the filter. -/
theorem upsert_seed_iff (env : Env) (f : Document) (hf : DirectFilter f) :
    (evalFilter env.toEnv (upsertBaseFromFilter env f) f = .ok true ↔ ∀ c ∈ f, Unseeded c.1 → isNull c.2 = true) ∧
      ∀ q, getNestedField (upsertBaseFromFilter env f) q ≠ none → ∃ c ∈ f, segments c.1 <+: segments q ∨
        segments q <+: segments c.1 := by
  have hnil : Seeded [] [] := ⟨fun c hc => (by cases hc), fun q w hw => by rw [getNested_nil_doc] at hw; cases hw⟩
  have hseed : Seeded f (upsertBaseFromFilter env f) := by
    rw [upsertBaseFromFilter_eq hf]
    exact hnil.run hf.incomparable
  refine ⟨?_, fun q hq => ?_⟩
  · rw [evalFilter, guardCollation, if_neg (by simp [hf.noCollation]),
      evalFields_direct (fun c hc => startsWithDollar_of_segments (hf.names c hc)) hf.noRegex hf.noOps]
    simp only [Except.ok.injEq, all_eq_true]
    refine forall₂_congr fun c hc => ?_
    rw [hseed.value c hc]
    split_ifs with hun
    · simp [hun, evalEq]
    · simp [hun, evalEq, matchesValue, bsonEq]
  · obtain ⟨w, hw⟩ := Option.ne_none_iff_exists'.1 hq
    rcases hseed.covered _ w hw with ⟨c, hc, hpre⟩ | ⟨-, c, hc, hpre⟩
    · exact ⟨c, hc, .inl hpre⟩
    · exact ⟨c, hc, .inr hpre⟩

theorem upsert_seed_shared :
    let f : Document := [("a.b", .int32 1), ("_id", .string "k"), ("a.c", .array [.int32 2])]
    upsertBaseFromFilter bareEnv f =
      [("a", .document [("b", .int32 1), ("c", .array [.int32 2])]), ("_id", .string "k")] ∧
      evalFilter noLibraries (upsertBaseFromFilter bareEnv f) f = .ok true := by
  intro f
  have hab : segments "a.b" = ["a", "b"] := by decide
  have hid : segments "_id" = ["_id"] := by decide
  have hac : segments "a.c" = ["a", "c"] := by decide
  have hf : DirectFilter f := by
    constructor
    · simp [f, hab, hid, hac, startsWithDollar]
    · rfl
    · simp [f]
    · simp [f]
    · simp [f, hab, hid, hac, Incomparable]
  refine ⟨rfl, (upsert_seed_iff bareEnv f hf).1.2 ?_⟩
  simp [f, Unseeded, hab, hid, hac, protectedPath]

/-- behind the empty name no value is set -/
theorem seed_misses_id :
    evalFilter noLibraries (upsertBaseFromFilter bareEnv [("._id", .int32 5)]) [("._id", .int32 5)] = .ok false ∧
    upsertBaseFromFilter bareEnv [("._id", .int32 5)] = [("", .document [])] :=
  ⟨rfl, rfl⟩

end Upsert

/-! ## Paths that go on -/

section Longer

variable {doc : Document} {p q : List String} {v : Bson}

theorem segments_append (p q : String) : segments (p ++ "." ++ q) = segments p ++ segments q := by
  have hdots : ∀ l m, splitDots (l ++ '.' :: m) = splitDots l ++ splitDots m := by
    intro l m
    induction l with
    | nil => rfl
    | cons c l ih =>
      rw [cons_append, splitDots, splitDots, ih]
      split_ifs
      · rfl
      · cases hl : splitDots l with
        | nil => exact absurd (by rw [segments, String.toList_ofList, hl]; rfl) (segments_ne_nil (String.ofList l))
        | cons seg segs => rfl
  simp [segments, hdots]

/-- behind a value that is reached through documents the walk goes on in it -/
theorem getNested_append (h : embedded doc p = some v) (hne : q ≠ []) :
    getNested doc (p ++ q) = getNested [("", v)] ("" :: q) := by
  obtain ⟨first, others, rfl⟩ := exists_cons_of_ne_nil hne
  induction p generalizing doc with
  | nil => cases h
  | cons name rest ih =>
    cases rest with
    | nil =>
      change doc.get name = some v at h
      rw [singleton_append, getNested, getNested, h]
      rfl
    | cons next rest =>
      rw [embedded, subDocument] at h
      split at h
      next sub hget =>
        exact (getNested_cons_document hget (cons_ne_nil _ _)).trans (ih h)
      · rw [embedded_nil_doc] at h
        cases h

/-- behind an element of an array there is nothing -/
theorem getNested_append_element (h : getNested doc p = some v) (hne : embedded doc p ≠ some v) (hq : q ≠ []) :
    getNested doc (p ++ q) = none := by
  induction p generalizing doc with
  | nil => cases h
  | cons name rest ih =>
    cases rest with
    | nil => exact absurd h hne
    | cons next rest =>
      rw [getNested] at h
      rw [embedded] at hne
      split at h
      next sub hget =>
        rw [subDocument_of_get hget] at hne
        exact (getNested_cons_document hget (cons_ne_nil _ _)).trans (ih h hne)
      next arr hget =>
        rw [cons_append, cons_append, getNested, hget]
        exact if_neg (append_ne_nil_of_right_ne_nil _ hq)
      · cases h

theorem parseDigits_eq {l : List Char} (h : ∀ c ∈ l, c.isDigit = true) (n : ℕ) :
    parseDigits l n = some (Nat.ofDigitChars 10 l n) := by
  induction l generalizing n with
  | nil => rfl
  | cons c l ih =>
    obtain ⟨hc, hl⟩ := forall_mem_cons.1 h
    have hdigit : '0' ≤ c ∧ c ≤ '9' := (Bool.and_eq_true_iff.1 hc).imp of_decide_eq_true of_decide_eq_true
    rw [parseDigits, digit?, if_pos hdigit, Option.bind_some, ih hl, Nat.ofDigitChars_cons, Nat.mul_comm]

theorem splitDots_digits {l : List Char} (h : ∀ c ∈ l, c.isDigit = true) : splitDots l = [l] := by
  induction l with
  | nil => rfl
  | cons c l ih =>
    obtain ⟨hc, hl⟩ := forall_mem_cons.1 h
    have hdot : c ≠ '.' := by
      rintro rfl
      cases hc
    rw [splitDots, if_neg hdot, ih hl]

/-- a number at the end of a path is one segment, and an index -/
theorem index_segment {i : ℕ} (h : i < 2 ^ 64) :
    segments (toString i) = [toString i] ∧ parseUsize (toString i) = some i := by
  have hdigits : ∀ c ∈ Nat.toDigits 10 i, c.isDigit = true :=
    fun c hc => Nat.isDigit_of_mem_toDigits (by decide) (by decide) hc
  rw [segments, parseUsize, Nat.toString_eq_ofList_toDigits, String.toList_ofList, splitDots_digits hdigits]
  refine ⟨rfl, ?_⟩
  split
  next rest hplus => exact absurd (hdigits '+' (hplus ▸ mem_cons_self)) (by decide)
  · rw [if_neg Nat.toDigits_ne_nil, parseDigits_eq hdigits, Nat.ofDigitChars_ten_toDigits]
    exact if_pos (decide_eq_true h)

/-- **Longer paths.** The walk treats what is left of the path as one index when it comes to an array. So a path can be
continued if and only if its value was reached through documents alone, or the continuation finds nothing there
anyway. -/
theorem paths_compose_iff (d : Document) (p q : String) :
    ((∀ s, getNestedField d p = some (.document s) → getNestedField d (p ++ "." ++ q) = getNestedField s q) ∧
      ∀ arr, getNestedField d p = some (.array arr) → ∀ i < 2 ^ 64, ∀ elem, arr[i]? = some elem →
        getNestedField d (p ++ "." ++ toString i) = some elem) ↔
    (∀ s, getNestedField d p = some (.document s) → embedded d (segments p) = some (.document s) ∨
      getNestedField s q = none) ∧
      ∀ arr, getNestedField d p = some (.array arr) → embedded d (segments p) = some (.array arr) ∨ arr = [] := by
  have hsplit : ∀ {v q}, getNestedField d p = some v →
      embedded d (segments p) = some v ∧ getNestedField d (p ++ "." ++ q) = getNested [("", v)] ("" :: segments q) ∨
      embedded d (segments p) ≠ some v ∧ getNestedField d (p ++ "." ++ q) = none := by
    intro v q hv
    rw [getNestedField, segments_append]
    by_cases hdirect : embedded d (segments p) = some v
    · exact .inl ⟨hdirect, getNested_append hdirect (segments_ne_nil q)⟩
    · exact .inr ⟨hdirect, getNested_append_element hv hdirect (segments_ne_nil q)⟩
  refine and_congr (forall₂_congr fun s hs => ?_) (forall₂_congr fun arr harr => ?_)
  · rcases hsplit (q := q) hs with ⟨hdirect, hget⟩ | ⟨hdirect, hget⟩
    · rw [hget, getNested_cons_document rfl (segments_ne_nil q)]
      exact iff_of_true rfl (.inl hdirect)
    · rw [hget, or_iff_right hdirect]
      exact eq_comm
  · constructor
    · intro hlaw
      cases arr with
      | nil => exact .inr rfl
      | cons elem arr =>
        rcases hsplit (q := toString 0) harr with ⟨hdirect, -⟩ | ⟨-, hget⟩
        · exact .inl hdirect
        · cases hget.symm.trans (hlaw 0 (by decide) elem rfl)
    · intro hdirect i hi elem helem
      obtain ⟨hsegments, hparse⟩ := index_segment hi
      rcases hsplit (q := toString i) harr, hdirect with ⟨⟨-, hget⟩ | ⟨hnot, -⟩, hdirect | rfl⟩
      · rw [hget, hsegments]
        change (parseUsize (toString i)).bind (arr[·]?) = some elem
        rw [hparse]
        exact helem
      · cases helem
      · exact absurd hdirect hnot
      · cases helem

/-- the index of the array is not the end of the path -/
theorem index_inside_path :
    let d : Document := [("a", .array [.document [("b", .int32 1)]])]
    getNestedField d "a.0" = some (.document [("b", .int32 1)]) ∧
      getNestedField [("b", .int32 1)] "b" = some (.int32 1) ∧ getNestedField d ("a.0" ++ "." ++ "b") = none :=
  ⟨rfl, rfl, rfl⟩

end Longer

end Update

end Mqlite
