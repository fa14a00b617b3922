/-
Options of a find: projection, skip and limit (`storage/paged_engine/doc_helpers.rs`; `apply_find_opts` of
`snapshot_ops/read_exec.rs`; `unsorted_materialization_limit` of `doc_ops.rs`).

A projection is a trie of its paths. With a true value for some other field than `_id` it says what is included, and
`_id` is included unless it is mapped to a false value. Otherwise all its paths are excluded, whatever they are mapped
to.
- `id_projected_iff`: when `_id` is kept unless it is mapped to a false value. It is not by `\x7b_id: 1\x7d`, which
  drops just the `_id` (`id_alone_dropped`).

A find without sort collects no more documents than skip and limit together.
- `limit_pushdown_invisible`: that makes no difference to its result, for any plan.
-/
import Mqlite.Index.Scan
import Mqlite.Update.PathLaws

namespace Mqlite.Query

open Lib Mvcc Keys Index List

/-! ## Projection -/

inductive ProjTrie where
  | node (terminal : Bool) (children : List (String × ProjTrie))

namespace ProjTrie

def terminal : ProjTrie → Bool
  | .node terminal _ => terminal

def children : ProjTrie → List (String × ProjTrie)
  | .node _ children => children

def default : ProjTrie := .node false []

/-- `child_entry`, and what is done to the entry -/
def atChild (f : ProjTrie → ProjTrie) (seg : String) : List (String × ProjTrie) → List (String × ProjTrie)
  | [] => [(seg, f default)]
  | (name, sub) :: rest => if name = seg then (name, f sub) :: rest else (name, sub) :: atChild f seg rest

/-- the last segment is terminal and loses its children; the others are not terminal any more -/
def insertSegments : List String → ProjTrie → ProjTrie
  | [], trie => trie
  | [seg], trie => .node trie.terminal (atChild (fun _ => .node true []) seg trie.children)
  | seg :: rest, trie =>
    .node trie.terminal (atChild (fun child => insertSegments rest (.node false child.children)) seg trie.children)

def insert (trie : ProjTrie) (path : String) : ProjTrie := insertSegments (segments path) trie

def child (trie : ProjTrie) (seg : String) : Option ProjTrie := (trie.children.find? fun p => p.1 = seg).map Prod.snd

end ProjTrie

mutual

def projectValueInclude : Bson → ProjTrie → Option Bson
  | .document sub, node => some (.document (projectDocInclude sub node))
  | .array arr, node => some (.array (projectElemsInclude arr node))
  | _, _ => none
termination_by structural v => v

/-- a document has each name once, so the fields are added at the end -/
def projectDocInclude : List (String × Bson) → ProjTrie → Document
  | [], _ => []
  | (key, value) :: rest, node =>
    match node.child key with
    | none => projectDocInclude rest node
    | some child =>
      if child.terminal then (key, value) :: projectDocInclude rest node
      else match projectValueInclude value child with
        | some projected => (key, projected) :: projectDocInclude rest node
        | none => projectDocInclude rest node
termination_by structural fields => fields

/-- elements that are no documents are left out -/
def projectElemsInclude : List Bson → ProjTrie → List Bson
  | [], _ => []
  | elem :: rest, node =>
    match elem with
    | .document sub => .document (projectDocInclude sub node) :: projectElemsInclude rest node
    | _ => projectElemsInclude rest node
termination_by structural elems => elems

end

mutual

/-- the loop of `project_doc_exclude` -/
def excludeEach : List (String × ProjTrie) → Document → Document
  | [], doc => doc
  | (seg, child) :: rest, doc => excludeEach rest (
    if child.terminal then doc.remove seg
    else match doc.get seg with
      | some v => doc.insert seg (excludeIn child v)
      | none => doc)
termination_by structural children => children

/-- a value under a field that is not excluded itself -/
def excludeIn : ProjTrie → Bson → Bson
  | .node _ children, .document sub => .document (excludeEach children sub)
  | .node _ children, .array arr => .array (arr.map fun elem =>
    match elem with
    | .document sub => .document (excludeEach children sub)
    | other => other)
  | _, other => other
termination_by structural trie => trie

end

def projectDocExclude (doc : Document) (trie : ProjTrie) : Document := excludeEach trie.children doc

def isFalse : Bson → Bool
  | .int32 n => n = 0
  | .int64 n => n = 0
  | .boolean b => !b
  | _ => false

def isInclusion (proj : Document) : Bool := proj.any fun p => p.1 ≠ "_id" && !isFalse p.2

def explicitIdExcl (proj : Document) : Bool := (proj.get "_id").any isFalse

def inclusionTrie (proj : Document) : ProjTrie :=
  (proj.filter fun p => p.1 ≠ "_id" && !isFalse p.2).foldl (fun trie p => trie.insert p.1) .default

def exclusionTrie (proj : Document) : ProjTrie := proj.foldl (fun trie p => trie.insert p.1) .default

def applyProjectionToDoc (doc proj : Document) : Document :=
  if isInclusion proj then
    (if explicitIdExcl proj then [] else (doc.get "_id").toList.map fun id => ("_id", id)) ++
      projectDocInclude (doc.filter fun p => p.1 ≠ "_id") (inclusionTrie proj)
  else projectDocExclude doc (exclusionTrie proj)

/-! ### The `_id` -/

section Id

variable {f : ProjTrie → ProjTrie} {seg name : String} {children : List (String × ProjTrie)} {doc proj : Document}
  {trie : ProjTrie} {id v : Bson}

theorem atChild_names (f : ProjTrie → ProjTrie) (seg : String) (children : List (String × ProjTrie)) :
    (ProjTrie.atChild f seg children).map Prod.fst =
      if seg ∈ children.map Prod.fst then children.map Prod.fst else children.map Prod.fst ++ [seg] := by
  induction children with
  | nil => rfl
  | cons p rest ih =>
    rw [ProjTrie.atChild]
    by_cases hname : p.1 = seg
    · simp [hname]
    · rw [if_neg hname, map_cons, ih, map_cons]
      by_cases hmem : seg ∈ rest.map Prod.fst
      · rw [if_pos hmem, if_pos (mem_cons_of_mem _ hmem)]
      · rw [if_neg hmem, if_neg (by simpa [Ne.symm hname] using hmem), cons_append]

theorem find?_atChild (f : ProjTrie → ProjTrie) (seg : String) (children : List (String × ProjTrie)) (name : String) :
    ((ProjTrie.atChild f seg children).find? fun p => p.1 = name).map Prod.snd =
      if name = seg then some (f (((children.find? fun p => p.1 = seg).map Prod.snd).getD .default))
      else (children.find? fun p => p.1 = name).map Prod.snd := by
  induction children with
  | nil =>
    rw [ProjTrie.atChild]
    split_ifs with hname
    · simp [hname]
    · simp [Ne.symm hname]
  | cons p rest ih =>
    rw [ProjTrie.atChild]
    by_cases hp : p.1 = seg
    · rw [if_pos hp]
      split_ifs with hname
      · simp [hp, hname]
      · have hne : p.1 ≠ name := fun h => hname (h.symm.trans hp)
        rw [find?_cons_of_neg (by simpa using hne), find?_cons_of_neg (by simpa using hne)]
    · rw [if_neg hp]
      by_cases hpn : p.1 = name
      · have hne : name ≠ seg := fun h => hp (hpn.trans h)
        simp [hpn, hne]
      · simp only [find?_cons, hp, hpn, decide_false]
        exact ih

/-- no name twice on any level -/
inductive Distinct : ProjTrie → Prop
  | node {terminal : Bool} {children : List (String × ProjTrie)} (names : (children.map Prod.fst).Nodup)
      (below : ∀ p ∈ children, Distinct p.2) : Distinct (.node terminal children)

theorem distinct_iff {trie : ProjTrie} :
    Distinct trie ↔ (trie.children.map Prod.fst).Nodup ∧ ∀ p ∈ trie.children, Distinct p.2 := by
  cases trie with
  | node terminal children =>
    refine ⟨fun h => ?_, fun h => .node h.1 h.2⟩
    cases h with
    | node names sub => exact ⟨names, sub⟩

theorem distinct_leaf (terminal : Bool) : Distinct (.node terminal []) := .node nodup_nil fun p hp => by cases hp

theorem Distinct.atChild {trie : ProjTrie} (h : Distinct trie) {f : ProjTrie → ProjTrie}
    (hf : ∀ sub, Distinct sub → Distinct (f sub))
    (seg : String) (terminal : Bool) : Distinct (.node terminal (ProjTrie.atChild f seg trie.children)) := by
  obtain ⟨names, sub⟩ := distinct_iff.1 h
  refine .node ?_ ?_
  · rw [atChild_names]
    split_ifs with hseg
    · exact names
    · exact nodup_append.2 ⟨names, nodup_singleton seg, fun a ha b hb hab => hseg (mem_singleton.1 hb ▸ hab ▸ ha)⟩
  · clear names h
    generalize trie.children = children at sub
    induction children with
    | nil => exact forall_mem_singleton.2 (hf _ (distinct_leaf false))
    | cons p rest ih =>
      obtain ⟨hp, hrest⟩ := forall_mem_cons.1 sub
      rw [ProjTrie.atChild]
      split_ifs
      · exact forall_mem_cons.2 ⟨hf _ hp, hrest⟩
      · exact forall_mem_cons.2 ⟨hp, ih hrest⟩

theorem Distinct.insertSegments {trie : ProjTrie} (h : Distinct trie) (path : List String) :
    Distinct (ProjTrie.insertSegments path trie) := by
  induction path generalizing trie with
  | nil => exact h
  | cons seg rest ih =>
    cases rest with
    | nil => exact h.atChild (fun _ _ => distinct_leaf true) seg _
    | cons next rest =>
      exact h.atChild (fun sub hsub => ih (.node (distinct_iff.1 hsub).1 (distinct_iff.1 hsub).2)) seg _

/-! ### Which keys count -/

/-- the path leads to a terminal node -/
def ProjTrie.ends : ProjTrie → List String → Bool
  | trie, [] => trie.terminal
  | trie, seg :: rest => (trie.child seg).any fun child => child.ends rest
termination_by structural _ path => path

theorem ProjTrie.ends_cons {trie : ProjTrie} (seg : String) (rest : List String) :
    trie.ends (seg :: rest) = (trie.child seg).any fun child => child.ends rest := rfl

/-- a key does not count if a later one goes on from it, or is where it goes through -/
def effective : List (List String) → List (List String)
  | [] => []
  | path :: rest => if rest.any fun later => path.isPrefixOf later || later.isPrefixOf path then effective rest
      else path :: effective rest

theorem ends_insertSegments {path q : List String} (hpath : path ≠ []) (hq : q ≠ []) (trie : ProjTrie) :
    (ProjTrie.insertSegments path trie).ends q = true ↔ q = path ∨ trie.ends q = true ∧ ¬ path <+: q ∧
      ¬ q <+: path := by
  induction path generalizing trie q with
  | nil => exact absurd rfl hpath
  | cons seg path ih =>
    obtain ⟨name, q, rfl⟩ := exists_cons_of_ne_nil hq
    have hchild : ∀ f terminal, (ProjTrie.node terminal (ProjTrie.atChild f seg trie.children)).child name =
        if name = seg then some (f ((trie.child seg).getD .default)) else trie.child name :=
      fun f _ => find?_atChild f seg trie.children name
    by_cases hname : name = seg
    · subst hname
      cases path with
      | nil =>
        rw [ProjTrie.insertSegments, ProjTrie.ends, hchild, if_pos rfl]
        cases q <;> simp [ProjTrie.ends, ProjTrie.terminal, ProjTrie.child, ProjTrie.children]
      | cons next rest =>
        rw [ProjTrie.insertSegments, ProjTrie.ends, hchild, if_pos rfl, Option.any_some]
        · cases q with
          | nil =>
            have hterminal : ∀ sub, (ProjTrie.insertSegments (next :: rest) sub).terminal = sub.terminal := by
              cases rest <;> exact fun _ => rfl
            rw [ProjTrie.ends, hterminal]
            simp [ProjTrie.terminal]
          | cons x xs =>
            have hsub : ∀ child : ProjTrie, (ProjTrie.node false child.children).ends (x :: xs) =
                child.ends (x :: xs) := fun _ => rfl
            rw [ih (by simp) (by simp), hsub, ProjTrie.ends_cons name]
            simp only [cons.injEq, true_and, cons_prefix_cons]
            refine or_congr_right (and_congr_left fun _ => ?_)
            cases trie.child name with
            | none => simp [ProjTrie.ends_cons, ProjTrie.child, ProjTrie.children, ProjTrie.default]
            | some child => rfl
        · simp
    · have hsame : ∀ f terminal, (ProjTrie.node terminal (ProjTrie.atChild f seg trie.children)).ends (name :: q) =
          trie.ends (name :: q) := by
        intro f terminal
        rw [ProjTrie.ends, ProjTrie.ends, hchild, if_neg hname]
      have hright : name :: q = seg :: path ∨ trie.ends (name :: q) = true ∧ ¬ seg :: path <+: name :: q ∧
        ¬ name :: q <+: seg :: path ↔
          trie.ends (name :: q) = true := by
        simp [cons_prefix_cons, hname, Ne.symm hname]
      rw [hright]
      cases path with
      | nil => rw [ProjTrie.insertSegments, hsame]
      | cons next rest =>
        rw [ProjTrie.insertSegments, hsame]
        simp

theorem ends_foldl {paths : List (List String)} (hpaths : ∀ path ∈ paths, path ≠ []) {q : List String} (hq : q ≠ [])
    (trie : ProjTrie) : (paths.foldl (fun trie path => ProjTrie.insertSegments path trie) trie).ends q = true ↔
      q ∈ effective paths ∨ trie.ends q = true ∧ ∀ path ∈ paths, ¬ path <+: q ∧ ¬ q <+: path := by
  induction paths generalizing trie with
  | nil => simp [effective]
  | cons path paths ih =>
    obtain ⟨hpath, hpaths⟩ := forall_mem_cons.1 hpaths
    rw [foldl_cons, ih hpaths, ends_insertSegments hpath hq, effective, forall_mem_cons]
    have hlater : (paths.any fun later => path.isPrefixOf later || later.isPrefixOf path) = true ↔
        ¬ ∀ later ∈ paths, ¬ later <+: path ∧ ¬ path <+: later := by
      simp only [any_eq_true, Bool.or_eq_true, isPrefixOf_iff_prefix, not_forall, not_and_or, not_not,
        exists_prop, or_comm]
    split_ifs with hany
    · rw [hlater] at hany
      have hself : q = path → ¬ ∀ later ∈ paths, ¬ later <+: q ∧ ¬ q <+: later := fun h => h ▸ hany
      tauto
    · rw [hlater, not_not] at hany
      have hself : q = path → ∀ later ∈ paths, ¬ later <+: q ∧ ¬ q <+: later := fun h => h ▸ hany
      rw [mem_cons]
      tauto

/-- the value has something under the path, through documents and the documents of an array -/
def hasPath : List String → Bson → Bool
  | [], _ => true
  | seg :: rest, .document d => (Document.get d seg).any (hasPath rest)
  | seg :: rest, .array a => a.any fun elem =>
    match elem with
    | .document d => (Document.get d seg).any (hasPath rest)
    | _ => false
  | _ :: _, _ => false

theorem exclusionTrie_eq (proj : Document) : exclusionTrie proj =
    (proj.map fun p => segments p.1).foldl (fun trie path => ProjTrie.insertSegments path trie) .default := by
  rw [foldl_map]
  rfl

theorem ends_exclusionTrie {q : List String} (hq : q ≠ []) :
    (exclusionTrie proj).ends q = true ↔ q ∈ effective (proj.map fun p => segments p.1) := by
  have hdefault : ProjTrie.default.ends q = false := by
    obtain ⟨seg, rest, rfl⟩ := exists_cons_of_ne_nil hq
    rfl
  rw [exclusionTrie_eq, ends_foldl (forall_mem_map.2 fun p _ => Update.segments_ne_nil p.1) hq, hdefault]
  simp

theorem exclusionTrie_distinct (proj : Document) : Distinct (exclusionTrie proj) := by
  rw [exclusionTrie]
  exact foldlRecOn proj _ (distinct_leaf false) fun trie htrie p _ => htrie.insertSegments (segments p.1)

theorem names_insert_of_get (h : doc.get name = some v) (w : Bson) :
    (doc.insert name w).map Prod.fst = doc.map Prod.fst := by
  induction doc with
  | nil => cases h
  | cons p doc ih =>
    rw [Document.insert]
    split_ifs with hp
    · simp [hp]
    · rw [map_cons, map_cons, ih (by simpa [Document.get, hp] using h)]

theorem nodup_remove (h : (doc.map Prod.fst).Nodup) (name : String) : ((doc.remove name).map Prod.fst).Nodup :=
  h.sublist (eraseP_sublist.map _)

/-- what is left of a field -/
theorem get_excludeEach (hnames : (children.map Prod.fst).Nodup) (hdoc : (doc.map Prod.fst).Nodup) (name : String) :
    (excludeEach children doc).get name = match (children.find? fun p => p.1 = name).map Prod.snd with
      | none => doc.get name
      | some child => if child.terminal then none else (doc.get name).map (excludeIn child) := by
  induction children generalizing doc with
  | nil => rfl
  | cons p rest ih =>
    obtain ⟨seg, child⟩ := p
    rw [map_cons, nodup_cons] at hnames
    rw [excludeEach]
    by_cases hseg : seg = name
    · subst hseg
      have hrest : rest.find? (fun p => p.1 = seg) = none :=
        find?_eq_none.2 fun q hq hname => hnames.1 (mem_map.2 ⟨q, hq, of_decide_eq_true hname⟩)
      rw [find?_cons_of_pos (by simp), Option.map_some]
      dsimp only
      split_ifs with hterm
      · rw [ih hnames.2 (nodup_remove hdoc seg), hrest]
        exact Document.get_remove_self hdoc
      · cases hget : doc.get seg with
        | none => rw [ih hnames.2 hdoc, hrest, Option.map_none, Option.map_none, hget]
        | some v =>
          rw [ih hnames.2 (by rwa [names_insert_of_get hget]), hrest]
          exact doc.get_insert_self _
    · rw [find?_cons_of_neg (by simpa using hseg)]
      split_ifs with hterm
      · rw [ih hnames.2 (nodup_remove hdoc seg), doc.get_remove_of_ne (Ne.symm hseg)]
      · cases hget : doc.get seg with
        | none => exact ih hnames.2 hdoc
        | some v => rw [ih hnames.2 (by rwa [names_insert_of_get hget]), doc.get_insert_of_ne _ (Ne.symm hseg)]

theorem length_excludeEach (children : List (String × ProjTrie)) (doc : Document) :
    (excludeEach children doc).length ≤ doc.length := by
  induction children generalizing doc with
  | nil => exact le_rfl
  | cons p rest ih =>
    rw [excludeEach]
    refine (ih _).trans ?_
    split_ifs
    · exact length_eraseP_le
    · cases hget : doc.get p.1 with
      | none => exact le_rfl
      | some v =>
        have hlen := congrArg length (names_insert_of_get hget (excludeIn p.2 v))
        rw [length_map, length_map] at hlen
        exact hlen.le

theorem get_excludeEach_of_notMem (h : name ∉ children.map Prod.fst) (doc : Document) :
    (excludeEach children doc).get name = doc.get name := by
  induction children generalizing doc with
  | nil => rfl
  | cons p rest ih =>
    rw [map_cons, mem_cons, not_or] at h
    rw [excludeEach, ih h.2]
    split_ifs
    · exact doc.get_remove_of_ne h.1
    · cases doc.get p.1 with
      | none => rfl
      | some v => exact doc.get_insert_of_ne _ h.1

/-- a child that changes something is not undone by the others -/
theorem excludeEach_eq_iff (hnames : (children.map Prod.fst).Nodup) : excludeEach children doc = doc ↔
    ∀ p ∈ children, if p.2.terminal then doc.get p.1 = none else ∀ v ∈ doc.get p.1, excludeIn p.2 v = v := by
  induction children with
  | nil => simp [excludeEach]
  | cons p rest ih =>
    rw [map_cons, nodup_cons] at hnames
    rw [excludeEach, forall_mem_cons]
    cases hget : doc.get p.1 with
    | none =>
      rw [Document.remove_of_get_eq_none hget]
      simp [ih hnames.2]
    | some v =>
      split_ifs with hterm
      · refine iff_of_false (fun h => ?_) fun h => by cases h.1
        obtain ⟨q, hq, -⟩ := Option.map_eq_some_iff.1 hget
        have hmem := mem_of_find?_eq_some hq
        have hlen : (doc.remove p.1).length < doc.length := by
          rw [Document.remove, length_eraseP_of_mem hmem (find?_some hq)]
          exact Nat.pred_lt (length_pos_of_mem hmem).ne'
        have hle := length_excludeEach rest (doc.remove p.1)
        rw [h] at hle
        exact absurd hlen (not_lt.2 hle)
      · dsimp only
        by_cases hsame : excludeIn p.2 v = v
        · rw [hsame, Document.insert_eq_self_iff.2 hget, ih hnames.2]
          simp [hsame]
        · refine iff_of_false (fun h => hsame ?_) fun h => hsame (h.1 v rfl)
          have hnew := get_excludeEach_of_notMem hnames.1 (doc.insert p.1 (excludeIn p.2 v))
          rw [h, hget, Document.get_insert_self] at hnew
          exact (Option.some.inj hnew).symm

theorem find?_of_nodup (hnames : (children.map Prod.fst).Nodup) {p : String × ProjTrie} (hp : p ∈ children) :
    (children.find? fun q => q.1 = p.1).map Prod.snd = some p.2 := by
  induction children with
  | nil => cases hp
  | cons q rest ih =>
    rw [map_cons, nodup_cons] at hnames
    rcases mem_cons.1 hp with rfl | hp
    · simp
    · have hne : q.1 ≠ p.1 := fun h => hnames.1 (h ▸ mem_map_of_mem hp)
      rw [find?_cons_of_neg (by simpa using hne), ih hnames.2 hp]

/-- **What is excluded below a value** changes it if and only if one of the paths is in the value. -/
theorem Distinct.excludeIn_eq_iff (h : Distinct trie) (hterm : trie.terminal = false) (v : Bson) :
    excludeIn trie v = v ↔ ∀ q, trie.ends q = true → hasPath q v = false := by
  induction h generalizing v with
  | @node terminal children names sub ih =>
    obtain rfl : terminal = false := hterm
    -- one document with the children of the node
    have hdoc : ∀ d : Document, excludeEach children d = d ↔
        ∀ seg rest, (ProjTrie.node false children).ends (seg :: rest) = true →
          (d.get seg).any (hasPath rest) = false := by
      intro d
      rw [excludeEach_eq_iff names]
      constructor
      · intro h seg rest hends
        obtain ⟨child, hchild, hchildEnds⟩ := (Option.any_eq_true _ _).1 hends
        obtain ⟨p, hfind, rfl⟩ := Option.map_eq_some_iff.1 hchild
        obtain rfl : p.1 = seg := by simpa using find?_some hfind
        have hmem := mem_of_find?_eq_some hfind
        have hp := h p hmem
        cases hget : d.get p.1 with
        | none => rfl
        | some w =>
          rw [hget] at hp
          split_ifs at hp with hterm
          exact (ih p hmem (Bool.eq_false_iff.2 hterm) w).1 (hp w rfl) rest hchildEnds
      · intro h p hp
        have hchild : (ProjTrie.node false children).child p.1 = some p.2 := find?_of_nodup names hp
        have hrest : ∀ rest, p.2.ends rest = true → (d.get p.1).any (hasPath rest) = false := fun rest hends =>
          h p.1 rest (by rw [ProjTrie.ends_cons, hchild]; exact hends)
        split_ifs with hterm
        · have hnone := hrest [] hterm
          cases hget : d.get p.1 with
          | none => rfl
          | some w => rw [hget] at hnone; cases hnone
        · intro w hw
          refine (ih p hp (Bool.eq_false_iff.2 hterm) w).2 fun rest hends => ?_
          have := hrest rest hends
          rwa [Option.mem_def.1 hw] at this
    have hnil : (ProjTrie.node false children).ends [] = false := rfl
    have hall : (∀ q, (ProjTrie.node false children).ends q = true → hasPath q v = false) ↔
        ∀ seg rest, (ProjTrie.node false children).ends (seg :: rest) = true → hasPath (seg :: rest) v = false := by
      refine ⟨fun h seg rest => h _, fun h q hq => ?_⟩
      cases q with
      | nil => rw [hnil] at hq; cases hq
      | cons seg rest => exact h seg rest hq
    rw [hall]
    cases v with
    | document d =>
      rw [excludeIn, Bson.document.injEq, hdoc]
      rfl
    | array a =>
      have hmap : ∀ f : Bson → Bson, a.map f = a ↔ ∀ elem ∈ a, f elem = elem := fun f =>
        Iff.trans ⟨fun h => h.trans (map_id a).symm, fun h => h.trans (map_id a)⟩ map_inj_left
      rw [excludeIn, Bson.array.injEq, hmap]
      simp only [hasPath, any_eq_false]
      refine ⟨fun h seg rest hends elem helem => ?_, fun h elem helem => ?_⟩
      · have := h elem helem
        cases elem with
        | document d => simpa using (hdoc d).1 (Bson.document.inj this) seg rest hends
        | _ => simp
      · cases elem with
        | document d => exact congrArg _ ((hdoc d).2 fun seg rest hends => by simpa using h seg rest hends _ helem)
        | _ => rfl
    | _ => simp [excludeIn, hasPath]

theorem mem_projectDocInclude {fields : Document} {p : String × Bson} (h : p ∈ projectDocInclude fields trie) :
    p.1 ∈ fields.map Prod.fst := by
  induction fields with
  | nil => cases h
  | cons field rest ih =>
    have hcons : ∀ v, p ∈ (field.1, v) :: projectDocInclude rest trie → p.1 ∈ (field :: rest).map Prod.fst := by
      rintro v (_ | ⟨_, hmem⟩)
      · exact mem_cons_self
      · exact mem_cons_of_mem _ (ih hmem)
    rw [projectDocInclude] at h
    split at h
    · exact mem_cons_of_mem _ (ih h)
    · split_ifs at h
      · exact hcons _ h
      · split at h
        · exact hcons _ h
        · exact mem_cons_of_mem _ (ih h)

/-- nothing but what is put in front is called `_id` in an inclusion -/
theorem get_id_include (hid : doc.get "_id" = some id) (h : isInclusion proj = true) :
    (applyProjectionToDoc doc proj).get "_id" = if explicitIdExcl proj then none else some id := by
  have hrest : (projectDocInclude (doc.filter fun p => p.1 ≠ "_id") (inclusionTrie proj)).find? (fun p => p.1 = "_id") =
      none := by
    refine find?_eq_none.2 fun p hp hname => ?_
    obtain ⟨q, hq, hqp⟩ := mem_map.1 (mem_projectDocInclude hp)
    have hne := (mem_filter.1 hq).2
    rw [hqp, of_decide_eq_true hname] at hne
    cases hne
  rw [applyProjectionToDoc, if_pos h, Document.get, find?_append, hrest, hid]
  split_ifs <;> rfl

end Id

/-- the law of `_id`: kept unless it is mapped to a false value, removed if it is, and alone if it is the only key and
mapped to a true one -/
structure IdLaw (doc proj : Document) (id : Bson) : Prop where
  kept : explicitIdExcl proj = false → (applyProjectionToDoc doc proj).get "_id" = some id
  dropped : explicitIdExcl proj = true → (applyProjectionToDoc doc proj).get "_id" = none
  alone : ∀ v, proj = [("_id", v)] → isFalse v = false → applyProjectionToDoc doc proj = [("_id", id)]

/-- if `_id` is mapped to a false value, no later key goes on below it; otherwise the keys that count name no path of
the `_id`, and not the `_id` itself -/
def IdSpared (proj : Document) (id : Bson) : Prop :=
  let keys := effective (proj.map fun p => segments p.1)
  if explicitIdExcl proj then ["_id"] ∈ keys else ∀ rest, "_id" :: rest ∈ keys → hasPath rest id = false

/-- **The `_id` in a projection.** The law holds in every inclusion, and otherwise just when the `_id` is spared. -/
theorem id_projected_iff (doc proj : Document) (id : Bson) (hnames : (doc.map Prod.fst).Nodup)
    (hid : doc.get "_id" = some id) :
    IdLaw doc proj id ↔ isInclusion proj = true ∨ IdSpared proj id := by
  by_cases hincl : isInclusion proj = true
  · have hget := get_id_include hid hincl
    refine iff_of_true ⟨fun h => ?_, fun h => ?_, fun v hproj _ => ?_⟩ (.inl hincl)
    · rw [hget, h]
      rfl
    · rw [hget, h]
      rfl
    · rw [hproj] at hincl
      cases hincl
  · have hget : (applyProjectionToDoc doc proj).get "_id" = match (exclusionTrie proj).child "_id" with
        | none => some id
        | some child => if child.terminal then none else some (excludeIn child id) := by
      rw [applyProjectionToDoc, if_neg hincl]
      exact (get_excludeEach (distinct_iff.1 (exclusionTrie_distinct proj)).1 hnames "_id").trans (by rw [hid]; rfl)
    rw [or_iff_right hincl]
    have hiff : ((explicitIdExcl proj = false → (applyProjectionToDoc doc proj).get "_id" = some id) ∧
        (explicitIdExcl proj = true → (applyProjectionToDoc doc proj).get "_id" = none)) ↔ IdSpared proj id := by
      simp only [IdSpared, ← ends_exclusionTrie (cons_ne_nil _ _), ProjTrie.ends_cons, hget]
      cases hchild : (exclusionTrie proj).child "_id" with
      | none => simp
      | some child =>
        have hdistinct : Distinct child := by
          obtain ⟨p, hp, rfl⟩ := Option.map_eq_some_iff.1 hchild
          exact (distinct_iff.1 (exclusionTrie_distinct proj)).2 p (mem_of_find?_eq_some hp)
        cases hterm : child.terminal with
        | false =>
          have := hdistinct.excludeIn_eq_iff hterm id
          cases explicitIdExcl proj <;> simp [hterm, this, ProjTrie.ends]
        | true =>
          cases explicitIdExcl proj
          · simp only [hterm, if_true, Option.any_some]
            refine iff_of_false (fun h => by cases h.1 trivial) fun h => ?_
            cases h [] hterm
          · simp [hterm, ProjTrie.ends]
    refine ⟨fun h => hiff.1 ⟨h.kept, h.dropped⟩, fun h => ⟨(hiff.2 h).1, (hiff.2 h).2, fun v hproj hv => ?_⟩⟩
    -- alone, `_id` is excluded, whatever it is mapped to
    have hkeys : (proj.map fun p => segments p.1) = [["_id"]] := by
      rw [hproj, map_cons, show segments "_id" = ["_id"] by decide]
      rfl
    have hexplicit : explicitIdExcl proj = false := by simp [hproj, explicitIdExcl, Document.get, hv]
    have hpath := h
    rw [IdSpared, hkeys, hexplicit] at hpath
    cases hpath [] mem_cons_self

/-- a later key goes on below `_id: 1`, to a path that the `_id` does not have -/
theorem id_projected_iff_excluded :
    let proj : Document := [("_id", .int32 1), ("a", .int32 0), ("_id.x", .int32 0)]
    IdLaw [("_id", .int32 7), ("a", .int32 1)] proj (.int32 7) := by
  intro proj
  refine (id_projected_iff _ proj (.int32 7) (by decide) rfl).2 (.inr ?_)
  have hkeys : effective (proj.map fun p => segments p.1) = [["a"], ["_id", "x"]] := by decide
  rw [IdSpared, hkeys, show explicitIdExcl proj = false from rfl]
  simp [hasPath]

/-- the projection `\x7b_id: 1\x7d` gives all but the `_id` -/
theorem id_alone_dropped :
    applyProjectionToDoc [("_id", .int32 7), ("a", .int32 1)] [("_id", .int32 1)] = [("a", .int32 1)] ∧
    ¬ IdLaw [("_id", .int32 7), ("a", .int32 1)] [("_id", .int32 1)] (.int32 7) := by
  refine ⟨rfl, fun h => ?_⟩
  have hkept := h.kept rfl
  cases hkept

/-! ## Options -/

structure FindOptions where
  sort : Option Document
  limit : Option ℤ
  skip : Option ℕ
  projection : Option Document

/-- `compare_docs`, field by field of the sort -/
def compareDocs (a b : Document) : List (String × Bson) → Ordering
  | [] => .eq
  | (field, dir) :: rest =>
    let ord := compareBson ((getNestedField a field).getD .null) ((getNestedField b field).getD .null)
    let descending : Bool := match dir with
      | .int32 n => n = -1
      | .int64 n => n = -1
      | _ => false
    if ord = .eq then compareDocs a b rest else if descending then ord.swap else ord

/-- the sort is stable -/
def applyFindOpts (docs : List Document) (opts : FindOptions) : List Document :=
  let docs := match opts.sort with
    | some sort => docs.mergeSort fun a b => compareDocs a b sort ≠ .gt
    | none => docs
  let docs := match opts.skip with
    | some skip => docs.drop skip
    | none => docs
  let docs := match opts.limit with
    | some limit => if 0 < limit then docs.take limit.toNat else docs
    | none => docs
  match opts.projection with
  | some proj => docs.map fun doc => applyProjectionToDoc doc proj
  | none => docs

/-- `saturating_add` of usize -/
def unsortedMaterializationLimit (opts : FindOptions) : Option ℕ :=
  if opts.sort.isSome then none
  else (opts.limit.filter (0 < ·)).map fun limit => min (opts.skip.getD 0 + limit.toNat) (2 ^ 64 - 1)

section Pushdown

variable {env : Env} {coll : Collection} {filter : Document} {matchLimit : Option ℕ} {ready : List ReadyIndex}

/-- a loop that stops early fails on no key -/
theorem lookupKeys_returns {keys : List Bytes} (h : ∀ key ∈ keys, ∀ e, ¬ FailsAt env coll filter key e)
    (matched : List Pair) :
    ∃ out, lookupKeys env coll filter matchLimit keys matched = .ok out := by
  induction keys generalizing matched with
  | nil => exact ⟨matched, rfl⟩
  | cons key keys ih =>
    obtain ⟨hkey, hkeys⟩ := forall_mem_cons.1 h
    obtain ⟨hfetch, -⟩ := (@fetchPrimaryPair_cases env coll filter key).resolve_right fun ⟨e, hfail, _⟩ => hkey e hfail
    rw [lookupKeys, hfetch]
    cases foundPair env coll filter key with
    | none => exact ih hkeys matched
    | some pair =>
      dsimp only
      split_ifs
      · exact ⟨_, rfl⟩
      · exact ih hkeys _

theorem lookupKeys_capped (matchLimit : Option ℕ) {keys : List Bytes} {all : List Pair}
    (h : lookupKeys env coll filter none keys [] = .ok all) :
    lookupKeys env coll filter matchLimit keys [] = .ok (capped matchLimit 0 all) := by
  rcases @lookupKeys_cases env coll filter keys [] with ⟨hok, hnone⟩ | ⟨-, -, e, -, herror⟩
  · obtain ⟨out, hout⟩ := @lookupKeys_returns env coll filter matchLimit keys hnone []
    rw [h] at hok
    rw [hout, lookupKeys_ok hout, Except.ok.inj hok]
    rfl
  · rw [h] at herror
    cases herror

/-- **With a limit a plan returns the first documents that it returns without.** -/
theorem executePlan_capped {plan : ScanPlan} {all : List Pair}
    (h : executePlan env coll filter none ready plan = .ok all) :
    executePlan env coll filter matchLimit ready plan = .ok (capped matchLimit 0 all) := by
  cases plan with
  | primaryKeyLookup condition =>
    cases condition with
    | eq id =>
      obtain ⟨found, -, rfl⟩ := map_eq_ok (mapError_ok h)
      have hone : capped matchLimit 0 found.toList = found.toList := by
        cases matchLimit <;> cases found <;> simp [capped]
      rw [hone]
      exact h
    | inList vals =>
      have hall := lookupKeys_capped matchLimit (mapError_ok h)
      rw [executePlan, executePrimaryKeyLookup, hall]
      rfl
  | indexScan indexName primaryField condition =>
    obtain ⟨idx, hfind, hall⟩ := executeIndexScan_ok h
    rw [executePlan, executeIndexScan, hfind]
    dsimp only
    rw [scanEach_eq, lookupKeys_capped matchLimit hall]
  | collScan =>
    have hall := lookupKeys_capped matchLimit (mapError_ok h)
    rw [executePlan, executeCollscan, hall]
    rfl

/-- skip and limit look at the first documents only -/
theorem applyFindOpts_take (docs : List Document) (opts : FindOptions) (hlen : docs.length < 2 ^ 64) :
    applyFindOpts (capped (unsortedMaterializationLimit opts) 0 docs) opts = applyFindOpts docs opts := by
  obtain ⟨sort, limit, skip, projection⟩ := opts
  have htake : ∀ n m : ℕ, 0 < m →
      ((docs.take (max 1 (min (n + m) (2 ^ 64 - 1)))).drop n).take m = (docs.drop n).take m := by
    intro n m hm
    rw [drop_take, take_take, take_eq_take_iff, length_drop]
    omega
  cases sort with
  | some sort => rfl
  | none =>
    cases limit with
    | none => rfl
    | some limit =>
      by_cases hpos : 0 < limit
      · have hlimit : unsortedMaterializationLimit ⟨none, some limit, skip, projection⟩ =
            some (min (skip.getD 0 + limit.toNat) (2 ^ 64 - 1)) := by
          simp [unsortedMaterializationLimit, Option.filter, hpos]
        have hopts : ∀ l, applyFindOpts l ⟨none, some limit, skip, projection⟩ =
            applyFindOpts ((l.drop (skip.getD 0)).take limit.toNat) ⟨none, none, none, projection⟩ := by
          intro l
          cases skip <;> simp [applyFindOpts, hpos]
        rw [hlimit, capped, hopts, hopts, Nat.sub_zero, htake _ _ (by omega)]
      · have hlimit : unsortedMaterializationLimit ⟨none, some limit, skip, projection⟩ = none := by
          simp [unsortedMaterializationLimit, Option.filter, hpos]
        rw [hlimit, capped]

end Pushdown

/-- **The limit is invisible.** Whenever a plan returns all its documents without a limit, it returns with the limit of
the options, and the options make the same of both. A Vec has fewer than 2^64 elements. -/
theorem limit_pushdown_invisible (env : Env) (coll : Collection) (filter : Document) (ready : List ReadyIndex)
    (plan : ScanPlan) (opts : FindOptions) (all : List Pair) (hlen : all.length < 2 ^ 64)
    (h : executePlan env coll filter none ready plan = .ok all) :
    ∃ pairs, executePlan env coll filter (unsortedMaterializationLimit opts) ready plan = .ok pairs ∧
      applyFindOpts (pairs.map Prod.snd) opts = applyFindOpts (all.map Prod.snd) opts := by
  refine ⟨_, executePlan_capped h, ?_⟩
  rw [map_capped]
  exact applyFindOpts_take _ opts (by rwa [length_map])

theorem limit_pushdown_invisible_collscan :
    let docs : List Pair := [(encodeKey (.int32 1), [("_id", .int32 1)]), (encodeKey (.int32 2), [("_id", .int32 2)])]
    let coll : Collection := ⟨⟨docs, by decide⟩, by simp [docs, Document.get]⟩
    let opts : FindOptions := ⟨none, some 1, some 1, none⟩
    ∃ pairs, executePlan noLibraries coll [] (unsortedMaterializationLimit opts) [] .collScan = .ok pairs ∧
      applyFindOpts (pairs.map Prod.snd) opts = applyFindOpts (docs.map Prod.snd) opts := by
  intro docs coll opts
  exact limit_pushdown_invisible noLibraries coll [] [] .collScan opts docs (by decide) rfl

end Mqlite.Query
