/-
What an insert does to its leaf.

`LeafChange` says it in full: the leaf is replaced by itself and new leaves behind it, and besides them only the leaf
after them is touched, in its link. `insertLeaf_ok`: the leaves then hold the old cells and the new one.
`insertLeaf_keys`: it returns with these promotions, unless there is no page to be had or something does not fit.
-/
import Mqlite.Btree.Insert

namespace Mqlite.Btree

open Lib Mvcc Storage List OrdMap Nat Set InternalNode

/-! ## What happens to the leaf -/

/-- the leaf q gets new leaves behind it; besides that only the leaf after them is touched, in its link, and internal
pages -/
structure LeafChange (store store' : PageStore) (inner : Set ℕ) (q : ℕ) (n : LeafNode) (new : List ℕ) : Prop where
  fresh : ∀ p ∈ new, p ≠ 0 ∧ store p = none
  nodup : new.Nodup
  kept : ∀ p, store p ≠ none → store' p ≠ none
  other : ∀ p x, store p = some x → (∀ m, x ≠ .leaf m) → p ∉ inner → store' p = some x
  leaf : ∀ p m, store p = some (.leaf m) → p ≠ q → p ≠ n.nextLeafPage → store' p = some (.leaf m)
  next : ∀ m, store n.nextLeafPage = some (.leaf m) → n.nextLeafPage ≠ q → n.nextLeafPage ≠ 0 →
    new = [] ∧ store' n.nextLeafPage = some (.leaf m) ∨
      store' n.nextLeafPage = some (.leaf { m with prevLeafPage := new.getLastD q })
  linked : Linked store' n.prevLeafPage (q :: new) n.nextLeafPage

/-! ## How a call can end -/

/-- all of them fit a page -/
def Fit (halves : List (List Key)) : Prop := ∀ half ∈ halves, keysSize half ≤ PAGE_SIZE_INTERNAL

theorem fit_append {l m : List (List Key)} : Fit (l ++ m) ↔ Fit l ∧ Fit m := forall_mem_append

/-- the call ends well, and what it writes fits; or there was no page to be had, or something did not fit -/
def Outcome {α : Type} (result : Except TreeError α) (good : α → Prop) (fits : Prop) : Prop :=
  match result with
  | .ok x => good x ∧ fits
  | .error e => e = .alloc ∨ e ≠ .duplicateKey ∧ ¬ fits

variable {α : Type} {fits : Prop} {result : Except TreeError α}

theorem Outcome.bind {β : Type} {f : α → Except TreeError β} {good : α → Prop} {good' : β → Prop}
    {fits' : Prop} (h : Outcome result good fits) (hf : ∀ x, result = .ok x → good x → Outcome (f x) good' fits') :
    Outcome (result >>= f) good' (fits ∧ fits') := by
  cases result with
  | error e => exact h.imp_right fun hnot => ⟨hnot.1, fun hboth => hnot.2 hboth.1⟩
  | ok x =>
    have hx := hf x rfl h.1
    change Outcome (f x) good' (fits ∧ fits')
    unfold Outcome at hx ⊢
    split
    next y heq =>
      rw [heq] at hx
      exact ⟨hx.1, h.2, hx.2⟩
    next e heq =>
      rw [heq] at hx
      exact hx.imp_right fun hnot => ⟨hnot.1, fun hboth => hnot.2 hboth.2⟩

theorem Outcome.congr {good : α → Prop} {fits' : Prop} (h : Outcome result good fits)
    (hfits : fits ↔ fits') : Outcome result good fits' := propext hfits ▸ h

theorem Outcome.imp {good good' : α → Prop} (h : Outcome result good fits)
    (hgood : ∀ x, result = .ok x → good x → good' x) : Outcome result good' fits := by
  cases result with
  | error e => exact h
  | ok x => exact ⟨hgood x rfl h.1, h.2⟩

/-! ## The leaf -/

section Leaf

variable {a : Allocator} {store store' : PageStore} {page : ℕ} {lo hi : Option Key} {key : Key} {value : VersionData}

variable {groups : List (List LeafCell)} {separators : List Key} {i oldNext prev : ℕ} {deltas : OrdMap Key Chain}
  {pages : List ℕ} {e : TreeError} {cells : List LeafCell}

theorem splitGroups_ok (h : splitGroups cells = .ok groups) :
    groups.flatten = cells ∧ ∀ g ∈ groups, g ≠ [] ∧ usedBytesForCells g ≤ PAGE_SIZE_LEAF := by
  unfold splitGroups at h
  split at h
  next splitAt hcut =>
    cases h
    obtain ⟨⟨hpos, hlt, hleft, hright⟩, -⟩ := chooseLeafRedistributionSplit_some hcut
    have hl : cells.take splitAt ≠ [] := by
      rw [ne_eq, take_eq_nil_iff]
      rintro (rfl | rfl)
      · exact absurd hpos (lt_irrefl 0)
      · exact absurd hlt (by simp)
    have hr : cells.drop splitAt ≠ [] := by
      rw [ne_eq, drop_eq_nil_iff]
      omega
    exact ⟨by simp, by simp [hl, hr, hleft, hright]⟩
  · exact packCellsMultiway_ok h

/-- cells in order are cut into groups in order, so that a leaf holds its group as it was cut -/
theorem splitGroups_entries {m : OrdMap Key VersionData} (h : splitGroups m.entries = .ok groups) :
    ∀ g ∈ groups, (OrdMap.ofList g).entries = g := by
  have hsorted : groups.flatten.Pairwise fun a b => a.1 < b.1 := (splitGroups_ok h).1 ▸ m.sorted
  exact fun g hg => entries_ofList ((pairwise_flatten.1 hsorted).1 g hg)

/-- a chain's group: separators up to it are not above the key, the next one is -/
theorem chainGroup_bounds {sep : Key} (hsep : separators[i]? = some sep) (k : Key) :
    (chainGroup separators k = i → k < sep) ∧ (i < chainGroup separators k → sep ≤ k) := by
  obtain ⟨hlt, hget⟩ := List.getElem?_eq_some_iff.1 hsep
  constructor
  · intro h
    unfold chainGroup at h
    have := @List.findIdx_getElem _ (fun sep => decide (k < sep)) separators (by rw [h]; exact hlt)
    simp only [h, hget, decide_eq_true_eq] at this
    exact this
  · intro h
    have := not_of_lt_findIdx h
    simpa [hget] using this

/-- a leaf written anew keeps to a range if its cells and the chains that it takes do -/
theorem within_leaf {keep : Key → Bool} {next : ℕ} (hsorted : cells.Pairwise fun a b => a.1 < b.1)
    (hcells : ∀ c ∈ cells, Within lo hi c.1)
    (hdeltas : ∀ k, (deltas.get? k).isSome = true → keep k = true → Within lo hi k) :
    ∀ k, (⟨.ofList cells, deltas.filter keep, next, prev⟩ : LeafNode).holds k → Within lo hi k := by
  rintro k (hk | hk)
  · obtain ⟨v, hv⟩ := Option.isSome_iff_exists.1 hk
    rw [get?_eq_some_iff, entries_ofList hsorted] at hv
    exact hcells _ hv
  · simp only [get?_filter] at hk
    split_ifs at hk with hkeep
    · exact hdeltas k hk hkeep
    · cases hk

/-- the pages that were written are linked, and hold their groups -/
theorem writeGroups_ok (h : writeGroups separators deltas oldNext i prev pages groups store = .ok store')
    (hlen : pages.length = groups.length) (hnodup : pages.Nodup)
    (hcells : ∀ g ∈ groups, (OrdMap.ofList g).entries = g) :
    (∀ p, p ∉ pages → store' p = store p) ∧ (∀ p ∈ pages, store' p ≠ none) ∧ Linked store' prev pages oldNext ∧
      contents store' pages = groups.flatten := by
  induction pages generalizing i prev groups store with
  | nil =>
    cases groups with
    | nil =>
      cases h
      exact ⟨fun _ _ => rfl, by simp, trivial, rfl⟩
    | cons g groups => cases hlen
  | cons page pages ih =>
    cases groups with
    | nil => cases hlen
    | cons g groups =>
      obtain ⟨store₁, h₁, h⟩ := bind_eq_ok h
      obtain ⟨-, rfl⟩ := writeLeaf_ok.1 h₁
      rw [nodup_cons] at hnodup
      rw [forall_mem_cons] at hcells
      obtain ⟨hsame, hsome, hlinked, hcontents⟩ := ih h (by simpa using hlen) hnodup.2 hcells.2
      have hpage := hsame page hnodup.1
      rw [writePage_self] at hpage
      refine ⟨fun p hp => ?_, forall_mem_cons.2 ⟨by rw [hpage]; simp, hsome⟩, ⟨⟨_, hpage, rfl, rfl⟩, hlinked⟩, ?_⟩
      · rw [mem_cons, not_or] at hp
        rw [hsame p hp.2, writePage_of_ne _ hp.1]
      · rw [contents, flatMap_cons, ← contents, hcontents, hpage, flatten_cons]
        simp only [hcells.1]

/-- each chain is in the page of its group -/
theorem writeGroups_chains (h : writeGroups separators deltas oldNext i prev pages groups store = .ok store')
    (hlen : pages.length = groups.length) (hnodup : pages.Nodup)
    (hcells : ∀ g ∈ groups, (OrdMap.ofList g).entries = g) (k : Key) (c : Chain) :
    ChainIn store' pages k c ↔ deltas.get? k = some c ∧ i ≤ chainGroup separators k ∧
      chainGroup separators k < i + pages.length := by
  induction pages generalizing i prev groups store with
  | nil =>
    refine iff_of_false not_chainIn_nil ?_
    simp only [length_nil, add_zero, not_and, not_lt]
    exact fun _ hi => hi
  | cons page pages ih =>
    cases groups with
    | nil => cases hlen
    | cons g groups =>
      obtain ⟨store₁, h₁, h⟩ := bind_eq_ok h
      obtain ⟨-, rfl⟩ := writeLeaf_ok.1 h₁
      rw [nodup_cons] at hnodup
      rw [forall_mem_cons] at hcells
      have hpage := (writeGroups_ok h (by simpa using hlen) hnodup.2 hcells.2).1 page hnodup.1
      rw [writePage_self] at hpage
      rw [chainIn_cons hpage, ih h (by simpa using hlen) hnodup.2 hcells.2]
      rw [get?_filter, length_cons]
      by_cases hgroup : chainGroup separators k = i
      · simp only [hgroup, decide_true, if_true]
        constructor
        · rintro (hget | ⟨-, hi, -⟩)
          · exact ⟨hget, le_rfl, by omega⟩
          · omega
        · exact fun hget => .inl hget.1
      · simp only [hgroup, decide_false, Bool.false_eq_true, if_false, reduceCtorEq, false_or]
        refine and_congr_right fun _ => ?_
        omega

/-- **The written leaves are a row** on the range of the leaf that was split. -/
theorem writeGroups_row {g : List LeafCell}
    (h : writeGroups separators deltas oldNext i prev (page :: pages) (g :: groups) store = .ok store')
    (hlen : pages.length = groups.length) (hnodup : (page :: pages).Nodup) (hne0 : ∀ p ∈ page :: pages, p ≠ 0)
    (hgroups : ∀ g' ∈ g :: groups, g' ≠ []) (hsorted : (g :: groups).flatten.Pairwise fun a b => a.1 < b.1)
    (hcells : ∀ c ∈ (g :: groups).flatten, Within lo hi c.1)
    (hdeltas : ∀ k, (deltas.get? k).isSome = true → i ≤ chainGroup separators k → Within lo hi k)
    (hseps : separators.drop i = separatorsOf (g :: groups)) :
    Row (Spans store' 0) page ((separatorsOf (g :: groups)).zip pages) lo hi ∅ (page :: pages) := by
  induction groups generalizing g i prev page pages store lo with
  | nil =>
    obtain rfl : pages = [] := length_eq_zero_iff.1 hlen
    obtain ⟨store₁, h₁, h⟩ := bind_eq_ok h
    obtain ⟨-, rfl⟩ := writeLeaf_ok.1 h₁
    cases h
    rw [flatten_cons, flatten_nil, append_nil] at hsorted hcells
    exact ⟨rfl, rfl, hne0 page mem_cons_self, _, writePage_self _ _ _,
      within_leaf hsorted hcells fun k hk hgroup => hdeltas k hk (of_decide_eq_true hgroup).ge⟩
  | cons g' groups ih =>
    cases pages with
    | nil => cases hlen
    | cons page' pages =>
      obtain ⟨c, g₁, rfl⟩ := exists_cons_of_ne_nil (hgroups g' (by simp))
      obtain ⟨c₀, g₀, rfl⟩ := exists_cons_of_ne_nil (hgroups g (by simp))
      have hsep : separators[i]? = some c.1 := by
        have := congrArg List.head? hseps
        simpa [separatorsOf] using this
      rw [flatten_cons, pairwise_append] at hsorted
      have hc : c ∈ ((c :: g₁) :: groups).flatten := by simp
      have hall : ∀ x ∈ c₀ :: g₀, x.1 < c.1 := fun x hx => hsorted.2.2 x hx c hc
      -- this leaf, then the others on the range above the separator
      obtain ⟨store₁, h₁, h⟩ := bind_eq_ok h
      obtain ⟨-, rfl⟩ := writeLeaf_ok.1 h₁
      rw [nodup_cons] at hnodup
      rw [forall_mem_cons] at hne0
      have hrestSame := (writeGroups_ok h (by simpa using hlen) hnodup.2 fun g hg =>
        entries_ofList ((pairwise_flatten.1 hsorted.2.1).1 g hg)).1 page hnodup.1
      rw [writePage_self] at hrestSame
      have hbetween : Between lo hi c.1 := by
        refine ⟨fun l hl => ?_, (hcells c (by simp)).2⟩
        exact ((hcells c₀ (by simp)).1 l hl).trans_lt (hall c₀ mem_cons_self)
      refine ⟨hbetween, ∅, ∅, [page], page' :: pages, by simp, by simp, rfl, ⟨rfl, rfl, hne0.1, _, hrestSame, ?_⟩, ?_⟩
      · refine within_leaf hsorted.1 (fun x hx => within_below (hcells x (mem_append_left _ hx)) (hall x hx))
          fun k hk hgroup => ?_
        have hgroup := of_decide_eq_true hgroup
        exact within_below (hdeltas k hk hgroup.ge) ((chainGroup_bounds hsep k).1 hgroup)
      · refine ih h (by simpa using hlen) hnodup.2 hne0.2 (fun x hx => hgroups x (mem_cons_of_mem _ hx))
          hsorted.2.1 ?_ ?_ ?_
        · intro x hx
          refine within_above (hcells x (mem_append_right _ hx)) ?_
          rcases mem_cons.1 hx with rfl | hx
          · exact le_rfl
          · have := hsorted.2.1
            rw [flatten_cons, cons_append, pairwise_cons] at this
            exact (this.1 x hx).le
        · intro k hk hik
          exact within_above (hdeltas k hk (by omega)) ((chainGroup_bounds hsep k).2 (by omega))
        · have := congrArg (List.drop 1) hseps
          simpa [separatorsOf, add_comm] using this

/-- a leaf, if there is one, gets another link -/
structure LinkSet (store store' : PageStore) (page : ℕ) (link : LeafNode → LeafNode) : Prop where
  same : ∀ p, p ≠ page → store' p = store p
  zero : page = 0 → store' = store
  leaf : page ≠ 0 → ∃ m, store page = some (.leaf m) ∧ store' page = some (.leaf (link m))

/-- the body of both relink functions -/
def relink (store : PageStore) (page : ℕ) (link : LeafNode → LeafNode) : Except TreeError PageStore :=
  if page = 0 then .ok store else do writeLeaf store page (link (← readLeaf store page))

variable {link : LeafNode → LeafNode}

theorem relink_ok (h : relink store page link = .ok store') : LinkSet store store' page link := by
  unfold relink at h
  split_ifs at h with h0
  · cases h
    exact ⟨fun _ _ => rfl, fun _ => rfl, fun hne => absurd h0 hne⟩
  · obtain ⟨m, hm, h⟩ := bind_eq_ok h
    obtain ⟨-, rfl⟩ := writeLeaf_ok.1 h
    exact ⟨fun p hp => writePage_of_ne _ hp, fun heq => absurd heq h0,
      fun _ => ⟨m, readLeaf_ok.1 hm, writePage_self _ _ _⟩⟩

theorem LinkSet.other (h : LinkSet store store' page link) {p : ℕ} {x : Page} (hp : store p = some x)
    (hx : ∀ m, x ≠ .leaf m) : store' p = some x := by
  by_cases hpp : p = page
  · by_cases h0 : page = 0
    · rw [h.zero h0, hp]
    · obtain ⟨m, hm, -⟩ := h.leaf h0
      rw [← hpp, hp] at hm
      cases hm
      exact absurd rfl (hx m)
  · rw [h.same p hpp, hp]

theorem LinkSet.kept (h : LinkSet store store' page link) {p : ℕ} (hp : store p ≠ none) : store' p ≠ none := by
  by_cases hpp : p = page
  · by_cases h0 : page = 0
    · rwa [h.zero h0]
    · obtain ⟨m, -, hm⟩ := h.leaf h0
      simp [hpp, hm]
  · rwa [h.same p hpp]

theorem splitLeaf_ok {n : LeafNode} {splits : Items} (h : splitLeaf a store page n (key, value) = .ok (store', splits))
    (hn : store page = some (.leaf n)) (hat : LeafAt store page lo hi) (hkey : Within lo hi key) :
    ∃ new, Row (Spans store' 0) page splits lo hi ∅ (page :: new) ∧ LeafChange store store' ∅ page n new ∧
      contents store' (page :: new) = (n.cells.insert key value).entries ∧
      ∀ k c, ChainIn store' (page :: new) k c ↔ n.deltas.get? k = some c := by
  obtain ⟨groups, hgroups, h⟩ := bind_eq_ok h
  obtain ⟨⟨store₁, new⟩, halloc, h⟩ := bind_eq_ok h
  obtain ⟨store₂, hrelink, h⟩ := bind_eq_ok h
  obtain ⟨store₃, hwrite, h⟩ := bind_eq_ok h
  cases h
  obtain ⟨hne0, m, hm, hholds⟩ := hat
  rw [hn] at hm
  cases hm
  obtain ⟨hflat, hgood⟩ := splitGroups_ok hgroups
  obtain ⟨hlen, hall⟩ := allocPages_ok halloc
  have hsorted : groups.flatten.Pairwise fun a b => a.1 < b.1 := hflat ▸ (n.cells.insert key value).sorted
  have hcells : ∀ c ∈ groups.flatten, Within lo hi c.1 := by
    intro c hc
    rw [hflat, ← get?_eq_some_iff, get?_insert] at hc
    split_ifs at hc with hck
    · exact hck ▸ hkey
    · exact hholds c.1 (.inl (by simp [hc]))
  -- there is a first group, for the page itself
  obtain ⟨g, groups, rfl⟩ : ∃ g gs, groups = g :: gs := by
    refine exists_cons_of_ne_nil ?_
    rintro rfl
    have hmem : (key, value) ∈ (n.cells.insert key value).entries := by
      rw [← get?_eq_some_iff, get?_insert, if_pos rfl]
    rw [← hflat] at hmem
    cases hmem
  have hlen' : new.length = groups.length := by simpa using hlen
  have hpage : page ∉ new := by
    intro hp
    rw [(hall.fresh page hp).2] at hn
    cases hn
  have hnodup : (page :: new).Nodup := nodup_cons.2 ⟨hpage, hall.nodup⟩
  have hnew0 : ∀ p ∈ page :: new, p ≠ 0 := forall_mem_cons.2 ⟨hne0, fun p hp => (hall.fresh p hp).1⟩
  obtain ⟨hsame, hsome, hlinked, hcontents⟩ :=
    writeGroups_ok hwrite (by simp [hlen']) hnodup (splitGroups_entries hgroups)
  have hset := relink_ok hrelink
  -- a page outside the written ones and the next leaf is as it was
  have hframe : ∀ p, p ∉ page :: new → p ≠ n.nextLeafPage → store' p = store p := by
    intro p hp hpn
    rw [hsame p hp, hset.same p hpn, hall.same p fun hmem => hp (mem_cons_of_mem _ hmem)]
  have hnotNew : ∀ p, store p ≠ none → p ∉ new := fun p hp hmem => hp (hall.fresh p hmem).2
  refine ⟨new, ?_, ⟨hall.fresh, hall.nodup, fun p hp => ?_, fun p x hx hleaf _ => ?_, fun p m hm hpq hpn => ?_,
    fun m hm hnq hn0 => ?_, hlinked⟩, hcontents.trans hflat, fun k c => ?_⟩
  · refine writeGroups_row hwrite hlen' hnodup hnew0 (fun x hx => (hgood x hx).1) hsorted hcells
      (fun k hk _ => hholds k (.inr hk)) ?_
    simp
  · by_cases hpp : p ∈ page :: new
    · exact hsome p hpp
    · rw [hsame p hpp]
      exact hset.kept (by rwa [hall.same p (hnotNew p hp)])
  · -- not a leaf: it is neither the page nor the next leaf
    have hpp : p ∉ page :: new := by
      rw [mem_cons, not_or]
      refine ⟨?_, hnotNew p (by simp [hx])⟩
      rintro rfl
      rw [hn] at hx
      cases hx
      exact hleaf n rfl
    rw [hsame p hpp]
    exact hset.other (by rw [hall.same p (hnotNew p (by simp [hx])), hx]) hleaf
  · have hpp : p ∉ page :: new := by
      rw [mem_cons, not_or]
      exact ⟨hpq, hnotNew p (by simp [hm])⟩
    rw [hframe p hpp hpn, hm]
  · have hpp : n.nextLeafPage ∉ page :: new := by
      rw [mem_cons, not_or]
      exact ⟨hnq, hnotNew _ (by simp [hm])⟩
    obtain ⟨m', hm', hlink⟩ := hset.leaf hn0
    rw [hall.same _ fun hmem => hpp (mem_cons_of_mem _ hmem), hm] at hm'
    cases hm'
    exact .inr ((hsame _ hpp).trans hlink)
  · rw [writeGroups_chains hwrite (by simp [hlen']) hnodup (splitGroups_entries hgroups)]
    refine and_iff_left ⟨zero_le _, ?_⟩
    have hgroup : chainGroup (separatorsOf (g :: groups)) k ≤ (separatorsOf (g :: groups)).length := findIdx_le_length
    rw [separatorsOf, length_map, drop_one, tail_cons, ← hlen'] at hgroup
    rw [zero_add]
    exact lt_succ_of_le hgroup

/-- **The leaf.** -/
theorem insertLeaf_ok {splits : Items} (h : insertLeaf a store page key value = .ok (store', splits))
    (hat : LeafAt store page lo hi) (hkey : Within lo hi key) :
    ∃ n new, store page = some (.leaf n) ∧ n.cells.get? key = none ∧
      Row (Spans store' 0) page splits lo hi ∅ (page :: new) ∧
      LeafChange store store' ∅ page n new ∧ contents store' (page :: new) = (n.cells.insert key value).entries ∧
      ∀ k c, ChainIn store' (page :: new) k c ↔ n.deltas.get? k = some c := by
  obtain ⟨n, hread, h⟩ := bind_eq_ok h
  have hn := readLeaf_ok.1 hread
  split_ifs at h with hdup hroom
  · have hnone : n.cells.get? key = none := by simpa using hdup
    obtain ⟨store₁, hwrite, h⟩ := bind_eq_ok h
    cases h
    obtain ⟨-, rfl⟩ := writeLeaf_ok.1 hwrite
    obtain ⟨hne0, m, hm, hholds⟩ := hat
    rw [hn] at hm
    cases hm
    refine ⟨n, [], hn, hnone, ⟨rfl, rfl, hne0, _, writePage_self _ _ _, fun k hk => ?_⟩,
      ⟨by simp, nodup_nil, fun p hp => writePage_ne_none _ hp, fun p x hx hleaf _ => ?_, fun p m hm hpq _ => ?_,
        fun m hm hnq _ => ?_, ?_⟩,
      ?_, fun k c => ?_⟩
    · rcases hk with hk | hk
      · rw [get?_insert] at hk
        split_ifs at hk with hkk
        · exact hkk ▸ hkey
        · exact hholds k (.inl hk)
      · exact hholds k (.inr hk)
    · rw [writePage_of_ne _ (by rintro rfl; rw [hn] at hx; cases hx; exact hleaf n rfl), hx]
    · rw [writePage_of_ne _ hpq, hm]
    · exact .inl ⟨rfl, by rw [writePage_of_ne _ hnq, hm]⟩
    · exact ⟨⟨_, writePage_self _ _ _, rfl, rfl⟩, trivial⟩
    · simp [contents]
    · rw [chainIn_cons (writePage_self _ _ _)]
      exact or_iff_left not_chainIn_nil
  · have hnone : n.cells.get? key = none := by simpa using hdup
    obtain ⟨new, hrow, hchange, hcontents⟩ := splitLeaf_ok h hn hat hkey
    exact ⟨n, new, hn, hnone, hrow, hchange, hcontents⟩

/-! ### The same, told by keys -/

theorem allocPage_error (h : allocPage a store = .error e) : e = .alloc := by
  unfold allocPage at h
  split at h <;> cases h
  rfl

theorem allocPages_error {n : ℕ} (h : allocPages a n store = .error e) : e = .alloc := by
  induction n generalizing store with
  | zero => cases h
  | succ n ih =>
    rcases bind_eq_error h with h | ⟨⟨store₁, page⟩, -, h⟩
    · exact allocPage_error h
    · rcases bind_eq_error h with h | ⟨r, -, h⟩
      · exact ih h
      · cases h

theorem writeGroups_isOk {separators : List Key} {deltas : OrdMap Key Chain} {oldNext i prev : ℕ} {pages : List ℕ}
    {groups : List (List LeafCell)} (hcells : ∀ g ∈ groups, (OrdMap.ofList g).entries = g)
    (hfit : ∀ g ∈ groups, usedBytesForCells g ≤ PAGE_SIZE_LEAF) :
    ∃ store', writeGroups separators deltas oldNext i prev pages groups store = .ok store' := by
  induction pages generalizing i prev groups store with
  | nil => exact ⟨store, by rw [writeGroups]; simp⟩
  | cons page pages ih =>
    cases groups with
    | nil => exact ⟨store, by rw [writeGroups]; simp⟩
    | cons g groups =>
      rw [forall_mem_cons] at hcells hfit
      have hwrite :=
        (@writeLeaf_ok store _ page ⟨.ofList g, deltas.filter fun k => chainGroup separators k = i,
          pages.headD oldNext, prev⟩).2
        ⟨by rw [LeafNode.usedBytes, hcells.1]; exact hfit.1, rfl⟩
      rw [writeGroups, bind_ok hwrite]
      exact ih hcells.2 hfit.2

/-- the leaf behind can be relinked, whatever the new link is -/
def CanRelink (store : PageStore) (page : ℕ) : Prop :=
  page = 0 ∨ ∃ m, store page = some (.leaf m) ∧ m.usedBytes ≤ PAGE_SIZE_LEAF

theorem relink_isOk (hlink : ∀ m, (link m).usedBytes = m.usedBytes) :
    (∃ store', relink store page link = .ok store') ↔ CanRelink store page := by
  unfold relink
  by_cases h0 : page = 0
  · simp [h0, CanRelink]
  · rw [if_neg h0]
    constructor
    · rintro ⟨store', h⟩
      obtain ⟨m, hm, hwrite⟩ := bind_eq_ok h
      exact .inr ⟨m, readLeaf_ok.1 hm, hlink m ▸ (writeLeaf_ok.1 hwrite).1⟩
    · rintro (heq | ⟨m, hm, hfit⟩)
      · exact absurd heq h0
      · exact ⟨_, (bind_ok (readLeaf_ok.2 hm) _).trans (writeLeaf_ok.2 ⟨(hlink m).symm ▸ hfit, rfl⟩)⟩

theorem relinkPrev_isOk : (∃ store', relinkPrev store page prev = .ok store') ↔ CanRelink store page :=
  relink_isOk fun _ => rfl

theorem relinkPrev_error (h : relinkPrev store page prev = .error e) : e ≠ .duplicateKey := by
  rintro rfl
  unfold relinkPrev readLeaf writeLeaf LeafNode.encode at h
  split_ifs at h
  split at h
  next m hm =>
    simp only [bind, Except.bind] at h
    split_ifs at h
    cases h
  · cases h

theorem splitGroups_error (h : splitGroups cells = .error e) : e ≠ .duplicateKey := by
  unfold splitGroups at h
  split at h
  · cases h
  · exact packLoop_error h

theorem Allocated.canRelink (h : Allocated store store' pages) : CanRelink store' page ↔ CanRelink store page := by
  by_cases hp : page ∈ pages
  · simp [CanRelink, h.blank page hp, (h.fresh page hp).2]
  · rw [CanRelink, CanRelink, h.same page hp]

/-- there is room in the leaf, or its cells can be divided and the leaf behind be relinked -/
def LeafTakes (store : PageStore) (n : LeafNode) (key : Key) (value : VersionData) : Prop :=
  n.canInsert (LeafCell.encodedSize (key, value)) = true ∨
    (∃ groups, splitGroups (n.cells.insert key value).entries = .ok groups) ∧ CanRelink store n.nextLeafPage

theorem usedBytes_insert {n : LeafNode} (hnone : n.cells.get? key = none) (value : VersionData) :
    usedBytesForCells (n.cells.insert key value).entries = n.usedBytes + (LeafCell.encodedSize (key, value) + 2) := by
  rw [usedBytes_perm (insert_perm hnone value), usedBytes_cons, LeafNode.usedBytes]

theorem insertLeaf_keys {n : LeafNode} (hn : store page = some (.leaf n)) (hnone : n.cells.get? key = none) :
    Outcome (insertLeaf a store page key value) (fun r => r.2.map Prod.fst = leafPromotions n key value)
      (LeafTakes store n key value) := by
  have hread := readLeaf_ok.2 hn
  rw [insertLeaf, bind_ok hread, if_neg (by simp [hnone])]
  by_cases hroom : n.canInsert (LeafCell.encodedSize (key, value)) = true
  · have hfit : usedBytesForCells (n.cells.insert key value).entries ≤ PAGE_SIZE_LEAF := by
      rw [usedBytes_insert hnone]
      exact of_decide_eq_true hroom
    have hwrite := (@writeLeaf_ok store _ page { n with cells := n.cells.insert key value }).2 ⟨hfit, rfl⟩
    rw [if_pos hroom, bind_ok hwrite]
    exact ⟨by simp [leafPromotions, hroom], .inl hroom⟩
  · rw [if_neg hroom, splitLeaf, leafPromotions, if_neg hroom]
    cases hgroups : splitGroups (n.cells.insert key value).entries with
    | error e =>
      refine .inr ⟨splitGroups_error hgroups, ?_⟩
      rintro (hr | ⟨⟨groups, hg⟩, -⟩)
      · exact hroom hr
      · rw [hgroups] at hg
        cases hg
    | ok groups =>
      rw [bind_ok rfl]
      obtain ⟨-, hgood⟩ := splitGroups_ok hgroups
      cases halloc : allocPages a (groups.length - 1) store with
      | error e => exact .inl (allocPages_error halloc)
      | ok r =>
        obtain ⟨store₁, new⟩ := r
        obtain ⟨hlen, hall⟩ := allocPages_ok halloc
        rw [bind_ok rfl]
        dsimp only
        cases hrelink : relinkPrev store₁ n.nextLeafPage (new.getLastD page) with
        | error e =>
          refine .inr ⟨relinkPrev_error hrelink, ?_⟩
          rintro (hr | ⟨-, hcan⟩)
          · exact hroom hr
          · obtain ⟨store₂, h₂⟩ := relinkPrev_isOk.2 (hall.canRelink.2 hcan)
            rw [hrelink] at h₂
            cases h₂
        | ok store₂ =>
          rw [bind_ok rfl]
          obtain ⟨store₃, hwrite⟩ := @writeGroups_isOk store₂ (separatorsOf groups) n.deltas n.nextLeafPage 0
            n.prevLeafPage (page :: new) groups (splitGroups_entries hgroups) fun g hg => (hgood g hg).2
          rw [bind_ok hwrite]
          refine ⟨?_, .inr ⟨⟨groups, hgroups⟩, hall.canRelink.1 (relinkPrev_isOk.1 ⟨store₂, hrelink⟩)⟩⟩
          refine map_fst_zip ?_
          rw [hlen, separatorsOf, length_map, length_drop]

end Leaf

end Mqlite.Btree
