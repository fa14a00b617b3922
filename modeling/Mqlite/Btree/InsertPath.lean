/-
Inserts over the whole path.

`insertSubtree_ok`: if the call returns, the page and the pages it was split into are a row of trees on the same range,
one leaf has been replaced by itself and new leaves (`LeafChange`), and together they hold the old cells and the new
one. `insertRoot_ok` is the same for the whole tree.
-/
import Mqlite.Btree.InsertNodes

namespace Mqlite.Btree

open Lib Mvcc Storage List OrdMap Nat Set InternalNode

/-! ## The whole path -/

section Path

variable {a : Allocator} {store store' : PageStore} {level page : ℕ} {lo hi : Option Key} {inner : Set ℕ}
  {leaves : List ℕ} {key : Key} {value : VersionData}

variable {q : ℕ} {n : LeafNode} {new : List ℕ} {splits : Items}

theorem LeafChange.sameLeaf (h : LeafChange store store' inner q n new) {p : ℕ} (hp : p ≠ q) (h0 : p ≠ 0) :
    SameLeaf store store' p := by
  intro m hm
  by_cases hnext : p = n.nextLeafPage
  · subst hnext
    rcases h.next m hm hp h0 with ⟨-, hsame⟩ | hset
    · exact ⟨m, hsame, rfl, rfl⟩
    · exact ⟨_, hset, rfl, rfl⟩
  · exact ⟨m, h.leaf p m hm hp hnext, rfl, rfl⟩

/-- writes to internal and fresh pages keep a change of leaves -/
theorem LeafChange.extend {store₁ : PageStore} {innerC : Set ℕ} (h : LeafChange store store₁ innerC q n new)
    {node : InternalNode} (hpage : store₁ page = some (.internal node)) (hmem : page ∈ inner) (hinner : innerC ⊆ inner)
    (hsame : ∀ p, p ≠ page → store₁ p ≠ none → store' p = store₁ p) (hkept : ∀ p, store₁ p ≠ none → store' p ≠ none) :
    LeafChange store store' inner q n new := by
  have hleaf : ∀ p m, store₁ p = some (.leaf m) → store' p = some (.leaf m) := by
    intro p m hm
    have hpp : p ≠ page := by
      rintro rfl
      rw [hpage] at hm
      cases hm
    rw [hsame p hpp (by simp [hm]), hm]
  refine ⟨h.fresh, h.nodup, fun p hp => hkept p (h.kept p hp), fun p x hx hnl hp => ?_,
    fun p m hm hq hn => hleaf p m (h.leaf p m hm hq hn), fun m hm hq h0 => ?_, h.linked.frame fun p hp => ?_⟩
  · have hx₁ := h.other p x hx hnl fun hc => hp (hinner hc)
    have hpp : p ≠ page := by
      rintro rfl
      exact hp hmem
    rw [hsame p hpp (by simp [hx₁]), hx₁]
  · rcases h.next m hm hq h0 with ⟨hnew, hs⟩ | hset
    · exact .inl ⟨hnew, hleaf _ _ hs⟩
    · exact .inr (hleaf _ _ hset)
  · obtain ⟨m, hm⟩ := h.linked.leaf p hp
    rw [hleaf p m hm, hm]

theorem promotions_of_nil : (if splits = [] then .ok (store, []) else insertPromotions a page splits store []) =
    insertPromotions a page splits store [] := by
  split_ifs with hempty
  · rw [hempty]
    rfl
  · rfl

/-- **Down and up again.** -/
theorem insertSubtree_ok (h : insertSubtree a key value level page store = .ok (store', splits))
    (hspans : Spans store level page lo hi inner leaves) (hnodup : leaves.Nodup) (hkey : Within lo hi key) :
    ∃ inner' left q right n new, leaves = left ++ q :: right ∧ store q = some (.leaf n) ∧ n.cells.get? key = none ∧
      Row (Spans store' level) page splits lo hi inner' (left ++ q :: new ++ right) ∧
      (∀ p ∈ inner', p ∈ inner ∨ p ≠ 0 ∧ store p = none) ∧ LeafChange store store' inner q n new ∧
      contents store' (q :: new) = (n.cells.insert key value).entries ∧
      ∀ k c, ChainIn store' (q :: new) k c ↔ n.deltas.get? k = some c := by
  induction level generalizing page store' splits lo hi inner leaves with
  | zero =>
    obtain ⟨rfl, rfl, hat⟩ := hspans
    obtain ⟨n, new, hn, hnone, hrow, hchange, hcontents⟩ := insertLeaf_ok h hat hkey
    exact ⟨∅, [], page, [], n, new, rfl, hn, hnone, by simpa using hrow, by simp, hchange, hcontents⟩
  | succ level ih =>
    obtain ⟨first, items, below, hpage, hnot, rfl, hrow⟩ := hspans
    obtain ⟨node, hread, hbody⟩ := bind_eq_ok h
    rw [readInternal_ok, hpage] at hread
    cases hread
    rw [findChild_ofRow] at hbody
    obtain ⟨⟨store₁, childSplits⟩, hchild, hpromote⟩ := bind_eq_ok hbody
    dsimp only at hpromote
    obtain ⟨litems, ritems, lo', hi', innerC, rest, leavesL, leavesC, leavesR, rfl, -, -, hkey', rfl, hdisj, rfl,
      hspansC, hplug⟩ :=
      hrow.focus hkey
    have hnodupC : leavesC.Nodup := (nodup_append.1 (nodup_append.1 hnodup).1).2.1
    obtain ⟨inner₁, left, q, right, n, new, rfl, hn, hnone, hrow₁, hinner₁, hchange, hcontents, hchains⟩ :=
      ih hchild hspansC hnodupC hkey'
    have hpage₁ : store₁ page = some (.internal (ofRow first (litems ++ ritems))) :=
      hchange.other page _ hpage (by simp) fun hc => hnot (.inl hc)
    -- the other children are as before
    have hrest : ∀ c lo hi i l, Spans store level c lo hi i l → i ⊆ rest → l ⊆ leavesL ++ leavesR →
        Spans store₁ level c lo hi i l := by
      intro c lo hi i l hP hi' hl
      refine hP.frame (fun p hp => ?_) fun p hp => ?_
      · obtain ⟨node, hnode⟩ := hP.internal p hp
        rw [hnode, hchange.other p _ hnode (by simp) fun hc => disjoint_left.1 hdisj hc (hi' hp)]
      · refine hchange.sameLeaf ?_ (hP.leaf p hp).1
        rintro rfl
        have := hl hp
        grind
    have hdisj₁ : Disjoint inner₁ rest := by
      rw [Set.disjoint_left]
      intro p hp hpr
      rcases hinner₁ p hp with hpC | ⟨-, hpnone⟩
      · exact disjoint_left.1 hdisj hpC hpr
      · exact hrow.used.1 p (.inr hpr) hpnone
    have hrow₂ := hplug (Spans store₁ level) childSplits inner₁ _ hrest hdisj₁ hrow₁
    have hpage₂ : page ∉ inner₁ ∪ rest := by
      rintro (hp | hp)
      · rcases hinner₁ page hp with hpC | ⟨-, hpnone⟩
        · exact hnot (.inl hpC)
        · rw [hpage] at hpnone
          cases hpnone
      · exact hnot (.inr hp)
    rw [promotions_of_nil] at hpromote
    obtain ⟨htier, hnodup', hnew, hothers, hkept⟩ := insertPromotions_ok hpromote hpage₁ hrow₂.sorted (by simp)
    have hfresh := fun p hp => (hnew p hp).resolve_left (by simp)
    have hsame : ∀ p, p ≠ page → store₁ p ≠ none → store' p = store₁ p := fun p hp => hothers p (by simpa using hp)
    have hrow₃ : Row (Spans store' level) first (litems ++ childSplits ++ ritems) lo hi (inner₁ ∪ rest)
        (leavesL ++ (left ++ q :: new ++ right) ++ leavesR) := by
      refine hrow₂.frame (fun p hp => hsame p ?_ (hrow₂.used.1 p hp)) fun p hp =>
        sameLeaf_of_eq (hsame p ?_ (hrow₂.used.2 p hp))
      · rintro rfl
        exact hpage₂ hp
      · rintro rfl
        obtain ⟨-, m, hm⟩ := hrow₂.leaf p hp
        rw [hpage₁] at hm
        cases hm
    have hnotIn : ∀ p ∈ page :: splits.map Prod.snd, p ∉ inner₁ ∪ rest :=
      forall_mem_cons.2 ⟨hpage₂, fun p hp hin => hrow₂.used.1 p hin (hfresh p hp).2⟩
    have hchange' := hchange.extend hpage₁ (mem_insert page (innerC ∪ rest))
      (Set.Subset.trans subset_union_left (subset_insert _ _)) hsame hkept
    have hrow₄ := hrow₃.ofTier htier hnodup' hnotIn
    rw [show leavesL ++ (left ++ q :: new ++ right) ++ leavesR = leavesL ++ left ++ q :: new ++
      (right ++ leavesR) by simp] at hrow₄
    -- the leaves that were written stay
    have hleaf : ∀ p ∈ q :: new, store' p = store₁ p := by
      intro p hp
      obtain ⟨m, hm⟩ := hchange.linked.leaf p hp
      refine hsame p ?_ (by simp [hm])
      rintro rfl
      rw [hpage₁] at hm
      cases hm
    refine ⟨_, leavesL ++ left, q, right ++ leavesR, n, new, by simp, hn, hnone, hrow₄, ?_, hchange', ?_, fun k c => ?_⟩
    · rintro p (hp | hp | hp)
      · rcases mem_cons.1 hp with rfl | hp
        · exact .inl (mem_insert _ _)
        · refine .inr ⟨(hfresh p hp).1, ?_⟩
          by_contra hsome
          exact hchange.kept p hsome (hfresh p hp).2
      · exact (hinner₁ p hp).imp_left fun hpC => .inr (.inl hpC)
      · exact .inl (.inr (.inr hp))
    · rw [← hcontents]
      exact contents_congr hleaf
    · rw [← hchains k c]
      exact sameChains_congr hleaf k c

/-- the call for the leaf decides if it fails, or splits nothing -/
theorem insertSubtree_of_leaf (hfind : findLeaf store level page key = some q) :
    (∀ e, insertLeaf a store q key value = .error e → insertSubtree a key value level page store = .error e) ∧
      ∀ store', insertLeaf a store q key value = .ok (store', []) →
        insertSubtree a key value level page store = .ok (store', []) := by
  induction level generalizing page with
  | zero =>
    cases hfind
    exact ⟨fun _ h => h, fun _ h => h⟩
  | succ level ih =>
    rw [findLeaf] at hfind
    split at hfind
    next node hnode =>
      rw [insertSubtree, bind_ok (readInternal_ok.2 hnode)]
      refine ⟨fun e he => ?_, fun store' hok => ?_⟩
      · rw [(ih hfind).1 e he]
        rfl
      · rw [bind_ok ((ih hfind).2 store' hok)]
        rfl
    next => cases hfind

/-- a key that is there -/
theorem insertSubtree_duplicate (hfind : findLeaf store level page key = some q) (hn : store q = some (.leaf n))
    (hsome : (n.cells.get? key).isSome = true) : insertSubtree a key value level page store = .error .duplicateKey := by
  refine (insertSubtree_of_leaf hfind).1 _ ?_
  rw [insertLeaf, bind_ok (readLeaf_ok.2 hn), if_pos hsome]

/-- **The path, by keys.** -/
theorem insertSubtree_keys {q : ℕ} {n : LeafNode} (hspans : Spans store level page lo hi inner leaves)
    (hnodup : leaves.Nodup)
    (hkey : Within lo hi key) (hfind : findLeaf store level page key = some q) (hn : store q = some (.leaf n))
    (hnone : n.cells.get? key = none) :
    Outcome (insertSubtree a key value level page store)
      (fun r => r.2.map Prod.fst = (pathPromotions store key value level page).1)
      (LeafTakes store n key value ∧ Fit (pathPromotions store key value level page).2) := by
  induction level generalizing page lo hi inner leaves with
  | zero =>
    cases hfind
    rw [pathPromotions, hn]
    exact (insertLeaf_keys hn hnone).congr (by simp [Fit])
  | succ level ih =>
    obtain ⟨first, items, below, hpage, hnot, rfl, hrow⟩ := hspans
    obtain ⟨litems, ritems, lo', hi', innerC, rest, leavesL, leavesC, leavesR, rfl, -, -, hkey', rfl, -, rfl, hspansC,
      -⟩ := hrow.focus hkey
    have hnodupC : leavesC.Nodup := (nodup_append.1 (nodup_append.1 hnodup).1).2.1
    simp only [findLeaf, hpage] at hfind
    have hread := readInternal_ok.2 hpage
    rw [insertSubtree, bind_ok hread, pathPromotions, hpage]
    dsimp only
    rw [findChild_ofRow] at hfind ⊢
    have hchild := ih hspansC hnodupC hkey' hfind
    refine Outcome.congr (hchild.bind fun r hr hkeys => ?_) (by rw [fit_append, and_assoc])
    obtain ⟨store₁, splits⟩ := r
    obtain ⟨_, _, _, _, _, _, -, -, -, -, -, hchange, -⟩ := insertSubtree_ok hr hspansC hnodupC hkey'
    have hpage₁ : store₁ page = some (.internal (ofRow first (litems ++ ritems))) :=
      hchange.other page _ hpage (by simp) fun hc => hnot (.inl hc)
    rw [promotions_of_nil, ← hkeys]
    have ht : TierKeys store₁ page [] ((ofRow first (litems ++ ritems)).entries.map Prod.fst, []) :=
      ⟨rfl, _, hpage₁, rfl⟩
    exact (insertPromotions_keys ht (by simp)).imp fun r _ ht => ht.keys

/-- **New roots** on top of the tree. Pages that were in use stay as they are. -/
theorem growRoot_ok {fuel rootLevel rootLevel' root root' : ℕ}
    (h : growRoot a fuel store root rootLevel splits = .ok (store', root', rootLevel')) (hlevel : rootLevel < 256)
    (hrow : Row (Spans store level) root splits none none inner leaves) :
    ∃ inner', Spans store' (level + (rootGrowth fuel (splits.map Prod.fst)).1) root' none none inner' leaves ∧
      rootLevel' = (rootLevel + (rootGrowth fuel (splits.map Prod.fst)).1) % 256 ∧
      (∀ p ∈ inner', p ∈ inner ∨ p ≠ 0 ∧ store p = none) ∧ ∀ p, store p ≠ none → store' p = store p := by
  induction fuel generalizing store root rootLevel splits level inner with
  | zero =>
    cases splits with
    | nil =>
      cases h
      exact ⟨inner, hrow, (mod_eq_of_lt hlevel).symm, fun p hp => .inl hp, fun _ _ => rfl⟩
    | cons e splits => cases h
  | succ fuel ih =>
    cases splits with
    | nil =>
      cases h
      exact ⟨inner, hrow, (mod_eq_of_lt hlevel).symm, fun p hp => .inl hp, fun _ _ => rfl⟩
    | cons e splits =>
      obtain ⟨key, right⟩ := e
      obtain ⟨⟨store₁, newRoot⟩, halloc, h₁⟩ := bind_eq_ok h
      obtain ⟨store₂, hwrite, h₂⟩ := bind_eq_ok h₁
      obtain ⟨⟨store₃, out⟩, hprom, h₃⟩ := bind_eq_ok h₂
      obtain ⟨hne0, hnone, rfl⟩ := allocPage_ok halloc
      obtain ⟨-, hstore₂⟩ := writeInternal_ok.1 hwrite
      have hpage : store₂ newRoot = some (.internal (ofRow root ([(key, right)] ++ []))) :=
        hstore₂ ▸ writePage_self _ _ _
      have hold : ∀ p, p ≠ newRoot → store₂ p = store p :=
        fun p hp => by rw [hstore₂, writePage_of_ne _ hp, writePage_of_ne _ hp]
      obtain ⟨htier, hnodup, hfresh, hsame, hkept⟩ :=
        @insertPromotions_ok a _ _ newRoot root splits [(key, right)] [] [] out hprom hpage
          (by simpa using hrow.sorted) (by simp)
      have hsame' : ∀ p, store p ≠ none → store₃ p = store p := by
        intro p hp
        have hpr : p ≠ newRoot := by
          rintro rfl
          exact hp hnone
        rw [hsame p (by simpa using hpr) (by rwa [hold p hpr]), hold p hpr]
      have hrow₁ : Row (Spans store₃ level) root ((key, right) :: splits) none none inner leaves :=
        hrow.frame (fun p hp => hsame' p (hrow.used.1 p hp)) fun p hp => sameLeaf_of_eq (hsame' p (hrow.used.2 p hp))
      have hnew : ∀ p ∈ newRoot :: out.map Prod.snd, p ≠ 0 ∧ store p = none := by
        refine forall_mem_cons.2 ⟨⟨hne0, hnone⟩, fun p hp => ?_⟩
        obtain ⟨hp0, hpnone⟩ := (hfresh p hp).resolve_left (by simp)
        have hpr : p ≠ newRoot := by
          rintro rfl
          exact (nodup_cons.1 hnodup).1 hp
        exact ⟨hp0, hold p hpr ▸ hpnone⟩
      have hnot : ∀ p ∈ newRoot :: out.map Prod.snd, p ∉ inner := fun p hp hin => hrow.used.1 p hin (hnew p hp).2
      have hkeys : out.map Prod.fst = (promoteKeys (splits.map Prod.fst) ([key], [])).1.2.map Prod.fst := by
        have := @insertPromotions_keys a _ newRoot splits [] ([key], []) ⟨rfl, _, hpage, rfl⟩ (by simp)
        rw [hprom] at this
        exact this.1.keys
      obtain ⟨inner', hspans, hlevel', hinner, hstore⟩ :=
        ih h₃ (mod_lt _ (by decide)) (hrow₁.ofTier (by simpa using htier) hnodup hnot)
      have hgrown : (rootGrowth (fuel + 1) (((key, right) :: splits).map Prod.fst)).1 =
          (rootGrowth fuel (out.map Prod.fst)).1 + 1 := by
        rw [hkeys]
        rfl
      rw [hgrown]
      refine ⟨inner', by rwa [add_right_comm] at hspans, ?_, fun p hp => ?_, fun p hp => ?_⟩
      · rw [hlevel', mod_add_mod, add_assoc, add_comm 1]
      · rcases hinner p hp with (hp | hp) | ⟨hp0, hpnone⟩
        · exact .inr (hnew p hp)
        · exact .inl hp
        · refine .inr ⟨hp0, ?_⟩
          by_contra hsome
          rw [hsame' p hsome] at hpnone
          exact hsome hpnone
      · have hp₃ := hsame' p hp
        rw [hstore p (by rwa [hp₃]), hp₃]

theorem growRoot_keys {fuel rootLevel root : ℕ} (hfuel : splits.length ≤ fuel) :
    Outcome (growRoot a fuel store root rootLevel splits) (fun _ => True)
      (Fit (rootGrowth fuel (splits.map Prod.fst)).2) := by
  induction fuel generalizing store root rootLevel splits with
  | zero =>
    obtain rfl : splits = [] := length_eq_zero_iff.1 (le_zero.1 hfuel)
    exact ⟨trivial, by simp [Fit, rootGrowth]⟩
  | succ fuel ih =>
    cases splits with
    | nil => exact ⟨trivial, by simp [Fit, rootGrowth]⟩
    | cons e splits =>
      obtain ⟨key, right⟩ := e
      have hfits : Fit (rootGrowth (fuel + 1) (((key, right) :: splits).map Prod.fst)).2 ↔
        keysSize [key] ≤ PAGE_SIZE_INTERNAL ∧
          Fit (promoteKeys (splits.map Prod.fst) ([key], [])).2 ∧
            Fit (rootGrowth fuel ((promoteKeys (splits.map Prod.fst) ([key], [])).1.2.map Prod.fst)).2 := by
        rw [← fit_append]
        exact forall_mem_cons
      rw [growRoot, hfits]
      cases halloc : allocPage a store with
      | error e => exact .inl (allocPage_error halloc)
      | ok r =>
        obtain ⟨store₁, newRoot⟩ := r
        rw [bind_ok rfl]
        dsimp only
        have hsize : (⟨[(key, root)], right⟩ : InternalNode).encodedSize = keysSize [key] := encodedSize_eq_keysSize _
        by_cases hfit : keysSize [key] ≤ PAGE_SIZE_INTERNAL
        · rw [bind_ok (writeInternal_ok.2 ⟨by rwa [hsize], rfl⟩)]
          have htier : TierKeys (writePage store₁ newRoot (.internal ⟨[(key, root)], right⟩)) newRoot [] ([key], []) :=
            ⟨rfl, _, writePage_self _ _ _, rfl⟩
          refine Outcome.congr ((insertPromotions_keys htier (by simp)).bind fun r _ ht => ?_)
            (by rw [and_iff_right hfit])
          have hkeys := ht.keys
          rw [← hkeys]
          refine ih ?_
          have hlen := congrArg List.length hkeys
          have hbound := length_promoteKeys (splits.map Prod.fst) ([key], [])
          simp only [length_map, length_nil, length_cons] at hlen hbound hfuel
          omega
        · rw [writeInternal, encode, if_pos (by rw [hsize]; exact not_le.1 hfit)]
          exact .inr ⟨by simp, fun h => hfit h.1⟩

/-- the links after a change -/
theorem LeafChange.relink {left right : List ℕ} (hchange : LeafChange store store' inner q n new)
    (hn : store q = some (.leaf n)) (hlinked : Linked store 0 (left ++ q :: right) 0)
    (hnodup : (left ++ q :: right).Nodup)
    (h0 : ∀ p ∈ left ++ q :: right, p ≠ 0) : Linked store' 0 (left ++ q :: new ++ right) 0 := by
  obtain ⟨hleft, ⟨m, hm, hprev, hnext⟩, hright⟩ := linked_append.1 hlinked
  rw [hn] at hm
  cases hm
  -- leaves other than q and the next one are as they were
  have hsame : ∀ p ∈ left ++ right, p ≠ right.headD 0 → store' p = store p := by
    intro p hp hpn
    have hmem : p ∈ left ++ q :: right := by
      simp only [mem_append, mem_cons] at hp ⊢
      tauto
    obtain ⟨m, hm⟩ := hlinked.leaf p hmem
    have hpq : p ≠ q := by
      rintro rfl
      exact (nodup_middle.1 hnodup |> nodup_cons.1).1 hp
    rw [hchange.leaf p m hm hpq (hnext ▸ hpn), hm]
  rw [append_assoc, linked_append, cons_append]
  refine ⟨hleft.frame fun p hp => hsame p (mem_append_left _ hp) ?_, ?_⟩
  · rintro rfl
    cases right with
    | nil => exact h0 _ (mem_append_left _ hp) rfl
    | cons r right =>
      rw [nodup_append] at hnodup
      exact hnodup.2.2 _ hp r (by simp) rfl
  · rw [← cons_append, linked_append]
    have hlast : (q :: new).getLastD (left.getLastD 0) = new.getLastD q := by cases new <;> rfl
    rw [hlast]
    refine ⟨?_, ?_⟩
    · have := hchange.linked
      rwa [hprev, hnext] at this
    · cases right with
      | nil => trivial
      | cons r right =>
        obtain ⟨⟨m, hm, hmprev, hmnext⟩, hrest⟩ := hright
        have hnext' : n.nextLeafPage = r := hnext
        have hr : r ∉ left ∧ r ≠ q ∧ r ∉ right := by
          have := hnodup
          rw [nodup_append, nodup_cons, nodup_cons] at this
          obtain ⟨-, ⟨hq, hr, -⟩, hd⟩ := this
          exact ⟨fun hl => hd r hl r (by simp) rfl, fun heq => hq (heq ▸ mem_cons_self), hr⟩
        refine ⟨?_, hrest.frame fun p hp => hsame p (by simp [hp]) ?_⟩
        · have hr0 : r ≠ 0 := h0 r (by simp)
          subst hnext'
          rcases hchange.next m hm hr.2.1 hr0 with ⟨rfl, hsame⟩ | hset
          · exact ⟨m, hsame, hmprev, hmnext⟩
          · exact ⟨_, hset, rfl, hmnext⟩
        · rintro rfl
          exact hr.2.2 hp

/-- **Insertion into the tree.** The result is a tree with linked leaves and one more cell; overflow pages stay. The
root's level counts the new roots in 8 bits. -/
theorem insertRoot_ok {t t' : BTree} (h : insertRoot a t key value = .ok t') (hlevel : t.rootLevel < 256)
    (hbuilt : Built t.store t.rootLevel t.rootPage inner leaves) :
    ∃ inner' leaves', Built t'.store (t.rootLevel + (t.growth key value).1) t'.rootPage inner' leaves' ∧
      t'.rootLevel = (t.rootLevel + (t.growth key value).1) % 256 ∧
        CellsChange (contents t.store leaves) (contents t'.store leaves') key (some value) ∧
      (∀ d, (key, d) ∉ contents t.store leaves) ∧
      (∀ p data next, t.store p = some (.overflow data next) → t'.store p = some (.overflow data next)) ∧
      SameChains t.store leaves t'.store leaves' := by
  obtain ⟨⟨store₁, splits⟩, hsub, h₁⟩ := bind_eq_ok h
  obtain ⟨⟨store₂, root, rootLevel⟩, hgrow, h₂⟩ := bind_eq_ok h₁
  cases h₂
  obtain ⟨inner₁, left, q, right, n, new, rfl, hn, hnone, hrow, hinner, hchange, hcontents, hchains⟩ :=
    insertSubtree_ok hsub hbuilt.spans hbuilt.nodup ⟨by simp, by simp⟩
  have hkeys : splits.map Prod.fst = (pathPromotions t.store key value t.rootLevel t.rootPage).1 := by
    obtain ⟨q', left', right', hfind, hleaves, -⟩ := hbuilt.spans.subtree.find key
    obtain ⟨-, n', hn'⟩ := hbuilt.spans.leaf q' (hleaves ▸ by simp)
    cases hget : n'.cells.get? key with
    | some d =>
      rw [insertSubtree_duplicate hfind hn' (by rw [hget]; rfl)] at hsub
      cases hsub
    | none =>
      have hpath : Outcome (insertSubtree a key value t.rootLevel t.rootPage t.store) _ _ :=
        insertSubtree_keys hbuilt.spans hbuilt.nodup ⟨by simp, by simp⟩ hfind hn' hget
      rw [hsub] at hpath
      exact hpath.1
  have hgrown : (rootGrowth splits.length (splits.map Prod.fst)).1 = (t.growth key value).1 := by
    rw [← length_map (f := Prod.fst), hkeys]
    rfl
  obtain ⟨inner', hspans, hlevel', -, hstore⟩ := growRoot_ok hgrow hlevel hrow
  rw [hgrown] at hspans hlevel'
  have hleaf0 := fun p hp => (hbuilt.spans.leaf p hp).1
  have hlinked₁ := hchange.relink hn hbuilt.linked hbuilt.nodup hleaf0
  have hkeep : ∀ p ∈ left ++ q :: new ++ right, store₂ p = store₁ p := by
    intro p hp
    obtain ⟨m, hm⟩ := hlinked₁.leaf p hp
    exact hstore p (by simp [hm])
  have hq : q ∉ left ++ right := (nodup_cons.1 (nodup_middle.1 hbuilt.nodup)).1
  -- leaves beside the one that has changed
  have hleaf : ∀ l, l ⊆ left ++ right → ∀ p ∈ l, ∃ m, t.store p = some (.leaf m) := by
    intro l hl p hp
    refine (hbuilt.spans.leaf p ?_).2
    have := hl hp
    simp only [mem_append, mem_cons] at this ⊢
    tauto
  have hsameLeaf : ∀ l, l ⊆ left ++ right → ∀ p ∈ l, SameLeaf t.store store₂ p := by
    intro l hl p hp
    have hmem : p ∈ left ++ q :: right ∧ p ∈ left ++ q :: new ++ right := by
      have := hl hp
      simp only [mem_append, mem_cons] at this ⊢
      tauto
    refine (hchange.sameLeaf ?_ (hleaf0 p hmem.1)).trans (sameLeaf_of_eq (hkeep p hmem.2))
    rintro rfl
    exact hq (hl hp)
  have hside : ∀ l, l ⊆ left ++ right → contents store₂ l = contents t.store l :=
    fun l hl => contents_frame (hleaf l hl) (hsameLeaf l hl)
  have hnew : contents store₂ (left ++ q :: new ++ right) =
      contents t.store left ++ (n.cells.insert key value).entries ++ contents t.store right := by
    rw [contents_append, contents_append, hside left (subset_append_left _ _),
      hside right (subset_append_right _ _), ← hcontents]
    rw [contents_congr fun p hp => hkeep p (by simp at hp ⊢; tauto)]
  have hsorted := hspans.contents_sorted
  rw [hnew] at hsorted
  have hin : (key, value) ∈ (n.cells.insert key value).entries := by
    rw [← get?_eq_some_iff, get?_insert, if_pos rfl]
  obtain ⟨hl, hr⟩ := ne_of_sorted hsorted hin
  refine ⟨inner', _, ⟨hspans, hlinked₁.frame hkeep⟩, hlevel', ?_, fun d hd => ?_, fun p data next hp => ?_, ?_⟩
  · rw [hnew, contents_middle hn]
    exact (cellsChange_insert n.cells key value).append hl hr
  · rw [contents_middle hn, mem_append, mem_append] at hd
    rcases hd with (hd | hd) | hd
    · exact hl _ hd rfl
    · rw [← get?_eq_some_iff, hnone] at hd
      cases hd
    · exact hr _ hd rfl
  · have hp₁ : store₁ p = some (.overflow data next) := by
      refine hchange.other p _ hp (by simp) fun hin => ?_
      obtain ⟨node, hnode⟩ := hbuilt.spans.internal p hin
      rw [hp] at hnode
      cases hnode
    exact (hstore p (by simp [hp₁])).trans hp₁
  · have hside' : ∀ l, l ⊆ left ++ right → SameChains t.store l store₂ l :=
      fun l hl => sameChains_frame (hleaf l hl) (hsameLeaf l hl)
    have hmid : SameChains t.store [q] store₂ (q :: new) := by
      refine SameChains.trans (fun k c => ?_) (sameChains_congr fun p hp => hkeep p (by simp at hp ⊢; tauto))
      rw [chainIn_cons hn, or_iff_left not_chainIn_nil]
      exact hchains k c
    rw [append_cons]
    exact ((hside' left (subset_append_left _ _)).append hmid).append (hside' right (subset_append_right _ _))

/-- **How an insertion ends** when the key is not there. -/
theorem insertRoot_outcome {t : BTree} {q : ℕ} {n : LeafNode}
    (hbuilt : Built t.store t.rootLevel t.rootPage inner leaves)
    (hfind : findLeaf t.store t.rootLevel t.rootPage key = some q) (hn : t.store q = some (.leaf n))
    (hnone : n.cells.get? key = none) :
    Outcome (insertRoot a t key value) (fun _ => True) (LeafTakes t.store n key value ∧
      Fit (t.growth key value).2) := by
  have hpath : Outcome (insertSubtree a key value t.rootLevel t.rootPage t.store) _ _ :=
    insertSubtree_keys hbuilt.spans hbuilt.nodup ⟨by simp, by simp⟩ hfind hn hnone
  have hfits : Fit (t.growth key value).2 ↔ Fit (pathPromotions t.store key value t.rootLevel t.rootPage).2 ∧
      Fit (rootGrowth (pathPromotions t.store key value t.rootLevel t.rootPage).1.length
        (pathPromotions t.store key value t.rootLevel t.rootPage).1).2 := fit_append
  rw [hfits, ← and_assoc]
  refine hpath.bind fun r _ hkeys => ?_
  obtain ⟨store₁, splits⟩ := r
  rw [← hkeys, length_map]
  refine Outcome.congr ((growRoot_keys le_rfl).bind fun r _ _ => ?_) (and_iff_left trivial)
  exact ⟨trivial, trivial⟩

theorem insertRoot_duplicate {t : BTree} {q : ℕ} {n : LeafNode}
    (hfind : findLeaf t.store t.rootLevel t.rootPage key = some q) (hn : t.store q = some (.leaf n))
    (hsome : (n.cells.get? key).isSome = true) : insertRoot a t key value = .error .duplicateKey := by
  rw [insertRoot, insertSubtree_duplicate hfind hn hsome]
  rfl

end Path

end Mqlite.Btree
