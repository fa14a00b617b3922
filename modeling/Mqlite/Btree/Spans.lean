/-
Trees with the pages they own.

`Spans` is `Subtree` with the set of internal pages of the tree: pages of different children are disjoint, so a write to
one of them leaves the others alone (`Spans.frame`, `Spans.shrink`). A node is taken as a row (`ofRow`).

The rules by which a tree is changed somewhere inside:
- `Row.focus`: a row has one child for a key, and that child can be replaced by a row of its own;
- `Row.append` and `Row.split`: rows are put together and taken apart at a separator;
- `Row.ofTier`: nodes side by side whose rows, put together, are a row of trees, are themselves a row of trees one level
  higher.

`Built` is a whole tree with its sibling links; `contents` are the cells of its leaves in order, and `ChainIn` says
which version chains they have.
-/
import Mqlite.Btree.Node
import Mathlib.Order.CompletePartialOrder

namespace Mqlite.Btree

open Lib Mvcc Storage List OrdMap Set

/-! ## Rows of trees -/

/-- strictly between two ends -/
def Between (lo hi : Option Key) (k : Key) : Prop := (∀ l ∈ lo, l < k) ∧ ∀ h ∈ hi, k < h

/-- children side by side, each with the range that the separators leave to it -/
def Row (P : ℕ → Option Key → Option Key → Set ℕ → List ℕ → Prop) :
    ℕ → Items → Option Key → Option Key → Set ℕ → List ℕ → Prop
  | first, [], lo, hi, inner, leaves => P first lo hi inner leaves
  | first, (sep, child) :: items, lo, hi, inner, leaves => Between lo hi sep ∧ ∃ inner₁ inner₂ leaves₁ leaves₂,
      inner = inner₁ ∪ inner₂ ∧ Disjoint inner₁ inner₂ ∧ leaves = leaves₁ ++ leaves₂ ∧
        P first lo (some sep) inner₁ leaves₁ ∧ Row P child items (some sep) hi inner₂ leaves₂

/-- the page is the root of a tree of this height, with these internal pages and leaves -/
def Spans (store : PageStore) : ℕ → ℕ → Option Key → Option Key → Set ℕ → List ℕ → Prop
  | 0, page, lo, hi, inner, leaves => inner = ∅ ∧ leaves = [page] ∧ LeafAt store page lo hi
  | level + 1, page, lo, hi, inner, leaves => ∃ first items below, store page = some (.internal (ofRow first items)) ∧
      page ∉ below ∧ inner = insert page below ∧ Row (Spans store level) first items lo hi below leaves

variable {P Q : ℕ → Option Key → Option Key → Set ℕ → List ℕ → Prop} {store store' : PageStore} {level page first : ℕ}
  {items : Items} {lo hi : Option Key} {inner : Set ℕ} {leaves : List ℕ} {key : Key}

/-! ## Ranges -/

variable {k sep : Key} {next prev q : ℕ}

theorem Between.within (h : Between lo hi k) : Within lo hi k := ⟨fun l hl => (h.1 l hl).le, h.2⟩

theorem Between.left (h : Between lo hi sep) (hk : Between lo (some sep) k) : Between lo hi k :=
  ⟨hk.1, fun h' hh => (hk.2 sep rfl).trans (h.2 h' hh)⟩

theorem Between.right (h : Between lo hi sep) (hk : Between (some sep) hi k) : Between lo hi k :=
  ⟨fun l hl => (h.1 l hl).trans (hk.1 sep rfl), hk.2⟩

theorem within_below (h : Within lo hi key) (hlt : key < sep) : Within lo (some sep) key :=
  ⟨h.1, fun s hs => by cases hs; exact hlt⟩

theorem within_above (h : Within lo hi key) (hle : sep ≤ key) : Within (some sep) hi key :=
  ⟨fun s hs => by cases hs; exact hle, h.2⟩

/-! ## Rows put together and taken apart -/

theorem Row.append {child : ℕ} {rest : Items} {inner₁ inner₂ : Set ℕ} {leaves₁ leaves₂ : List ℕ}
    (h : Row P first items lo (some sep) inner₁ leaves₁) (hsep : Between lo hi sep) (hdisj : Disjoint inner₁ inner₂)
    (hrest : Row P child rest (some sep) hi inner₂ leaves₂) :
    Row P first (items ++ (sep, child) :: rest) lo hi (inner₁ ∪ inner₂) (leaves₁ ++ leaves₂) := by
  induction items generalizing first lo inner₁ leaves₁ with
  | nil => exact ⟨hsep, inner₁, inner₂, leaves₁, leaves₂, rfl, hdisj, rfl, h, hrest⟩
  | cons e items ih =>
    obtain ⟨he, i₁, i₂, l₁, l₂, rfl, hd, rfl, hfirst, htail⟩ := h
    have hdisj' := disjoint_union_left.1 hdisj
    have hsep' : Between (some e.1) hi sep := ⟨fun l hl => by cases hl; exact he.2 sep rfl, hsep.2⟩
    refine ⟨hsep.left he, i₁, i₂ ∪ inner₂, l₁, l₂ ++ leaves₂, union_assoc _ _ _, ?_, append_assoc _ _ _, hfirst,
      ih htail hsep' hdisj'.2⟩
    exact disjoint_union_right.2 ⟨hd, hdisj'.1⟩

theorem Row.split {child : ℕ} {rest : Items} (h : Row P first (items ++ (sep, child) :: rest) lo hi inner leaves) :
    Between lo hi sep ∧ ∃ inner₁ inner₂ leaves₁ leaves₂, inner = inner₁ ∪ inner₂ ∧ Disjoint inner₁ inner₂ ∧
      leaves = leaves₁ ++ leaves₂ ∧ Row P first items lo (some sep) inner₁ leaves₁ ∧
        Row P child rest (some sep) hi inner₂ leaves₂ := by
  induction items generalizing first lo inner leaves with
  | nil => exact h
  | cons e items ih =>
    obtain ⟨he, i₁, i₂, l₁, l₂, rfl, hdisj, rfl, hfirst, htail⟩ := h
    obtain ⟨hsep, j₁, j₂, m₁, m₂, rfl, hd, rfl, hleft, hright⟩ := ih htail
    obtain ⟨hd₁, hd₂⟩ := disjoint_union_right.1 hdisj
    refine ⟨he.right hsep, i₁ ∪ j₁, j₂, l₁ ++ m₁, m₂, (union_assoc _ _ _).symm, disjoint_union_left.2 ⟨hd₂, hd⟩,
      (append_assoc _ _ _).symm, ⟨⟨he.1, ?_⟩, i₁, j₁, l₁, m₁, rfl, hd₁, rfl, hfirst, hleft⟩, hright⟩
    intro s hs
    cases hs
    exact hsep.1 e.1 rfl

section

variable (h : Row P first items lo hi inner leaves)

include h

theorem Row.imp (hPQ : ∀ c lo hi i l, P c lo hi i l → i ⊆ inner → l ⊆ leaves → Q c lo hi i l) :
    Row Q first items lo hi inner leaves := by
  induction items generalizing first lo inner leaves with
  | nil => exact hPQ _ _ _ _ _ h subset_rfl (List.Subset.refl _)
  | cons e items ih =>
    obtain ⟨hsep, i₁, i₂, l₁, l₂, rfl, hdisj, rfl, hfirst, hrest⟩ := h
    refine ⟨hsep, i₁, i₂, l₁, l₂, rfl, hdisj, rfl, ?_, ih hrest fun c lo hi i l hP hi' hl => ?_⟩
    · exact hPQ _ _ _ _ _ hfirst subset_union_left (subset_append_left _ _)
    · exact hPQ c lo hi i l hP (Set.Subset.trans hi' subset_union_right) fun q hq => mem_append_right _ (hl hq)

theorem Row.between : ∀ e ∈ items, Between lo hi e.1 := by
  induction items generalizing first lo inner leaves with
  | nil => simp
  | cons e items ih =>
    obtain ⟨hsep, i₁, i₂, l₁, l₂, -, -, -, -, hrest⟩ := h
    exact forall_mem_cons.2 ⟨hsep, fun e' he' => hsep.right (ih hrest e' he')⟩

/-- separators ascend -/
theorem Row.sorted : items.Pairwise fun a b => a.1 < b.1 := by
  induction items generalizing first lo inner leaves with
  | nil => exact List.Pairwise.nil
  | cons e items ih =>
    obtain ⟨hsep, i₁, i₂, l₁, l₂, -, -, -, -, hrest⟩ := h
    exact pairwise_cons.2 ⟨fun e' he' => (hrest.between e' he').1 e.1 rfl, ih hrest⟩

/-- **One child of a row.** The child for a key, the range it is responsible for, and what replaces it: any row on the
same range whose pages are not those of the other children. -/
theorem Row.focus (hkey : Within lo hi key) :
    ∃ left right lo' hi' innerC rest leavesL leavesC leavesR, items = left ++ right ∧ (∀ e ∈ left, e.1 ≤ key) ∧
      (∀ e ∈ right, key < e.1) ∧ Within lo' hi' key ∧ inner = innerC ∪ rest ∧ Disjoint innerC rest ∧
      leaves = leavesL ++ leavesC ++ leavesR ∧ P (childFor first items key) lo' hi' innerC leavesC ∧
      ∀ (Q : ℕ → Option Key → Option Key → Set ℕ → List ℕ → Prop) (new : Items) (innerN : Set ℕ) (leavesN : List ℕ),
        (∀ c lo hi i l, P c lo hi i l → i ⊆ rest → l ⊆ leavesL ++ leavesR → Q c lo hi i l) → Disjoint innerN rest →
        Row Q (childFor first items key) new lo' hi' innerN leavesN →
        Row Q first (left ++ new ++ right) lo hi (innerN ∪ rest) (leavesL ++ leavesN ++ leavesR) := by
  have hsorted := h.sorted
  induction items generalizing first lo inner leaves with
  | nil =>
    refine ⟨[], [], lo, hi, inner, ∅, [], leaves, [], rfl, by simp, by simp, hkey, by simp, by simp, by simp, h, ?_⟩
    intro Q new innerN leavesN _ _ hnew
    simpa [childFor] using hnew
  | cons e items ih =>
    obtain ⟨sep, child⟩ := e
    obtain ⟨hsep, i₁, i₂, l₁, l₂, rfl, hdisj, rfl, hfirst, hrest⟩ := h
    rw [pairwise_cons] at hsorted
    by_cases hlt : key < sep
    · -- the first child
      refine ⟨[], (sep, child) :: items, lo, some sep, i₁, i₂, [], l₁, l₂, rfl, by simp, ?_, within_below hkey hlt, rfl,
        hdisj, rfl, ?_, ?_⟩
      · exact forall_mem_cons.2 ⟨hlt, fun e he => hlt.trans (hsorted.1 e he)⟩
      · rw [childFor, if_pos hlt]
        exact hfirst
      · intro Q new innerN leavesN hPQ hN hnew
        rw [childFor, if_pos hlt] at hnew
        exact hnew.append hsep hN (hrest.imp fun c lo hi i l hP hi' hl => hPQ c lo hi i l hP hi' hl)
    · -- further right
      have hle : sep ≤ key := not_lt.1 hlt
      obtain ⟨left, right, lo', hi', iC, rest, lL, lC, lR, rfl, hleft, hright, hwithin, rfl, hd, rfl, hP, hplug⟩ :=
        ih hrest (within_above hkey hle) hsorted.2
      obtain ⟨hd₁, hd₂⟩ := disjoint_union_right.1 hdisj
      refine ⟨(sep, child) :: left, right, lo', hi', iC, i₁ ∪ rest, l₁ ++ lL, lC, lR, rfl,
        forall_mem_cons.2 ⟨hle, hleft⟩, hright,
        hwithin, union_left_comm _ _ _, disjoint_union_right.2 ⟨hd₁.symm, hd⟩, by simp, ?_, ?_⟩
      · rw [childFor, if_neg hlt]
        exact hP
      · intro Q new innerN leavesN hPQ hN hnew
        rw [childFor, if_neg hlt] at hnew
        obtain ⟨hN₁, hN₂⟩ := disjoint_union_right.1 hN
        have hplugged := hplug Q new innerN leavesN (fun c lo hi i l hP hi' hl => hPQ c lo hi i l hP
          (Set.Subset.trans hi' subset_union_right) fun q hq => by have := hl hq; simp at this ⊢; tauto) hN₂ hnew
        refine ⟨hsep, i₁, innerN ∪ rest, l₁, lL ++ leavesN ++ lR, union_left_comm _ _ _, ?_, by simp, ?_,
          by simpa using hplugged⟩
        · exact disjoint_union_right.2 ⟨hN₁.symm, hd₂⟩
        · exact hPQ _ _ _ _ _ hfirst subset_union_left fun q hq => by simp [hq]

end

/-! ## Frames -/

/-- the leaf has the same cells and chains; its links may differ -/
def SameLeaf (store store' : PageStore) (q : ℕ) : Prop :=
  ∀ n, store q = some (.leaf n) → ∃ n', store' q = some (.leaf n') ∧ n'.cells = n.cells ∧ n'.deltas = n.deltas

/-- the leaf holds no new keys -/
def Shrinks (store store' : PageStore) (q : ℕ) : Prop :=
  ∀ n, store q = some (.leaf n) → ∃ n', store' q = some (.leaf n') ∧ ∀ k, n'.holds k → n.holds k

theorem SameLeaf.shrinks (h : SameLeaf store store' q) : Shrinks store store' q := by
  intro n hn
  obtain ⟨n', hn', hcells, hdeltas⟩ := h n hn
  exact ⟨n', hn', fun k hk => by rwa [LeafNode.holds, hcells, hdeltas] at hk⟩

theorem LeafAt.frame (h : LeafAt store page lo hi) (hsame : Shrinks store store' page) : LeafAt store' page lo hi := by
  obtain ⟨hne, n, hn, hwithin⟩ := h
  obtain ⟨n', hn', hholds⟩ := hsame n hn
  exact ⟨hne, n', hn', fun k hk => hwithin k (hholds k hk)⟩

/-- **Frame.** A tree stays when its internal pages stay and its leaves get no new keys. -/
theorem Spans.shrink (h : Spans store level page lo hi inner leaves) (hinner : ∀ p ∈ inner, store' p = store p)
    (hleaf : ∀ q ∈ leaves, Shrinks store store' q) : Spans store' level page lo hi inner leaves := by
  induction level generalizing page lo hi inner leaves with
  | zero =>
    obtain ⟨rfl, rfl, hat⟩ := h
    exact ⟨rfl, rfl, hat.frame (hleaf page (mem_singleton.2 rfl))⟩
  | succ level ih =>
    obtain ⟨first, items, below, hpage, hnot, rfl, hrow⟩ := h
    refine ⟨first, items, below, ?_, hnot, rfl, hrow.imp fun c lo hi i l hP hi' hl =>
      ih hP (fun p hp => ?_) fun q hq => ?_⟩
    · rw [hinner page (mem_insert _ _), hpage]
    · exact hinner p (mem_insert_of_mem _ (hi' hp))
    · exact hleaf q (hl hq)

theorem Spans.frame (h : Spans store level page lo hi inner leaves) (hinner : ∀ p ∈ inner, store' p = store p)
    (hleaf : ∀ q ∈ leaves, SameLeaf store store' q) : Spans store' level page lo hi inner leaves :=
  h.shrink hinner fun q hq => (hleaf q hq).shrinks

theorem Row.frame (h : Row (Spans store level) first items lo hi inner leaves)
    (hinner : ∀ p ∈ inner, store' p = store p)
    (hleaf : ∀ q ∈ leaves, SameLeaf store store' q) : Row (Spans store' level) first items lo hi inner leaves :=
  h.imp fun _ _ _ _ _ hP hi' hl => hP.frame (fun p hp => hinner p (hi' hp)) fun q hq => hleaf q (hl hq)

theorem sameLeaf_of_eq (h : store' q = store q) : SameLeaf store store' q := fun n hn => ⟨n, h ▸ hn, rfl, rfl⟩

theorem SameLeaf.trans {store'' : PageStore} (h : SameLeaf store store' q) (h' : SameLeaf store' store'' q) :
    SameLeaf store store'' q := by
  intro n hn
  obtain ⟨n', hn', hc, hd⟩ := h n hn
  obtain ⟨n'', hn'', hc', hd'⟩ := h' n' hn'
  exact ⟨n'', hn'', hc'.trans hc, hd'.trans hd⟩

/-- what holds of all pages of each child holds of all pages of the row -/
theorem Row.forall_inner {R : ℕ → Prop} (h : Row P first items lo hi inner leaves)
    (hP : ∀ c lo hi i l, P c lo hi i l → ∀ p ∈ i, R p) : ∀ p ∈ inner, R p := by
  induction items generalizing first lo inner leaves with
  | nil => exact hP _ _ _ _ _ h
  | cons e items ih =>
    obtain ⟨-, i₁, i₂, l₁, l₂, rfl, -, -, hfirst, hrest⟩ := h
    rintro p (hp | hp)
    · exact hP _ _ _ _ _ hfirst p hp
    · exact ih hrest p hp

theorem Row.forall_leaves {R : ℕ → Prop} (h : Row P first items lo hi inner leaves)
    (hP : ∀ c lo hi i l, P c lo hi i l → ∀ q ∈ l, R q) : ∀ q ∈ leaves, R q := by
  induction items generalizing first lo inner leaves with
  | nil => exact hP _ _ _ _ _ h
  | cons e items ih =>
    obtain ⟨-, i₁, i₂, l₁, l₂, -, -, rfl, hfirst, hrest⟩ := h
    exact forall_mem_append.2 ⟨hP _ _ _ _ _ hfirst, ih hrest⟩

/-- internal pages are what they are, and so are leaves -/
theorem Spans.internal (h : Spans store level page lo hi inner leaves) :
    ∀ p ∈ inner, ∃ node, store p = some (.internal node) := by
  induction level generalizing page lo hi inner leaves with
  | zero =>
    obtain ⟨rfl, -⟩ := h
    simp
  | succ level ih =>
    obtain ⟨first, items, below, hpage, -, rfl, hrow⟩ := h
    intro p hp
    rcases mem_insert_iff.1 hp with rfl | hp
    · exact ⟨_, hpage⟩
    · exact hrow.forall_inner (fun _ _ _ _ _ hP => ih hP) p hp

theorem Spans.leaf (h : Spans store level page lo hi inner leaves) :
    ∀ q ∈ leaves, q ≠ 0 ∧ ∃ n, store q = some (.leaf n) := by
  induction level generalizing page lo hi inner leaves with
  | zero =>
    obtain ⟨-, rfl, hne, n, hn, -⟩ := h
    intro q hq
    obtain rfl := mem_singleton.1 hq
    exact ⟨hne, n, hn⟩
  | succ level ih =>
    obtain ⟨first, items, below, -, -, -, hrow⟩ := h
    exact hrow.forall_leaves fun _ _ _ _ _ hP => ih hP

section

variable (h : Row (Spans store level) first items lo hi inner leaves)

include h

theorem Row.internal : ∀ p ∈ inner, ∃ node, store p = some (.internal node) :=
  h.forall_inner fun _ _ _ _ _ hP => hP.internal

theorem Row.leaf : ∀ q ∈ leaves, q ≠ 0 ∧ ∃ n, store q = some (.leaf n) :=
  h.forall_leaves fun _ _ _ _ _ hP => hP.leaf

theorem Row.used : (∀ p ∈ inner, store p ≠ none) ∧ ∀ q ∈ leaves, store q ≠ none := by
  refine ⟨fun p hp => ?_, fun q hq => ?_⟩
  · obtain ⟨node, hnode⟩ := h.internal p hp
    simp [hnode]
  · obtain ⟨-, n, hn⟩ := h.leaf q hq
    simp [hn]

end

/-! ## Without the pages -/

theorem children_of_row {R : ℕ → Option Key → Option Key → List ℕ → Prop} (h : Row P first items lo hi inner leaves)
    (hPR : ∀ c lo hi i l, P c lo hi i l → R c lo hi l) :
    Children R (ofRow first items).entries (ofRow first items).rightmostChild lo hi leaves := by
  induction items generalizing first lo inner leaves with
  | nil => exact hPR _ _ _ _ _ h
  | cons e items ih =>
    obtain ⟨hsep, i₁, i₂, l₁, l₂, -, -, rfl, hfirst, hrest⟩ := h
    exact ⟨hsep.within, l₁, l₂, rfl, hPR _ _ _ _ _ hfirst, ih hrest⟩

theorem Spans.subtree (h : Spans store level page lo hi inner leaves) : Subtree store level page lo hi leaves := by
  induction level generalizing page lo hi inner leaves with
  | zero => exact ⟨h.2.1, h.2.2⟩
  | succ level ih =>
    obtain ⟨first, items, below, hpage, -, -, hrow⟩ := h
    exact ⟨_, hpage, children_of_row hrow fun _ _ _ _ _ hP => ih hP⟩

/-! ## Nodes side by side -/

/-- the rows of the page and of the pages of `out` are consecutive parts of a row -/
def Tier (store : PageStore) : ℕ → Items → ℕ → Items → Prop
  | page, [], first, items => store page = some (.internal (ofRow first items))
  | page, (sep, right) :: out, first, items => ∃ items₁ child items₂, items = items₁ ++ (sep, child) :: items₂ ∧
      store page = some (.internal (ofRow first items₁)) ∧ Tier store right out child items₂

/-- **One level up.** -/
theorem Row.ofTier {out : Items} (h : Row (Spans store level) first items lo hi inner leaves)
    (htier : Tier store page out first items)
    (hnodup : (page :: out.map Prod.snd).Nodup) (hnot : ∀ p ∈ page :: out.map Prod.snd, p ∉ inner) :
    Row (Spans store (level + 1)) page out lo hi ({p | p ∈ page :: out.map Prod.snd} ∪ inner) leaves := by
  induction out generalizing page first items lo inner leaves with
  | nil =>
    refine ⟨first, items, inner, htier, hnot page mem_cons_self, ?_, h⟩
    ext p
    simp
  | cons e out ih =>
    obtain ⟨sep, right⟩ := e
    obtain ⟨items₁, child, items₂, rfl, hpage, htier⟩ := htier
    obtain ⟨hsep, i₁, i₂, l₁, l₂, rfl, hdisj, rfl, hleft, hright⟩ := h.split
    obtain ⟨hpnot, hnodup⟩ := nodup_cons.1 hnodup
    have hnot₁ : ∀ p ∈ page :: right :: out.map Prod.snd, p ∉ i₁ := fun p hp hi => hnot p hp (.inl hi)
    have hnot₂ : ∀ p ∈ page :: right :: out.map Prod.snd, p ∉ i₂ := fun p hp hi => hnot p hp (.inr hi)
    refine ⟨hsep, insert page i₁, {p | p ∈ right :: out.map Prod.snd} ∪ i₂, l₁, l₂, ?_, ?_, rfl,
      ⟨first, items₁, i₁, hpage, hnot₁ page mem_cons_self, rfl, hleft⟩,
      ih hright htier hnodup fun p hp => hnot₂ p (mem_cons_of_mem _ hp)⟩
    · ext p
      simp only [map_cons, mem_cons, mem_union, mem_ofPred_eq, mem_insert_iff]
      tauto
    · rw [Set.disjoint_left]
      rintro p (rfl | hp) (hq | hq)
      · exact hpnot hq
      · exact hnot₂ p mem_cons_self hq
      · exact hnot₁ p (mem_cons_of_mem _ hq) hp
      · exact disjoint_left.1 hdisj hp hq

/-! ## Sibling links -/

/-- the links run through the leaves, from prev to next -/
def Linked (store : PageStore) : ℕ → List ℕ → ℕ → Prop
  | _, [], _ => True
  | prev, page :: rest, next =>
    (∃ n, store page = some (.leaf n) ∧ n.prevLeafPage = prev ∧ n.nextLeafPage = rest.headD next) ∧
      Linked store page rest next

theorem siblings_iff_linked : Siblings store prev leaves ↔ Linked store prev leaves 0 := by
  induction leaves generalizing prev with
  | nil => exact Iff.rfl
  | cons page rest ih => exact and_congr_right fun _ => ih

theorem linked_append {l m : List ℕ} :
    Linked store prev (l ++ m) next ↔ Linked store prev l (m.headD next) ∧ Linked store (l.getLastD prev) m next := by
  induction l generalizing prev with
  | nil => simp [Linked]
  | cons page l ih =>
    rw [cons_append, Linked, Linked, ih, and_assoc]
    cases l <;> rfl

theorem Linked.frame (h : Linked store prev leaves next) (hsame : ∀ q ∈ leaves, store' q = store q) :
    Linked store' prev leaves next := by
  induction leaves generalizing prev with
  | nil => trivial
  | cons page rest ih =>
    rw [forall_mem_cons] at hsame
    obtain ⟨⟨n, hn, hprev, hnext⟩, hrest⟩ := h
    exact ⟨⟨n, hsame.1 ▸ hn, hprev, hnext⟩, ih hrest hsame.2⟩

theorem Linked.leaf (h : Linked store prev leaves next) : ∀ q ∈ leaves, ∃ n, store q = some (.leaf n) := by
  induction leaves generalizing prev with
  | nil => simp
  | cons page rest ih =>
    obtain ⟨⟨n, hn, -, -⟩, hrest⟩ := h
    exact forall_mem_cons.2 ⟨⟨n, hn⟩, ih hrest⟩

/-- the links lead from a leaf on one way only -/
theorem linked_unique {prev' : ℕ} {l m : List ℕ} (hl : Linked store prev l 0) (hm : Linked store prev' m 0)
    (hl0 : ∀ p ∈ l, p ≠ 0) (hm0 : ∀ p ∈ m, p ≠ 0) (hhead : l.headD 0 = m.headD 0) : l = m := by
  induction l generalizing m prev prev' with
  | nil =>
    cases m with
    | nil => rfl
    | cons p m => exact absurd hhead.symm (hm0 p mem_cons_self)
  | cons p l ih =>
    cases m with
    | nil => exact absurd hhead (hl0 p mem_cons_self)
    | cons p' m =>
      obtain rfl : p = p' := hhead
      obtain ⟨⟨n, hn, -, hnext⟩, hl⟩ := hl
      obtain ⟨⟨n', hn', -, hnext'⟩, hm⟩ := hm
      rw [hn] at hn'
      cases hn'
      rw [forall_mem_cons] at hl0 hm0
      rw [ih hl hm hl0.2 hm0.2 (hnext ▸ hnext')]

/-- no leaf is linked twice -/
theorem Linked.nodup (h : Linked store prev leaves 0) (h0 : ∀ p ∈ leaves, p ≠ 0) : leaves.Nodup := by
  induction leaves generalizing prev with
  | nil => exact nodup_nil
  | cons p rest ih =>
    rw [forall_mem_cons] at h0
    refine nodup_cons.2 ⟨fun hp => ?_, ih h.2 h0.2⟩
    obtain ⟨l, m, rfl⟩ := append_of_mem hp
    -- from the second occurrence on the links lead the same way as from the first, which is longer
    have hsecond := (linked_append.1 h.2).2
    have heq := linked_unique h hsecond (forall_mem_cons.2 h0) (fun q hq => h0.2 q (mem_append_right _ hq)) rfl
    have hlen := congrArg List.length heq
    simp at hlen
    omega

/-! ## Contents -/

/-- the cells of leaves, in order -/
def contents (store : PageStore) (leaves : List ℕ) : List LeafCell :=
  leaves.flatMap fun q =>
    match store q with
    | some (.leaf n) => n.cells.entries
    | _ => []

@[simp] theorem contents_nil (store : PageStore) : contents store [] = [] := rfl

theorem contents_cons {n : LeafNode} (hn : store q = some (.leaf n)) :
    contents store (q :: leaves) = n.cells.entries ++ contents store leaves := by
  rw [contents, flatMap_cons, hn]
  rfl

theorem contents_congr (h : ∀ q ∈ leaves, store' q = store q) : contents store' leaves = contents store leaves := by
  induction leaves with
  | nil => rfl
  | cons q leaves ih =>
    rw [forall_mem_cons] at h
    rw [contents, flatMap_cons, ← contents, ih h.2, h.1]
    rfl

theorem contents_append (store : PageStore) (l m : List ℕ) :
    contents store (l ++ m) = contents store l ++ contents store m :=
  flatMap_append

theorem contents_frame (h : ∀ q ∈ leaves, ∃ n, store q = some (.leaf n))
    (hsame : ∀ q ∈ leaves, SameLeaf store store' q) :
    contents store' leaves = contents store leaves := by
  induction leaves with
  | nil => rfl
  | cons q leaves ih =>
    rw [forall_mem_cons] at h hsame
    obtain ⟨n, hn⟩ := h.1
    obtain ⟨n', hn', hcells, -⟩ := hsame.1 n hn
    rw [contents_cons hn, contents_cons hn', ih h.2 hsame.2, hcells]

theorem mem_contents {c : LeafCell} :
    c ∈ contents store leaves ↔ ∃ q ∈ leaves, ∃ n, store q = some (.leaf n) ∧ n.cells.get? c.1 = some c.2 := by
  rw [contents, mem_flatMap]
  refine exists_congr fun q => and_congr_right fun _ => ?_
  cases hq : store q with
  | none => simp
  | some x =>
    cases x with
    | leaf n => simp [get?_eq_some_iff]
    | blank | internal node | overflow data next => simp

/-! ## Chains -/

/-- one of the leaves has this chain for the key -/
def ChainIn (store : PageStore) (leaves : List ℕ) (k : Key) (c : Chain) : Prop :=
  ∃ q ∈ leaves, ∃ n, store q = some (.leaf n) ∧ n.deltas.get? k = some c

/-- these leaves have the chains that those leaves had -/
def SameChains (store : PageStore) (leaves : List ℕ) (store' : PageStore) (leaves' : List ℕ) : Prop :=
  ∀ k c, ChainIn store' leaves' k c ↔ ChainIn store leaves k c

section Chains

variable {k : Key} {c : Chain} {l l' m m' : List ℕ}

theorem chainIn_cons {q : ℕ} {n : LeafNode} (hn : store q = some (.leaf n)) :
    ChainIn store (q :: leaves) k c ↔ n.deltas.get? k = some c ∨ ChainIn store leaves k c := by
  unfold ChainIn
  simp only [mem_cons, exists_eq_or_imp, hn, Option.some.injEq, Page.leaf.injEq, exists_eq_left']

theorem chainIn_append : ChainIn store (l ++ m) k c ↔ ChainIn store l k c ∨ ChainIn store m k c := by
  unfold ChainIn
  simp only [mem_append, or_and_right, exists_or]

theorem not_chainIn_nil : ¬ ChainIn store [] k c := by
  rintro ⟨q, hq, -⟩
  cases hq

theorem SameChains.trans {store'' : PageStore} (h : SameChains store l store' m) (h' : SameChains store' m store'' m') :
    SameChains store l store'' m' := fun k c => (h' k c).trans (h k c)

theorem SameChains.append (h : SameChains store l store' l') (h' : SameChains store m store' m') :
    SameChains store (l ++ m) store' (l' ++ m') := fun k c => by
  rw [chainIn_append, chainIn_append, h k c, h' k c]

theorem sameChains_congr (h : ∀ q ∈ leaves, store' q = store q) : SameChains store leaves store' leaves := fun k c => by
  refine exists_congr fun q => and_congr_right fun hq => ?_
  rw [h q hq]

theorem sameChains_frame (h : ∀ q ∈ leaves, ∃ n, store q = some (.leaf n))
    (hsame : ∀ q ∈ leaves, SameLeaf store store' q) :
    SameChains store leaves store' leaves := fun k c => by
  refine exists_congr fun q => and_congr_right fun hq => ?_
  obtain ⟨n, hn⟩ := h q hq
  obtain ⟨n', hn', -, hdeltas⟩ := hsame q hq n hn
  simp only [hn, hn', Option.some.injEq, Page.leaf.injEq, exists_eq_left', hdeltas]

end Chains

/-- cells ascend through the leaves -/
theorem Spans.contents_sorted (h : Spans store level page lo hi inner leaves) :
    (contents store leaves).Pairwise fun a b => a.1 < b.1 := by
  refine pairwise_flatMap.2 ⟨fun q hq => ?_, h.subtree.ascends.imp fun {p q} hpq c hc d hd => ?_⟩
  · obtain ⟨-, n, hn⟩ := h.leaf q hq
    rw [hn]
    exact n.cells.sorted
  · have hold : ∀ p (c : LeafCell), (c ∈ match store p with | some (.leaf n) => n.cells.entries | _ => []) →
        Holds store p c.1 := by
      intro p c hc
      obtain ⟨q, hq, n, hn, hget⟩ := mem_contents.1 (show c ∈ contents store [p] by simpa [contents] using hc)
      obtain rfl := mem_singleton.1 hq
      exact ⟨n, hn, .inl (by simp [hget])⟩
    exact hpq c.1 d.1 (hold p c hc) (hold q d hd)

/-- one key gets another cell, or none -/
def CellsChange (cells cells' : List LeafCell) (key : Key) (x : Option VersionData) : Prop :=
  ∀ c, c ∈ cells' ↔ if c.1 = key then x = some c.2 else c ∈ cells

/-- a tree with linked leaves -/
structure Built (store : PageStore) (height root : ℕ) (inner : Set ℕ) (leaves : List ℕ) : Prop where
  spans : Spans store height root none none inner leaves
  linked : Linked store 0 leaves 0

/-- the leaves that a tree of this height has, from left to right -/
def leavesBelow (store : PageStore) : ℕ → ℕ → List ℕ
  | 0, page => [page]
  | level + 1, page =>
    match store page with
    | some (.internal node) => (node.entries.map Prod.snd ++ [node.rightmostChild]).flatMap (leavesBelow store level)
    | _ => []

theorem children_ofRow (first : ℕ) (items : Items) :
    (ofRow first items).entries.map Prod.snd ++ [(ofRow first items).rightmostChild] = first :: items.map Prod.snd := by
  induction items generalizing first with
  | nil => rfl
  | cons e items ih => exact congrArg (first :: ·) (ih e.2)

theorem Row.flatMap_eq {f : ℕ → List ℕ} (h : Row P first items lo hi inner leaves)
    (hP : ∀ c lo hi i l, P c lo hi i l → f c = l) : (first :: items.map Prod.snd).flatMap f = leaves := by
  induction items generalizing first lo inner leaves with
  | nil =>
    rw [map_nil, flatMap_singleton]
    exact hP _ _ _ _ _ h
  | cons e items ih =>
    obtain ⟨-, i₁, i₂, l₁, l₂, -, -, rfl, hfirst, hrest⟩ := h
    rw [flatMap_cons, hP _ _ _ _ _ hfirst, map_cons, ih hrest]

theorem Spans.leavesBelow_eq (h : Spans store level page lo hi inner leaves) :
    leavesBelow store level page = leaves := by
  induction level generalizing page lo hi inner leaves with
  | zero =>
    obtain ⟨-, rfl, -⟩ := h
    rfl
  | succ level ih =>
    obtain ⟨first, items, below, hpage, -, -, hrow⟩ := h
    simp only [leavesBelow, hpage, children_ofRow]
    exact hrow.flatMap_eq fun c lo hi i l hP => ih hP

theorem Built.nodup {height root : ℕ} (h : Built store height root inner leaves) : leaves.Nodup :=
  h.linked.nodup fun p hp => (h.spans.leaf p hp).1

/-- the leaf's cells change, and the key is in no other leaf -/
theorem CellsChange.append {l mid mid' r : List LeafCell} {x : Option VersionData} (h : CellsChange mid mid' key x)
    (hl : ∀ c ∈ l, c.1 ≠ key) (hr : ∀ c ∈ r, c.1 ≠ key) : CellsChange (l ++ mid ++ r) (l ++ mid' ++ r) key x := by
  intro c
  have hc := h c
  rw [mem_append, mem_append, mem_append, mem_append]
  split_ifs at hc ⊢ <;> tauto

/-- a key occurs once in ascending cells -/
theorem ne_of_sorted {l mid r : List LeafCell} (hsorted : (l ++ mid ++ r).Pairwise fun a b => a.1 < b.1)
    {value : VersionData} (hin : (key, value) ∈ mid) : (∀ c ∈ l, c.1 ≠ key) ∧ ∀ c ∈ r, c.1 ≠ key := by
  rw [pairwise_append, pairwise_append] at hsorted
  obtain ⟨⟨-, -, hl⟩, -, hr⟩ := hsorted
  exact ⟨fun c hc => (hl c hc _ hin).ne, fun c hc => (hr _ (mem_append_right _ hin) c hc).ne'⟩

theorem cellsChange_insert (m : OrdMap Key VersionData) (key : Key) (value : VersionData) :
    CellsChange m.entries (m.insert key value).entries key (some value) := by
  intro c
  rw [← Prod.mk.eta (p := c), ← get?_eq_some_iff, ← get?_eq_some_iff, get?_insert]
  split_ifs <;> rfl

theorem cellsChange_erase (m : OrdMap Key VersionData) (key : Key) :
    CellsChange m.entries (m.erase key).entries key none := by
  intro c
  rw [← get?_eq_some_iff, ← get?_eq_some_iff, get?_erase]
  split_ifs <;> simp

/-- the cells around one leaf -/
theorem contents_middle {n : LeafNode} (hn : store q = some (.leaf n)) (left right : List ℕ) :
    contents store (left ++ q :: right) = contents store left ++ n.cells.entries ++ contents store right := by
  rw [contents_append, contents_cons hn, append_assoc]

end Mqlite.Btree
