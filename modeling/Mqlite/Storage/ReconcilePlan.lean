/-
Checkpoint planning of dirty leaves (`storage/reconcile/driver.rs`, with the split test of
`storage/reconcile/synth.rs`).

Before anything is changed, every dirty leaf is classified: its folded image fits and needs nothing but the fold
(MutationReady), it has versions to spill or to keep (SpillRequired), or it has nothing for this checkpoint
(ExcludedFutureDirty). A leaf whose folded cells do not fit one page may still be ready, because materialization can
split it: the planner then asks whether each winner fits a page of its own. That test also wants every chain to be one
committed version, and at least two winners that are not tombstones.

Result: `plan_ready_iff`. When all versions are old and no reader is left, planning a leaf succeeds if and only if the
folded cells fit the page or the chains pass that test; otherwise the checkpoint is refused, and no closing of readers
helps (`grown_value_blocks`).
-/
import Mqlite.Btree.Node

namespace Mqlite.Storage

open Lib Mvcc List OrdMap

open Btree (OVERFLOW_THRESHOLD)

/-! ## The planner -/

inductive PoolExhaustedReason where
  | allFramesPinned
  | deltaBearingFrames
deriving DecidableEq, Repr

/-- the blockers that planning a leaf reports -/
inductive CheckpointIncompleteReason where
  | visibleWinnerExceedsPageBudget
  | tombstonePredecessorPressure
  | poolExhausted (reason : PoolExhaustedReason)
deriving DecidableEq, Repr

inductive PlanError where
  | checkpointIncomplete (firstBlockingPage : ℕ) (reason : CheckpointIncompleteReason)
  | other
deriving DecidableEq, Repr

inductive LeafPlanOutcome where
  | mutationReady
  | spillRequired
  | excludedFutureDirty
deriving DecidableEq, Repr

/-- what the pool returns for a dirty page: the base image and the chains of its frame -/
structure LeafSnapshot where
  baseImage : FoldedLeafImage
  chains : OrdMap Key Chain
deriving DecidableEq

inductive SnapshotError where
  | poolExhausted (reason : PoolExhaustedReason)
  | other
deriving DecidableEq, Repr

/-- the cell a winner would take on a page of its own; a large value would go to an overflow chain -/
def splitCellFromEntry (e : VersionEntry) : Except NotInstallable VersionData :=
  match e.data with
  | .inline bytes =>
    if bytes.length > OVERFLOW_THRESHOLD then
      if bytes.length < 2 ^ 32 then .ok (.overflow 0 bytes.length) else .error .foldedLeafExceedsPageByteBudget
    else foldedCellFromEntry e
  | .overflow _ _ => foldedCellFromEntry e

def visibleWinnersLoop (checkpointTs : Ts) : List (Key × Chain) → ℕ → Except NotInstallable Bool
  | [], visibleWinners => .ok (visibleWinners > 1)
  | (key, c) :: l, visibleWinners =>
    match checkpointWinner c checkpointTs with
    | none => .ok false
    | some entry =>
      if c.length ≠ 1 then .ok false
      else if entry.isTombstone then visibleWinnersLoop checkpointTs l visibleWinners
      else match splitCellFromEntry entry with
        | .error err => .error err
        | .ok cell =>
          if predictEncodedLeafSize (OrdMap.empty.insert key cell) OrdMap.empty > LEAF_PAGE_BUDGET then .ok false
          else visibleWinnersLoop checkpointTs l (visibleWinners + 1)

def visibleWinnersFitIndividualLeafPages (chains : OrdMap Key Chain) (checkpointTs : Ts) : Except NotInstallable Bool :=
  visibleWinnersLoop checkpointTs chains.entries 0

def synthToBlocker : NotInstallable → CheckpointIncompleteReason
  | .visibleWinnerExceedsPageBudget => .visibleWinnerExceedsPageBudget
  | .foldedLeafExceedsPageByteBudget => .tombstonePredecessorPressure

def planLeaf (snapshot : Except SnapshotError (Option LeafSnapshot)) (ident : TreeIdent) (pageId : ℕ)
    (checkpointTs oldestRequiredTs : Ts) : Except PlanError LeafPlanOutcome :=
  match snapshot with
  | .error (.poolExhausted reason) => .error (.checkpointIncomplete pageId (.poolExhausted reason))
  | .error .other => .error .other
  -- the page has left the pool, so it has no chains
  | .ok none => .ok .excludedFutureDirty
  | .ok (some snapshot) =>
    if ¬(snapshot.chains.entries.any fun p => p.2.any (foldable checkpointTs)) then .ok .excludedFutureDirty
    else match synthesizePage snapshot.baseImage snapshot.chains checkpointTs oldestRequiredTs ident with
      | .ok synthesized =>
        if synthesized.historySpill = [] ∧ synthesized.retainedChains.entries = [] then .ok .mutationReady
        else .ok .spillRequired
      | .error .visibleWinnerExceedsPageBudget =>
        match visibleWinnersFitIndividualLeafPages snapshot.chains checkpointTs with
        | .ok true => .ok .mutationReady
        | .ok false => .error (.checkpointIncomplete pageId .visibleWinnerExceedsPageBudget)
        | .error reason => .error (.checkpointIncomplete pageId (synthToBlocker reason))
      | .error reason => .error (.checkpointIncomplete pageId (synthToBlocker reason))

/-! ## A leaf that only has old versions -/

/-- committed or aborted, not above the checkpoint; the value is not large, and with its key it fits a page -/
structure Settled (checkpointTs : Ts) (key : Key) (e : VersionEntry) : Prop where
  state : e.state = .committed ∨ e.state = .aborted
  start : e.startTs ≤ checkpointTs
  small : match e.data with
    | .inline bytes => bytes.length ≤ OVERFLOW_THRESHOLD
    | .overflow _ totalLength => totalLength ≤ OVERFLOW_THRESHOLD
  fits : predictEncodedLeafSize (OrdMap.empty.insert key e.data) OrdMap.empty ≤ LEAF_PAGE_BUDGET

/-- a page's cells after the newest committed version of each chain has replaced the cell of its key -/
def foldedCells (checkpointTs : Ts) : List (Key × Chain) → OrdMap Key VersionData → OrdMap Key VersionData
  | [], cells => cells
  | (key, c) :: l, cells =>
    foldedCells checkpointTs l (match (checkpointWinner c checkpointTs).map foldedCell with
      | none => cells
      | some none => cells.erase key
      | some (some cell) => (cells.erase key).insert key cell)

/-- every chain is one committed version, and at least two of them are not tombstones -/
def Splittable (chains : OrdMap Key Chain) : Prop :=
  (∀ p ∈ chains.entries, ∃ e, p.2 = [e] ∧ e.state = .committed) ∧
    2 ≤ (chains.entries.filter fun p => p.2.any fun e => ¬e.isTombstone).length

section

variable {ident : TreeIdent} {checkpointTs : Ts} {key : Key} {c : Chain} {e : VersionEntry}

theorem Settled.foldedCellFromEntry_eq (h : Settled checkpointTs key e) : foldedCellFromEntry e = .ok e.data := by
  have hsmall := h.small
  rw [foldedCellFromEntry]
  cases hd : e.data with
  | inline bytes => rfl
  | overflow firstPage totalLength =>
    rw [hd] at hsmall
    exact if_pos (lt_of_le_of_lt hsmall (by decide))

theorem Settled.splitCellFromEntry_eq (h : Settled checkpointTs key e) : splitCellFromEntry e = .ok e.data := by
  have hsmall := h.small
  have hcell := h.foldedCellFromEntry_eq
  rw [splitCellFromEntry]
  cases hd : e.data with
  | inline bytes =>
    rw [hd] at hsmall hcell
    exact (if_neg (not_lt.2 hsmall)).trans hcell
  | overflow firstPage totalLength =>
    rw [hd] at hcell
    exact hcell

theorem winner_mem (h : checkpointWinner c checkpointTs = some e) : e ∈ c ∧ foldable checkpointTs e = true := by
  obtain ⟨i, hi, he⟩ := Option.bind_eq_some_iff.1 h
  exact ⟨mem_of_getElem? he, winnerIndex_foldable hi (mem_zipIdx_iff_getElem?.2 he)⟩

theorem foldWinner_settled (h : ∀ e ∈ c, Settled checkpointTs key e) :
    foldWinner (checkpointWinner c checkpointTs) = .ok ((checkpointWinner c checkpointTs).map foldedCell) := by
  cases hw : checkpointWinner c checkpointTs with
  | none => rfl
  | some w =>
    rw [foldWinner, Option.map_some, foldedCell]
    split_ifs
    · rfl
    · rw [(h w (winner_mem hw).1).foldedCellFromEntry_eq]

/-- without readers nothing is spilled, and of settled versions nothing is kept -/
theorem foldEntries_settled {winnerIndex : Option ℕ} {l : List (VersionEntry × ℕ)}
    (h : ∀ p ∈ l, Settled checkpointTs key p.1) :
    foldEntries ident key checkpointTs Ts.MAX c winnerIndex l = .ok ([], []) := by
  induction l with
  | nil => rfl
  | cons p l ih =>
    obtain ⟨e, i⟩ := p
    have he := h _ mem_cons_self
    rw [foldEntries, ih fun p hp => h p (mem_cons_of_mem _ hp)]
    dsimp only at he ⊢
    by_cases hi : some i = winnerIndex
    · exact if_pos hi
    · rw [if_neg hi]
      rcases he.state with hstate | hstate
      · rw [hstate]
        exact (if_neg (not_lt.2 he.start)).trans (if_pos (Ts.le_max _))
      · rw [hstate]

theorem foldKey_settled (h : ∀ e ∈ c, Settled checkpointTs key e) :
    foldKey ident key checkpointTs Ts.MAX c = .ok ⟨(checkpointWinner c checkpointTs).map foldedCell, [], []⟩ := by
  have hentries : ∀ p ∈ c.zipIdx, Settled checkpointTs key p.1 := by
    intro p hp
    exact h p.1 (mem_of_getElem? (mem_zipIdx_iff_getElem?.1 hp))
  rw [foldKey, foldWinner_settled h]
  rw [foldEntries_settled hentries]

theorem synthLoop_settled {l : List (Key × Chain)} (h : ∀ p ∈ l, ∀ e ∈ p.2, Settled checkpointTs p.1 e)
    (cells : OrdMap Key VersionData) :
    synthLoop checkpointTs Ts.MAX ident l ⟨cells, empty, []⟩ = .ok ⟨foldedCells checkpointTs l cells, empty, []⟩ := by
  induction l generalizing cells with
  | nil => rfl
  | cons p l ih =>
    rw [synthLoop, foldKey_settled (h _ mem_cons_self)]
    exact ih (fun p hp => h p (mem_cons_of_mem _ hp)) _

theorem checkpointWinner_singleton (hfold : foldable checkpointTs e = true) :
    checkpointWinner [e] checkpointTs = some e := by
  simp [checkpointWinner, checkpointWinnerIndex, hfold, maxByKey]

/-- **The split test.** It never fails on settled versions, and it counts the winners that are not tombstones. -/
theorem visibleWinnersLoop_settled {l : List (Key × Chain)}
    (h : ∀ p ∈ l, ∀ e ∈ p.2, Settled checkpointTs p.1 e) (n : ℕ) :
    ∃ b, visibleWinnersLoop checkpointTs l n = .ok b ∧ (b = true ↔ (∀ p ∈ l, ∃ e, p.2 = [e] ∧ e.state = .committed) ∧
      1 < n + (l.filter fun p => p.2.any fun e => ¬e.isTombstone).length) := by
  induction l generalizing n with
  | nil => exact ⟨_, rfl, by simp⟩
  | cons p l ih =>
    obtain ⟨key, c⟩ := p
    have hc := h _ mem_cons_self
    have hl := fun p hp => h p (mem_cons_of_mem _ hp)
    rw [visibleWinnersLoop]
    cases hw : checkpointWinner c checkpointTs with
    | none =>
      refine ⟨false, rfl, by simp, fun hall => ?_⟩
      obtain ⟨e, rfl, hcommitted⟩ := hall.1 _ mem_cons_self
      have hstart := (hc e mem_cons_self).start
      rw [checkpointWinner_singleton (foldable_iff.2 ⟨hcommitted, hstart⟩)] at hw
      cases hw
    | some w =>
      obtain ⟨hmem, hfold⟩ := winner_mem hw
      dsimp only
      by_cases hlen : c.length = 1
      · obtain ⟨e, rfl⟩ := length_eq_one_iff.1 hlen
        obtain rfl : w = e := mem_singleton.1 hmem
        have hhead : (∀ p ∈ (key, [w]) :: l, ∃ e, p.2 = [e] ∧ e.state = .committed) ↔ ∀ p ∈ l, ∃ e, p.2 = [e] ∧
            e.state = .committed := by
          rw [forall_mem_cons]
          exact and_iff_right ⟨w, rfl, (foldable_iff.1 hfold).1⟩
        rw [hhead]
        by_cases ht : w.isTombstone = true
        · obtain ⟨b, hb, hiff⟩ := ih hl n
          rw [if_pos ht]
          refine ⟨b, hb, hiff.trans ?_⟩
          simp [ht]
        · have hw' := hc w mem_cons_self
          obtain ⟨b, hb, hiff⟩ := ih hl (n + 1)
          rw [if_neg ht, hw'.splitCellFromEntry_eq]
          dsimp only
          rw [if_neg (not_lt.2 hw'.fits)]
          refine ⟨b, hb, hiff.trans ?_⟩
          simp [ht]
          omega
      · rw [if_pos hlen]
        refine ⟨false, rfl, by simp, fun hall => ?_⟩
        obtain ⟨e, rfl, -⟩ := hall.1 _ mem_cons_self
        exact absurd rfl hlen

/-- the planner on a settled leaf: the folded cells fit, or the split test decides -/
theorem planLeaf_settled {baseImage : FoldedLeafImage} {chains : OrdMap Key Chain} (pageId : ℕ)
    (h : ∀ p ∈ chains.entries, ∀ e ∈ p.2, Settled checkpointTs p.1 e)
    (hsome : ∃ p ∈ chains.entries, ∃ e ∈ p.2, e.state = .committed) :
    planLeaf (.ok (some ⟨baseImage, chains⟩)) ident pageId checkpointTs Ts.MAX =
      if predictEncodedLeafSize (foldedCells checkpointTs chains.entries baseImage.cells) empty > LEAF_PAGE_BUDGET ∧
        visibleWinnersFitIndividualLeafPages chains checkpointTs = .ok false then
        .error (.checkpointIncomplete pageId .visibleWinnerExceedsPageBudget)
      else .ok .mutationReady := by
  have hany : (chains.entries.any fun p => p.2.any (foldable checkpointTs)) = true := by
    obtain ⟨p, hp, e, he, hcommitted⟩ := hsome
    exact any_eq_true.2 ⟨p, hp, any_eq_true.2 ⟨e, he, foldable_iff.2 ⟨hcommitted, (h p hp e he).start⟩⟩⟩
  obtain ⟨b, hb, -⟩ := visibleWinnersLoop_settled h 0
  -- nothing is spilled and nothing is kept
  rw [planLeaf, if_neg (not_not_intro hany), synthesizePage, synthLoop_settled h,
    visibleWinnersFitIndividualLeafPages, hb]
  dsimp only
  by_cases hsize : predictEncodedLeafSize (foldedCells checkpointTs chains.entries baseImage.cells) empty >
    LEAF_PAGE_BUDGET
  · rw [if_pos hsize]
    cases b with
    | true => simp
    | false => simp [hsize]
  · rw [if_neg hsize, if_neg hsize, if_neg fun hand => hsize hand.1]
    simp [empty]

/-- **Planning a settled leaf.** All versions are committed or aborted and not above the checkpoint, at least one is
committed, and no reader needs an old one. The leaf is ready if and only if its folded cells fit one page or its chains
can be split; otherwise the checkpoint is refused. -/
theorem plan_ready_iff {baseImage : FoldedLeafImage} {chains : OrdMap Key Chain} (ident : TreeIdent) (pageId : ℕ)
    (h : ∀ p ∈ chains.entries, ∀ e ∈ p.2, Settled checkpointTs p.1 e)
    (hsome : ∃ p ∈ chains.entries, ∃ e ∈ p.2, e.state = .committed) :
    (planLeaf (.ok (some ⟨baseImage, chains⟩)) ident pageId checkpointTs Ts.MAX = .ok .mutationReady ↔
      predictEncodedLeafSize (foldedCells checkpointTs chains.entries baseImage.cells) OrdMap.empty ≤ LEAF_PAGE_BUDGET ∨
        Splittable chains) ∧
    (planLeaf (.ok (some ⟨baseImage, chains⟩)) ident pageId checkpointTs Ts.MAX ≠ .ok .mutationReady →
      planLeaf (.ok (some ⟨baseImage, chains⟩)) ident pageId checkpointTs Ts.MAX =
        .error (.checkpointIncomplete pageId .visibleWinnerExceedsPageBudget)) := by
  obtain ⟨b, hb, hiff⟩ := visibleWinnersLoop_settled h 0
  have hsplit : Splittable chains ↔ b = true := by
    rw [hiff, Nat.zero_add]
    exact Iff.rfl
  rw [planLeaf_settled pageId h hsome, visibleWinnersFitIndividualLeafPages, hb, hsplit]
  split_ifs with hblocked
  · obtain ⟨hsize, hfalse⟩ := hblocked
    obtain rfl : b = false := Except.ok.inj hfalse
    simp only [false_iff, not_or, not_le, Bool.false_eq_true, not_false_iff, and_true, implies_true]
    exact hsize
  · refine ⟨iff_of_true rfl ?_, fun hne => absurd rfl hne⟩
    by_contra hno
    obtain ⟨hsize, hb'⟩ := not_or.1 hno
    exact hblocked ⟨not_le.1 hsize, by rw [Bool.not_eq_true] at hb'; rw [hb']⟩

end

/-- a committed version with a value of n zero bytes -/
def committedZeros (n : ℕ) : VersionEntry := ⟨⟨5, 0⟩, Ts.MAX, 1, .committed, .inline (List.replicate n 0), false⟩

theorem committedZeros_settled {key : Key} {n : ℕ} (hkey : key.length = 1) (hn : n ≤ OVERFLOW_THRESHOLD) :
    Settled ⟨5, 0⟩ key (committedZeros n) where
  state := .inl rfl
  start := le_rfl
  small := by
    simp only [committedZeros, length_replicate]
    exact hn
  fits := by
    simp only [OVERFLOW_THRESHOLD] at hn
    simp [predictEncodedLeafSize, OrdMap.insert, OrdMap.insertEntry, OrdMap.empty, cellEncodedSize,
      committedZeros, hkey, retainedChainsEncodedSize, LEAF_PAGE_BUDGET]
    omega

/-- two new keys on an empty page -/
def twoNewKeys : OrdMap Key Chain := OrdMap.ofList [([1], [committedZeros 20000]), ([2], [committedZeros 20000])]

theorem plan_ready_two_new_keys :
    planLeaf (.ok (some ⟨⟨OrdMap.empty, ⟨0, 0⟩⟩, twoNewKeys⟩)) ⟨1, .primary⟩ 7 ⟨5, 0⟩ Ts.MAX = .ok .mutationReady := by
  have hentries : twoNewKeys.entries = [([1], [committedZeros 20000]), ([2], [committedZeros 20000])] :=
    entries_ofList (by decide)
  refine (plan_ready_iff ⟨1, .primary⟩ 7 ?_ ?_).1.2 (.inr ?_)
  · rw [hentries]
    simp only [mem_cons, not_mem_nil, or_false, forall_eq_or_imp, forall_eq]
    exact ⟨committedZeros_settled rfl (by decide), committedZeros_settled rfl (by decide)⟩
  · exact ⟨_, mem_cons_self, _, mem_cons_self, rfl⟩
  · rw [Splittable, hentries]
    refine ⟨?_, by decide⟩
    simp only [mem_cons, not_mem_nil, or_false, forall_eq_or_imp, forall_eq]
    exact ⟨⟨_, rfl, rfl⟩, _, rfl, rfl⟩

/-- a page with two values of 16000 bytes -/
def halfFullEach : FoldedLeafImage :=
  ⟨OrdMap.ofList [([1], .inline (List.replicate 16000 0)), ([2], .inline (List.replicate 16000 0))], ⟨0, 0⟩⟩

/-- **A grown value blocks the checkpoint.** One of two values of 16000 bytes is replaced by one of 17000 bytes, in one
committed version. The two no longer fit one page, each of them fits a page, and planning fails without any reader. -/
theorem grown_value_blocks : Settled ⟨5, 0⟩ [2] (committedZeros 17000) ∧
    predictEncodedLeafSize halfFullEach.cells OrdMap.empty ≤ LEAF_PAGE_BUDGET ∧
    planLeaf (.ok (some ⟨halfFullEach, OrdMap.ofList [([2], [committedZeros 17000])]⟩)) ⟨1, .primary⟩ 7 ⟨5, 0⟩ Ts.MAX =
      .error (.checkpointIncomplete 7 .visibleWinnerExceedsPageBudget) := by
  have hsettled : Settled ⟨5, 0⟩ [2] (committedZeros 17000) := committedZeros_settled rfl (by decide)
  have hcells : halfFullEach.cells.entries =
      [([1], .inline (List.replicate 16000 0)), ([2], .inline (List.replicate 16000 0))] := entries_ofList (by decide)
  have hentries : (ofList [(([2] : Key), [committedZeros 17000])]).entries = [([2], [committedZeros 17000])] :=
    entries_ofList (by decide)
  have hwinner : checkpointWinner [committedZeros 17000] ⟨5, 0⟩ = some (committedZeros 17000) :=
    checkpointWinner_singleton (foldable_iff.2 ⟨rfl, le_rfl⟩)
  refine ⟨hsettled, ?_, ?_⟩
  · rw [predictEncodedLeafSize, hcells]
    simp only [map_cons, map_nil, cellEncodedSize, length_replicate, retainedChainsEncodedSize, empty]
    decide
  · rw [planLeaf_settled 7 ?_ ?_, if_pos]
    · constructor
      · have hnew : ((halfFullEach.cells.erase [2]).insert [2] (committedZeros 17000).data).entries =
            [([1], .inline (List.replicate 16000 0)), ([2], .inline (List.replicate 17000 0))] := by
          change insertEntry [2] _ (halfFullEach.cells.entries.filter fun p => p.1 ≠ [2]) = _
          rfl
        change predictEncodedLeafSize ((halfFullEach.cells.erase [2]).insert [2] (committedZeros 17000).data) empty > _
        rw [predictEncodedLeafSize, hnew]
        simp only [map_cons, map_nil, cellEncodedSize, length_replicate, retainedChainsEncodedSize, empty]
        decide
      · rw [visibleWinnersFitIndividualLeafPages, hentries, visibleWinnersLoop, hwinner]
        dsimp only
        rw [hsettled.splitCellFromEntry_eq]
        dsimp only
        rw [if_neg (not_lt.2 hsettled.fits)]
        rfl
    · rw [hentries]
      simp only [mem_cons, not_mem_nil, or_false, forall_eq]
      exact hsettled
    · exact ⟨_, mem_cons_self, _, mem_cons_self, rfl⟩

end Mqlite.Storage
