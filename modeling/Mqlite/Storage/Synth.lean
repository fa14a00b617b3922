/-
Checkpoint synthesis of one leaf (`storage/reconcile/synth.rs`, sizes from `storage/btree/reconcile.rs`).

For each key with a chain the newest committed version at or below `checkpoint_ts` (the winner) becomes the base cell,
or removes it if it is a tombstone. Newer committed versions and Pending ones stay in the chain; older committed
versions are spilled to the history store, unless they end at or before `oldest_required_ts`; aborted ones go. The base
cell that the winner replaces is spilled nowhere.

A leaf image is modelled by its cells and sibling links, so the byte layout (`LeafNode::parse`, `LeafNode::encode`) is
left out: the encoder's only error is the page-size check that synthesis has already made.

- `foldKey_ok`: what the fold does to one key;
- `synthesizePage_key`: the whole page is that, key by key.
-/
import Mqlite.Storage.History

namespace Mqlite.Storage

open Lib Mvcc List OrdMap

/-! ## One key -/

inductive NotInstallable where
  | visibleWinnerExceedsPageBudget
  | foldedLeafExceedsPageByteBudget
deriving DecidableEq, Repr

/-- `Iterator::max_by_key`: of several greatest elements the last one -/
def maxByKey {α β : Type} [LinearOrder β] (f : α → β) (l : List α) : Option α :=
  l.foldl (fun best a => match best with
    | none => some a
    | some b => if f b ≤ f a then some a else some b) none

/-- committed, and old enough for the checkpoint -/
def foldable (checkpointTs : Ts) (e : VersionEntry) : Bool := e.state = .committed ∧ e.startTs ≤ checkpointTs

def checkpointWinnerIndex (c : Chain) (checkpointTs : Ts) : Option ℕ :=
  (maxByKey (fun p : VersionEntry × ℕ => p.1.startTs) (c.zipIdx.filter fun p => foldable checkpointTs p.1)).map Prod.snd

def checkpointWinner (chain : Chain) (checkpointTs : Ts) : Option VersionEntry :=
  (checkpointWinnerIndex chain checkpointTs).bind fun i => chain[i]?

/-- how many committed entries before `index` start at the same time -/
def stableHistoryCounter (c : Chain) (index : ℕ) (startTs : Ts) : Except NotInstallable ℕ :=
  let priorSameStart := ((c.take index).filter fun e => e.state = .committed ∧ e.startTs = startTs).length
  if priorSameStart < 2 ^ 32 then .ok priorSameStart else .error .foldedLeafExceedsPageByteBudget

/-- cells and payloads have the same two shapes; a cell's length has 32 bits -/
def foldedCellFromEntry (e : VersionEntry) : Except NotInstallable VersionData :=
  match e.data with
  | .inline bytes => .ok (.inline bytes)
  | .overflow firstPage totalLength =>
    if totalLength < 2 ^ 32 then .ok (.overflow firstPage totalLength) else .error .foldedLeafExceedsPageByteBudget

/-- what becomes of one key -/
structure KeyFold where
  /-- `none`: the base cell stays; otherwise what replaces it -/
  cell : Option (Option VersionData)
  retained : Chain
  spill : List HistorySpillEntry
deriving DecidableEq, Repr

section

variable (ident : TreeIdent) (key : Key) (checkpointTs oldestRequiredTs : Ts) (c : Chain)

/-- the loop over the entries of a chain, with their positions -/
def foldEntries (winnerIndex : Option ℕ) :
    List (VersionEntry × ℕ) → Except NotInstallable (Chain × List HistorySpillEntry)
  | [] => .ok ([], [])
  | (e, i) :: l =>
    match foldEntries winnerIndex l with
    | .error err => .error err
    | .ok (retained, spill) =>
      if some i = winnerIndex then .ok (retained, spill)
      else match e.state with
        | .committed =>
          if e.startTs > checkpointTs then .ok (e :: retained, spill)
          else if e.stopTs ≤ oldestRequiredTs then .ok (retained, spill)
          else match stableHistoryCounter c i e.startTs with
            | .error err => .error err
            | .ok counter => .ok (retained, ⟨ident, key, e, counter⟩ :: spill)
        | .pending _ => .ok (e :: retained, spill)
        | .aborted => .ok (retained, spill)

def foldWinner : Option VersionEntry → Except NotInstallable (Option (Option VersionData))
  | none => .ok none
  | some w =>
    if w.isTombstone then .ok (some none)
    else match foldedCellFromEntry w with
      | .error err => .error err
      | .ok cell => .ok (some (some cell))

def foldKey : Except NotInstallable KeyFold :=
  match foldWinner (checkpointWinner c checkpointTs) with
  | .error err => .error err
  | .ok cell =>
    match foldEntries ident key checkpointTs oldestRequiredTs c (checkpointWinnerIndex c checkpointTs) c.zipIdx with
    | .error err => .error err
    | .ok (retained, spill) => .ok ⟨cell, retained, spill⟩

end

/-! ## The page -/

structure FoldedLeafLinks where
  nextLeafPage : ℕ
  prevLeafPage : ℕ
deriving DecidableEq, Repr

structure FoldedLeafImage where
  cells : OrdMap Key VersionData
  links : FoldedLeafLinks
deriving DecidableEq

abbrev RetainedChains := OrdMap Key Chain

/-- key length, key, value type, value -/
def cellEncodedSize (key : Key) : VersionData → ℕ
  | .inline bytes => 2 + key.length + 1 + (4 + bytes.length)
  | .overflow _ _ => 2 + key.length + 1 + 8

def retainedVersionEntryEncodedSize (e : VersionEntry) : ℕ :=
  12 + 12 + 8 + (1 + match e.state with
    | .pending _ => 8
    | _ => 0) + 1 + 1 + match e.data with
    | .inline bytes => 4 + bytes.length
    | .overflow _ _ => 12

def retainedChainsEncodedSize (chains : RetainedChains) : ℕ :=
  (chains.entries.map fun p => 2 + p.1.length + 4 + (p.2.map retainedVersionEntryEncodedSize).sum).sum

def predictEncodedLeafSize (cells : OrdMap Key VersionData) (retained : RetainedChains) : ℕ :=
  20 + cells.entries.length * 2 + (cells.entries.map fun p => cellEncodedSize p.1 p.2).sum +
    retainedChainsEncodedSize retained

def LEAF_PAGE_BUDGET : ℕ := 32768

structure PageSynthesisResult where
  newBase : FoldedLeafImage
  historySpill : List HistorySpillEntry
  retainedChains : RetainedChains
deriving DecidableEq

/-- what the loop over the keys has built so far -/
structure SynthState where
  cells : OrdMap Key VersionData
  retained : RetainedChains
  spill : List HistorySpillEntry

def SynthState.add (s : SynthState) (key : Key) (f : KeyFold) : SynthState where
  cells := match f.cell with
    | none => s.cells
    | some none => s.cells.erase key
    | some (some cell) => (s.cells.erase key).insert key cell
  retained := if f.retained = [] then s.retained else s.retained.insert key f.retained
  spill := s.spill ++ f.spill

def synthLoop (checkpointTs oldestRequiredTs : Ts) (ident : TreeIdent) :
    List (Key × Chain) → SynthState → Except NotInstallable SynthState
  | [], s => .ok s
  | (key, c) :: l, s =>
    match foldKey ident key checkpointTs oldestRequiredTs c with
    | .error err => .error err
    | .ok f => synthLoop checkpointTs oldestRequiredTs ident l (s.add key f)

def synthesizePage (baseImage : FoldedLeafImage) (chains : OrdMap Key Chain) (checkpointTs oldestRequiredTs : Ts)
    (ident : TreeIdent) : Except NotInstallable PageSynthesisResult :=
  match synthLoop checkpointTs oldestRequiredTs ident chains.entries ⟨baseImage.cells, OrdMap.empty, []⟩ with
  | .error err => .error err
  | .ok s =>
    if predictEncodedLeafSize s.cells OrdMap.empty > LEAF_PAGE_BUDGET then .error .visibleWinnerExceedsPageBudget
    else if predictEncodedLeafSize s.cells s.retained > LEAF_PAGE_BUDGET then .error .foldedLeafExceedsPageByteBudget
    else .ok ⟨⟨s.cells, baseImage.links⟩, s.spill, s.retained⟩

/-! ## What happens to one key -/

/-- an entry that stays in the chain -/
def kept (checkpointTs : Ts) (e : VersionEntry) : Bool :=
  match e.state with
  | .pending _ => true
  | .committed => e.startTs > checkpointTs
  | .aborted => false

/-- an entry that goes to the history store, unless it is the winner -/
def spilled (checkpointTs oldestRequiredTs : Ts) (e : VersionEntry) : Bool :=
  foldable checkpointTs e ∧ oldestRequiredTs < e.stopTs

variable {checkpointTs oldestRequiredTs : Ts} {e : VersionEntry} {α β : Type} {ident : TreeIdent}

theorem foldable_iff : foldable checkpointTs e = true ↔ e.state = .committed ∧ e.startTs ≤ checkpointTs :=
  decide_eq_true_iff

theorem spilled_iff :
    spilled checkpointTs oldestRequiredTs e = true ↔ foldable checkpointTs e = true ∧ oldestRequiredTs < e.stopTs :=
  decide_eq_true_iff

theorem kept_of_foldable (h : foldable checkpointTs e = true) : kept checkpointTs e = false := by
  rw [foldable_iff] at h
  simp [kept, h.1, h.2]

theorem maxByKey_foldl_mem [LinearOrder β] (f : α → β) (l : List α) (best : Option α) {a : α}
    (h : l.foldl (fun best a => match best with
      | none => some a
      | some b => if f b ≤ f a then some a else some b) best = some a) : a ∈ l ∨ best = some a := by
  induction l generalizing best with
  | nil => exact .inr h
  | cons x l ih =>
    rcases ih _ h with hm | hb
    · exact .inl (mem_cons_of_mem _ hm)
    · cases best with
      | none => cases hb; exact .inl mem_cons_self
      | some b =>
        simp only at hb
        split_ifs at hb
        · cases hb; exact .inl mem_cons_self
        · exact .inr hb

/-- a first element above all others wins -/
theorem maxByKey_cons [LinearOrder β] {f : α → β} {a : α} {l : List α} (h : ∀ b ∈ l, f b < f a) :
    maxByKey f (a :: l) = some a := by
  simp only [maxByKey, foldl_cons]
  induction l with
  | nil => rfl
  | cons b l ih =>
    simp only [foldl_cons, if_neg (not_le.2 (h b mem_cons_self))]
    exact ih fun x hx => h x (mem_cons_of_mem _ hx)

theorem winnerIndex_foldable {c : Chain} {i : ℕ} (h : checkpointWinnerIndex c checkpointTs = some i)
    (he : (e, i) ∈ c.zipIdx) : foldable checkpointTs e = true := by
  obtain ⟨p, hp, rfl⟩ := Option.map_eq_some_iff.1 h
  obtain ⟨hpc, hpf⟩ := mem_filter.1 ((maxByKey_foldl_mem _ _ none hp).resolve_right (by simp))
  -- the position determines the entry
  have h1 := mem_zipIdx_iff_getElem?.1 he
  have h2 := mem_zipIdx_iff_getElem?.1 (hpc)
  rw [h1] at h2
  cases h2
  exact hpf

section

variable {ident : TreeIdent} {key : Key} {checkpointTs oldestRequiredTs : Ts} {c : Chain} {winnerIndex : Option ℕ}

theorem foldEntries_ok {l : List (VersionEntry × ℕ)} {retained : Chain} {spill : List HistorySpillEntry}
    (h : foldEntries ident key checkpointTs oldestRequiredTs c winnerIndex l = .ok (retained, spill)) :
    retained = ((l.filter fun p => some p.2 ≠ winnerIndex).map Prod.fst).filter (kept checkpointTs) ∧
    ∀ w, w ∈ spill ↔ ∃ p ∈ l, some p.2 ≠ winnerIndex ∧ spilled checkpointTs oldestRequiredTs p.1 = true ∧
      stableHistoryCounter c p.2 p.1.startTs = .ok w.counter ∧ w.ident = ident ∧ w.key = key ∧ w.entry = p.1 := by
  induction l generalizing retained spill with
  | nil => cases h; simp
  | cons p l ih =>
    obtain ⟨e, i⟩ := p
    rw [foldEntries] at h
    cases hl : foldEntries ident key checkpointTs oldestRequiredTs c winnerIndex l with
    | error err => rw [hl] at h; cases h
    | ok r =>
      obtain ⟨ihR, ihS⟩ := ih hl
      rw [hl] at h
      simp only at h
      by_cases hi : some i = winnerIndex
      · rw [if_pos hi] at h
        cases h
        simp [hi, ihR, ihS]
      · rw [if_neg hi] at h
        cases hstate : e.state with
        | pending t | aborted =>
          rw [hstate] at h
          cases h
          simp [hi, ihR, ihS, kept, spilled, foldable, hstate]
        | committed =>
          rw [hstate] at h
          split_ifs at h with hts hstop
          · cases h
            simp [hi, ihR, ihS, kept, spilled, foldable, hstate, hts, not_le.2 hts]
          · cases h
            simp [hi, ihR, ihS, kept, spilled, foldable, hstate, hts, not_lt.2 hstop]
          · cases hc : stableHistoryCounter c i e.startTs with
            | error err => rw [hc] at h; cases h
            | ok n =>
              rw [hc] at h
              cases h
              refine ⟨by simp [hi, ihR, kept, hstate, hts], fun w => ?_⟩
              rw [mem_cons, ihS]
              simp only [mem_cons, exists_eq_or_imp, hi, hc, ne_eq, not_false_iff, true_and]
              refine or_congr_left ?_
              obtain ⟨wi, wk, we, wn⟩ := w
              have hsp : spilled checkpointTs oldestRequiredTs e = true := by
                simp [spilled, foldable, hstate, not_lt.1 hts, not_le.1 hstop]
              simp only [hsp, true_and, HistorySpillEntry.mk.injEq, Except.ok.injEq]
              constructor
              · rintro ⟨rfl, rfl, rfl, rfl⟩; exact ⟨rfl, rfl, rfl, rfl⟩
              · rintro ⟨rfl, rfl, rfl, rfl⟩; exact ⟨rfl, rfl, rfl, rfl⟩

/-- what replaces the base cell when the fold has a winner -/
def foldedCell (w : VersionEntry) : Option VersionData := if w.isTombstone then none else some w.data

theorem foldWinner_ok {w : Option VersionEntry} {cell : Option (Option VersionData)} (h : foldWinner w = .ok cell) :
    cell = w.map foldedCell := by
  cases w with
  | none => cases h; rfl
  | some w =>
    simp only [foldWinner] at h
    split_ifs at h with ht
    · cases h; simp [foldedCell, ht]
    · cases hd : w.data with
      | inline bytes =>
        simp only [foldedCellFromEntry, hd] at h
        cases h; simp [foldedCell, ht, hd]
      | overflow p n =>
        simp only [foldedCellFromEntry, hd] at h
        split_ifs at h
        cases h; simp [foldedCell, ht, hd]

/-- **The fold of one key**, when it succeeds: the winner replaces the cell, the kept entries stay, and of the others
those still needed are spilled. -/
theorem foldKey_ok {f : KeyFold} (h : foldKey ident key checkpointTs oldestRequiredTs c = .ok f) :
    f.cell = (checkpointWinner c checkpointTs).map foldedCell ∧
    f.retained = c.filter (kept checkpointTs) ∧
    ∀ w, w ∈ f.spill ↔ ∃ p ∈ c.zipIdx, some p.2 ≠ checkpointWinnerIndex c checkpointTs ∧
      spilled checkpointTs oldestRequiredTs p.1 = true ∧ stableHistoryCounter c p.2 p.1.startTs = .ok w.counter ∧
      w.ident = ident ∧ w.key = key ∧ w.entry = p.1 := by
  unfold foldKey at h
  cases hw : foldWinner (checkpointWinner c checkpointTs) with
  | error err => rw [hw] at h; cases h
  | ok cell =>
    rw [hw] at h
    cases he : foldEntries ident key checkpointTs oldestRequiredTs c
      (checkpointWinnerIndex c checkpointTs) c.zipIdx with
    | error err => rw [he] at h; cases h
    | ok r =>
      rw [he] at h
      cases h
      obtain ⟨hR, hS⟩ := foldEntries_ok he
      refine ⟨foldWinner_ok hw, ?_, hS⟩
      -- the winner would not be kept anyway
      have hfilter : (c.zipIdx.filter fun p => some p.2 ≠ checkpointWinnerIndex c checkpointTs).filter
          (kept checkpointTs ∘ Prod.fst) = c.zipIdx.filter (kept checkpointTs ∘ Prod.fst) := by
        rw [filter_filter]
        refine filter_congr fun p hp => ?_
        by_cases hi : some p.2 = checkpointWinnerIndex c checkpointTs
        · simp [kept_of_foldable (winnerIndex_foldable hi.symm hp)]
        · simp [hi]
      rw [hR, filter_map, hfilter, ← filter_map, zipIdx_map_fst]

end

/-! ## The page is folded key by key -/

namespace SynthState

variable (s : SynthState) (key k : Key) (f : KeyFold)

theorem add_cells : (s.add key f).cells.get? k = if k = key then f.cell.getD (s.cells.get? k) else s.cells.get? k := by
  simp only [add]
  split
  · rename_i h; simp [h]
  · rename_i h; simp [h, get?_erase]
  · rename_i h
    simp only [h, get?_insert, get?_erase]
    split_ifs <;> simp

theorem add_retained (hs : (s.retained.get? key).getD [] = []) :
    ((s.add key f).retained.get? k).getD [] = if k = key then f.retained else (s.retained.get? k).getD [] := by
  simp only [add]
  split_ifs with h1 h2 h2
  · rw [h1, h2, hs]
  · rfl
  · simp [get?_insert, h2]
  · simp [get?_insert, h2]

end SynthState

theorem synthLoop_key {l : List (Key × Chain)} {s s' : SynthState}
    (hl : l.Pairwise fun a b => a.1 < b.1) (hs : ∀ p ∈ l, (s.retained.get? p.1).getD [] = [])
    (h : synthLoop checkpointTs oldestRequiredTs ident l s = .ok s') :
    (∀ k, (∀ p ∈ l, p.1 ≠ k) → s'.cells.get? k = s.cells.get? k ∧
      (s'.retained.get? k).getD [] = (s.retained.get? k).getD [] ∧ ∀ w, w.key = k → (w ∈ s'.spill ↔ w ∈ s.spill)) ∧
    (∀ p ∈ l, ∃ f, foldKey ident p.1 checkpointTs oldestRequiredTs p.2 = .ok f ∧
      s'.cells.get? p.1 = f.cell.getD (s.cells.get? p.1) ∧ (s'.retained.get? p.1).getD [] = f.retained ∧
      ∀ w, w.key = p.1 → (w ∈ s'.spill ↔ w ∈ s.spill ∨ w ∈ f.spill)) := by
  induction l generalizing s with
  | nil => cases h; simp
  | cons p l ih =>
    obtain ⟨key, c⟩ := p
    obtain ⟨hhead, hl⟩ := pairwise_cons.1 hl
    rw [synthLoop] at h
    cases hf : foldKey ident key checkpointTs oldestRequiredTs c with
    | error err => rw [hf] at h; cases h
    | ok f =>
      rw [hf] at h
      have hempty : (s.retained.get? key).getD [] = [] := hs _ mem_cons_self
      have hspill : ∀ k w, k ≠ key → w.key = k → (w ∈ (s.add key f).spill ↔ w ∈ s.spill) := by
        intro k w hk hw
        refine mem_append.trans (or_iff_left fun hwf => hk ?_)
        obtain ⟨p, -, -, -, -, -, hkey, -⟩ := ((foldKey_ok hf).2.2 w).1 hwf
        exact hw.symm.trans hkey
      obtain ⟨ihother, ihmem⟩ := ih (s := s.add key f) hl (fun p hp => by
        rw [s.add_retained key p.1 f hempty, if_neg (hhead p hp).ne']
        exact hs p (mem_cons_of_mem _ hp)) h
      constructor
      · intro k hk
        have hkey : k ≠ key := (hk _ mem_cons_self).symm
        obtain ⟨h1, h2, h3⟩ := ihother k fun p hp => hk p (mem_cons_of_mem _ hp)
        rw [s.add_cells, if_neg hkey] at h1
        rw [s.add_retained key k f hempty, if_neg hkey] at h2
        exact ⟨h1, h2, fun w hw => (h3 w hw).trans (hspill k w hkey hw)⟩
      · intro p hp
        rcases mem_cons.1 hp with rfl | hp
        · -- the first key is not touched again
          obtain ⟨h1, h2, h3⟩ := ihother key fun p hp => (hhead p hp).ne'
          rw [s.add_cells, if_pos rfl] at h1
          rw [s.add_retained key key f hempty, if_pos rfl] at h2
          exact ⟨f, hf, h1, h2, fun w hw => (h3 w hw).trans mem_append⟩
        · have hkey : p.1 ≠ key := (hhead p hp).ne'
          obtain ⟨g, hg, h1, h2, h3⟩ := ihmem p hp
          rw [s.add_cells, if_neg hkey] at h1
          refine ⟨g, hg, h1, h2, fun w hw => (h3 w hw).trans (or_congr_left (hspill p.1 w hkey hw))⟩

/-- **The page, key by key.** A key without a chain keeps its cell; a key with a chain is folded on its own. -/
theorem synthesizePage_key {baseImage : FoldedLeafImage} {chains : OrdMap Key Chain} {r : PageSynthesisResult}
    (h : synthesizePage baseImage chains checkpointTs oldestRequiredTs ident = .ok r) (k : Key) :
    (chains.get? k = none → r.newBase.cells.get? k = baseImage.cells.get? k ∧
      (r.retainedChains.get? k).getD [] = [] ∧ ∀ w ∈ r.historySpill, w.key ≠ k) ∧
    (∀ c, chains.get? k = some c → ∃ f, foldKey ident k checkpointTs oldestRequiredTs c = .ok f ∧
      r.newBase.cells.get? k = f.cell.getD (baseImage.cells.get? k) ∧ (r.retainedChains.get? k).getD [] = f.retained ∧
      ∀ w, w.key = k → (w ∈ r.historySpill ↔ w ∈ f.spill)) := by
  unfold synthesizePage at h
  cases hloop : synthLoop checkpointTs oldestRequiredTs ident chains.entries ⟨baseImage.cells, OrdMap.empty, []⟩ with
  | error err => rw [hloop] at h; cases h
  | ok s =>
    rw [hloop] at h
    simp only at h
    split_ifs at h
    cases h
    obtain ⟨hother, hmem⟩ := synthLoop_key chains.sorted (fun p _ => rfl) hloop
    constructor
    · intro hk
      obtain ⟨h1, h2, h3⟩ := hother k fun p hp hpk => get?_eq_none_iff.1 hk p.2 (hpk ▸ hp)
      exact ⟨h1, h2, fun w hw hwk => by simpa using (h3 w hwk).1 hw⟩
    · intro c hc
      obtain ⟨f, hf, h1, h2, h3⟩ := hmem (k, c) (get?_eq_some_iff.1 hc)
      exact ⟨f, hf, h1, h2, fun w hw => (h3 w hw).trans (by simp)⟩

end Mqlite.Storage
