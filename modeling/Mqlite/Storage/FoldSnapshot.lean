/-
What a checkpoint fold does to readers.

A view must read the same value of every key before and after the fold, as long as its `read_ts` is at least
`oldest_required_ts` or `checkpoint_ts`. `Survives` says, from the state before the fold, exactly when it does
(`fold_snapshot_iff`). It fails for a view whose version the fold takes away or covers up:
- the view reads the base cell (it is older than every version in the chain, or the version it would read has ended),
  and the winner overwrites that cell, which is spilled nowhere;
- the view reads the base cell because an entry of the chain, aborted or ended, tells it not to look in the history
  store; the fold takes the entry away, and the view finds a row there;
- the view reads a committed version that leaves the chain, and a Pending entry behind it that stays is visible too;
- the view reads a committed version that leaves the chain, and the history store already holds a newer row that is
  visible;
- the view reads a tombstone of a secondary tree that is spilled: the probe hides it, and the view falls through to the
  winner in the base cell.
The first is the one every reader older than a key's first version runs into (`held_view_loses_base_cell`).
-/
import Mqlite.Storage.Synth

namespace Mqlite.Storage

open Lib Mvcc List

/-! ## Chains with disjoint committed intervals -/

/-- committed entries hold disjoint intervals, newest first -/
structure DisjointNewestFirst (c : Chain) : Prop where
  apart : (c.filter fun e => e.state = .committed).Pairwise fun newer older => older.stopTs ≤ newer.startTs
  proper : ∀ e ∈ c, e.state = .committed → e.startTs < e.stopTs

namespace DisjointNewestFirst

variable {c : Chain} {e d : VersionEntry} {checkpointTs oldestRequiredTs : Ts}

theorem nil : DisjointNewestFirst [] := ⟨List.Pairwise.nil, fun _ h => by cases h⟩

section

variable (h : DisjointNewestFirst c)

include h

theorem disjoint (he : e ∈ c) (hd : d ∈ c) (hec : e.state = .committed)
    (hdc : d.state = .committed) (hne : e ≠ d) : e.stopTs ≤ d.startTs ∨ d.stopTs ≤ e.startTs := by
  have : Std.Symm fun e d : VersionEntry => e.stopTs ≤ d.startTs ∨ d.stopTs ≤ e.startTs := ⟨fun _ _ => Or.symm⟩
  have hp : (c.filter fun e => e.state = .committed).Pairwise fun e d => e.stopTs ≤ d.startTs ∨ d.stopTs ≤ e.startTs :=
    h.apart.imp .inr
  exact hp.forall (mem_filter.2 ⟨he, decide_eq_true hec⟩) (mem_filter.2 ⟨hd, decide_eq_true hdc⟩) hne

/-- at most one committed entry holds a time -/
theorem unique (he : e ∈ c) (hd : d ∈ c) (hec : e.state = .committed)
    (hdc : d.state = .committed) {r : Ts} (her : e.startTs ≤ r ∧ r < e.stopTs) (hdr : d.startTs ≤ r ∧ r < d.stopTs) :
    e = d := by
  by_contra hne
  rcases h.disjoint he hd hec hdc hne with hle | hle
  · exact absurd (her.2.trans_le hle) (not_lt.2 hdr.1)
  · exact absurd (hdr.2.trans_le hle) (not_lt.2 her.1)

/-- the chain splits at the winner: before it nothing can be folded, after it everything starts earlier -/
theorem winner_split (he : c.find? (foldable checkpointTs) = some e) :
    ∃ pre post, c = pre ++ e :: post ∧ foldable checkpointTs e = true ∧ (∀ d ∈ pre, foldable checkpointTs d = false) ∧
      (∀ d ∈ post, d.state = .committed → d.stopTs ≤ e.startTs) ∧
      checkpointWinnerIndex c checkpointTs = some pre.length := by
  obtain ⟨hfe, pre, post, rfl, hpre⟩ := find?_eq_some_iff_append.1 he
  have hpre' : ∀ d ∈ pre, foldable checkpointTs d = false := fun d hd => by simpa using hpre d hd
  have hec : e.state = .committed := (foldable_iff.1 hfe).1
  have hpost : ∀ d ∈ post, d.state = .committed → d.stopTs ≤ e.startTs := by
    intro d hd hdc
    have hp := h.apart
    rw [filter_append, filter_cons_of_pos (by exact decide_eq_true hec)] at hp
    exact (pairwise_cons.1 (pairwise_append.1 hp).2.1).1 d (mem_filter.2 ⟨hd, decide_eq_true hdc⟩)
  refine ⟨pre, post, rfl, hfe, hpre', hpost, ?_⟩
  have hnil : (pre.zipIdx.filter fun p => foldable checkpointTs p.1) = [] := by
    refine filter_eq_nil_iff.2 fun p hp => ?_
    simp [hpre' p.1 (fst_mem_of_mem_zipIdx hp)]
  unfold checkpointWinnerIndex
  rw [zipIdx_append, filter_append, hnil, nil_append, zipIdx_cons, filter_cons_of_pos (by exact hfe), maxByKey_cons]
  · simp
  · intro p hp
    obtain ⟨hp, hf⟩ := mem_filter.1 hp
    have hmem := fst_mem_of_mem_zipIdx hp
    have hc : p.1.state = .committed := (foldable_iff.1 hf).1
    exact (h.proper p.1 (by simp [hmem]) hc).trans_le (hpost p.1 hmem hc)

theorem winner_eq : checkpointWinner c checkpointTs = c.find? (foldable checkpointTs) := by
  cases he : c.find? (foldable checkpointTs) with
  | none =>
    have hnil : (c.zipIdx.filter fun p => foldable checkpointTs p.1) = [] := by
      refine filter_eq_nil_iff.2 fun p hp => ?_
      exact find?_eq_none.1 he p.1 (fst_mem_of_mem_zipIdx hp)
    simp [checkpointWinner, checkpointWinnerIndex, hnil, maxByKey]
  | some e =>
    obtain ⟨pre, post, rfl, -, -, -, hi⟩ := h.winner_split he
    simp [checkpointWinner, hi]

/-- the winner starts last among the entries that can be folded -/
theorem le_winner (he : checkpointWinner c checkpointTs = some e) (hd : d ∈ c)
    (hf : foldable checkpointTs d = true) : d.startTs ≤ e.startTs := by
  obtain ⟨pre, post, rfl, -, hpre, hpost, -⟩ := h.winner_split (h.winner_eq ▸ he)
  rcases mem_append.1 hd with hd' | hd'
  · rw [hpre d hd'] at hf; cases hf
  · rcases mem_cons.1 hd' with rfl | hd'
    · exact le_rfl
    · have hdc : d.state = .committed := (foldable_iff.1 hf).1
      exact ((h.proper d hd hdc).trans_le (hpost d hd' hdc)).le

theorem winner_mem (he : checkpointWinner c checkpointTs = some e) :
    e ∈ c ∧ e.state = .committed ∧ e.startTs ≤ checkpointTs := by
  rw [h.winner_eq] at he
  exact ⟨mem_of_find?_eq_some he, foldable_iff.1 (find?_some he)⟩

/-- no two committed entries start together, so every spill counter is 0 -/
theorem counter_zero {i : ℕ} (hi : (e, i) ∈ c.zipIdx) (hec : e.state = .committed) :
    stableHistoryCounter c i e.startTs = .ok 0 := by
  have hget := List.mem_zipIdx_iff_getElem?.1 hi
  obtain ⟨hlt, hget⟩ := List.getElem?_eq_some_iff.1 hget
  have hnil : ((c.take i).filter fun d => d.state = .committed ∧ d.startTs = e.startTs) = [] := by
    refine filter_eq_nil_iff.2 fun d hd => ?_
    simp only [decide_eq_true_eq, not_and]
    intro hdc hst
    -- d is in front of e, so e ends before d starts
    have hp := h.apart
    rw [← take_append_drop i c, filter_append] at hp
    have hedrop : e ∈ c.drop i := by rw [drop_eq_getElem_cons hlt, hget]; exact mem_cons_self
    have hle :=
      (pairwise_append.1 hp).2.2 d (mem_filter.2 ⟨hd, decide_eq_true hdc⟩) e (mem_filter.2 ⟨hedrop, decide_eq_true hec⟩)
    have he : e ∈ c := mem_of_mem_drop hedrop
    exact absurd (hst ▸ hle) (not_le.2 (h.proper e he hec))
  simp only [stableHistoryCounter, hnil]
  rfl

/-- the winner's position is the only one its entry has -/
theorem winnerIndex_iff {i : ℕ} (hi : (d, i) ∈ c.zipIdx) (hf : foldable checkpointTs d = true) :
    some i = checkpointWinnerIndex c checkpointTs ↔ checkpointWinner c checkpointTs = some d := by
  have hget := mem_zipIdx_iff_getElem?.1 hi
  constructor
  · intro hidx
    simp [checkpointWinner, ← hidx, hget]
  · intro hw
    obtain ⟨pre, post, rfl, -, hpre, hpost, hidx⟩ := h.winner_split (h.winner_eq ▸ hw)
    have hc := (foldable_iff.1 hf).1
    rw [hidx, Option.some.injEq]
    rcases lt_trichotomy i pre.length with hlt | heq | hgt
    · -- in front of the winner nothing can be folded
      rw [getElem?_append_left hlt] at hget
      rw [hpre d (mem_of_getElem? hget)] at hf; cases hf
    · exact heq
    · -- behind it everything ends before it starts
      rw [getElem?_append_right hgt.le, getElem?_cons, if_neg (by omega)] at hget
      exact absurd (hpost d (mem_of_getElem? hget) hc) (not_le.2 (h.proper d (by simp) hc))

/-- the spilled entries: those still needed, except the winner -/
theorem spill_iff {ident : TreeIdent} {key : Key} {f : KeyFold}
    (hf : foldKey ident key checkpointTs oldestRequiredTs c = .ok f) (w : HistorySpillEntry) :
    w ∈ f.spill ↔ w.ident = ident ∧ w.key = key ∧ w.counter = 0 ∧ w.entry ∈ c ∧
      spilled checkpointTs oldestRequiredTs w.entry = true ∧ checkpointWinner c checkpointTs ≠ some w.entry := by
  rw [(foldKey_ok hf).2.2]
  constructor
  · rintro ⟨⟨e, i⟩, hp, hi, hsp, hc, h1, h2, rfl⟩
    have hfe := (spilled_iff.1 hsp).1
    rw [h.counter_zero hp (foldable_iff.1 hfe).1, Except.ok.injEq] at hc
    exact ⟨h1, h2, hc.symm, fst_mem_of_mem_zipIdx hp, hsp, fun hw => hi ((h.winnerIndex_iff hp hfe).2 hw)⟩
  · rintro ⟨h1, h2, h0, hmem, hsp, hw⟩
    have hfe := (spilled_iff.1 hsp).1
    obtain ⟨i, hlt, hget⟩ := mem_iff_getElem.1 hmem
    have hp : (w.entry, i) ∈ c.zipIdx := mem_zipIdx_iff_getElem?.2 (by rw [getElem?_eq_getElem hlt, hget])
    refine ⟨(w.entry, i), hp, fun hi => hw ((h.winnerIndex_iff hp hfe).1 hi), hsp, ?_, h1, h2, rfl⟩
    rw [h.counter_zero hp (foldable_iff.1 hfe).1, h0]

end

end DisjointNewestFirst

/-! ## One key after the fold -/

/-- rows after the fold of a chain: what was there, and the spilled entries -/
def Spilled (checkpointTs oldestRequiredTs : Ts) (c : Chain) (rows rows' : HistoryRows) : Prop :=
  ∀ k e, rows'.get? k = some e ↔ rows.get? k = some e ∨ (k = toLex (e.startTs, 0) ∧ e ∈ c ∧
    spilled checkpointTs oldestRequiredTs e = true ∧ checkpointWinner c checkpointTs ≠ some e)

/-- the base cell after the fold -/
def cellAfter (checkpointTs : Ts) (c : Chain) (cell : Option VersionData) : Option VersionData :=
  ((checkpointWinner c checkpointTs).map foldedCell).getD cell

/-- **The fold at one key.** Whether or not the key has a chain, chain, rows and cell change as described. -/
theorem fold_at_key {baseImage : FoldedLeafImage} {chains : OrdMap Key Chain} {checkpointTs oldestRequiredTs : Ts}
    {ident : TreeIdent} {r : PageSynthesisResult} {history history' : HistoryStore}
    (hd : ∀ k c, chains.get? k = some c → DisjointNewestFirst c)
    (h : synthesizePage baseImage chains checkpointTs oldestRequiredTs ident = .ok r)
    (hspill : commitSpillTxn history r.historySpill = .ok history') (k : Key) :
    let c := (chains.get? k).getD []
    DisjointNewestFirst c ∧ (r.retainedChains.get? k).getD [] = c.filter (kept checkpointTs) ∧
      r.newBase.cells.get? k = cellAfter checkpointTs c (baseImage.cells.get? k) ∧
      Spilled checkpointTs oldestRequiredTs c (history ident k) (history' ident k) := by
  intro c
  obtain ⟨hnone, hsome⟩ := synthesizePage_key h k
  cases hc : chains.get? k with
  | none =>
    obtain ⟨h1, h2, h3⟩ := hnone hc
    have hcnil : c = [] := by simp [c, hc]
    rw [hcnil]
    refine ⟨DisjointNewestFirst.nil, h2, h1, fun j e => ?_⟩
    rw [commitSpillTxn_get? hspill]
    refine or_congr_right ⟨?_, ?_⟩
    · rintro ⟨w, hw, -, rfl, -⟩
      exact absurd rfl (h3 w hw)
    · rintro ⟨-, hm, -⟩
      cases hm
  | some c' =>
    have hcc : c = c' := by simp [c, hc]
    rw [hcc]
    have hdc := hd k c' hc
    obtain ⟨f, hf, h1, h2, h3⟩ := hsome c' hc
    refine ⟨hdc, h2.trans (foldKey_ok hf).2.1, by rw [h1, (foldKey_ok hf).1]; rfl, fun j e => ?_⟩
    rw [commitSpillTxn_get? hspill]
    refine or_congr_right ⟨?_, ?_⟩
    · rintro ⟨w, hw, -, hk, rfl, rfl⟩
      obtain ⟨-, -, h0, hm, hsp, hwin⟩ := (hdc.spill_iff hf w).1 ((h3 w hk.symm).1 hw)
      exact ⟨by rw [HistorySpillEntry.rowKey, h0], hm, hsp, hwin⟩
    · rintro ⟨rfl, hm, hsp, hwin⟩
      refine ⟨⟨ident, k, e, 0⟩, (h3 _ rfl).2 ((hdc.spill_iff hf _).2 ⟨rfl, rfl, rfl, hm, hsp, hwin⟩), rfl,
        rfl, rfl, rfl⟩

/-! ## The condition -/

section Survives

variable (pages : ℕ → ℕ → Bytes) (kind : TreeKind) (checkpointTs : Ts) (frontier : Ts) (view : ReadView) (c : Chain)
  (rows : HistoryRows) (cell : Option VersionData)

/-- the version a view reads is still found after the fold, or what is found in its place has the same value -/
def Survives : Prop :=
  match visibleAt frontier view c with
  | some e =>
    -- a chain entry: it stays, or nothing that stays or is stored already comes before its new place
    kept checkpointTs e = true ∨
      match visibleAt frontier view (c.filter (kept checkpointTs)) with
      | some p => entryValue pages p = entryValue pages e
      | none =>
        match visibleEntry kind
          (if checkpointWinner c checkpointTs = some e then rows else rows.insert (toLex (e.startTs, 0)) e)
            view.readTs with
        | some h => entryValue pages h = entryValue pages e
        | none => (checkpointWinner c checkpointTs).bind (entryValue pages) = entryValue pages e
  | none =>
    -- a history row or the base cell: the row was consulted before, and the cell is not overwritten
    match if historyIsCandidate view.readTs (c.filter (kept checkpointTs)) then visibleEntry kind rows view.readTs
      else none with
    | some h => historyIsCandidate view.readTs c = true ∨ entryValue pages h = cell.map (resolveVersionData pages)
    | none => ∀ w, checkpointWinner c checkpointTs = some w → entryValue pages w = cell.map (resolveVersionData pages)

end Survives

/-! ## Lookup before and after -/

section Lookup

variable {pages : ℕ → ℕ → Bytes} {kind : TreeKind} {checkpointTs oldestRequiredTs : Ts} {frontier : Ts}
  {view : ReadView} {c : Chain} {rows rows' : HistoryRows} {cell : Option VersionData} {e : VersionEntry}

/-- the first visible entry, if it stays, is the first visible one of those that stay -/
theorem visibleAt_filter_of_kept (he : visibleAt frontier view c = some e) (hk : kept checkpointTs e = true) :
    visibleAt frontier view (c.filter (kept checkpointTs)) = some e := by
  obtain ⟨hve, pre, post, rfl, hpre⟩ := find?_eq_some_iff_append.1 he
  rw [visibleAt, find?_eq_some_iff_append]
  refine ⟨hve, pre.filter (kept checkpointTs), post.filter (kept checkpointTs), by simp [hk], fun d hd => ?_⟩
  exact hpre d (mem_filter.1 hd).1

theorem visibleAt_filter_none (he : visibleAt frontier view c = none) :
    visibleAt frontier view (c.filter (kept checkpointTs)) = none :=
  find?_eq_none.2 fun d hd => find?_eq_none.1 he d (mem_filter.1 hd).1

/-- a visible entry that does not stay is committed, and old enough to be folded -/
theorem foldable_of_visible (he : visibleAt frontier view c = some e) (hk : kept checkpointTs e ≠ true) :
    foldable checkpointTs e = true ∧ e.startTs ≤ view.readTs ∧ view.readTs < e.stopTs := by
  have hv := find?_some he
  cases hs : e.state with
  | pending t => simp [kept, hs] at hk
  | aborted => simp [versionVisibleTo, hs] at hv
  | committed =>
    simp only [kept, hs, ne_eq, decide_eq_true_eq, gt_iff_lt, not_lt] at hk
    simp only [versionVisibleTo, hs, decide_eq_true_eq] at hv
    exact ⟨foldable_iff.2 ⟨hs, hk⟩, hv⟩

/-- a committed entry whose interval holds `read_ts` is visible -/
theorem visible_of_committed {d : VersionEntry} (hd : d.state = .committed)
    (hr : d.startTs ≤ view.readTs ∧ view.readTs < d.stopTs) : versionVisibleTo frontier view d = true := by
  simp [versionVisibleTo, hd, hr]

/-- once the version read has left the chain, the rest of the chain does not keep the view from the history store -/
theorem candidate_of_folded (h : DisjointNewestFirst c) (he : visibleAt frontier view c = some e)
    (hk : kept checkpointTs e ≠ true) (hnone : visibleAt frontier view (c.filter (kept checkpointTs)) = none) :
    historyIsCandidate view.readTs (c.filter (kept checkpointTs)) = true := by
  obtain ⟨hf, hr⟩ := foldable_of_visible he hk
  obtain ⟨hec, hets⟩ := foldable_iff.1 hf
  have hem := mem_of_find?_eq_some he
  refine all_eq_true.2 fun d hd => ?_
  obtain ⟨hdm, hdk⟩ := mem_filter.1 hd
  have hnv := find?_eq_none.1 hnone d hd
  cases hs : d.state with
  | pending t => simp
  | aborted => simp [kept, hs] at hdk
  | committed =>
    simp only [kept, hs, decide_eq_true_eq] at hdk
    by_contra hle
    have hle : d.startTs ≤ view.readTs := not_lt.1 (by simpa using hle)
    -- d has ended, inside e's interval
    have hne : e ≠ d := fun heq => absurd (heq ▸ hets) (not_le.2 hdk)
    rcases h.disjoint hem hdm hec hs hne with h1 | h1
    · exact absurd (hr.2.trans_le h1) (not_lt.2 hle)
    · exact absurd (hdk.trans (h.proper d hdm hs)) (not_lt.2 (h1.trans hets))

/-- a version that a protected view reads and that leaves the chain is the winner or is spilled: it is not dropped -/
theorem spilled_of_folded (h : DisjointNewestFirst c) (hview : min oldestRequiredTs checkpointTs ≤ view.readTs)
    (he : visibleAt frontier view c = some e) (hk : kept checkpointTs e ≠ true)
    (hw : checkpointWinner c checkpointTs ≠ some e) : spilled checkpointTs oldestRequiredTs e = true := by
  obtain ⟨hf, hr⟩ := foldable_of_visible he hk
  have hem := mem_of_find?_eq_some he
  refine spilled_iff.2 ⟨hf, not_le.1 fun hstop => ?_⟩
  -- the view is below oldest_required_ts, so it is at or above checkpoint_ts
  have hck : checkpointTs ≤ view.readTs := by
    rcases min_le_iff.1 hview with h1 | h1
    · exact absurd (hr.2.trans_le (hstop.trans h1)) (lt_irrefl _)
    · exact h1
  cases hwin : checkpointWinner c checkpointTs with
  | none =>
    rw [h.winner_eq] at hwin
    exact find?_eq_none.1 hwin e hem hf
  | some w =>
    obtain ⟨hwm, hwc, hwt⟩ := h.winner_mem hwin
    have hne : w ≠ e := fun heq => hw (heq ▸ hwin)
    rcases h.disjoint hwm hem hwc (foldable_iff.1 hf).1 hne with h1 | h1
    · exact absurd ((h.proper w hwm hwc).trans_le h1) (not_lt.2 (h.le_winner hwin hem hf))
    · exact absurd (hr.2.trans_le (h1.trans (hwt.trans hck))) (lt_irrefl _)

/-- the only spilled row that is visible is the version read -/
theorem newestVisible_spilled (hd : DisjointNewestFirst c) (h : Spilled checkpointTs oldestRequiredTs c rows rows')
    (hview : min oldestRequiredTs checkpointTs ≤ view.readTs) (he : visibleAt frontier view c = some e)
    (hk : kept checkpointTs e ≠ true) : newestVisible rows' view.readTs = newestVisible
      (if checkpointWinner c checkpointTs = some e then rows else rows.insert (toLex (e.startTs, 0)) e)
        view.readTs := by
  obtain ⟨hf, hr⟩ := foldable_of_visible he hk
  have hem := mem_of_find?_eq_some he
  refine newestVisible_congr fun k d hv => (h k d).trans ?_
  have hsame : d ∈ c → spilled checkpointTs oldestRequiredTs d = true → d = e := fun hm hsp =>
    hd.unique hm hem (foldable_iff.1 (spilled_iff.1 hsp).1).1 (foldable_iff.1 hf).1 (of_decide_eq_true hv).2 hr
  by_cases hw : checkpointWinner c checkpointTs = some e
  · rw [if_pos hw]
    refine or_iff_left ?_
    rintro ⟨-, hm, hsp, hne⟩
    exact hne (hsame hm hsp ▸ hw)
  · rw [if_neg hw, OrdMap.get?_insert]
    have hsp := spilled_of_folded hd hview he hk hw
    have hkey : rows'.get? (toLex (e.startTs, 0)) = some e := (h _ e).2 (.inr ⟨rfl, hem, hsp, hw⟩)
    by_cases hke : k = toLex (e.startTs, 0)
    · rw [if_pos hke, Option.some.injEq]
      constructor
      · rintro (hold | ⟨-, hm, hs, -⟩)
        · have := (h k d).2 (.inl hold)
          rw [hke, hkey, Option.some.injEq] at this
          exact this
        · exact (hsame hm hs).symm
      · rintro rfl
        exact .inr ⟨hke, hem, hsp, hw⟩
    · rw [if_neg hke]
      refine or_iff_left ?_
      rintro ⟨hk', hm, hs, -⟩
      exact hke (hsame hm hs ▸ hk')

theorem foldedCell_value (w : VersionEntry) : (foldedCell w).map (resolveVersionData pages) = entryValue pages w := by
  unfold foldedCell entryValue
  split_ifs <;> rfl

/-- the cell reads as the winner does, if there is one -/
theorem cellAfter_value : (cellAfter checkpointTs c cell).map (resolveVersionData pages) =
    match checkpointWinner c checkpointTs with
    | some w => entryValue pages w
    | none => cell.map (resolveVersionData pages) := by
  unfold cellAfter
  cases checkpointWinner c checkpointTs with
  | none => rfl
  | some w => exact foldedCell_value w

theorem candidate_filter (h : historyIsCandidate view.readTs c = true) :
    historyIsCandidate view.readTs (c.filter (kept checkpointTs)) = true :=
  all_eq_true.2 fun d hd => all_eq_true.1 h d (mem_filter.1 hd).1

/-- **One key.** The lookup gives the same after the fold exactly when the version it reads survives. -/
theorem lookup_fold_iff (hd : DisjointNewestFirst c) (h : Spilled checkpointTs oldestRequiredTs c rows rows')
    (hview : min oldestRequiredTs checkpointTs ≤ view.readTs) :
    getFitting pages frontier view kind (c.filter (kept checkpointTs)) rows' (cellAfter checkpointTs c cell) =
      getFitting pages frontier view kind c rows cell ↔ Survives pages kind checkpointTs frontier view c rows cell := by
  cases he : visibleAt frontier view c with
  | some e =>
    by_cases hk : kept checkpointTs e = true
    · simp [getFitting, Survives, he, visibleAt_filter_of_kept he hk, hk]
    · cases hp : visibleAt frontier view (c.filter (kept checkpointTs)) with
      | some p => simp [getFitting, Survives, he, hp, hk]
      | none =>
        have hcand := candidate_of_folded hd he hk hp
        have hprobe : visibleEntry kind rows' view.readTs = visibleEntry kind
            (if checkpointWinner c checkpointTs = some e then rows else rows.insert (toLex (e.startTs, 0)) e)
              view.readTs := by
          simp only [visibleEntry, newestVisible_spilled hd h hview he hk]
        simp only [getFitting, Survives, he, hp, hk, hcand, if_true, hprobe, Bool.false_eq_true, false_or,
          cellAfter_value]
        cases visibleEntry kind
          (if checkpointWinner c checkpointTs = some e then rows else rows.insert (toLex (e.startTs, 0)) e)
            view.readTs with
        | some r => exact Iff.rfl
        | none =>
          -- an entry could be folded, so there is a winner
          cases hw : checkpointWinner c checkpointTs with
          | some w => exact Iff.rfl
          | none =>
            rw [hd.winner_eq] at hw
            exact absurd (foldable_of_visible he hk).1 (find?_eq_none.1 hw e (mem_of_find?_eq_some he))
  | none =>
    have hprobe : visibleEntry kind rows' view.readTs = visibleEntry kind rows view.readTs := by
      rw [visibleEntry, visibleEntry]
      -- no spilled row is visible
      rw [newestVisible_congr fun k d hv => (h k d).trans (or_iff_left ?_)]
      rintro ⟨-, hm, hsp, -⟩
      have hdc := (foldable_iff.1 (spilled_iff.1 hsp).1).1
      exact find?_eq_none.1 he d hm (visible_of_committed hdc (of_decide_eq_true hv).2)
    simp only [getFitting, Survives, he, visibleAt_filter_none he, hprobe, cellAfter_value]
    by_cases hc : historyIsCandidate view.readTs c = true
    · -- history was consulted before and is consulted again
      simp only [hc, candidate_filter hc, if_true]
      cases visibleEntry kind rows view.readTs with
      | some r => simp
      | none => cases checkpointWinner c checkpointTs <;> simp
    · simp only [hc, Bool.false_eq_true, if_false]
      cases if historyIsCandidate view.readTs (c.filter (kept checkpointTs)) = true
        then visibleEntry kind rows view.readTs else none with
      | some r => simp
      | none => cases checkpointWinner c checkpointTs <;> simp

end Lookup

/-! ## Main result -/

/-- the rows of a key fit, and so do the versions that a fold adds to them -/
def FoldFits (checkpointTs oldestRequiredTs : Ts) (c : Chain) (rows : HistoryRows) : Prop :=
  RowsFit rows ∧ ∀ e ∈ c, spilled checkpointTs oldestRequiredTs e = true →
    checkpointWinner c checkpointTs ≠ some e → RowFits e

theorem FoldFits.spilled {checkpointTs oldestRequiredTs : Ts} {c : Chain} {rows rows' : HistoryRows}
    (h : FoldFits checkpointTs oldestRequiredTs c rows) (hs : Spilled checkpointTs oldestRequiredTs c rows rows') :
    RowsFit rows' := by
  intro k e hk
  rcases (hs k e).1 hk with hold | ⟨-, he, hsp, hne⟩
  · exact h.1 k e hold
  · exact h.2 e he hsp hne

/-- **Snapshots across a fold.** For every leaf, every map of chains with disjoint committed intervals, every history
content, checkpoint and horizon: when synthesis succeeds and its spills are written, and the rows of a key fit before
and after, a view at or above the horizon or the checkpoint reads the same value of the key before and after, if and
only if the version it reads survives. -/
theorem fold_snapshot_iff (pages : ℕ → ℕ → Bytes) (baseImage : FoldedLeafImage) (chains : OrdMap Key Chain)
    (checkpointTs oldestRequiredTs : Ts) (ident : TreeIdent) (r : PageSynthesisResult) (history history' : HistoryStore)
    (hd : ∀ k c, chains.get? k = some c → DisjointNewestFirst c)
    (h : synthesizePage baseImage chains checkpointTs oldestRequiredTs ident = .ok r)
    (hspill : commitSpillTxn history r.historySpill = .ok history') (key : Key) (frontier : Ts) (view : ReadView)
    (hview : min oldestRequiredTs checkpointTs ≤ view.readTs)
    (hfits : FoldFits checkpointTs oldestRequiredTs ((chains.get? key).getD []) (history ident key)) :
    getMvcc pages frontier view ident.kind ((r.retainedChains.get? key).getD []) (history' ident key)
      (r.newBase.cells.get? key) =
      getMvcc pages frontier view ident.kind ((chains.get? key).getD []) (history ident key)
        (baseImage.cells.get? key) ↔
    Survives pages ident.kind checkpointTs frontier view ((chains.get? key).getD []) (history ident key)
      (baseImage.cells.get? key) := by
  obtain ⟨hdisj, hchain, hcell, hrows⟩ := fold_at_key hd h hspill key
  rw [hchain, hcell, getMvcc_fits (hfits.spilled hrows), getMvcc_fits hfits.1, Except.ok.injEq]
  exact lookup_fold_iff hdisj hrows hview

/-- a leaf with one cell, and a version committed at 10 for its key -/
def leafOne : FoldedLeafImage := ⟨OrdMap.empty.insert [7] (.inline [1]), ⟨0, 0⟩⟩

def chainsOne : OrdMap Key Chain := OrdMap.empty.insert [7] [⟨⟨10, 0⟩, Ts.MAX, 1, .committed, .inline [2], false⟩]

theorem chainsOne_disjoint : ∀ k c, chainsOne.get? k = some c → DisjointNewestFirst c := by
  intro k c hc
  rw [chainsOne, OrdMap.get?_insert] at hc
  split_ifs at hc
  · cases hc
    exact ⟨by decide, by decide⟩
  · cases hc

/-- a view above the new version reads it before and after -/
theorem fold_snapshot_newer_view : ∃ r history', synthesizePage leafOne chainsOne ⟨20, 0⟩ ⟨5, 0⟩ ⟨1, .primary⟩ = .ok r ∧
      commitSpillTxn (fun _ _ => OrdMap.empty) r.historySpill = .ok history' ∧
      getMvcc (fun _ _ => []) ⟨20, 0⟩ ⟨⟨15, 0⟩, 9⟩ .primary ((r.retainedChains.get? [7]).getD [])
        (history' ⟨1, .primary⟩ [7]) (r.newBase.cells.get? [7]) = .ok (some [2]) := by
  obtain ⟨r, hr, hs⟩ : ∃ r, synthesizePage leafOne chainsOne ⟨20, 0⟩ ⟨5, 0⟩ ⟨1, .primary⟩ = .ok r ∧
      r.historySpill = [] := ⟨_, rfl, rfl⟩
  refine ⟨r, _, hr, by rw [hs]; rfl, ?_⟩
  refine ((fold_snapshot_iff (fun _ _ => []) leafOne chainsOne ⟨20, 0⟩ ⟨5, 0⟩ ⟨1, .primary⟩ r
    (fun _ _ => OrdMap.empty) _ chainsOne_disjoint hr (by rw [hs]; rfl) [7] ⟨20, 0⟩ ⟨⟨15, 0⟩, 9⟩ (by decide)
    ⟨rowsFit_empty, by decide⟩).2 ?_).trans ?_
  · exact .inr rfl
  · rfl

/-- **A held view loses its base cell.** The view is as old as the horizon allows; before the fold it reads the base
cell, after it the version committed later. -/
theorem held_view_loses_base_cell :
    ∃ r, synthesizePage leafOne chainsOne ⟨20, 0⟩ ⟨5, 0⟩ ⟨1, .primary⟩ = .ok r ∧ r.historySpill = [] ∧
      getMvcc (fun _ _ => []) ⟨20, 0⟩ ⟨⟨5, 0⟩, 9⟩ .primary ((chainsOne.get? [7]).getD []) OrdMap.empty
        (leafOne.cells.get? [7]) = .ok (some [1]) ∧
      getMvcc (fun _ _ => []) ⟨20, 0⟩ ⟨⟨5, 0⟩, 9⟩ .primary ((r.retainedChains.get? [7]).getD []) OrdMap.empty
        (r.newBase.cells.get? [7]) = .ok (some [2]) :=
  ⟨_, rfl, rfl, by decide, by decide⟩

end Mqlite.Storage
