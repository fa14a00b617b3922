/-
The shape of a version chain that installs and flips keep, whatever the order of the commit timestamps.

`Stacked c`: a transaction has at most one Pending entry, tagged with its own id, entries start at distinct real
timestamps, and the live entries form an anchored stack (`Lib.Anchored`) in which no two entries end at the same
instant. Entries need NOT be in descending start order: an install may go on top of a version with a later start.

Results:
- `Stacked.push`, `Stacked.commit`, `Stacked.abort`: the three operations on a chain keep the shape;
- `liveHead_eq_head?`: the live head is the first live entry;
- `visibleAt_eq`: a coherent view reads the first live entry that is its own or starts at or before its timestamp;
- `forget_abort`: up to the ends of intervals, an abort takes the transaction's entry out and changes nothing else;
- `visibleAt_congr`: chains that agree on their live entries up to interval ends give a coherent view the same version.
-/
import Mqlite.Lib.Stack
import Mqlite.Mvcc.PendingInstall

namespace Mqlite.Mvcc

open Lib List VersionEntry

/-- the shape every chain keeps under installs and flips -/
structure Stacked (c : Chain) : Prop where
  /-- a transaction has at most one Pending entry -/
  single : c.Pairwise fun a b => ∀ t, a.state = .pending t → b.state ≠ .pending t
  starts : (c.map (·.startTs)).Nodup
  tagged : ∀ e ∈ c, ∀ t, e.state = .pending t → t = e.txnId
  finite : ∀ e ∈ c, e.startTs < Ts.MAX
  anchored : Anchored VersionEntry.startTs VersionEntry.stopTs ∅ (live c)
  /-- no two live entries end at the same real instant -/
  stops : (live c).Pairwise fun a b => a.stopTs = b.stopTs → a.stopTs = Ts.MAX

variable {c : Chain} {t : TxnId} {frontier ts : Ts} {view : ReadView} {e : VersionEntry}

/-- an operation that leaves all states alone leaves at most one Pending entry to each transaction -/
theorem single_of_map {d : Chain} (h : d.map state = c.map state)
    (hc : c.Pairwise fun a b => ∀ t, a.state = .pending t → b.state ≠ .pending t) :
    d.Pairwise fun a b => ∀ t, a.state = .pending t → b.state ≠ .pending t := by
  have hstates : (c.map state).Pairwise fun a b => ∀ t, a = .pending t → b ≠ .pending t :=
    pairwise_map.2 hc
  rw [← h] at hstates
  exact pairwise_map.1 hstates

theorem stacked_nil : Stacked [] :=
  ⟨List.Pairwise.nil, nodup_nil, by simp, by simp, trivial, List.Pairwise.nil⟩

/-! ## The live head and the lookup -/

/-- a live entry is a live head when nothing has superseded it -/
theorem liveHead_eq_find? (c : Chain) : liveHead c = (live c).find? fun e => e.stopTs = Ts.MAX := by
  unfold liveHead
  induction c with
  | nil => rfl
  | cons e c ih =>
    by_cases he : e.state = .aborted
    · rw [live_cons_of_aborted he, find?_cons_of_neg (by simp [he]), ih]
    · rw [live_cons_of_live he, find?_cons, find?_cons, ih]
      have : e.isLiveHead = decide (e.stopTs = Ts.MAX) := by simp [isLiveHead, he]
      rw [this]

theorem liveHead_eq_head? (h : Stacked c) : liveHead c = (live c).head? := by
  rw [liveHead_eq_find?]
  have ha := h.anchored
  cases hl : live c with
  | nil => rfl
  | cons e l =>
    rw [hl] at ha
    rw [find?_cons_of_pos (by simpa using ha.head_stop)]
    rfl

/-- what a primary install that proceeds has found: nothing live, the expected version, or a tombstone -/
theorem proceed_primary (h : Stacked c) (ht : ∀ e ∈ c, e.state ≠ .pending t)
    {expectedHead : Option ExpectedHead} {key : Key}
    (hclass : classifyDeltaInstall c expectedHead .primary key t = .ok .proceed) :
    live c = [] ∨ ∃ head l, live c = head :: l ∧ head.state = .committed ∧
      (expectedHead = some head.headId ∧ head.isTombstone = false ∨ expectedHead = none ∧ head.isTombstone = true) := by
  unfold classifyDeltaInstall at hclass
  rw [liveHead_eq_head? h] at hclass
  cases hl : live c with
  | nil => exact .inl rfl
  | cons head l =>
    have hhead : head ∈ c := (mem_live.1 (hl ▸ mem_cons_self)).1
    rw [hl] at hclass
    simp only [head?_cons, ht head hhead, if_false] at hclass
    refine .inr ⟨head, l, rfl, ?_⟩
    cases expectedHead with
    | none =>
      simp only at hclass
      split_ifs at hclass with hc
      exact ⟨hc.1, .inr ⟨rfl, hc.2⟩⟩
    | some v =>
      simp only at hclass
      split_ifs at hclass with hv hc
      exact ⟨hc.1, .inl ⟨congrArg some hv.symm, by simpa using hc.2⟩⟩

theorem visible_iff_of_coherent (hv : view.Coherent frontier) (he : e.state ≠ .aborted) :
    versionVisibleTo frontier view e =
      (e.isPendingOf view.txnId || decide (e.startTs ≤ view.readTs ∧ view.readTs < e.stopTs)) := by
  unfold versionVisibleTo isPendingOf
  cases hs : e.state with
  | aborted => exact absurd hs he
  | committed => simp
  | pending t =>
    by_cases ht : t = view.txnId
    · simp [ht]
    · have hf : e.startTs ≤ view.readTs → e.startTs ≤ frontier := fun h => h.trans hv
      simp only [ht, if_false, VersionState.pending.injEq, decide_false, Bool.false_or, decide_eq_decide]
      tauto

/-- **Lookup.** The ends of the intervals play no part in what a coherent view reads. -/
theorem visibleAt_eq (h : Stacked c) (hv : view.Coherent frontier) (hr : view.readTs < Ts.MAX) :
    visibleAt frontier view c =
      (live c).find? fun e => e.isPendingOf view.txnId || decide (e.startTs ≤ view.readTs) := by
  rw [← visibleAt_live, ← find?_interval _ hr h.anchored (by simp)]
  exact find?_congr fun e he => visible_iff_of_coherent hv (mem_live.1 he).2

/-! ## The operations keep the shape -/

/-- on an anchored stack superseding ends the first entry -/
theorem supersede_live (h : Stacked c) (ts : Ts) :
    supersede ts (live c) = (match live c with | [] => [] | e :: l => { e with stopTs := ts } :: l) := by
  have ha := h.anchored
  have hm : ∀ e ∈ live c, e.state ≠ .aborted := fun e he => (mem_live.1 he).2
  cases hl : live c with
  | nil => rfl
  | cons e l =>
    rw [hl] at ha hm
    rw [supersede, if_pos (isLiveHead_iff.2 ⟨ha.head_stop, hm e mem_cons_self⟩)]

theorem Stacked.push {c : Chain} (h : Stacked c) {t : TxnId} {ts : Ts} (ht : ∀ e ∈ c, e.state ≠ .pending t)
    (hts : ts ∉ c.map (·.startTs)) (hmax : ts < Ts.MAX) (op : WriteOp) : Stacked (pushPending c ts t op) := by
  have hsup : ∀ e ∈ supersede ts c, ∃ d ∈ c, ∃ s, e = { d with stopTs := s } := fun e he =>
    exists_of_forgetStop_eq (forgetStop_supersede ts c) he
  constructor
  · refine pairwise_cons.2 ⟨fun e he u hu hpend => ?_, ?_⟩
    · obtain ⟨d, hd, s, rfl⟩ := hsup e he
      cases hu
      exact ht d hd hpend
    · exact single_of_map (map_supersede _ (fun _ _ => rfl) ts c) h.single
  · rw [pushPending, map_cons, map_supersede _ (fun _ _ => rfl)]
    exact nodup_cons.2 ⟨hts, h.starts⟩
  · intro e he u hu
    rcases mem_cons.1 he with rfl | he
    · exact (VersionState.pending.inj hu).symm
    · obtain ⟨d, hd, s, rfl⟩ := hsup e he
      exact h.tagged d hd u hu
  · intro e he
    rcases mem_cons.1 he with rfl | he
    · exact hmax
    · obtain ⟨d, hd, s, rfl⟩ := hsup e he
      exact h.finite d hd
  · rw [live_pushPending, supersede_live h]
    have ha := h.anchored
    cases hl : live c with
    | nil => exact ⟨.inl rfl, trivial⟩
    | cons e l =>
      rw [hl] at ha
      exact ha.push rfl rfl rfl
  · rw [live_pushPending, supersede_live h]
    have hst := h.stops
    -- every end is infinity or some start, so none is the fresh ts
    have hne : ∀ e ∈ live c, e.stopTs ≠ ts := by
      intro e he heq
      rcases h.anchored.stop_mem he with h1 | h1 | ⟨d, hd, h1⟩
      · exact hmax.ne (heq.symm.trans h1)
      · exact h1
      · exact hts (mem_map.2 ⟨d, (mem_live.1 hd).1, h1.symm.trans heq⟩)
    cases hl : live c with
    | nil => simp
    | cons e l =>
      rw [hl] at hst hne
      obtain ⟨h1, h2⟩ := pairwise_cons.1 hst
      refine pairwise_cons.2 ⟨fun d _ _ => rfl, pairwise_cons.2 ⟨fun d hd heq => ?_, h2⟩⟩
      exact absurd heq.symm (hne d (mem_cons_of_mem _ hd))

theorem commitEntry_eq (h : e.state = .pending t → e.startTs = ts) :
    commitEntry t ts e = { e with state := if e.state = .pending t then .committed else e.state } := by
  unfold commitEntry
  by_cases hp : e.state = .pending t
  · simp [hp, ← h hp]
  · simp [hp]

theorem Stacked.commit {c : Chain} (h : Stacked c) {t : TxnId} {ts : Ts}
    (hts : ∀ e ∈ c, e.state = .pending t → e.startTs = ts) : Stacked (flipPendingInChain c t (some ts)) := by
  have hmap : flipPendingInChain c t (some ts) =
      c.map fun e => { e with state := if e.state = .pending t then .committed else e.state } := by
    rw [flip_committed]
    exact map_congr_left fun e he => commitEntry_eq (hts e he)
  have hlive : live (flipPendingInChain c t (some ts)) =
      (live c).map fun e => { e with state := if e.state = .pending t then .committed else e.state } := by
    rw [live_flip_committed]
    exact map_congr_left fun e he => commitEntry_eq (hts e (mem_live.1 he).1)
  constructor
  · rw [hmap]
    refine pairwise_map.2 (h.single.imp fun {a b} hab u hu => ?_)
    split_ifs at hu with ha
    split_ifs with hb
    · simp
    · exact hab u hu
  · rw [hmap, map_map]; exact h.starts
  · intro e he u hu
    rw [hmap] at he
    obtain ⟨d, hd, rfl⟩ := mem_map.1 he
    split_ifs at hu with hp
    exact h.tagged d hd u hu
  · intro e he
    rw [hmap] at he
    obtain ⟨d, hd, rfl⟩ := mem_map.1 he
    exact h.finite d hd
  · rw [hlive]
    refine anchored_map ?_ ?_ h.anchored
    · exact fun _ => rfl
    · exact fun _ => rfl
  · rw [hlive]
    exact pairwise_map.2 h.stops

/-! ## Abort -/

theorem mem_restore (h : e ∈ restorePreviousHeadAfterAbort ts c) :
    e ∈ c ∨ ∃ d ∈ c, e = { d with stopTs := Ts.MAX } := by
  induction c with
  | nil => cases h
  | cons d c ih =>
    unfold restorePreviousHeadAfterAbort at h
    split_ifs at h
    · rcases mem_cons.1 h with rfl | h
      · exact .inr ⟨d, mem_cons_self, rfl⟩
      · exact .inl (mem_cons_of_mem _ h)
    · rcases mem_cons.1 h with rfl | h
      · exact .inl mem_cons_self
      · rcases ih h with h | ⟨x, hx, rfl⟩
        · exact .inl (mem_cons_of_mem _ h)
        · exact .inr ⟨x, mem_cons_of_mem _ hx, rfl⟩

theorem anchored_restore (ts : Ts) {A : Set Ts} (h : Anchored startTs stopTs A c) :
    Anchored startTs stopTs A (restorePreviousHeadAfterAbort ts c) := by
  induction c generalizing A with
  | nil => trivial
  | cons e c ih =>
    unfold restorePreviousHeadAfterAbort
    split_ifs
    · exact ⟨.inl rfl, h.2⟩
    · exact ⟨h.1, ih h.2⟩

theorem pairwise_stops_restore (ts : Ts) (h : c.Pairwise fun a b => a.stopTs = b.stopTs → a.stopTs = Ts.MAX) :
    (restorePreviousHeadAfterAbort ts c).Pairwise fun a b => a.stopTs = b.stopTs → a.stopTs = Ts.MAX := by
  induction c with
  | nil => exact h
  | cons e c ih =>
    obtain ⟨h1, h2⟩ := pairwise_cons.1 h
    unfold restorePreviousHeadAfterAbort
    split_ifs
    · exact pairwise_cons.2 ⟨fun _ _ _ => rfl, h2⟩
    · refine pairwise_cons.2 ⟨fun d hd heq => ?_, ih h2⟩
      rcases mem_restore hd with hd | ⟨x, _, rfl⟩
      · exact h1 d hd heq
      · exact heq

/-- after the restore no live entry ends at the aborted start any more -/
theorem restore_stop_ne (hts : ts ≠ Ts.MAX) (hl : ∀ e ∈ c, e.state ≠ .aborted)
    (h : c.Pairwise fun a b => a.stopTs = b.stopTs → a.stopTs = Ts.MAX) :
    ∀ e ∈ restorePreviousHeadAfterAbort ts c, e.stopTs ≠ ts := by
  induction c with
  | nil => intro e he; cases he
  | cons d c ih =>
    obtain ⟨h1, h2⟩ := pairwise_cons.1 h
    unfold restorePreviousHeadAfterAbort
    split_ifs with hd
    · -- d was the one; by distinctness nothing behind it ends at ts
      intro e he
      rcases mem_cons.1 he with rfl | he
      · exact Ne.symm hts
      · exact fun heq => hts (hd.2.symm.trans (h1 e he (hd.2.trans heq.symm)))
    · intro e he
      rcases mem_cons.1 he with rfl | he
      · exact fun heq => hd ⟨hl _ mem_cons_self, heq⟩
      · exact ih (fun x hx => hl x (mem_cons_of_mem _ hx)) h2 e he

/-- where a transaction's Pending entry sits: nothing in front of it or behind it is Pending for the transaction -/
theorem Stacked.split (h : Stacked c) {p : VersionEntry} (hp : p ∈ c)
    (hs : p.state = .pending t) : ∃ pre post, c = pre ++ p :: post ∧ (∀ e ∈ pre, e.state ≠ .pending t) ∧
      ∀ e ∈ post, e.state ≠ .pending t := by
  obtain ⟨pre, post, rfl⟩ := append_of_mem hp
  obtain ⟨-, h2, h3⟩ := pairwise_append.1 h.single
  refine ⟨pre, post, rfl, fun e he hpend => ?_, fun e he => ?_⟩
  · exact h3 e he p mem_cons_self t hpend hs
  · exact (pairwise_cons.1 h2).1 e he t hs

/-- what an abort does: nothing, or it flips the one Pending entry and restores behind it -/
theorem Stacked.abort_cases (h : Stacked c) (t : TxnId) :
    (∀ e ∈ c, e.state ≠ .pending t) ∧ flipPendingInChain c t none = c ∨
    ∃ pre p post, c = pre ++ p :: post ∧ p.state = .pending t ∧ p.txnId = t ∧ (∀ e ∈ pre, e.state ≠ .pending t) ∧
      (∀ e ∈ post, e.state ≠ .pending t) ∧ flipPendingInChain c t none =
        pre ++ { p with state := .aborted } :: restorePreviousHeadAfterAbort p.startTs post := by
  by_cases hex : ∃ p ∈ c, p.state = .pending t
  · obtain ⟨p, hp, hs⟩ := hex
    obtain ⟨pre, post, rfl, h1, h2⟩ := h.split hp hs
    exact .inr ⟨pre, p, post, rfl, hs, (h.tagged p hp t hs).symm, h1, h2, flip_aborted hs h1 h2⟩
  · have hno : ∀ e ∈ c, ¬ e.state = .pending t := fun e he hs => hex ⟨e, he, hs⟩
    exact .inl ⟨hno, flipLoop_of_none hno _⟩

/-- where the entries come from after an abort -/
theorem Stacked.mem_abort (h : Stacked c)
    (he : e ∈ flipPendingInChain c t none) : (∃ p ∈ c, p.state = .pending t ∧ e = { p with state := .aborted }) ∨
      ∃ d ∈ c, d.state ≠ .pending t ∧ ∃ x, e = { d with stopTs := x } := by
  rcases h.abort_cases t with ⟨hno, heq⟩ | ⟨pre, p, post, rfl, hs, -, hpre, hpost, heq⟩
  · rw [heq] at he
    exact .inr ⟨e, he, hno e he, e.stopTs, rfl⟩
  · rw [heq] at he
    rcases mem_append.1 he with he | he
    · exact .inr ⟨e, mem_append_left _ he, hpre e he, e.stopTs, rfl⟩
    · rcases mem_cons.1 he with rfl | he
      · exact .inl ⟨p, mem_append_right _ mem_cons_self, hs, rfl⟩
      · obtain ⟨d, hd, x, rfl⟩ := exists_of_forgetStop_eq (forgetStop_restore p.startTs post) he
        exact .inr ⟨d, mem_append_right _ (mem_cons_of_mem _ hd), hpost d hd, x, rfl⟩

theorem Stacked.abort (h : Stacked c) (t : TxnId) : Stacked (flipPendingInChain c t none) := by
  rcases h.abort_cases t with ⟨-, heq⟩ | ⟨pre, p, post, rfl, hs, -, -, -, heq⟩
  · rw [heq]; exact h
  · have hlive : live (flipPendingInChain (pre ++ p :: post) t none) = live pre ++
        restorePreviousHeadAfterAbort p.startTs (live post) := by
      rw [heq, live_append, live_cons_of_aborted rfl, live_restore]
    have hlive0 : live (pre ++ p :: post) = live pre ++ p :: live post := by
      rw [live_append, live_cons_of_live (by simp [hs])]
    have hst := h.stops
    have hanc := h.anchored
    rw [hlive0] at hst hanc
    obtain ⟨hst1, hst2, hst3⟩ := pairwise_append.1 hst
    obtain ⟨-, hst2⟩ := pairwise_cons.1 hst2
    constructor
    · -- one Pending entry less
      obtain ⟨h1, h2, h3⟩ := pairwise_append.1 h.single
      have hrest : ∀ e ∈ restorePreviousHeadAfterAbort p.startTs post, ∃ d ∈ post, ∃ s, e = { d with stopTs := s } :=
        fun e he => exists_of_forgetStop_eq (forgetStop_restore p.startTs post) he
      rw [heq]
      refine pairwise_append.2 ⟨h1, pairwise_cons.2 ⟨fun e _ u hu => (by cases hu), ?_⟩, ?_⟩
      · exact single_of_map (map_restore _ (fun _ _ => rfl) p.startTs post) (pairwise_cons.1 h2).2
      · intro a ha b hb u hu
        rcases mem_cons.1 hb with rfl | hb
        · simp
        · obtain ⟨d, hd, s, rfl⟩ := hrest b hb
          exact h3 a ha d (mem_cons_of_mem _ hd) u hu
    · rw [map_flip_aborted _ (fun _ _ => rfl) (fun _ _ => rfl)]; exact h.starts
    · intro e he u hu
      rcases h.mem_abort he with ⟨p, -, -, rfl⟩ | ⟨d, hd, -, s, rfl⟩
      · cases hu
      · exact h.tagged d hd u hu
    · intro e he
      rcases h.mem_abort he with ⟨p, hp, -, rfl⟩ | ⟨d, hd, -, s, rfl⟩
      · exact h.finite p hp
      · exact h.finite d hd
    · rw [hlive]
      refine hanc.remove (fun A => anchored_restore p.startTs) (restore_stop_ne ?_ ?_ hst2)
      · exact (h.finite p (mem_append_right _ mem_cons_self)).ne
      · exact fun e he => (mem_live.1 he).2
    · rw [hlive]
      refine pairwise_append.2 ⟨hst1, pairwise_stops_restore _ hst2, fun a ha b hb heq => ?_⟩
      rcases mem_restore hb with hb | ⟨d, _, rfl⟩
      · exact hst3 a ha b (mem_cons_of_mem _ hb) heq
      · exact heq

/-- **Abort, up to interval ends.** The transaction's entry is gone from the live part; nothing else changes. -/
theorem forget_abort (h : Stacked c) (hmine : ∀ e ∈ live c, e.txnId = t → e.state = .pending t) :
    (live (flipPendingInChain c t none)).map forgetStop = ((live c).map forgetStop).filter fun e => e.txnId ≠ t := by
  rcases h.abort_cases t with ⟨hno, heq⟩ | ⟨pre, p, post, rfl, hs, hpt, h1, h2, heq⟩
  · rw [heq, filter_eq_self.2]
    intro e he
    obtain ⟨d, hd, rfl⟩ := mem_map.1 he
    exact decide_eq_true fun htx => hno d (mem_live.1 hd).1 (hmine d hd htx)
  · have hlive : live (pre ++ p :: post) = live pre ++ p :: live post := by
      rw [live_append, live_cons_of_live (by simp [hs])]
    rw [hlive] at hmine
    have hf : ∀ {l : Chain}, (∀ e ∈ l, e.state ≠ .pending t) → (∀ e ∈ live l, e ∈ live pre ++ p :: live post) →
        ((live l).map forgetStop).filter (fun e => decide (e.txnId ≠ t)) = (live l).map forgetStop := by
      intro l hl hsub
      refine filter_eq_self.2 fun e he => ?_
      obtain ⟨d, hd, rfl⟩ := mem_map.1 he
      exact decide_eq_true fun htx => hl d (mem_live.1 hd).1 (hmine d (hsub d hd) htx)
    rw [heq, live_append, live_cons_of_aborted rfl, live_restore, map_append, forgetStop_restore, hlive,
      map_append, map_cons, filter_append,
      filter_cons_of_neg (by simp [forgetStop, hpt]), hf h1 (fun e he => mem_append_left _ he),
      hf h2 (fun e he => mem_append_right _ (mem_cons_of_mem _ he))]

/-- two chains with the same live entries up to interval ends give every coherent view the same version -/
theorem visibleAt_congr {d : Chain} (hc : Stacked c) (hd : Stacked d)
    (h : (live c).map forgetStop = (live d).map forgetStop) (hv : view.Coherent frontier) :
    (visibleAt frontier view c).map forgetStop = (visibleAt frontier view d).map forgetStop := by
  -- a lookup by something that does not read the interval end
  have key : ∀ {q : VersionEntry → Bool}, (∀ e, q e.forgetStop = q e) →
      ((live c).find? q).map forgetStop = ((live d).find? q).map forgetStop := by
    intro q hq
    have hmap : ∀ l : Chain, (l.find? q).map forgetStop = (l.map forgetStop).find? q := by
      intro l
      rw [find?_map]
      exact congrArg (fun p => (l.find? p).map forgetStop) (funext fun e => (hq e).symm)
    rw [hmap, hmap, h]
  rcases lt_or_eq_of_le (Ts.le_max view.readTs) with hr | hr
  · rw [visibleAt_eq hc hv hr, visibleAt_eq hd hv hr]
    exact key fun _ => rfl
  · -- at infinity no interval holds the timestamp
    have hinf : ∀ e : VersionEntry, e.state ≠ .aborted →
        versionVisibleTo frontier view e = e.isPendingOf view.txnId := by
      intro e he
      rw [visible_iff_of_coherent hv he]
      simp [hr, not_lt.2 (Ts.le_max e.stopTs)]
    rw [← visibleAt_live frontier view c, ← visibleAt_live frontier view d, visibleAt, visibleAt,
      find?_congr fun e he => hinf e (mem_live.1 he).2, find?_congr fun e he => hinf e (mem_live.1 he).2]
    exact key fun _ => rfl

end Mqlite.Mvcc
