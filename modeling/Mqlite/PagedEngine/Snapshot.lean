/-
Snapshot reads: what a view reads is decided by the transactions that end committed, and never changes.

`snap_trans`: at or below the frontier the logs do not change any more: installs come in above it, and only versions
above it are rolled back. `lookup_log`: without folds a lookup is the first version of the log at or before `read_ts`,
or the base cell. So a lookup gives the same in every later state, whatever the order of the installs.

That the version found is the newest one needs logs in time order, and so installs in time order (`InTime`, see Order).
They are not always: `insert_covers_later_delete` is a run in which a reader finds a document that a transaction with a
later timestamp had deleted. `snapshot_reads` is the result for runs whose steps are all in time order.

In any order a lookup returns what some transaction wrote that is committed at or below `read_ts`, if there is one
(`view_reads_committed`), and the frontier reaches every commit (`committed_reach_frontier`).
-/
import Mqlite.PagedEngine.Conflict
import Mqlite.PagedEngine.Order

namespace Mqlite.PagedEngine

open Lib Mvcc Publish Storage List Engine

/-! ## Logs below the frontier -/

variable {env : Env} {floor : Ts} {s s' s₀ : Engine}

/-- **Below the frontier nothing changes.** -/
theorem snap_trans {act : Act} (h : EngineInv floor s) (ht : Trans env s act s') (a : Addr) {r : Ts}
    (hr : r ≤ s.frontier) : (s'.log a).filter (fun x => x.startTs ≤ r) = (s.log a).filter fun x => x.startTs ≤ r := by
  have habove : ∀ {x : LogEntry}, s.frontier < x.startTs → decide (x.startTs ≤ r) = false := fun hlt =>
    decide_eq_false (not_le.2 (hr.trans_lt hlt))
  rcases log_trans h ht a with hlog | ⟨t, q, ts, w, hp, -, hlog⟩ | ⟨pre, x, post, hlog, hlog', hlt, -⟩
  · rw [hlog]
  · rw [hlog]
    exact filter_cons_of_neg (by simpa using habove (x := .of ts t w.op) (hp.ahead h))
  · rw [hlog, hlog', filter_append, filter_append, filter_cons_of_neg (by simpa using habove hlt)]

/-- the logs of two states of a run agree below the frontier of the first -/
structure Extends (s s' : Engine) : Prop where
  frontier : s.frontier ≤ s'.frontier
  log : ∀ a r, r ≤ s.frontier → (s'.log a).filter (fun x => x.startTs ≤ r) = (s.log a).filter fun x => x.startTs ≤ r

theorem extends_run {l : List Act} (h : EngineInv floor s) (hr : run (step env) s l = some s') : Extends s s' := by
  refine run_relates (I := EngineInv floor) (C := fun _ _ => True) (fun s => ⟨le_rfl, fun _ _ _ => rfl⟩) ?_ ?_ h
    (along_true s l) hr
  · intro s t u hst htu
    exact ⟨hst.frontier.trans htu.frontier, fun a r hr => (htu.log a r (hr.trans hst.frontier)).trans (hst.log a r hr)⟩
  · intro s act s' h _ hs
    have ht := h.trans_of_step hs
    exact ⟨engineInv_step s act s' h hs, frontier_trans h.slots ht, fun a r hr => snap_trans h ht a hr⟩

/-! ## Lookups -/

/-- what a lookup returns when it ends at a version -/
def LogEntry.value (pages : ℕ → ℕ → Bytes) (x : LogEntry) : Option Bytes :=
  if x.isTombstone then none else some (resolveVersionData pages x.data)

/-- the document a write leaves -/
def writtenValue : WriteOp → Option Bytes
  | .insert doc | .update doc => some doc
  | .delete => none

/-- the first of some versions, or the base cell -/
def firstValue (env : Env) (versions : List LogEntry) (cell : Option VersionData) : Option Bytes :=
  match versions.head? with
  | some x => x.value env.pages
  | none => cell.map (resolveVersionData env.pages)

/-- what does not change in a run without folds -/
structure Steady (s₀ s : Engine) : Prop where
  old : ∀ a, s.old a = []
  cell : s.cell = s₀.cell
  hist : s.hist = s₀.hist
  since : Since s₀.frontier s

theorem Steady.trans {act : Act} (hs : Steady s₀ s) (h : EngineInv s₀.frontier s)
    (ht : Trans env s act s') (hf : act.isFold = false) : Steady s₀ s' := by
  have hold := old_trans ht hf
  refine ⟨fun a => by rw [hold]; exact hs.old a, ?_, ?_, hs.since.trans h ht⟩
  · rw [← hs.cell]
    cases ht <;> first | rfl | cases hf
  · rw [← hs.hist]
    cases ht <;> first | rfl | cases hf

/-- nothing in the history store is visible to a view that is not older than the run -/
theorem probe_ended (hend : ∀ ident key k e, (s.hist ident key).get? k = some e → e.stopTs ≤ floor)
    {kind : TreeKind} {ident : TreeIdent} {key : Key} {readTs : Ts} (hr : floor ≤ readTs) :
    visibleEntry kind (s.hist ident key) readTs = none := by
  cases hp : visibleEntry kind (s.hist ident key) readTs with
  | none => rfl
  | some e =>
    obtain ⟨k, hk⟩ := probe_mem hp
    exact absurd ((probe_visible hp).2.trans_le (hend ident key k e hk)) (not_lt.2 hr)

/-- **Lookup.** The first version of the log at or before `read_ts`, or the base cell. -/
theorem lookup_log (h₀ : OpenedInOrder s₀) (hfits : ∀ ident key, RowsFit (s₀.hist ident key))
    (h : EngineInv s₀.frontier s) (hs : Steady s₀ s) {view : ReadView} (hv : s.Open view) (a : Addr) :
    s.lookup env view a = .ok (firstValue env ((s.log a).filter fun x => x.startTs ≤ view.readTs) (s₀.cell a)) := by
  have hprobe : visibleEntry a.ident.kind (s.hist a.ident a.key) view.readTs = none := by
    rw [hs.hist]
    exact probe_ended h₀.ended (hs.since.open_ge hv)
  have hfind : ((s.log a).filter fun x => x.startTs ≤ view.readTs).head? =
      ((live (s.chain a)).find? fun e => e.startTs ≤ view.readTs).map logged := by
    rw [Engine.log, hs.old, append_nil, head?_filter, find?_map]
    rfl
  rw [Engine.lookup, getMvcc_fits (by rw [hs.hist]; exact hfits _ _), getFitting, firstValue, hfind,
    h.visibleAt_open hv, hprobe, hs.cell]
  cases (live (s.chain a)).find? fun e => e.startTs ≤ view.readTs with
  | some e => rfl
  | none => simp

/-! ## The newest version -/

section

variable {floor : Ts} {s : Engine} {a : Addr}

/-- the first version at or before r is that of the transaction with the greatest timestamp -/
theorem first_newest (h : EngineInv floor s) (hsort : Sorted s a) {r : Ts} (hr : r ≤ s.frontier)
    {t : TxnId} {ts : Ts} {op : WriteOp} (hw : Wrote s a t ts op) (hle : ts ≤ r)
    (hmax : ∀ u us op', Wrote s a u us op' → us ≤ r → us ≤ ts) :
    ((s.log a).filter fun x => x.startTs ≤ r).head? = some (.of ts t op) := by
  have hsort' : ((s.log a).filter fun x => x.startTs ≤ r).Pairwise fun newer older => older.startTs < newer.startTs :=
    hsort.sublist filter_sublist
  have hmem : LogEntry.of ts t op ∈ (s.log a).filter fun x => x.startTs ≤ r :=
    mem_filter.2 ⟨hw.mem_log h, decide_eq_true hle⟩
  cases hl : (s.log a).filter fun x => x.startTs ≤ r with
  | nil => rw [hl] at hmem; cases hmem
  | cons y l =>
    rw [hl] at hmem hsort'
    rcases mem_cons.1 hmem with heq | hmem
    · rw [heq]; rfl
    · -- a first version above it would be by a transaction with a greater timestamp
      exfalso
      have hlt : ts < y.startTs := (pairwise_cons.1 hsort').1 _ hmem
      obtain ⟨hy, hyr⟩ := mem_filter.1 (hl ▸ mem_cons_self : y ∈ (s.log a).filter fun x => x.startTs ≤ r)
      have hyr : y.startTs ≤ r := of_decide_eq_true hyr
      obtain ⟨-, ⟨q, hq⟩, -⟩ := hw
      rcases wrote_of_log h hy (hyr.trans hr) with hfl | ⟨op', hy', -⟩
      · exact absurd ((h.slots.slot t _ hq).2.trans hlt) (not_lt.2 hfl)
      · exact absurd hlt (not_lt.2 (hmax _ _ op' hy' hyr))

end

/-! ## Runs without folds -/

section Runs

variable {l l' : List Act} {view : ReadView} {a : Addr}

theorem steady_run (h₀ : OpenedInOrder s₀) (hfold : ∀ act ∈ l, act.isFold = false) (hr : run (step env) s₀ l = some s) :
    EngineInv s₀.frontier s ∧ Steady s₀ s :=
  engine_run (fun _ _ _ h _ ht hI hc => hI.trans h ht hc.2) h₀.toOpened ⟨h₀.old, rfl, rfl, Since.of_opened h₀.toOpened⟩
    ((along_true s₀ l).and_mem hfold) hr

theorem sorted_run (h₀ : OpenedInOrder s₀) (hl : Along (step env) InTime s₀ l)
    (hr : run (step env) s₀ l = some s) (a : Addr) :
    Sorted s a :=
  (engine_run (fun _ _ _ h _ ht hI hc => sorted_trans h ht hI fun _ _ => hc) h₀.toOpened (h₀.sorted a) hl hr).2

/-- what has been installed in the run is above what was there before it -/
theorem recent_run (h₀ : OpenedInOrder s₀) (hr : run (step env) s₀ l = some s) (a : Addr) :
    (s.log a).Pairwise fun above below => s₀.frontier < below.startTs → s₀.frontier < above.startTs := by
  refine (engine_run (I := fun s => (s.log a).Pairwise fun above below => s₀.frontier < below.startTs →
    s₀.frontier < above.startTs)
    (C := fun _ _ => True) (fun s act s' h _ ht hI _ => ?_) h₀.toOpened ?_ (along_true s₀ l) hr).2
  · rcases log_trans h ht a with hlog | ⟨t, q, ts, w, hp, -, hlog⟩ | ⟨pre, x, post, hlog, hlog', -⟩
    · rw [hlog]
      exact hI
    · rw [hlog]
      exact pairwise_cons.2 ⟨fun _ _ _ => h.slots.floor_le.trans_lt (hp.ahead h), hI⟩
    · rw [hlog] at hI
      rw [hlog']
      exact hI.sublist ((List.Sublist.refl pre).append (sublist_cons_self x post))
  · exact pairwise_of_forall_mem_list fun x _ y hy hlt => absurd hlt (not_lt.2 (h₀.log_le hy))

variable (h₀ : OpenedInOrder s₀) (hfold : ∀ act ∈ l ++ l', act.isFold = false) (hr : run (step env) s₀ l = some s)
  (hr' : run (step env) s l' = some s') (hv : s.Open view)

include h₀ hfold hr hr' hv

/-- a lookup, by the log of a later state -/
theorem lookup_later (hfits : ∀ ident key, RowsFit (s₀.hist ident key)) : view.readTs ≤ s'.frontier ∧
    s.lookup env view a = .ok (firstValue env ((s'.log a).filter fun x => x.startTs ≤ view.readTs) (s₀.cell a)) := by
  obtain ⟨h, hst⟩ := steady_run h₀ (fun act ha => hfold act (mem_append_left _ ha)) hr
  have hext := extends_run h hr'
  have hle := h.open_le hv
  exact ⟨hle.trans hext.frontier, by rw [lookup_log h₀ hfits h hst hv, hext.log a _ hle]⟩

/-- without a committed write only what was there before the run is left -/
theorem filter_before (hnone : ∀ t ts op, Wrote s' a t ts op → ¬ ts ≤ view.readTs) :
    (s'.log a).filter (fun x => x.startTs ≤ view.readTs) = s₀.log a := by
  obtain ⟨h, hst⟩ := steady_run h₀ (fun act ha => hfold act (mem_append_left _ ha)) hr
  have hrun : run (step env) s₀ (l ++ l') = some s' := by rw [run_append, hr]; exact hr'
  have h' := engineInv_run h hr'
  have hext := extends_run h hr'
  have hext₀ := extends_run (engineInv_opened h₀.toOpened) hrun
  have hfilter : (s'.log a).filter (fun x => x.startTs ≤ view.readTs) = (s'.log a).filter fun x =>
      x.startTs ≤ s₀.frontier := by
    refine filter_congr fun x hx => decide_eq_decide.2 ⟨fun hxr => ?_, fun hxf => ?_⟩
    · rcases wrote_of_log h' hx (hxr.trans ((h.open_le hv).trans hext.frontier)) with hfl | ⟨op, hw, -⟩
      · exact hfl
      · exact absurd hxr (hnone _ _ op hw)
    · exact hxf.trans (hst.since.open_ge hv)
  rw [hfilter, hext₀.log a _ le_rfl, filter_eq_self.2 fun x hx => decide_eq_true (h₀.log_le hx)]

end Runs

/-- **Snapshot reads.** In every run without folds whose steps are all in time order, from an engine with history rows
that fit: a lookup of an open view, at any moment of the run, returns what the transaction with the greatest timestamp
at or below `read_ts` wrote, of those that are committed later on; the value from before the run if there is none; and
the same whenever it is repeated. -/
theorem snapshot_reads (env : Env) (s₀ s s' : Engine) (l l' : List Act) (h₀ : OpenedInOrder s₀)
    (hfits : ∀ ident key, RowsFit (s₀.hist ident key))
    (hfold : ∀ act ∈ l ++ l', act.isFold = false) (hl : Along (Engine.step env) InTime s₀ (l ++ l'))
    (hr : run (Engine.step env) s₀ l = some s) (hr' : run (Engine.step env) s l' = some s') (view : ReadView)
    (hv : s.Open view) (a : Addr) :
    (∀ t ts op, Wrote s' a t ts op → ts ≤ view.readTs →
      (∀ u us op', Wrote s' a u us op' → us ≤ view.readTs → us ≤ ts) → s.lookup env view a = .ok (writtenValue op)) ∧
    ((∀ t ts op, Wrote s' a t ts op → ¬ ts ≤ view.readTs) →
      s.lookup env view a = .ok (firstValue env (s₀.log a) (s₀.cell a))) ∧
    (s'.Open view → s'.lookup env view a = s.lookup env view a) := by
  have hrun : run (step env) s₀ (l ++ l') = some s' := by rw [run_append, hr]; exact hr'
  obtain ⟨h', hst'⟩ := steady_run h₀ hfold hrun
  obtain ⟨hle, hlook⟩ := @lookup_later _ _ _ _ _ _ _ a h₀ hfold hr hr' hv hfits
  refine ⟨fun t ts op hw hts hmax => ?_, fun hnone => ?_, fun hv' => ?_⟩
  · rw [hlook, firstValue, first_newest h' (sorted_run h₀ hl hrun a) hle hw hts hmax]
    cases op <;> rfl
  · rw [hlook, filter_before h₀ hfold hr hr' hv hnone]
  · rw [lookup_log h₀ hfits h' hst' hv', hlook]

/-- the document is inserted, a reader opens a view, and another transaction has installed a new version -/
def readerActs : List Act :=
  [.begin, .enter 1, .stageInsert 1 docAddr [1], .register 1 5] ++ commitActs 1 docAddr ++
  [.openView, .begin, .select 3 ⟨⟨5, 0⟩, 2⟩ docAddr, .attach 3 ⟨docAddr, [1], .chain ⟨⟨5, 0⟩, 1⟩⟩, .enter 3,
    .stageMutation 3 ⟨⟨docAddr, [1], .chain ⟨⟨5, 0⟩, 1⟩⟩, some ⟨⟨5, 0⟩, 1⟩⟩ (.update [2]), .register 3 6,
    .install 3 docAddr]

/-- before and after the new version is committed the reader finds the document of transaction 1 -/
theorem snapshot_reads_update : ∃ s s', run (Engine.step plainEnv) (Engine.image fun _ => none) readerActs = some s ∧
      run (Engine.step plainEnv) s [.durable 3, .flip 3 docAddr, .finish 3 true] = some s' ∧
      (s'.txn 3).phase = .committed ∧ s.lookup plainEnv ⟨⟨5, 0⟩, 2⟩ docAddr = .ok (some [1]) ∧
      s'.lookup plainEnv ⟨⟨5, 0⟩, 2⟩ docAddr = .ok (some [1]) := by
  have hal : Along (step plainEnv) InTime (image fun _ => none)
      (readerActs ++ [.durable 3, .flip 3 docAddr, .finish 3 true]) := by decide
  obtain ⟨s, s', hs, hs', hview, hview', hp3, hp, hslot, hw⟩ : ∃ s s',
      run (step plainEnv) (image fun _ => none) readerActs = some s ∧
      run (step plainEnv) s [.durable 3, .flip 3 docAddr, .finish 3 true] = some s' ∧
      (⟨⟨5, 0⟩, 2⟩ : ReadView) ∈ s.views ∧ (⟨⟨5, 0⟩, 2⟩ : ReadView) ∈ s'.views ∧ (s'.txn 3).phase = .committed ∧
      (s'.txn 1).phase = .committed ∧ (s'.txn 1).slot = some (1, ⟨5, 0⟩) ∧
      ⟨docAddr, .insert [1], none, none⟩ ∈ (s'.txn 1).writes :=
    ⟨_, _, rfl, rfl, by decide, by decide, by decide, by decide, by decide, by decide⟩
  obtain ⟨hnewest, -, hsame⟩ := snapshot_reads plainEnv _ s s' _ _ (openedInOrder_image _) (fun _ _ => rowsFit_empty)
    (by decide) hal hs hs' ⟨⟨5, 0⟩, 2⟩ (.inl hview) docAddr
  have hread := hnewest 1 ⟨5, 0⟩ (.insert [1]) ⟨hp, ⟨1, hslot⟩, _, hw, rfl, rfl⟩ le_rfl fun _ _ _ _ hle => hle
  exact ⟨s, s', hs, hs', hp3, hread, (hsame (.inl hview')).trans hread⟩

/-- **A later delete covered up.** A reader at 20 finds the document that was inserted at 10, although a committed
transaction deleted it at 20. -/
theorem insert_covers_later_delete : OpenedInOrder (Engine.image fun _ => none) ∧
    ∃ s, run (Engine.step plainEnv) (Engine.image fun _ => none) (lateInsert ++ [.openView]) = some s ∧
      s.Open ⟨⟨20, 0⟩, 5⟩ ∧ Wrote s docAddr 4 ⟨20, 0⟩ .delete ∧
      s.lookup plainEnv ⟨⟨20, 0⟩, 5⟩ docAddr = .ok (some [8]) := by
  obtain ⟨s, hs, hview, hphase, hslot, hw, hlook⟩ : ∃ s,
      run (step plainEnv) (image fun _ => none) (lateInsert ++ [.openView]) = some s ∧
      (⟨⟨20, 0⟩, 5⟩ : ReadView) ∈ s.views ∧ (s.txn 4).phase = .committed ∧ (s.txn 4).slot = some (3, ⟨20, 0⟩) ∧
      ⟨docAddr, .delete, some ⟨⟨5, 0⟩, 2⟩, some (.chain ⟨⟨5, 0⟩, 2⟩)⟩ ∈ (s.txn 4).writes ∧
      s.lookup plainEnv ⟨⟨20, 0⟩, 5⟩ docAddr = .ok (some [8]) :=
    ⟨_, rfl, by decide, by decide, by decide, by decide, by decide⟩
  exact ⟨openedInOrder_image _, s, hs, .inl hview, ⟨hphase, ⟨3, hslot⟩, _, hw, rfl, rfl⟩, hlook⟩

/-! ## In any order -/

/-- **Views read commits.** In every run without folds, in whatever order versions are installed: a lookup of an open
view returns what some transaction wrote that ends up committed at or below its `read_ts`, if there is one, and the
value from before the run otherwise. -/
theorem view_reads_committed (env : Env) (s₀ s s' : Engine) (l l' : List Act) (h₀ : OpenedInOrder s₀)
    (hfits : ∀ ident key, RowsFit (s₀.hist ident key)) (hfold : ∀ act ∈ l ++ l', act.isFold = false)
    (hr : run (Engine.step env) s₀ l = some s) (hr' : run (Engine.step env) s l' = some s') (view : ReadView)
    (hv : s.Open view) (a : Addr) :
    (∃ t ts op, Wrote s' a t ts op ∧ ts ≤ view.readTs ∧ s.lookup env view a = .ok (writtenValue op)) ∨
      (∀ t ts op, Wrote s' a t ts op → ¬ ts ≤ view.readTs) ∧
        s.lookup env view a = .ok (firstValue env (s₀.log a) (s₀.cell a)) := by
  obtain ⟨hle, hlook⟩ := @lookup_later _ _ _ _ _ _ _ a h₀ hfold hr hr' hv hfits
  by_cases hnone : ∀ t ts op, Wrote s' a t ts op → ¬ ts ≤ view.readTs
  · exact .inr ⟨hnone, by rw [hlook, filter_before h₀ hfold hr hr' hv hnone]⟩
  refine .inl ?_
  push Not at hnone
  obtain ⟨t, ts, op, hw, hts⟩ := hnone
  have hrun : run (step env) s₀ (l ++ l') = some s' := by rw [run_append, hr]; exact hr'
  have h' := engineInv_run (engineInv_opened h₀.toOpened) hrun
  have hmem : LogEntry.of ts t op ∈ (s'.log a).filter fun x => x.startTs ≤ view.readTs :=
    mem_filter.2 ⟨hw.mem_log h', decide_eq_true hts⟩
  obtain ⟨x, rest, hfilter⟩ := exists_cons_of_ne_nil (ne_nil_of_mem hmem)
  obtain ⟨hx, hxr⟩ := mem_filter.1 (hfilter ▸ mem_cons_self : x ∈ (s'.log a).filter fun x => x.startTs ≤ view.readTs)
  have hxr : x.startTs ≤ view.readTs := of_decide_eq_true hxr
  -- the first version is the write, or above it, and so from the run too
  have hrecent : s₀.frontier < x.startTs := by
    obtain ⟨-, ⟨q, hq⟩, -⟩ := hw
    have habove : s₀.frontier < ts := (h'.slots.slot t _ hq).2
    have hpair := (recent_run h₀ hrun a).sublist (filter_sublist (p := fun x => decide (x.startTs ≤ view.readTs)))
    rw [hfilter] at hmem hpair
    rcases mem_cons.1 hmem with rfl | hmem
    · exact habove
    · exact (pairwise_cons.1 hpair).1 _ hmem habove
  obtain ⟨op', hw', heq⟩ := (wrote_of_log h' hx (hxr.trans hle)).resolve_left (not_le.2 hrecent)
  refine ⟨_, _, op', hw', hxr, ?_⟩
  rw [hlook, hfilter, firstValue, head?_cons, heq]
  cases op' <;> rfl

/-- with the insert in front of the later delete -/
theorem view_reads_committed_late :
    ∃ s t ts op, run (Engine.step plainEnv) (Engine.image fun _ => none) (lateInsert ++ [.openView]) = some s ∧
    Wrote s docAddr t ts op ∧ ts ≤ ⟨20, 0⟩ ∧ s.lookup plainEnv ⟨⟨20, 0⟩, 5⟩ docAddr = .ok (writtenValue op) := by
  obtain ⟨s, hs, hview, hphase, hslot, hw⟩ : ∃ s,
      run (step plainEnv) (image fun _ => none) (lateInsert ++ [.openView]) = some s ∧
      (⟨⟨20, 0⟩, 5⟩ : ReadView) ∈ s.views ∧ (s.txn 4).phase = .committed ∧ (s.txn 4).slot = some (3, ⟨20, 0⟩) ∧
      ⟨docAddr, .delete, some ⟨⟨5, 0⟩, 2⟩, some (.chain ⟨⟨5, 0⟩, 2⟩)⟩ ∈ (s.txn 4).writes :=
    ⟨_, rfl, by decide, by decide, by decide, by decide⟩
  rcases view_reads_committed plainEnv _ s s _ [] (openedInOrder_image _) (fun _ _ => rowsFit_empty)
    (by decide) hs rfl ⟨⟨20, 0⟩, 5⟩ (.inl hview) docAddr with ⟨t, ts, op, hread⟩ | ⟨hnone, -⟩
  · exact ⟨s, t, ts, op, hs, hread⟩
  · exact absurd le_rfl (hnone 4 ⟨20, 0⟩ .delete ⟨hphase, ⟨3, hslot⟩, _, hw, rfl, rfl⟩)

/-- **Commits reach the frontier.** When no writer is inside its envelope and the sequencer works, the frontier, at
which the next view reads, has reached every commit. -/
theorem committed_reach_frontier (env : Env) (s₀ s : Engine) (l : List Act) (h₀ : Opened s₀)
    (hr : run (Engine.step env) s₀ l = some s) (hquiet : s.quiet = true) (hfail : s.seq.failed = false)
    (hpoison : s.seq.seqr.poisoned = false) (t : TxnId) (q : ℕ) (ts : Ts) (hslot : (s.txn t).slot = some (q, ts))
    (hphase : (s.txn t).phase = .committed) : ts ≤ s.frontier := by
  have h := engineInv_run (engineInv_opened h₀) hr
  refine h.slots.reached (fun u => ?_) hfail hpoison hslot hphase
  have hin := h.quiet_inside hquiet u
  cases hu : (s.txn u).phase <;> rw [hu] at hin <;> first | rfl | cases hin

/-- the update is committed, and the writers are gone -/
theorem committed_reach_frontier_update : ∃ s, run (Engine.step plainEnv) (Engine.image fun _ => none)
      (readerActs ++ [.durable 3, .flip 3 docAddr, .finish 3 true]) = some s ∧ (s.txn 3).phase = .committed ∧
        ⟨6, 0⟩ ≤ s.frontier := by
  obtain ⟨s, hs, hq, hf, hp, hslot, hphase⟩ : ∃ s, run (step plainEnv) (image fun _ => none)
      (readerActs ++ [.durable 3, .flip 3 docAddr, .finish 3 true]) = some s ∧ s.quiet = true ∧ s.seq.failed = false ∧
      s.seq.seqr.poisoned = false ∧ (s.txn 3).slot = some (2, ⟨6, 0⟩) ∧ (s.txn 3).phase = .committed :=
    ⟨_, rfl, by decide, by decide, by decide, by decide, by decide⟩
  exact ⟨s, hs, hphase, committed_reach_frontier plainEnv _ s _ (opened_image _) hs hq hf hp _ _ _ hslot hphase⟩

end Mqlite.PagedEngine
