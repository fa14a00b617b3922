/-
Inserts never overwrite a live document.

An insert checks, at the view of its envelope, that the key has no document; when it is installed, only the live head of
the chain is looked at. The two together exclude an overwrite (`InsertInv`): what the check saw is still there when the
insert is installed, and if the chain has been folded away the base cell tells the same story as the newest folded
version.

But the version below the new one in the chain need not be the newest one below its timestamp: the timestamp is
registered before the install, and an insert over a tombstone does not compare it (`insert_under_later_delete`). With
installs on primary trees in time order (`PrimaryInTime`), `insert_on_absent` says what the source's checks are for.
-/
import Mqlite.Storage.FoldSnapshot
import Mqlite.PagedEngine.Order

namespace Mqlite.PagedEngine

open Lib Mvcc Publish Storage List Function Engine VersionEntry

/-- installs on primary trees are in time order -/
def PrimaryInTime (s : Engine) : Act → Prop
  | .install t a => a.ident.kind = .primary → InTime s (.install t a)
  | _ => True

instance (s : Engine) : (act : Act) → Decidable (PrimaryInTime s act)
  | .install _ _ => inferInstanceAs (Decidable (_ → _))
  | .openView | .begin | .select .. | .attach .. | .enter _ | .stageInsert .. | .stageMutation ..
  | .stageSec .. | .giveUp _
  | .register .. | .fail _ | .durable _ | .flip .. | .finish .. | .poison | .fold .. => .isTrue trivial

/-! ## Chains stay well formed -/

variable {env : Env} {floor : Ts} {s₀ s s' : Engine} {act : Act} {a : Addr}

/-- the live versions of a key tile the time up to infinity -/
abbrev Tiled (s : Engine) (a : Addr) : Prop := Linked VersionEntry.startTs VersionEntry.stopTs Ts.MAX (live (s.chain a))

theorem tiled_setChain {t : TxnId} {x : Txn} {b : Addr} {c : Chain} (hl : Tiled s a)
    (hc : a = b → Linked startTs stopTs Ts.MAX (live c)) : Tiled ((s.setChain b c).setTxn t x) a := by
  unfold Tiled
  rw [setTxn_chain, setChain_chain]
  split_ifs with hab
  · exact hc hab
  · exact hl

theorem tiled_trans (h : EngineInv floor s) (ht : Trans env s act s') (ha : a.ident.kind = .primary) (hl : Tiled s a)
    (hc : ∀ t, act = .install t a → InTime s act) : Tiled s' a := by
  cases ht with
  | openView | poison | begin | prepare | unregistered | register | fail | durable | ready | release => exact hl
  | @push t q ts w hphase hslot hw hclass =>
    refine tiled_setChain hl fun haw => ?_
    subst haw
    have hp : Pushes s (.install t w.addr) t q ts w := ⟨rfl, hphase, hslot, hw, hclass⟩
    exact (linked_push_iff (h.chains.stacked _) (h.slots.ts_lt_max hslot) hl).2 ((hc t rfl).head_lt hp)
  | @commit t b q ts hphase hslot =>
    refine tiled_setChain hl fun hab => ?_
    subst hab
    have hstart := h.chains.pending_start hslot a
    rw [live_flip_committed, map_congr_left fun e he => commitEntry_eq (hstart e (mem_live.1 he).1)]
    refine hl.map ?_ ?_
    · exact fun _ => rfl
    · exact fun _ => rfl
  | @rollback t b =>
    refine tiled_setChain hl fun hab => ?_
    subst hab
    refine (linked_abort_iff (h.chains.stacked a) t hl).2 fun e he hp => ?_
    -- the Pending entry is the first live one
    obtain ⟨pre, post, hsplit⟩ := append_of_mem he
    have hpre := h.chains.pending_first ha hsplit hp
    rw [hsplit, hpre]
    exact .inl rfl
  | @fold b oldestRequiredTs f hist hquiet hfail hpoison hk hh =>
    unfold Tiled
    by_cases hab : a = b
    · subst hab
      rw [(foldKey_ok hk).2.1, (h.chains.folded h.txns h.slots (h.quiet_inside hquiet) hfail hpoison a).1]
      simp [Linked]
    · simpa [update_of_ne hab] using hl

/-! ## Folds -/

theorem disjoint_of_tiled {c : Chain} (hl : Linked startTs stopTs Ts.MAX (live c)) : DisjointNewestFirst c := by
  have hsub : (c.filter fun e => e.state = .committed).Sublist (live c) := by
    refine monotone_filter_right _ fun e he => ?_
    simp [isLive, of_decide_eq_true he]
  refine ⟨hl.apart.sublist hsub, fun e he hc => hl.proper (mem_live.2 ⟨he, by rw [hc]; simp⟩)⟩

/-- the base cell that belongs to a list of folded versions -/
def foldedValue (old : List LogEntry) (cell : Option VersionData) : Option VersionData :=
  match old with
  | [] => cell
  | x :: _ => if x.isTombstone then none else some x.data

/-- what a fold does to base cell and history rows of a key, when everything live can be folded -/
theorem fold_settled (h : EngineInv floor s) (hquiet : s.quiet = true) (hfail : s.seq.failed = false)
    (hpoison : s.seq.seqr.poisoned = false) (hl : Tiled s a) {oldestRequiredTs : Ts} {f : KeyFold} {hist : HistoryStore}
    (hf : foldKey a.ident a.key s.frontier oldestRequiredTs (s.chain a) = .ok f)
    (hh : commitSpillTxn s.hist f.spill = .ok hist) (cell : Option VersionData) :
    f.cell.getD (foldedValue (s.old a) cell) = foldedValue ((live (s.chain a)).map logged ++ s.old a) cell ∧
    ∀ k e, (hist a.ident a.key).get? k = some e → (s.hist a.ident a.key).get? k = some e ∨ e.stopTs ≤ s.frontier := by
  have hset := fun e (he : e ∈ live (s.chain a)) =>
    h.chains.settled h.txns h.slots (h.quiet_inside hquiet) hfail hpoison he
  have hd := disjoint_of_tiled hl
  have hwin : checkpointWinner (s.chain a) s.frontier = (live (s.chain a)).head? := by
    rw [hd.winner_eq, live, head?_filter]
    refine find?_congr fun e he => ?_
    by_cases hl : e.state = .aborted
    · simp [foldable, isLive, hl]
    · rw [foldable_iff.2 (hset e (mem_live.2 ⟨he, hl⟩))]
      simp [isLive, hl]
  constructor
  · rw [(foldKey_ok hf).1, hwin]
    cases live (s.chain a) with
    | nil | cons e l => rfl
  · intro k e he
    rcases (commitSpillTxn_get? hh _ _ k e).1 he with hold | ⟨w, hw, -, -, -, rfl⟩
    · exact .inl hold
    · right
      obtain ⟨-, -, -, hmem, hsp, hne⟩ := (hd.spill_iff hf w).1 hw
      rw [hwin] at hne
      have hlive : w.entry ∈ live (s.chain a) :=
        mem_live.2 ⟨hmem, by rw [(foldable_iff.1 (spilled_iff.1 hsp).1).1]; simp⟩
      -- it is not the first live version, so it ends where another one starts
      cases hc : live (s.chain a) with
      | nil => rw [hc] at hlive; cases hlive
      | cons d l =>
        have hlink := hl
        unfold Tiled at hlink
        rw [hc] at hlive hne hlink
        rcases mem_cons.1 hlive with heq | hmem'
        · exact absurd (congrArg some heq.symm) hne
        · exact ((pairwise_cons.1 hlink.apart).1 _ hmem').trans (hset d (hc ▸ mem_cons_self)).2

/-- only a fold touches base cells and history rows -/
theorem store_trans (ht : Trans env s act s') (hf : act.isFold = false) : s'.cell = s.cell ∧ s'.hist = s.hist := by
  cases ht <;> first | exact ⟨rfl, rfl⟩ | cases hf

/-! ## The invariant -/

/-- below the version of an insert there is a tombstone, or nothing and no base cell to begin with -/
def OnAbsent (s₀ : Engine) (w : StagedWrite) (below : List LogEntry) : Prop :=
  isMutation w.op = false → foldedValue below (s₀.cell w.addr) = none

structure InsertInv (s₀ s : Engine) : Prop where
  tiled : ∀ a : Addr, a.ident.kind = .primary → Tiled s a
  sorted : ∀ a : Addr, a.ident.kind = .primary → Sorted s a
  ended : ∀ a : Addr, a.ident.kind = .primary → ∀ k e, (s.hist a.ident a.key).get? k = some e → e.stopTs ≤ s.frontier ∧
    ∀ t, (s.txn t).phase = .staging → e.stopTs ≤ (s.txn t).readTs
  cell : ∀ a : Addr, a.ident.kind = .primary → s.cell a = foldedValue (s.old a) (s₀.cell a)
  -- what the check of a staged insert saw
  absent : ∀ t, (s.txn t).phase.inside = true → ∀ w ∈ (s.txn t).writes, w.addr.ident.kind = .primary →
    isMutation w.op = false → s.cell w.addr = none ∨ ∃ e ∈ s.chain w.addr, e.state = .committed
  links : Links (OnAbsent s₀) s

theorem insertInv_opened (h : OpenedInOrder s₀) : InsertInv s₀ s₀ := by
  refine ⟨fun a _ => ?_, fun a _ => h.sorted a, fun a _ k e he => ?_, fun a _ => ?_, fun t ht => ?_,
    links_opened h.toOpened⟩
  · exact (wellFormed_iff_linked (h.stacked a)).1 (h.wellFormed a)
  · refine ⟨h.ended _ _ k e he, fun t ht => ?_⟩
    rw [h.txns] at ht; cases ht
  · rw [h.old]; rfl
  · rw [h.txns] at ht; cases ht

namespace InsertInv

variable (hi : InsertInv s₀ s) (h : EngineInv floor s)

include hi h

/-- the check of an insert: the key has no base cell, or there is a committed version in its chain -/
theorem check {t : TxnId} (hphase : (s.txn t).phase = .staging)
    (ha : a.ident.kind = .primary) (hnone : s.lookup env ⟨(s.txn t).readTs, t⟩ a = .ok none) :
    s.cell a = none ∨ ∃ e ∈ s.chain a, e.state = .committed := by
  have hv : s.Open ⟨(s.txn t).readTs, t⟩ := .inr ⟨t, hphase, rfl⟩
  unfold Engine.lookup getMvcc at hnone
  cases hvis : visibleAt s.frontier ⟨(s.txn t).readTs, t⟩ (s.chain a) with
  | some e =>
    obtain ⟨he, hc, -⟩ := h.visible_committed hv hvis
    exact .inr ⟨e, he, hc⟩
  | none =>
    have hprobe : visibleEntry a.ident.kind (s.hist a.ident a.key) (s.txn t).readTs = none := by
      cases hp : visibleEntry a.ident.kind (s.hist a.ident a.key) (s.txn t).readTs with
      | none => rfl
      | some e =>
        obtain ⟨k, hk⟩ := probe_mem hp
        exact absurd ((probe_visible hp).2.trans_le ((hi.ended a ha k e hk).2 t hphase)) (lt_irrefl _)
    rw [hvis] at hnone
    obtain ⟨row, hrow, hvalue⟩ := map_eq_ok hnone
    obtain rfl : row = none := by
      split_ifs at hrow
      · rw [← probe_ok hrow, hprobe]
      · cases hrow; rfl
    exact .inl (Option.map_eq_none_iff.1 hvalue)

theorem install {t : TxnId} {q : ℕ} {ts : Ts} {w : StagedWrite}
    (hp : Pushes s act t q ts w) (ha : w.addr.ident.kind = .primary) : OnAbsent s₀ w (s.log w.addr) := by
  intro hins
  have hw : w ∈ (s.txn t).writes := (h.txns t).todo.subset hp.todo
  obtain ⟨hiff, hexp⟩ := (h.txns t).inserts w hw ha
  have hexp := hexp (hiff.2 hins)
  unfold log
  rcases hp.found h ha with hnil | ⟨head, l, hl, hcm, ⟨he, -⟩ | ⟨-, htomb⟩⟩
  · -- nothing live: the check saw no base cell, and that is what the folded versions left
    rw [hnil, map_nil, nil_append, ← hi.cell w.addr ha]
    rcases hi.absent t (by rw [hp.phase]; rfl) w hw ha hins with hcell | ⟨e, he, hc⟩
    · exact hcell
    · have hlive : e ∈ live (s.chain w.addr) := mem_live.2 ⟨he, by rw [hc]; simp⟩
      rw [hnil] at hlive; cases hlive
  · rw [hexp] at he; cases he
  · rw [hl]
    simp [foldedValue, logged, htomb]

/-- a fold, seen from one key of a primary tree -/
theorem of_fold (ht : Trans env s act s') (hf : act.isFold = true)
    (ha : a.ident.kind = .primary) : (∀ t, (s'.txn t).phase.inside = false) ∧ s'.frontier = s.frontier ∧
    s'.cell a = foldedValue (s'.old a) (s₀.cell a) ∧ ∀ k e, (s'.hist a.ident a.key).get? k = some e →
      (s.hist a.ident a.key).get? k = some e ∨ e.stopTs ≤ s.frontier := by
  cases ht with
  | prepare hp => rw [hp.isFold] at hf; cases hf
  | fail hact => rw [hact] at hf; cases hf
  | @fold b oldestRequiredTs f hist hquiet hfail hpoison hk hh =>
    have hin := h.quiet_inside hquiet
    refine ⟨hin, rfl, ?_⟩
    by_cases hab : a = b
    · subst hab
      have hall := (h.chains.folded h.txns h.slots hin hfail hpoison a).2
      have hset := fold_settled h hquiet hfail hpoison (hi.tiled a ha) hk hh (s₀.cell a)
      simp only [update_self, hall]
      rw [hi.cell a ha]
      exact hset
    · simp only [update_of_ne hab]
      refine ⟨hi.cell a ha, fun k e he => ?_⟩
      -- the new rows are those of the other key
      rcases (commitSpillTxn_get? hh _ _ k e).1 he with hold | ⟨w, hw, hident, hkey, -⟩
      · exact .inl hold
      · obtain ⟨-, -, -, -, -, hwi, hwk, -⟩ := ((foldKey_ok hk).2.2 w).1 hw
        rw [hwi] at hident
        rw [hwk] at hkey
        exact absurd (show a = b by cases a; cases b; cases hident; cases hkey; rfl) hab
  | _ => cases hf

theorem ended_trans (ht : Trans env s act s') (ha : a.ident.kind = .primary)
    {k : Ts ×ₗ ℕ} {e : VersionEntry} (he : (s'.hist a.ident a.key).get? k = some e) : e.stopTs ≤ s'.frontier ∧
    ∀ t, (s'.txn t).phase = .staging → e.stopTs ≤ (s'.txn t).readTs := by
  cases hf : act.isFold with
  | true =>
    obtain ⟨hin, hfront, -, hrows⟩ := hi.of_fold h ht hf ha
    refine ⟨?_, fun t hphase => ?_⟩
    · rw [hfront]
      exact (hrows k e he).elim (fun he => (hi.ended a ha k e he).1) id
    · have := hin t
      rw [hphase] at this; cases this
  | false =>
    rw [(store_trans ht hf).2] at he
    obtain ⟨hle, hread⟩ := hi.ended a ha k e he
    refine ⟨hle.trans (frontier_trans h.slots ht), fun t hphase => ?_⟩
    rcases inside_trans ht (t := t) (by rw [hphase]; rfl) with ⟨-, -, hsame⟩ | ⟨x, hp, hx⟩
    · obtain ⟨hs, hr⟩ := hsame hphase
      rw [hr]
      exact hread t hs
    · rw [hx] at hphase ⊢
      cases hp with
      | select hp | attach hp => rw [hp] at hphase; cases hphase
      | enter => exact hle
      | stageInsert hp | stageMutation hp | stageSec hp => exact hread t hp
      | reject => cases hphase

theorem absent_trans (ht : Trans env s act s') {t : TxnId}
    (hin : (s'.txn t).phase.inside = true) {w : StagedWrite} (hw : w ∈ (s'.txn t).writes)
    (ha : w.addr.ident.kind = .primary) (hins : isMutation w.op = false) :
    s'.cell w.addr = none ∨ ∃ e ∈ s'.chain w.addr, e.state = .committed := by
  cases hf : act.isFold with
  | true =>
    have := (hi.of_fold h ht hf ha).1 t
    rw [hin] at this; cases this
  | false =>
    -- what was seen is still there
    have hkeep : (s.cell w.addr = none ∨ ∃ e ∈ s.chain w.addr, e.state = .committed) →
        s'.cell w.addr = none ∨ ∃ e ∈ s'.chain w.addr, e.state = .committed := by
      rintro (hcell | ⟨e, he, hc⟩)
      · rw [(store_trans ht hf).1]
        exact .inl hcell
      · obtain ⟨d, hd, hdc, -⟩ := h.committed_trans ht hf he hc
        exact .inr ⟨d, hd, hdc⟩
    refine hkeep ?_
    rcases inside_trans ht hin with ⟨hin, hwrites, -⟩ | ⟨x, hp, hx⟩
    · exact hi.absent t hin w (hwrites ▸ hw) ha hins
    · rw [hx] at hin hw
      cases hp with
      | select hp | attach hp => rw [hp] at hin; cases hin
      | enter hp =>
        rw [(h.txns t).unstaged hp] at hw; cases hw
      | stageInsert hp hkind hnew hnone =>
        rcases mem_cons.1 hw with rfl | hw
        · exact hi.check h hp hkind hnone
        · exact hi.absent t hin w hw ha hins
      | stageMutation hp hcand hnew hop =>
        rcases mem_cons.1 hw with rfl | hw
        · rw [hop] at hins; cases hins
        · exact hi.absent t hin w hw ha hins
      | stageSec hp hkind =>
        rcases mem_cons.1 hw with rfl | hw
        · exact absurd ha hkind
        · exact hi.absent t hin w hw ha hins
      | reject => cases hin

/-- **One step.** -/
theorem trans (h' : EngineInv floor s') (ht : Trans env s act s') (hc : PrimaryInTime s act) : InsertInv s₀ s' := by
  have htime : ∀ a : Addr, a.ident.kind = .primary → ∀ t, act = .install t a → InTime s act := by
    intro a ha t hact
    subst hact
    exact hc ha
  refine ⟨fun a ha => tiled_trans h ht ha (hi.tiled a ha) (htime a ha),
    fun a ha => sorted_trans h ht (hi.sorted a ha) (htime a ha), fun a ha k e he => hi.ended_trans h ht ha he,
    fun a ha => ?_, fun t hin w hw ha hins => hi.absent_trans h ht hin hw ha hins,
    links_trans h h' ht hi.links fun t q ts w hp ha => hi.install h hp ha⟩
  cases hf : act.isFold with
  | true => exact (hi.of_fold h ht hf ha).2.2.1
  | false =>
    rw [(store_trans ht hf).1, old_trans ht hf]
    exact hi.cell a ha

end InsertInv

/-! ## The newest version below an insert -/

/-- in a sorted log the older versions are those below -/
theorem below_iff (hs : Sorted s a) {x : LogEntry} {below : List LogEntry} (hsuf : x :: below <:+ s.log a)
    (y : LogEntry) :
    y ∈ below ↔ y ∈ s.log a ∧ y.startTs < x.startTs := by
  obtain ⟨pre, hlog⟩ := hsuf
  unfold Sorted at hs
  rw [← hlog] at hs ⊢
  obtain ⟨-, hxs, hpre⟩ := pairwise_append.1 hs
  constructor
  · intro hy
    exact ⟨mem_append_right _ (mem_cons_of_mem _ hy), (pairwise_cons.1 hxs).1 y hy⟩
  · rintro ⟨hy, hlt⟩
    rcases mem_append.1 hy with hy | hy
    · exact absurd (hpre y hy x mem_cons_self) (lt_asymm hlt)
    · rcases mem_cons.1 hy with rfl | hy
      · exact absurd hlt (lt_irrefl _)
      · exact hy

/-- what is below a version of a primary key is committed -/
theorem below_committed (h : EngineInv floor s) (ha : a.ident.kind = .primary) {x : LogEntry} {below : List LogEntry}
    (hsuf : x :: below <:+ s.log a) {y : LogEntry} (hy : y ∈ below) : y ∈ s.versions a := by
  have htail : y ∈ (s.log a).tail := by
    obtain ⟨pre, hlog⟩ := hsuf
    rw [← hlog]
    cases pre with
    | nil => exact hy
    | cons z pre => exact mem_append_right _ (mem_cons_of_mem _ hy)
  unfold log at htail
  have htop := h.chains.top a ha
  cases hl : live (s.chain a) with
  | nil =>
    rw [hl] at htail
    exact mem_append_right _ (mem_of_mem_tail htail)
  | cons e l =>
    rw [hl] at htail htop
    rcases mem_append.1 htail with hy | hy
    · obtain ⟨d, hd, rfl⟩ := mem_map.1 hy
      have hmem : d ∈ live (s.chain a) := hl ▸ mem_cons_of_mem _ hd
      exact EngineInv.mem_versions (mem_live.1 hmem).1 (htop d hd)
    · exact mem_append_right _ hy

/-- **Inserts never overwrite a live document.** In every run whose installs on primary trees are in time order, with
folds between the envelopes: when an insert is committed at c, the newest version of the key below c is a tombstone; if
there is none, there was no base cell; and between two committed inserts of a key there is a delete. -/
theorem insert_on_absent (env : Env) (s₀ s : Engine) (l : List Act) (h₀ : OpenedInOrder s₀)
    (hl : Along (Engine.step env) PrimaryInTime s₀ l) (hr : run (Engine.step env) s₀ l = some s) (a : Addr)
    (ha : a.ident.kind = .primary) (t : TxnId) (c : Ts) (doc : Bytes) (hw : Wrote s a t c (.insert doc)) :
    (∀ x ∈ s.versions a, x.startTs < c → (∀ y ∈ s.versions a, y.startTs < c → y.startTs ≤ x.startTs) →
      x.isTombstone = true) ∧
    ((∀ x ∈ s.versions a, ¬ x.startTs < c) → s₀.cell a = none) ∧
    (∀ u c' doc', Wrote s a u c' (.insert doc') → c' < c → ∃ x ∈ s.versions a, x.isTombstone = true ∧ c' < x.startTs ∧
      x.startTs < c) := by
  obtain ⟨h, hi⟩ := engine_run (I := InsertInv s₀) (fun s act s' h h' ht hI hc => hI.trans h h' ht hc) h₀.toOpened
    (insertInv_opened h₀) hl hr
  obtain ⟨hphase, ⟨q, hq⟩, w, hwm, rfl, hop⟩ := hw
  obtain ⟨below, hsuf, hP⟩ := hi.links.of_installed h hq ⟨hwm, .inl (by rw [hphase]; rfl)⟩ ha
  have hP : foldedValue below (s₀.cell w.addr) = none := hP (by rw [hop]; rfl)
  have hiff := below_iff (hi.sorted _ ha) hsuf
  have hver : ∀ y ∈ below, y ∈ s.versions w.addr := fun y hy => below_committed h ha hsuf hy
  have hsort : below.Pairwise fun newer older => older.startTs < newer.startTs :=
    (pairwise_cons.1 ((hi.sorted _ ha).sublist hsuf.sublist)).2
  -- the first version below is the newest one, and it is a tombstone
  have hfirst : ∀ y ∈ below, ∃ z ∈ below, z.isTombstone = true ∧ (y = z ∨ y.startTs < z.startTs) := by
    intro y hy
    cases hb : below with
    | nil => rw [hb] at hy; cases hy
    | cons z rest =>
      rw [hb] at hy hP hsort
      have htomb : z.isTombstone = true := by
        by_contra hne
        simp [foldedValue, hne] at hP
      refine ⟨z, mem_cons_self, htomb, ?_⟩
      exact (mem_cons.1 hy).imp_right fun hy => (pairwise_cons.1 hsort).1 y hy
  refine ⟨fun x hx hlt hmax => ?_, fun hnone => ?_, fun u c' doc' hu hlt => ?_⟩
  · obtain ⟨z, hz, htomb, rfl | hxz⟩ := hfirst x ((hiff x).2 ⟨EngineInv.log_of_versions hx, hlt⟩)
    · exact htomb
    · exact absurd hxz (not_lt.2 (hmax z (hver z hz) ((hiff z).1 hz).2))
  · cases hb : below with
    | nil => rw [hb] at hP; exact hP
    | cons z rest =>
      have hz : z ∈ below := hb ▸ mem_cons_self
      exact absurd ((hiff z).1 hz).2 (hnone z (hver z hz))
  · obtain ⟨z, hz, htomb, hyz⟩ := hfirst (.of c' u (.insert doc')) ((hiff _).2 ⟨hu.mem_log h, hlt⟩)
    refine ⟨z, hver z hz, htomb, ?_, ((hiff z).1 hz).2⟩
    rcases hyz with rfl | hyz
    · cases htomb
    · exact hyz

/-- the document is inserted, deleted, folded away and inserted again -/
def insertAgain : List Act :=
  [.begin, .enter 1, .stageInsert 1 docAddr [1], .register 1 5] ++ commitActs 1 docAddr ++
  [.openView, .begin, .select 3 ⟨⟨5, 0⟩, 2⟩ docAddr, .attach 3 ⟨docAddr, [1], .chain ⟨⟨5, 0⟩, 1⟩⟩, .enter 3,
    .stageMutation 3 ⟨⟨docAddr, [1], .chain ⟨⟨5, 0⟩, 1⟩⟩, some ⟨⟨5, 0⟩, 1⟩⟩ .delete, .register 3 6] ++
  commitActs 3 docAddr ++
  [.fold docAddr ⟨0, 0⟩, .begin, .enter 4, .stageInsert 4 docAddr [8], .register 4 7] ++ commitActs 4 docAddr

/-- both inserts are committed, and there is a delete between them -/
theorem insert_on_absent_again : ∃ s, run (Engine.step plainEnv) (Engine.image fun _ => none) insertAgain = some s ∧
      Wrote s docAddr 1 ⟨5, 0⟩ (.insert [1]) ∧ Wrote s docAddr 4 ⟨7, 0⟩ (.insert [8]) ∧
      ∃ x ∈ s.versions docAddr, x.isTombstone = true ∧ ⟨5, 0⟩ < x.startTs ∧ x.startTs < ⟨7, 0⟩ := by
  have hal : Along (step plainEnv) PrimaryInTime (image fun _ => none) insertAgain := by decide
  obtain ⟨s, hs, hp1, hs1, hw1, hp4, hs4, hw4⟩ : ∃ s, run (step plainEnv) (image fun _ => none) insertAgain = some s ∧
      (s.txn 1).phase = .committed ∧ (s.txn 1).slot = some (1, ⟨5, 0⟩) ∧
      ⟨docAddr, .insert [1], none, none⟩ ∈ (s.txn 1).writes ∧
      (s.txn 4).phase = .committed ∧ (s.txn 4).slot = some (3, ⟨7, 0⟩) ∧
      ⟨docAddr, .insert [8], none, none⟩ ∈ (s.txn 4).writes :=
    ⟨_, rfl, by decide, by decide, by decide, by decide, by decide, by decide⟩
  have h1 : Wrote s docAddr 1 ⟨5, 0⟩ (.insert [1]) := ⟨hp1, ⟨1, hs1⟩, _, hw1, rfl, rfl⟩
  have h4 : Wrote s docAddr 4 ⟨7, 0⟩ (.insert [8]) := ⟨hp4, ⟨3, hs4⟩, _, hw4, rfl, rfl⟩
  obtain ⟨-, -, hbetween⟩ :=
    insert_on_absent plainEnv _ s _ (openedInOrder_image _) hal hs docAddr rfl 4 ⟨7, 0⟩ [8] h4
  exact ⟨s, hs, h1, h4, hbetween 1 ⟨5, 0⟩ [1] h1 (by decide)⟩

/-- **An insert under a later delete.** The insert is committed at 10. The newest version below 10 is the document that
was inserted at 5; it is deleted at 20 only. -/
theorem insert_under_later_delete : OpenedInOrder (Engine.image fun _ => none) ∧
    ∃ s, run (Engine.step plainEnv) (Engine.image fun _ => none) lateInsert = some s ∧
      Wrote s docAddr 2 ⟨5, 0⟩ (.insert [1]) ∧ Wrote s docAddr 1 ⟨10, 0⟩ (.insert [8]) ∧
      ⟨⟨5, 0⟩, 2, .inline [1], false⟩ ∈ s.versions docAddr ∧
      ∀ y ∈ s.versions docAddr, y.startTs < ⟨10, 0⟩ → y.startTs ≤ ⟨5, 0⟩ := by
  obtain ⟨s, hs, hp2, hs2, hw2, hp1, hs1, hw1, hver⟩ : ∃ s,
      run (step plainEnv) (image fun _ => none) lateInsert = some s ∧
      (s.txn 2).phase = .committed ∧ (s.txn 2).slot = some (1, ⟨5, 0⟩) ∧
      ⟨docAddr, .insert [1], none, none⟩ ∈ (s.txn 2).writes ∧
      (s.txn 1).phase = .committed ∧ (s.txn 1).slot = some (2, ⟨10, 0⟩) ∧
      ⟨docAddr, .insert [8], none, none⟩ ∈ (s.txn 1).writes ∧
      ⟨⟨5, 0⟩, 2, .inline [1], false⟩ ∈ s.versions docAddr ∧
      ∀ y ∈ s.versions docAddr, y.startTs < ⟨10, 0⟩ → y.startTs ≤ ⟨5, 0⟩ :=
    ⟨_, rfl, by decide, by decide, by decide, by decide, by decide, by decide, by decide, by decide⟩
  exact ⟨openedInOrder_image _, s, hs, ⟨hp2, ⟨1, hs2⟩, _, hw2, rfl, rfl⟩, ⟨hp1, ⟨2, hs1⟩, _, hw1, rfl, rfl⟩, hver⟩

end Mqlite.PagedEngine
