/-
First-committer-wins: of two transactions that update or delete a key after selecting the same version of it, at most
one commits.

The check compares the live head of the chain with an expected head that was looked up after the selection. It has three
holes:
- an update or delete that selected the base cell expects no head, which is also what an insert expects: it is let
  through over a committed tombstone, so it brings a deleted document back (`delete_and_update_both_commit`);
- a live head found after the selection is taken for the selected version when the two documents are equal;
- a fold empties the chain, and an empty chain lets everything through (`update_lost_across_fold`).

`FirstWins` excludes the first two, and `first_committer_wins` concludes for runs without folds. `StillNewest` excludes
the third as well for versions selected in a chain, and `no_lost_update` concludes for runs with folds.
-/
import Mqlite.PagedEngine.Readers

namespace Mqlite.PagedEngine

open Lib Mvcc Publish Storage List Option Engine ExpectedHead

/-! ## The conditions -/

/-- the version a lookup ended at; `none` is the base cell -/
def Observed.version : Observed → Option ExpectedHead
  | .chain v | .history v => some v
  | .base => none

/-- the live head would be taken for the selected document -/
def matchesDoc (env : Env) (head : VersionEntry) (doc : Bytes) : Prop :=
  head.state = .committed ∧ head.isTombstone = false ∧ env.sameDoc (resolveVersionData env.pages head.data) doc = true

/-- when an expected head is looked up, a head that is taken for the selected version is that version; and an update or
delete without an expected head is not installed over a committed tombstone -/
def FirstWins (env : Env) (s : Engine) : Act → Prop
  | .attach _ sel => ∀ head ∈ liveHead (s.chain sel.addr), matchesDoc env head sel.doc →
      sel.observed = .chain head.headId
  | .install t a => ∀ w ∈ (s.txn t).todo, w.addr = a → w.observed ≠ none → w.expectedHead = none →
    ∀ head ∈ liveHead (s.chain a), ¬ (head.state = .committed ∧ head.isTombstone = true)
  | _ => True

/-- the version selected, if it was in the chain -/
def Observed.inChain : Observed → Option ExpectedHead
  | .chain v => some v
  | _ => none

/-- the same for versions selected in a chain; and where a fold has emptied the chain, the selected version is still the
newest of the key -/
def StillNewest (env : Env) (s : Engine) : Act → Prop
  | .attach _ sel => ∀ v ∈ sel.observed.inChain,
    ∀ head ∈ liveHead (s.chain sel.addr), matchesDoc env head sel.doc → head.headId = v
  | .install t a => ∀ w ∈ (s.txn t).todo, w.addr = a → ∀ v ∈ w.observed.bind Observed.inChain,
    (liveHead (s.chain a) = none → (s.old a).head?.map LogEntry.id = some v) ∧
    ∀ head ∈ liveHead (s.chain a), w.expectedHead = none → ¬ (head.state = .committed ∧ head.isTombstone = true)
  | _ => True

instance (env : Env) (head : VersionEntry) (doc : Bytes) : Decidable (matchesDoc env head doc) :=
  inferInstanceAs (Decidable (_ ∧ _ ∧ _))

instance (env : Env) (s : Engine) : (act : Act) → Decidable (FirstWins env s act)
  | .attach _ sel => inferInstanceAs (Decidable (∀ head ∈ liveHead (s.chain sel.addr), _))
  | .install t _ => inferInstanceAs (Decidable (∀ w ∈ (s.txn t).todo, _))
  | .openView | .begin | .select .. | .enter _ | .stageInsert .. | .stageMutation .. | .stageSec .. | .giveUp _
  | .register .. | .fail _ | .durable _ | .flip .. | .finish .. | .poison | .fold .. => .isTrue trivial

instance (env : Env) (s : Engine) : (act : Act) → Decidable (StillNewest env s act)
  | .attach _ sel => inferInstanceAs (Decidable (∀ v ∈ sel.observed.inChain, _))
  | .install t _ => inferInstanceAs (Decidable (∀ w ∈ (s.txn t).todo, _))
  | .openView | .begin | .select .. | .enter _ | .stageInsert .. | .stageMutation .. | .stageSec .. | .giveUp _
  | .register .. | .fail _ | .durable _ | .flip .. | .finish .. | .poison | .fold .. => .isTrue trivial

variable {env : Env} {floor : Ts} {s : Engine} {o : Observed}

theorem expectedHead_ok {c : Chain} {doc : Bytes} {expected : Option ExpectedHead}
    (h : expectedHeadForSelectedDoc env c doc = .ok expected) :
    (liveHead c = none ∧ expected = none) ∨ ∃ head, liveHead c = some head ∧ matchesDoc env head doc ∧
      expected = some head.headId := by
  unfold expectedHeadForSelectedDoc at h
  cases hh : liveHead c with
  | none => rw [hh] at h; cases h; exact .inl ⟨rfl, rfl⟩
  | some head =>
    rw [hh] at h
    simp only at h
    split_ifs at h with h1 h2
    cases h
    simp only [not_or, not_not] at h1
    exact .inr ⟨head, rfl, ⟨h1.1, by simpa using h1.2, h2⟩, rfl⟩

/-! ## Without folds -/

/-- what a selection says about the versions of its key -/
def Observed.Holds (s : Engine) (a : Addr) : Observed → Prop
  | .chain v => ∃ x ∈ s.versions a, x.id = v
  | .history v => v.commitTs ≤ s.frontier ∧ ∀ x ∈ s.log a, x.id ≠ v
  | .base => True

/-- an open view observes what there is -/
theorem observe_holds (h : EngineInv floor s) {view : ReadView} (hv : s.Open view)
    {a : Addr} (hold : s.old a = []) {doc : Bytes} (hobs : s.observe env view a = some (o, doc)) : o.Holds s a := by
  unfold observe at hobs
  cases hvis : visibleAt s.frontier view (s.chain a) with
  | some e =>
    rw [hvis] at hobs
    obtain ⟨d, -, heq⟩ := map_eq_some_iff.1 hobs
    cases heq
    obtain ⟨he, hc, -⟩ := h.visible_committed hv hvis
    exact ⟨logged e, EngineInv.mem_versions he hc, rfl⟩
  | none =>
    rw [hvis] at hobs
    cases hrow : if historyIsCandidate view.readTs (s.chain a) = true
        then probeVisibleEntry a.ident.kind (s.hist a.ident a.key) view.readTs else .ok none with
    | error err => rw [hrow] at hobs; cases hobs
    | ok row =>
      rw [hrow] at hobs
      cases row with
      | none =>
        obtain ⟨d, -, heq⟩ := map_eq_some_iff.1 hobs
        cases heq
        trivial
      | some e =>
        obtain ⟨d, -, heq⟩ := map_eq_some_iff.1 hobs
        cases heq
        have hle : e.startTs ≤ view.readTs := by
          split_ifs at hrow
          · exact (probe_visible (probe_ok hrow)).1
          · cases hrow
        refine ⟨hle.trans (h.open_le hv), fun x hx heq => ?_⟩
        -- whatever is in the chain starts after the view
        rw [h.visibleAt_open hv] at hvis
        rw [log, hold, append_nil] at hx
        obtain ⟨d, hd, rfl⟩ := mem_map.1 hx
        have hgt := find?_eq_none.1 hvis d hd
        have hst : d.startTs = e.startTs := congrArg commitTs heq
        exact hgt (by simpa [hst] using hle)

theorem Observed.Holds.trans {s' : Engine} {act : Act} (h : EngineInv floor s)
    (ht : Trans env s act s') {a : Addr} (ho : o.Holds s a) : o.Holds s' a := by
  cases o with
  | base => trivial
  | chain v =>
    obtain ⟨x, hx, hid⟩ := ho
    exact ⟨x, h.versions_trans ht hx, hid⟩
  | history v =>
    obtain ⟨hle, hnot⟩ := ho
    refine ⟨hle.trans (frontier_trans h.slots ht), ?_⟩
    rcases log_trans h ht a with hlog | ⟨t, q, ts, w, hpush, rfl, hlog⟩ | ⟨pre, y, post, hlog, hlog', -⟩
    · rw [hlog]; exact hnot
    · rw [hlog]
      refine forall_mem_cons.2 ⟨fun heq => ?_, hnot⟩
      -- the new version starts after the frontier
      have hts : ts = v.commitTs := congrArg commitTs heq
      exact absurd (hpush.ahead h) (not_lt.2 (hts ▸ hle))
    · rw [hlog']
      rw [hlog] at hnot
      exact fun x hx => hnot x (((List.Sublist.refl pre).append (sublist_cons_self y post)).subset hx)

/-- the version of an update or delete lies directly on the version it selected in the chain, or at the bottom -/
def OnSelected (w : StagedWrite) (below : List LogEntry) : Prop :=
  ∀ o, w.observed = some o → below.head?.map LogEntry.id = o.inChain

/-- what holds in runs without folds -/
structure Unfolded (s : Engine) : Prop where
  old : ∀ a, s.old a = []
  selected : ∀ t, ∀ sel ∈ (s.txn t).selected, sel.observed.Holds s sel.addr
  expected : ∀ t, ∀ cand ∈ (s.txn t).candidates, ∀ v, cand.expectedHead = some v ↔ cand.sel.observed = .chain v
  links : Links OnSelected s

theorem unfolded_opened (h : Opened s) : Unfolded s := by
  refine ⟨h.old, fun t sel hsel => ?_, fun t cand hcand => ?_, links_opened h⟩
  · rw [h.txns] at hsel; cases hsel
  · rw [h.txns] at hcand; cases hcand

namespace Unfolded

variable {env : Env} {floor : Ts} {s s' : Engine} {act : Act}

theorem log_eq (hu : Unfolded s) (a : Addr) : s.log a = (live (s.chain a)).map logged := by
  rw [log, hu.old, append_nil]

/-- a version selected in the chain is still there -/
theorem live_ne_nil (hu : Unfolded s) {t : TxnId} {sel : Selection} (hsel : sel ∈ (s.txn t).selected) {v : ExpectedHead}
    (ho : sel.observed = .chain v) : live (s.chain sel.addr) ≠ [] := by
  have hh := hu.selected t sel hsel
  rw [ho] at hh
  obtain ⟨x, hx, -⟩ := hh
  have hlog := EngineInv.log_of_versions hx
  intro hnil
  rw [hu.log_eq, hnil] at hlog
  cases hlog

theorem attach (hu : Unfolded s) (h : EngineInv floor s) {t : TxnId} {sel : Selection} (hsel : sel ∈ (s.txn t).selected)
    (hc : FirstWins env s (.attach t sel)) {expected : Option ExpectedHead}
    (hok : expectedHeadForSelectedDoc env (s.chain sel.addr) sel.doc = .ok expected) (v : ExpectedHead) :
    expected = some v ↔ sel.observed = .chain v := by
  rcases expectedHead_ok hok with ⟨hnone, rfl⟩ | ⟨head, hhead, hmatch, rfl⟩
  · rw [liveHead_eq_head? (h.chains.stacked _), head?_eq_none_iff] at hnone
    exact ⟨fun he => (by cases he), fun ho => absurd hnone (hu.live_ne_nil hsel ho)⟩
  · have ho := hc head hhead hmatch
    rw [ho, Option.some.injEq, Observed.chain.injEq]

theorem install (hu : Unfolded s) (h : EngineInv floor s) (hc : FirstWins env s act) {t : TxnId} {q : ℕ} {ts : Ts}
    {w : StagedWrite} (hp : Pushes s act t q ts w) (ha : w.addr.ident.kind = .primary) :
    OnSelected w (s.log w.addr) := by
  have hw : w ∈ (s.txn t).writes := (h.txns t).todo.subset hp.todo
  intro o ho
  obtain ⟨cand, hcand, haddr, hobs, hexp⟩ := (h.txns t).mutations w hw o ho
  have hsel := (h.txns t).candidates cand hcand
  have hiff := hu.expected t cand hcand
  rw [hobs, hexp] at hiff
  rw [hu.log_eq]
  rcases hp.found h ha with hnil | ⟨head, l, hl, hcm, ⟨he, -⟩ | ⟨he, htomb⟩⟩
  · -- nothing live: then nothing was selected in the chain
    rw [hnil]
    cases o with
    | chain v => exact absurd (haddr ▸ hnil) (hu.live_ne_nil hsel hobs)
    | history v | base => rfl
  · rw [hl, (hiff _).1 he]
    rfl
  · -- a tombstone under a write that expects no head
    rw [hp.act] at hc
    have hhead : liveHead (s.chain w.addr) = some head := by
      rw [liveHead_eq_head? (h.chains.stacked _), hl]; rfl
    exact absurd ⟨hcm, htomb⟩ (hc w hp.todo rfl (by rw [ho]; simp) he head hhead)

theorem trans (hu : Unfolded s) (h : EngineInv floor s) (h' : EngineInv floor s') (ht : Trans env s act s')
    (hf : act.isFold = false) (hc : FirstWins env s act) : Unfolded s' := by
  have hold := old_trans ht hf
  refine ⟨fun a => by rw [hold]; exact hu.old a, fun t sel hsel => ?_, fun t cand hcand => ?_, ?_⟩
  · rcases selected_trans h ht hsel with hmem | ⟨view, hview, -, hobs⟩
    · exact (hu.selected t sel hmem).trans h ht
    · exact (observe_holds h (.inl hview) (hu.old _) hobs).trans h ht
  · rcases candidates_trans h ht hcand with hmem | ⟨rfl, hsel, hok⟩
    · exact hu.expected t cand hmem
    · exact fun v => hu.attach h hsel hc hok v
  · exact links_trans h h' ht hu.links fun t q ts w hp ha => hu.install h hc hp ha

end Unfolded

/-- a committed update or delete, and the log below its version -/
theorem committed_below {P : StagedWrite → List LogEntry → Prop} (h : EngineInv floor s)
    (hl : Links P s) {t : TxnId} (ht : (s.txn t).phase = .committed) {w : StagedWrite} (hw : w ∈ (s.txn t).writes)
    (ho : w.observed = some o) :
    ∃ p below, (s.txn t).slot = some p ∧ LogEntry.of p.2 t w.op :: below <:+ s.log w.addr ∧ P w below := by
  have hd : (s.txn t).phase.durable = true := by rw [ht]; rfl
  obtain ⟨⟨q, ts⟩, hp⟩ := (h.txns t).slot_of_durable hd
  obtain ⟨cand, hcand, haddr, -⟩ := (h.txns t).mutations w hw o ho
  have hkind := (h.txns t).selected _ ((h.txns t).candidates cand hcand)
  rw [haddr] at hkind
  obtain ⟨below, hsuf, hP⟩ := hl.of_installed h hp ⟨hw, .inl hd⟩ hkind
  exact ⟨(q, ts), below, hp, hsuf, hP⟩

/-- a version that one selection found in the history store is in no log, so no other version lies on it -/
theorem Unfolded.not_below (hu : Unfolded s) (h : EngineInv floor s) {t : TxnId} {w : StagedWrite}
    (hw : w ∈ (s.txn t).writes) {v : ExpectedHead} (ho : w.observed = some (.history v)) {y : LogEntry}
    {below : List LogEntry} (hsuf : y :: below <:+ s.log w.addr) : below.head?.map LogEntry.id ≠ some v := by
  obtain ⟨cand, hcand, haddr, hobs, -⟩ := (h.txns t).mutations w hw _ ho
  have hholds := hu.selected t cand.sel ((h.txns t).candidates cand hcand)
  rw [hobs, haddr] at hholds
  intro hid
  obtain ⟨x, hx, hxv⟩ := map_eq_some_iff.1 hid
  exact hholds.2 x (hsuf.subset (mem_cons_of_mem _ (mem_of_mem_head? hx))) hxv

/-- **First committer wins.** In every run without folds whose steps all meet `FirstWins`, of two transactions that
update or delete a key after selecting the same version of it at most one is committed. -/
theorem first_committer_wins (env : Env) (s₀ s : Engine) (l : List Act) (h₀ : Opened s₀)
    (hfold : ∀ act ∈ l, act.isFold = false) (hl : Along (Engine.step env) (FirstWins env) s₀ l)
    (hr : run (Engine.step env) s₀ l = some s) (t u : TxnId) (w v : StagedWrite) (hw : w ∈ (s.txn t).writes)
    (hv : v ∈ (s.txn u).writes) (haddr : w.addr = v.addr) (o o' : Observed) (ho : w.observed = some o)
    (ho' : v.observed = some o') (hsame : o.version = o'.version) (ht : (s.txn t).phase = .committed)
    (hu : (s.txn u).phase = .committed) : t = u := by
  obtain ⟨h, hun⟩ := engine_run (I := Unfolded) (fun s act s' h h' ht hI hc => hI.trans h h' ht hc.2 hc.1) h₀
    (unfolded_opened h₀) (hl.and_mem hfold) hr
  obtain ⟨p, below, hp, hsuf, hP⟩ := committed_below h hun.links ht hw ho
  obtain ⟨r, below', hr, hsuf', hP'⟩ := committed_below h hun.links hu hv ho'
  rw [← haddr] at hsuf'
  have hb := hP o ho
  have hb' := hP' o' ho'
  have hnext : o.inChain = o'.inChain := by
    cases o with
    | chain x =>
      cases o' with
      | chain y => exact hsame
      | history y => cases hsame; exact absurd hb (hun.not_below h hv ho' (haddr ▸ hsuf))
      | base => cases hsame
    | history x =>
      cases o' with
      | chain y => cases hsame; exact absurd hb' (hun.not_below h hw ho hsuf')
      | history y | base => rfl
    | base =>
      cases o' with
      | chain y => cases hsame
      | history y | base => rfl
  have hids : below.head?.map LogEntry.id = below'.head?.map LogEntry.id := by rw [hb, hb', hnext]
  have hstarts := congrArg (Option.map commitTs) hids
  rw [Option.map_map, Option.map_map] at hstarts
  exact next_unique h hp hr hsuf hsuf' hstarts

/-- two operations select the document in the base image, and the first one commits -/
def selectTwice (op : WriteOp) : List Act :=
  [.openView, .begin, .begin, .select 2 ⟨⟨3, 0⟩, 1⟩ docAddr, .select 3 ⟨⟨3, 0⟩, 1⟩ docAddr,
    .attach 2 ⟨docAddr, [1], .base⟩, .attach 3 ⟨docAddr, [1], .base⟩,
    .enter 2, .stageMutation 2 ⟨⟨docAddr, [1], .base⟩, none⟩ op, .register 2 5] ++ commitActs 2 docAddr ++
  [.enter 3, .stageMutation 3 ⟨⟨docAddr, [1], .base⟩, none⟩ (.update [2]), .register 3 6, .install 3 docAddr]

/-- two updates: the second one is refused -/
theorem first_committer_wins_update :
    ∃ s, run (Engine.step plainEnv) (Engine.image docCell) (selectTwice (.update [5])) = some s ∧
      (s.txn 2).phase = .committed ∧ (s.txn 3).phase ≠ .committed := by
  have hal : Along (step plainEnv) (FirstWins plainEnv) (image docCell) (selectTwice (.update [5])) := by
    decide
  obtain ⟨s, hs, hphase, hw, hv⟩ : ∃ s, run (step plainEnv) (image docCell) (selectTwice (.update [5])) =
      some s ∧ (s.txn 2).phase = .committed ∧ (s.txn 2).writes = [⟨docAddr, .update [5], none, some .base⟩] ∧
      (s.txn 3).writes = [⟨docAddr, .update [2], none, some .base⟩] :=
    ⟨_, rfl, by decide, by decide, by decide⟩
  refine ⟨s, hs, hphase, fun hphase' => ?_⟩
  have heq := first_committer_wins plainEnv _ s _ (opened_image docCell) (by decide) hal hs 2 3
    ⟨docAddr, .update [5], none, some .base⟩ ⟨docAddr, .update [2], none, some .base⟩ (by simp [hw]) (by simp [hv]) rfl
    .base .base rfl rfl rfl hphase hphase'
  cases heq

/-- **Update over a delete.** Both operations select the document in the base image. The first one deletes it; the
second one expects no head, is taken for an insert, and brings the document back. -/
theorem delete_and_update_both_commit :
    Opened (Engine.image docCell) ∧ ∃ s, run (Engine.step plainEnv) (Engine.image docCell)
        (selectTwice .delete ++ [.durable 3, .flip 3 docAddr, .finish 3 true]) = some s ∧
      (s.txn 2).writes = [⟨docAddr, .delete, none, some .base⟩] ∧ (s.txn 2).phase = .committed ∧
      (s.txn 3).writes = [⟨docAddr, .update [2], none, some .base⟩] ∧ (s.txn 3).phase = .committed :=
  ⟨opened_image docCell, _, rfl, by decide, by decide, by decide, by decide⟩

/-! ## With folds -/

/-- the version of an update or delete lies directly on the version it selected, if that was in the chain -/
def OnChainSelected (w : StagedWrite) (below : List LogEntry) : Prop :=
  ∀ v, w.observed = some (.chain v) → below.head?.map LogEntry.id = some v

/-- what holds in runs with folds -/
structure Tracked (s : Engine) : Prop where
  expected : ∀ t, ∀ cand ∈ (s.txn t).candidates, ∀ v x, cand.sel.observed = .chain v →
    cand.expectedHead = some x → x = v
  links : Links OnChainSelected s

theorem tracked_opened (h : Opened s) : Tracked s := by
  refine ⟨fun t cand hcand => ?_, links_opened h⟩
  rw [h.txns] at hcand; cases hcand

namespace Tracked

variable {env : Env} {floor : Ts} {s s' : Engine} {act : Act}

theorem install (hk : Tracked s) (h : EngineInv floor s) (hc : StillNewest env s act) {t : TxnId} {q : ℕ} {ts : Ts}
    {w : StagedWrite} (hp : Pushes s act t q ts w) (ha : w.addr.ident.kind = .primary) :
    OnChainSelected w (s.log w.addr) := by
  have hw : w ∈ (s.txn t).writes := (h.txns t).todo.subset hp.todo
  intro v ho
  obtain ⟨cand, hcand, -, hobs, hexp⟩ := (h.txns t).mutations w hw _ ho
  rw [hp.act] at hc
  obtain ⟨hempty, htop⟩ := hc w hp.todo rfl v (by rw [ho]; rfl)
  rw [liveHead_eq_head? (h.chains.stacked _)] at hempty htop
  unfold log
  rcases hp.found h ha with hnil | ⟨head, l, hl, hcm, ⟨he, -⟩ | ⟨he, htomb⟩⟩
  · rw [hnil] at hempty ⊢
    exact hempty rfl
  · have hx := hk.expected t cand hcand v head.headId hobs (hexp.trans he)
    rw [hl, ← hx]
    rfl
  · rw [hl] at htop
    exact absurd ⟨hcm, htomb⟩ (htop head rfl he)

theorem trans (hk : Tracked s) (h : EngineInv floor s) (h' : EngineInv floor s') (ht : Trans env s act s')
    (hc : StillNewest env s act) : Tracked s' := by
  refine ⟨fun t cand hcand v x ho he => ?_, ?_⟩
  · rcases candidates_trans h ht hcand with hmem | ⟨rfl, hsel, hok⟩
    · exact hk.expected t cand hmem v x ho he
    · rw [he] at hok
      rcases expectedHead_ok hok with ⟨-, hx⟩ | ⟨head, hhead, hmatch, hx⟩
      · cases hx
      · cases hx
        exact hc v (by rw [ho]; rfl) head hhead hmatch
  · exact links_trans h h' ht hk.links fun t q ts w hp ha => hk.install h hc hp ha

end Tracked

/-- **No lost update.** In every run, with folds, whose steps all meet `StillNewest`, of two transactions that update or
delete a key after selecting the same version of it in the chain at most one is committed. -/
theorem no_lost_update (env : Env) (s₀ s : Engine) (l : List Act) (h₀ : Opened s₀)
    (hl : Along (Engine.step env) (StillNewest env) s₀ l) (hr : run (Engine.step env) s₀ l = some s) (t u : TxnId)
    (w v : StagedWrite) (hw : w ∈ (s.txn t).writes) (hv : v ∈ (s.txn u).writes) (haddr : w.addr = v.addr)
    (x : ExpectedHead) (ho : w.observed = some (.chain x)) (ho' : v.observed = some (.chain x))
    (ht : (s.txn t).phase = .committed) (hu : (s.txn u).phase = .committed) : t = u := by
  obtain ⟨h, hk⟩ :=
    engine_run (I := Tracked) (fun s act s' h h' ht hI hc => hI.trans h h' ht hc) h₀ (tracked_opened h₀) hl hr
  obtain ⟨p, below, hp, hsuf, hP⟩ := committed_below h hk.links ht hw ho
  obtain ⟨r, below', hr, hsuf', hP'⟩ := committed_below h hk.links hu hv ho'
  rw [← haddr] at hsuf'
  have hids : below.head?.map LogEntry.id = below'.head?.map LogEntry.id := by rw [hP x ho, hP' x ho']
  have hstarts := congrArg (Option.map commitTs) hids
  rw [Option.map_map, Option.map_map] at hstarts
  exact next_unique h hp hr hsuf hsuf' hstarts

/-- the document is inserted; two operations select it in the chain, and the first one commits an update of it -/
def selectInChain : List Act :=
  [.begin, .enter 1, .stageInsert 1 docAddr [1], .register 1 5] ++ commitActs 1 docAddr ++
  [.openView, .begin, .begin, .select 3 ⟨⟨5, 0⟩, 2⟩ docAddr, .select 4 ⟨⟨5, 0⟩, 2⟩ docAddr,
    .attach 3 ⟨docAddr, [1], .chain ⟨⟨5, 0⟩, 1⟩⟩, .attach 4 ⟨docAddr, [1], .chain ⟨⟨5, 0⟩, 1⟩⟩]

/-- the update of one of them -/
def updateActs (t : TxnId) (doc : Bytes) (wall : UInt64) : List Act :=
  [.enter t, .stageMutation t ⟨⟨docAddr, [1], .chain ⟨⟨5, 0⟩, 1⟩⟩, some ⟨⟨5, 0⟩, 1⟩⟩ (.update doc), .register t wall]

/-- a fold before the first update: the second one is refused -/
theorem no_lost_update_folded_before : ∃ s, run (Engine.step plainEnv) (Engine.image fun _ => none)
        (selectInChain ++ .fold docAddr Ts.MAX :: updateActs 3 [2] 6 ++ commitActs 3 docAddr ++ updateActs 4 [3] 7 ++
          [.install 4 docAddr]) = some s ∧
      (s.txn 3).phase = .committed ∧ (s.txn 4).phase ≠ .committed := by
  generalize hacts : selectInChain ++ .fold docAddr Ts.MAX :: updateActs 3 [2] 6 ++ commitActs 3 docAddr ++
    updateActs 4 [3] 7 ++ [.install 4 docAddr] = acts
  have hal : Along (step plainEnv) (StillNewest plainEnv) (image fun _ => none) acts := by
    rw [← hacts]; decide
  obtain ⟨s, hs, hphase, hw, hv⟩ : ∃ s, run (step plainEnv) (image fun _ => none) acts = some s ∧
      (s.txn 3).phase = .committed ∧
      (s.txn 3).writes = [⟨docAddr, .update [2], some ⟨⟨5, 0⟩, 1⟩, some (.chain ⟨⟨5, 0⟩, 1⟩)⟩] ∧
      (s.txn 4).writes = [⟨docAddr, .update [3], some ⟨⟨5, 0⟩, 1⟩, some (.chain ⟨⟨5, 0⟩, 1⟩)⟩] := by
    rw [← hacts]
    exact ⟨_, rfl, by decide, by decide, by decide⟩
  refine ⟨s, hs, hphase, fun hphase' => ?_⟩
  have heq := no_lost_update plainEnv _ s _ (opened_image _) hal hs 3 4 ⟨docAddr, .update [2], some ⟨⟨5, 0⟩, 1⟩,
    some (.chain ⟨⟨5, 0⟩, 1⟩)⟩
    ⟨docAddr, .update [3], some ⟨⟨5, 0⟩, 1⟩, some (.chain ⟨⟨5, 0⟩, 1⟩)⟩ (by simp [hw]) (by simp [hv]) rfl
    ⟨⟨5, 0⟩, 1⟩ rfl rfl hphase hphase'
  cases heq

/-- **Update lost.** Both operations select the version in the chain and expect it. The first one commits, a fold
empties the chain, and nothing stops the second one. -/
theorem update_lost_across_fold :
    Opened (Engine.image fun _ => none) ∧ ∃ s, run (Engine.step plainEnv) (Engine.image fun _ => none)
        (selectInChain ++ updateActs 3 [2] 6 ++ commitActs 3 docAddr ++ .fold docAddr Ts.MAX :: updateActs 4 [3] 7 ++
          commitActs 4 docAddr) = some s ∧
      (s.txn 3).writes = [⟨docAddr, .update [2], some ⟨⟨5, 0⟩, 1⟩, some (.chain ⟨⟨5, 0⟩, 1⟩)⟩] ∧
      (s.txn 3).phase = .committed ∧
      (s.txn 4).writes = [⟨docAddr, .update [3], some ⟨⟨5, 0⟩, 1⟩, some (.chain ⟨⟨5, 0⟩, 1⟩)⟩] ∧
      (s.txn 4).phase = .committed :=
  ⟨opened_image _, _, rfl, by decide, by decide, by decide, by decide⟩

end Mqlite.PagedEngine
