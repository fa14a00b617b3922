/-
Installs in time order.

A commit timestamp is registered before anything is installed, and an install does not compare it with the head it goes
on: on a secondary tree, and on a primary tree over a committed tombstone, a version can end up in front of one with a
later timestamp. `InTime` says that a step does not do this. Under it every log stays in time order, newest first
(`sorted_trans`).
-/
import Mqlite.PagedEngine.Readers

namespace Mqlite.PagedEngine

open Lib Mvcc Publish Storage List

/-- an install that proceeds finds a head that is older than the version it installs -/
def InTime (s : Engine) : Act → Prop
  | .install t a => ∀ p ∈ (s.txn t).slot, ∀ w ∈ (s.txn t).todo, w.addr = a →
    classifyDeltaInstall (s.chain a) w.expectedHead a.scope a.key t = .ok .proceed →
    ∀ head ∈ liveHead (s.chain a), head.startTs < p.2
  | _ => True

instance (s : Engine) : (act : Act) → Decidable (InTime s act)
  | .install t _ => inferInstanceAs (Decidable (∀ p ∈ (s.txn t).slot, _))
  | .openView | .begin | .select .. | .attach .. | .enter _ | .stageInsert .. | .stageMutation ..
  | .stageSec .. | .giveUp _
  | .register .. | .fail _ | .durable _ | .flip .. | .finish .. | .poison | .fold .. => .isTrue trivial

/-- the log is in time order, newest first -/
def Sorted (s : Engine) (a : Addr) : Prop := (s.log a).Pairwise fun newer older => older.startTs < newer.startTs

variable {env : Env} {floor : Ts} {s s' : Engine} {act : Act} {a : Addr}

theorem InTime.head_lt (hc : InTime s act) {t : TxnId} {q : ℕ} {ts : Ts} {w : StagedWrite}
    (hp : Pushes s act t q ts w) :
    ∀ head ∈ liveHead (s.chain w.addr), head.startTs < ts := by
  rw [hp.act] at hc
  exact hc (q, ts) hp.slot w hp.todo rfl hp.proceed

/-- an install in time order is later than everything in the log -/
theorem InTime.newest (h : EngineInv floor s) (hs : Sorted s a) (hc : InTime s act) {t : TxnId} {q : ℕ} {ts : Ts}
    {w : StagedWrite} (hp : Pushes s act t q ts w) (ha : w.addr = a) : ∀ x ∈ s.log a, x.startTs < ts := by
  subst ha
  have hlt := hc.head_lt hp
  rw [liveHead_eq_head? (h.chains.stacked _)] at hlt
  unfold Sorted Engine.log at hs
  intro x hx
  cases hl : live (s.chain w.addr) with
  | nil =>
    -- only folded versions, which are behind the frontier
    rw [Engine.log, hl] at hx
    exact (h.chains.old _ x hx).trans_lt (hp.ahead h)
  | cons head l =>
    rw [Engine.log, hl] at hx
    rw [hl] at hs hlt
    have hhead : head.startTs < ts := hlt head rfl
    rcases mem_cons.1 hx with rfl | hx
    · exact hhead
    · exact ((pairwise_cons.1 hs).1 x hx).trans hhead

/-- **One step** in time order keeps the log in time order. -/
theorem sorted_trans (h : EngineInv floor s) (ht : Trans env s act s') (hs : Sorted s a)
    (hc : ∀ t, act = .install t a → InTime s act) : Sorted s' a := by
  unfold Sorted
  rcases log_trans h ht a with hlog | ⟨t, q, ts, w, hp, ha, hlog⟩ | ⟨pre, x, post, hlog, hlog', -⟩
  · rw [hlog]; exact hs
  · rw [hlog]
    have hc := hc t (by rw [hp.act, ha])
    exact pairwise_cons.2 ⟨hc.newest h hs hp ha, hs⟩
  · unfold Sorted at hs
    rw [hlog] at hs
    rw [hlog']
    exact hs.sublist ((List.Sublist.refl pre).append (sublist_cons_self x post))

/-! ## Where runs start -/

/-- the engine has just been opened: chains are in order, and what is in the history store has ended -/
structure OpenedInOrder (s : Engine) : Prop extends Opened s where
  wellFormed : ∀ a, WellFormed (s.chain a)
  ended : ∀ ident key k e, (s.hist ident key).get? k = some e → e.stopTs ≤ s.frontier

theorem OpenedInOrder.sorted (h : OpenedInOrder s) (a : Addr) : Sorted s a := by
  unfold Sorted
  rw [Engine.log, h.old, append_nil]
  exact pairwise_map.2 (h.wellFormed a).2.1

theorem openedInOrder_image (cell : Addr → Option VersionData) : OpenedInOrder (Engine.image cell) where
  toOpened := opened_image cell
  wellFormed a := by show WellFormed []; decide
  ended ident key k e he := by
    have he : (OrdMap.empty : HistoryRows).get? k = some e := he
    rw [OrdMap.get?_empty] at he; cases he

/-! ## A run out of order -/

/-- Transaction 1 checks that the document is absent and stages an insert. Transaction 2 inserts the document at 5; then
transaction 1 registers 10, and before it installs anything, transaction 4 deletes the document at 20. The insert of
transaction 1 finds a committed tombstone, and goes on top of it. -/
def lateInsert : List Act :=
  [.begin, .begin, .enter 1, .stageInsert 1 docAddr [8], .enter 2, .stageInsert 2 docAddr [1], .register 2 5] ++
  commitActs 2 docAddr ++
  [.register 1 10, .openView, .begin, .select 4 ⟨⟨5, 0⟩, 3⟩ docAddr,
    .attach 4 ⟨docAddr, [1], .chain ⟨⟨5, 0⟩, 2⟩⟩, .enter 4,
    .stageMutation 4 ⟨⟨docAddr, [1], .chain ⟨⟨5, 0⟩, 2⟩⟩, some ⟨⟨5, 0⟩, 2⟩⟩ .delete, .register 4 20] ++
  commitActs 4 docAddr ++ commitActs 1 docAddr

end Mqlite.PagedEngine
