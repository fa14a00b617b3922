/-
The invariant of the engine's chains, and what every step does to the log of a key.

- `ChainsInv`: chains keep the shape `Stacked`; Pending entries belong to the transactions that hold them; every version
  is from the start or was written by its transaction, and what a transaction has installed and not rolled back is in
  the log.
- `engineInv_trans`, `engineInv_run`: the whole invariant holds in every state of every run.
- `log_trans`: a step leaves a log alone, pushes one entry in front, or takes one out; on a primary tree only the first
  one.
-/
import Mqlite.Mvcc.ChainOrder
import Mqlite.PagedEngine.Slots

namespace Mqlite.PagedEngine

open Lib Mvcc Publish Storage List Engine TxnPhase VersionEntry Function

/-! ## The invariant -/

/-- the version a staged write becomes -/
def LogEntry.of (ts : Ts) (t : TxnId) (op : WriteOp) : LogEntry := ⟨ts, t, op.payload.1, op.payload.2⟩

/-- committed versions of a key -/
def Engine.versions (s : Engine) (a : Addr) : List LogEntry :=
  ((s.chain a).filter fun e => e.state = .committed).map logged ++ s.old a

theorem Engine.log_subset {s : Engine} {a : Addr} : s.log a ⊆ (s.chain a).map logged ++ s.old a :=
  ((filter_sublist.map _).append_right _).subset

/-- a version from before the run, or one its transaction has installed -/
def Origin (floor : Ts) (s : Engine) (a : Addr) (x : LogEntry) : Prop :=
  x.startTs ≤ floor ∨ ∃ q w, (s.txn x.txnId).slot = some (q, x.startTs) ∧ w ∈ (s.txn x.txnId).writes ∧
    w ∉ (s.txn x.txnId).todo ∧ w.addr = a ∧ x = .of x.startTs x.txnId w.op

/-- the transaction has installed the write, and has not failed since -/
def Installed (x : Txn) (w : StagedWrite) : Prop :=
  w ∈ x.writes ∧ (x.phase.durable = true ∨ x.phase = .installing ∧ w ∉ x.todo)

structure ChainsInv (floor : Ts) (s : Engine) : Prop where
  stacked : ∀ a, Stacked (s.chain a)
  pending : ∀ a, ∀ e ∈ s.chain a, ∀ t, e.state = .pending t →
    a ∈ (s.txn t).held ∧ ∃ q, (s.txn t).slot = some (q, e.startTs)
  origin : ∀ a, ∀ x ∈ (s.chain a).map logged ++ s.old a, Origin floor s a x
  committed : ∀ a, ∀ x ∈ s.versions a, floor < x.startTs → (s.txn x.txnId).phase.durable = true
  starts : ∀ a, ((s.log a).map LogEntry.startTs).Nodup
  present : ∀ t p w, (s.txn t).slot = some p → Installed (s.txn t) w → .of p.2 t w.op ∈ s.log w.addr
  -- a primary chain has at most one Pending entry, in front
  top : ∀ a, a.ident.kind = .primary → ∀ d ∈ (live (s.chain a)).tail, d.state = .committed
  old : ∀ a, ∀ x ∈ s.old a, x.startTs ≤ s.frontier

/-- what a record says about chains is still true of the next one -/
structure Carries (x y : Txn) : Prop where
  slot : ∀ p, x.slot = some p → y.slot = some p
  done : ∀ w, x.slot ≠ none → w ∈ x.writes → w ∉ x.todo → w ∈ y.writes ∧ w ∉ y.todo
  durable : x.phase.durable = true → y.phase.durable = true

theorem Carries.refl (x : Txn) : Carries x x := ⟨fun _ => id, fun _ _ h1 h2 => ⟨h1, h2⟩, id⟩

/-- a record without a slot says nothing -/
theorem Carries.of_none {x y : Txn} (h : x.slot = none) (hd : x.phase.durable = false) : Carries x y :=
  ⟨fun p hp => (by rw [h] at hp; cases hp), fun w hne => absurd h hne, fun hp => (by rw [hd] at hp; cases hp)⟩

variable {s s' : Engine} {t : TxnId} {floor : Ts} {c : Chain} {env : Env}

theorem Carries.setTxn {x : Txn} (h : Carries (s.txn t) x) (u : TxnId) : Carries (s.txn u) ((s.setTxn t x).txn u) := by
  rw [setTxn_txn]
  split_ifs with hu
  · rw [hu]; exact h
  · exact Carries.refl _

theorem Origin.carry (hc : ∀ u, Carries (s.txn u) (s'.txn u)) {a : Addr} {x : LogEntry} (h : Origin floor s a x) :
    Origin floor s' a x := by
  refine h.imp_right fun ⟨q, w, hslot, hw, htodo, ha, hx⟩ => ?_
  obtain ⟨hw', htodo'⟩ := (hc x.txnId).done w (by rw [hslot]; simp) hw htodo
  exact ⟨q, w, (hc x.txnId).slot _ hslot, hw', htodo', ha, hx⟩

/-! ## Logs -/

theorem logged_stop (e : VersionEntry) (ts : Ts) : logged { e with stopTs := ts } = logged e := rfl

theorem logged_push (ts : Ts) (t : TxnId) (op : WriteOp) :
    (live (pushPending c ts t op)).map logged = .of ts t op :: (live c).map logged := by
  rw [live_pushPending, map_cons, map_supersede logged logged_stop]
  rfl

theorem logged_commitEntry {ts : Ts} {e : VersionEntry} (h : e.state = .pending t → e.startTs = ts) :
    logged (commitEntry t ts e) = logged e := by
  rw [commitEntry_eq h]
  rfl

theorem logged_commit {ts : Ts} (h : ∀ e ∈ c, e.state = .pending t → e.startTs = ts) :
    (live (flipPendingInChain c t (some ts))).map logged = (live c).map logged := by
  rw [live_flip_committed, map_map]
  exact map_congr_left fun e he => logged_commitEntry (h e (mem_live.1 he).1)

/-- an abort takes the transaction's Pending entry out, if there is one -/
theorem live_rollback (h : Stacked c) (t : TxnId) :
    flipPendingInChain c t none = c ∨ ∃ pre p post, live c = pre ++ p :: post ∧ p.state = .pending t ∧
      (live (flipPendingInChain c t none)).map forgetStop = (pre ++ post).map forgetStop := by
  rcases h.abort_cases t with ⟨-, heq⟩ | ⟨pre, p, post, rfl, hs, -, -, -, heq⟩
  · exact .inl heq
  · refine .inr ⟨live pre, p, live post, ?_, hs, ?_⟩
    · rw [live_append, live_cons_of_live (by simp [hs])]
    · rw [heq, live_append, live_cons_of_aborted rfl, live_restore, map_append, forgetStop_restore, map_append]

theorem logged_of_forgetStop {d : Chain} (h : c.map forgetStop = d.map forgetStop) : c.map logged = d.map logged := by
  have hlogged : ∀ l : Chain, l.map logged = (l.map forgetStop).map logged := by
    intro l
    rw [map_map]
    rfl
  rw [hlogged, h, ← hlogged]

theorem logged_rollback (h : Stacked c) (t : TxnId) :
    flipPendingInChain c t none = c ∨ ∃ pre p post, live c = pre ++ p :: post ∧ p.state = .pending t ∧
      (live (flipPendingInChain c t none)).map logged = pre.map logged ++ post.map logged := by
  refine (live_rollback h t).imp_right fun ⟨pre, p, post, hl, hs, hmap⟩ => ⟨pre, p, post, hl, hs, ?_⟩
  rw [logged_of_forgetStop hmap, map_append]

namespace ChainsInv

variable {floor : Ts} {s : Engine}

/-- steps that leave chains and folded versions alone -/
theorem frame (h : ChainsInv floor s) {s' : Engine} (hchain : s'.chain = s.chain) (hold : s'.old = s.old)
    (hf : s.frontier ≤ s'.frontier) (hc : ∀ u, Carries (s.txn u) (s'.txn u))
    (hheld : ∀ u a, a ∈ (s.txn u).held → a ∈ (s'.txn u).held)
    (hinst : ∀ u p w, (s'.txn u).slot = some p → Installed (s'.txn u) w →
      (s.txn u).slot = some p ∧ Installed (s.txn u) w) : ChainsInv floor s' := by
  have hlog : s'.log = s.log := by unfold log; rw [hchain, hold]
  have hversions : s'.versions = s.versions := by unfold versions; rw [hchain, hold]
  constructor
  · intro a
    rw [hchain]; exact h.stacked a
  · intro a e he t ht
    rw [hchain] at he
    obtain ⟨hm, q, hq⟩ := h.pending a e he t ht
    exact ⟨hheld t a hm, q, (hc t).slot _ hq⟩
  · intro a x hx
    rw [hchain, hold] at hx
    exact (h.origin a x hx).carry hc
  · intro a x hx hlt
    rw [hversions] at hx
    exact (hc _).durable (h.committed a x hx hlt)
  · intro a
    rw [hlog]; exact h.starts a
  · intro t p w hp hw
    rw [hlog]
    obtain ⟨hp', hw'⟩ := hinst t p w hp hw
    exact h.present t p w hp' hw'
  · intro a ha
    rw [hchain]; exact h.top a ha
  · intro a x hx
    rw [hold] at hx
    exact (h.old a x hx).trans hf

variable {t : TxnId} {a : Addr}

section

variable (h : ChainsInv floor s)

include h

/-- a step that changes one record only -/
theorem setTxn {x : Txn} (hc : Carries (s.txn t) x) (hheld : ∀ a ∈ (s.txn t).held, a ∈ x.held)
    (hinst : ∀ p w, x.slot = some p → Installed x w → (s.txn t).slot = some p ∧ Installed (s.txn t) w) :
    ChainsInv floor (s.setTxn t x) := by
  refine h.frame rfl rfl le_rfl hc.setTxn (fun u a ha => ?_) (fun u p w hp hw => ?_)
  · rw [setTxn_txn]
    split_ifs with hu
    · exact hheld a (hu ▸ ha)
    · exact ha
  · rw [setTxn_txn] at hp hw
    split_ifs at hp hw with hu
    · rw [hu]; exact hinst p w hp hw
    · exact ⟨hp, hw⟩

/-- the sequencer moves on -/
theorem setSeq {seq' : SeqState} (hf : s.frontier ≤ seq'.seqr.publishedFrontier) :
    ChainsInv floor { s with seq := seq' } :=
  h.frame rfl rfl hf (fun _ => Carries.refl _) (fun _ _ => id) (fun _ _ _ hp hw => ⟨hp, hw⟩)

/-! ## Pending entries -/

/-- a transaction has no Pending entry where it has still to install -/
theorem unstaged (hok : ∀ t, TxnOk (s.txn t)) : Unstaged s := by
  intro t w hw e he ht
  exact (hok t).apart w hw (h.pending w.addr e he t ht).1

/-- the timestamp of an install is new to the key -/
theorem fresh (hok : ∀ t, TxnOk (s.txn t)) (hslots : SlotInv floor s) {q : ℕ} {ts : Ts}
    (hslot : (s.txn t).slot = some (q, ts)) {w : StagedWrite} (hw : w ∈ (s.txn t).todo) :
    ∀ x ∈ (s.chain w.addr).map logged ++ s.old w.addr, x.startTs ≠ ts := by
  intro x hx heq
  rcases h.origin w.addr x hx with hle | ⟨r, v, hr, hv, htodo, ha, -⟩
  · exact absurd (hslots.slot t _ hslot).2 (not_lt.2 (heq ▸ hle))
  · -- x would be a version of t itself, for a write that is installed already
    rw [heq] at hr
    have hxt : x.txnId = t := hslots.eq_of_ts hr hslot
    rw [hxt] at hv htodo
    have hvw : v = w := (hok t).unique hv ((hok t).todo.subset hw) ha
    exact htodo (hvw ▸ hw)

end

/-! ## Installing -/

section

variable (h : ChainsInv floor s)

include h

/-- on a primary tree an install that proceeds finds no Pending entry -/
theorem all_committed (ha : a.ident.kind = .primary) (hfree : ∀ e ∈ s.chain a, e.state ≠ .pending t)
    {expectedHead : Option ExpectedHead}
    (hclass : classifyDeltaInstall (s.chain a) expectedHead a.scope a.key t = .ok .proceed) :
    ∀ e ∈ live (s.chain a), e.state = .committed := by
  have htop := h.top a ha
  rw [Addr.scope_primary ha] at hclass
  rcases proceed_primary (h.stacked a) hfree hclass with hl | ⟨head, l, hl, hc, -⟩
  · rw [hl]; intro e he; cases he
  · rw [hl] at htop ⊢
    exact forall_mem_cons.2 ⟨hc, htop⟩

/-- a step that changes one chain, and the record of the transaction that does it -/
theorem change {c : Chain} {x : Txn} (hcarry : Carries (s.txn t) x)
    (hstacked : Stacked c) (hheld : ∀ b ∈ (s.txn t).held, b ≠ a → b ∈ x.held)
    (hpending : ∀ e ∈ c, ∀ u, e.state = .pending u → (u = t ∧ a ∈ x.held ∧ ∃ q, x.slot = some (q, e.startTs)) ∨
      (u ≠ t ∧ ∃ d ∈ s.chain a, d.state = .pending u ∧ d.startTs = e.startTs))
    (horigin : ∀ e ∈ c, logged e ∈ (s.chain a).map logged ∨ Origin floor ((s.setChain a c).setTxn t x) a (logged e))
    (hcommitted : ∀ e ∈ c, e.state = .committed → (∃ d ∈ s.chain a, d.state = .committed ∧ logged d = logged e) ∨
      (e.txnId = t ∧ x.phase.durable = true)) (hstarts : (((live c).map logged ++ s.old a).map LogEntry.startTs).Nodup)
    (hpresent : ∀ u p v, ((s.setTxn t x).txn u).slot = some p → Installed ((s.setTxn t x).txn u) v → v.addr = a →
      .of p.2 u v.op ∈ (live c).map logged ++ s.old a)
    (hinst : ∀ p v, x.slot = some p → Installed x v → v.addr ≠ a → (s.txn t).slot = some p ∧ Installed (s.txn t) v)
    (htop : a.ident.kind = .primary → ∀ d ∈ (live c).tail, d.state = .committed) :
    ChainsInv floor ((s.setChain a c).setTxn t x) := by
  have hchain : ∀ b, ((s.setChain a c).setTxn t x).chain b = if b = a then c else s.chain b := fun b =>
    setChain_chain ..
  have hlog : ∀ b, ((s.setChain a c).setTxn t x).log b = if b = a then (live c).map logged ++ s.old a else s.log b := by
    intro b
    unfold log
    rw [hchain]
    split_ifs with hb
    · rw [hb]; rfl
    · rfl
  have hcarry' : ∀ u, Carries (s.txn u) (((s.setChain a c).setTxn t x).txn u) :=
    Carries.setTxn (s := s.setChain a c) hcarry
  constructor
  · intro b
    rw [hchain]
    split_ifs
    · exact hstacked
    · exact h.stacked b
  · intro b e he u hu
    rw [hchain] at he
    rw [setTxn_txn]
    split_ifs at he with hb
    · subst hb
      rcases hpending e he u hu with ⟨rfl, hm, hq⟩ | ⟨hut, d, hd, hdu, heq⟩
      · rw [if_pos rfl]; exact ⟨hm, hq⟩
      · rw [if_neg hut, ← heq]; exact h.pending b d hd u hdu
    · obtain ⟨hm, q, hq⟩ := h.pending b e he u hu
      split_ifs with hut
      · exact ⟨hheld b (hut ▸ hm) hb, q, hcarry.slot _ (hut ▸ hq)⟩
      · exact ⟨hm, q, hq⟩
  · intro b y hy
    rw [hchain] at hy
    split_ifs at hy with hb
    · subst hb
      rcases mem_append.1 hy with hy | hy
      · obtain ⟨e, he, rfl⟩ := mem_map.1 hy
        exact (horigin e he).elim (fun hm => (h.origin b _ (mem_append_left _ hm)).carry hcarry') id
      · exact (h.origin b y (mem_append_right _ hy)).carry hcarry'
    · exact (h.origin b y hy).carry hcarry'
  · intro b y hy hlt
    unfold versions at hy
    rw [hchain] at hy
    split_ifs at hy with hb
    · subst hb
      rcases mem_append.1 hy with hy | hy
      · obtain ⟨e, he, rfl⟩ := mem_map.1 hy
        obtain ⟨he, hc⟩ := mem_filter.1 he
        rcases hcommitted e he (of_decide_eq_true hc) with ⟨d, hd, hdc, heq⟩ | ⟨hut, hx⟩
        · rw [← heq] at hlt ⊢
          refine (hcarry' _).durable (h.committed b _ (mem_append_left _ ?_) hlt)
          exact mem_map_of_mem (mem_filter.2 ⟨hd, decide_eq_true hdc⟩)
        · have hut : (logged e).txnId = t := hut
          rw [setTxn_txn, if_pos hut]; exact hx
      · exact (hcarry' _).durable (h.committed b y (mem_append_right _ hy) hlt)
    · exact (hcarry' _).durable (h.committed b y hy hlt)
  · intro b
    rw [hlog]
    split_ifs
    · exact hstarts
    · exact h.starts b
  · intro u p v hp hv
    rw [hlog]
    split_ifs with hb
    · exact hpresent u p v hp hv hb
    · rw [setTxn_txn] at hp hv
      split_ifs at hp hv with hut
      · obtain ⟨hp', hv'⟩ := hinst p v hp hv hb
        exact hut ▸ h.present t p v hp' hv'
      · exact h.present u p v hp hv
  · intro b hb
    rw [hchain]
    split_ifs with hba
    · exact htop (hba ▸ hb)
    · exact h.top b hb
  · exact h.old

theorem push (hok : ∀ t, TxnOk (s.txn t)) (hslots : SlotInv floor s) {t : TxnId} {q : ℕ} {ts : Ts}
    {w : StagedWrite} (hphase : (s.txn t).phase = .installing) (hslot : (s.txn t).slot = some (q, ts))
    (hw : w ∈ (s.txn t).todo)
    (hclass : classifyDeltaInstall (s.chain w.addr) w.expectedHead w.addr.scope w.addr.key t = .ok .proceed) :
    ChainsInv floor ((s.setChain w.addr (pushPending (s.chain w.addr) ts t w.op)).setTxn t
      { s.txn t with todo := (s.txn t).todo.erase w, held := w.addr :: (s.txn t).held }) := by
  have hnodup : (s.txn t).todo.Nodup := ((hok t).distinct.of_map _).sublist (hok t).todo
  have hfree := h.unstaged hok t w hw
  have hfresh := h.fresh hok hslots hslot hw
  -- where the entries of the new chain come from
  have hmem : ∀ e ∈ pushPending (s.chain w.addr) ts t w.op, e = pendingEntry ts t w.op ∨
      ∃ d ∈ s.chain w.addr, ∃ stop, e = { d with stopTs := stop } := by
    intro e he
    rcases mem_cons.1 he with rfl | he
    · exact .inl rfl
    · exact .inr (exists_of_forgetStop_eq (forgetStop_supersede ts _) he)
  have hold : ∀ v, v ∉ (s.txn t).todo.erase w → v ≠ w → v ∉ (s.txn t).todo := fun v hnot hne hm =>
    hnot (hnodup.mem_erase_iff.2 ⟨hne, hm⟩)
  have hnot : ¬ (s.txn t).phase.durable = true := by rw [hphase]; simp [durable]
  apply h.change
  · exact ⟨fun _ => id, fun v _ hv hn => ⟨hv, fun hm => hn (mem_of_mem_erase hm)⟩, id⟩
  · refine (h.stacked _).push hfree (fun hm => ?_) (hslots.ts_lt_max hslot) w.op
    obtain ⟨e, he, heq⟩ := mem_map.1 hm
    exact hfresh (logged e) (mem_append_left _ (mem_map_of_mem he)) heq
  · exact fun b hb _ => mem_cons_of_mem _ hb
  · intro e he u hu
    rcases hmem e he with rfl | ⟨d, hd, stop, rfl⟩
    · cases hu
      exact .inl ⟨rfl, mem_cons_self, q, hslot⟩
    · exact .inr ⟨fun hut => hfree d hd (hut ▸ hu), d, hd, hu, rfl⟩
  · intro e he
    rcases hmem e he with rfl | ⟨d, hd, stop, rfl⟩
    · refine .inr (.inr ⟨q, w, ?_, ?_, ?_, rfl, rfl⟩)
      · exact (congrArg Txn.slot (setTxn_txn_self ..)).trans hslot
      · exact (setTxn_txn_self ..) ▸ (hok t).todo.subset hw
      · exact (setTxn_txn_self ..) ▸ hnodup.not_mem_erase
    · exact .inl (mem_map.2 ⟨d, hd, rfl⟩)
  · intro e he hc
    rcases hmem e he with rfl | ⟨d, hd, stop, rfl⟩
    · cases hc
    · exact .inl ⟨d, hd, hc, rfl⟩
  · rw [logged_push]
    refine nodup_cons.2 ⟨fun hm => ?_, h.starts _⟩
    obtain ⟨y, hy, heq⟩ := mem_map.1 hm
    exact hfresh y (log_subset hy) heq
  · intro u p v hp hv ha
    rw [logged_push]
    rw [setTxn_txn] at hp hv
    split_ifs at hp hv with hut
    · subst hut
      by_cases hvw : v = w
      · rw [hvw]
        rw [hslot] at hp; cases hp
        exact mem_cons_self
      · refine mem_cons_of_mem _ (ha ▸ h.present u p v hp ⟨hv.1, .inr ⟨hphase, ?_⟩⟩)
        exact hold v (hv.2.resolve_left hnot).2 hvw
    · exact mem_cons_of_mem _ (ha ▸ h.present u p v hp hv)
  · intro p v hp hv ha
    exact ⟨hp, hv.1, .inr ⟨hphase, hold v (hv.2.resolve_left hnot).2 fun he => ha (by rw [he])⟩⟩
  · intro hkind
    have hall := h.all_committed hkind hfree hclass
    intro d hd
    obtain ⟨e, he, stop, rfl⟩ := exists_of_forgetStop_eq (forgetStop_supersede ts _) (mem_live.1 hd).1
    exact hall e (mem_live.2 ⟨he, (mem_live.1 hd).2⟩)

/-! ## Flipping -/

/-- on a primary tree a Pending entry is the first live one -/
theorem pending_first (ha : a.ident.kind = .primary) {pre post : Chain} {p : VersionEntry}
    (hl : live (s.chain a) = pre ++ p :: post) (hs : p.state = .pending t) : pre = [] := by
  cases pre with
  | nil => rfl
  | cons e pre =>
    have hc := h.top a ha p (by rw [hl]; exact mem_append_right _ mem_cons_self)
    rw [hs] at hc; cases hc

/-- the Pending entries of a transaction carry its timestamp -/
theorem pending_start {q : ℕ} {ts : Ts} (hslot : (s.txn t).slot = some (q, ts)) (a : Addr) :
    ∀ e ∈ s.chain a, e.state = .pending t → e.startTs = ts := by
  intro e he ht
  obtain ⟨-, r, hr⟩ := h.pending a e he t ht
  rw [hslot] at hr; cases hr; rfl

end

/-- a flip changes nothing a record says but the keys held -/
theorem carries_flip (x : Txn) (a : Addr) : Carries x { x with held := x.held.erase a } :=
  ⟨fun _ => id, fun _ _ hw hn => ⟨hw, hn⟩, id⟩

variable (h : ChainsInv floor s)

include h

theorem commit {t : TxnId} {q : ℕ} {ts : Ts} (hphase : (s.txn t).phase = .committing)
    (hslot : (s.txn t).slot = some (q, ts)) (a : Addr) : ChainsInv floor (s.flip t a (some ts)) := by
  have hstart := h.pending_start hslot a
  have hlog := logged_commit hstart
  -- where the entries of the new chain come from
  have hmem : ∀ e ∈ flipPendingInChain (s.chain a) t (some ts), ∃ d ∈ s.chain a, logged d = logged e ∧
      (d.state = .pending t ∧ e.state = .committed ∨ d.state ≠ .pending t ∧ e = d) := by
    intro e he
    rw [flip_committed] at he
    obtain ⟨d, hd, rfl⟩ := mem_map.1 he
    refine ⟨d, hd, (logged_commitEntry (hstart d hd)).symm, ?_⟩
    by_cases hp : d.state = .pending t
    · exact .inl ⟨hp, by simp [commitEntry, hp]⟩
    · exact .inr ⟨hp, by simp [commitEntry, hp]⟩
  have hsame : ∀ u, ((s.setTxn t { s.txn t with held := (s.txn t).held.erase a }).txn u).slot = (s.txn u).slot ∧
      ∀ v, Installed ((s.setTxn t { s.txn t with held := (s.txn t).held.erase a }).txn u) v →
        Installed (s.txn u) v := by
    intro u
    rw [setTxn_txn]
    split_ifs with hu
    · rw [hu]; exact ⟨rfl, fun _ => id⟩
    · exact ⟨rfl, fun _ => id⟩
  apply h.change (carries_flip _ a)
  · exact (h.stacked a).commit hstart
  · exact fun b hb hne => (mem_erase_of_ne hne).2 hb
  · intro e he u hu
    obtain ⟨d, hd, -, ⟨-, hc⟩ | ⟨hne, rfl⟩⟩ := hmem e he
    · rw [hc] at hu; cases hu
    · exact .inr ⟨fun hut => hne (hut ▸ hu), e, hd, hu, rfl⟩
  · intro e he
    obtain ⟨d, hd, heq, -⟩ := hmem e he
    exact .inl (mem_map.2 ⟨d, hd, heq⟩)
  · intro e he hc
    obtain ⟨d, hd, heq, ⟨hp, -⟩ | ⟨-, rfl⟩⟩ := hmem e he
    · have htx : e.txnId = d.txnId := (congrArg LogEntry.txnId heq).symm
      exact .inr ⟨htx.trans ((h.stacked a).tagged d hd t hp).symm, by simp [hphase, durable]⟩
    · exact .inl ⟨e, hd, hc, rfl⟩
  · rw [hlog]; exact h.starts a
  · intro u p v hp hv ha
    rw [hlog]
    exact ha ▸ h.present u p v ((hsame u).1.symm.trans hp) ((hsame u).2 v hv)
  · exact fun p v hp hv _ => ⟨hp, hv⟩
  · intro ha d hd
    rw [live_flip_committed, ← map_tail] at hd
    obtain ⟨e, he, rfl⟩ := mem_map.1 hd
    simp [commitEntry, h.top a ha e he]

theorem rollback (hslots : SlotInv floor s) {t : TxnId} (hphase : (s.txn t).phase = .aborting)
    (a : Addr) : ChainsInv floor (s.flip t a none) := by
  have hnot : ∀ v, ¬ Installed (s.txn t) v := by
    rintro v ⟨-, hd | ⟨hp, -⟩⟩
    · rw [hphase] at hd; cases hd
    · rw [hphase] at hp; cases hp
  -- the log without the rolled back version
  have hsub : List.Sublist ((live (flipPendingInChain (s.chain a) t none)).map logged)
      ((live (s.chain a)).map logged) := by
    rcases logged_rollback (h.stacked a) t with heq | ⟨pre, p, post, hl, -, hl'⟩
    · rw [heq]
    · rw [hl, hl', map_append]
      exact (List.Sublist.refl _).append (sublist_cons_self _ _)
  apply h.change (carries_flip _ a)
  · exact (h.stacked a).abort t
  · exact fun b hb hne => (mem_erase_of_ne hne).2 hb
  · intro e he u hu
    rcases (h.stacked a).mem_abort he with ⟨p, -, -, rfl⟩ | ⟨d, hd, hne, stop, rfl⟩
    · cases hu
    · exact .inr ⟨fun hut => hne (hut ▸ hu), d, hd, hu, rfl⟩
  · intro e he
    rcases (h.stacked a).mem_abort he with ⟨p, hp, -, rfl⟩ | ⟨d, hd, -, stop, rfl⟩
    · exact .inl (mem_map.2 ⟨p, hp, rfl⟩)
    · exact .inl (mem_map.2 ⟨d, hd, rfl⟩)
  · intro e he hc
    rcases (h.stacked a).mem_abort he with ⟨p, -, -, rfl⟩ | ⟨d, hd, -, stop, rfl⟩
    · cases hc
    · exact .inl ⟨d, hd, hc, rfl⟩
  · exact (h.starts a).sublist ((hsub.append (List.Sublist.refl _)).map _)
  · intro u p v hp hv ha
    rw [setTxn_txn] at hp hv
    split_ifs at hp hv with hut
    · exact absurd hv (hnot v)
    · have hm := h.present u p v hp hv
      rw [ha] at hm
      refine (mem_append.1 hm).elim (fun hm => mem_append_left _ ?_) (mem_append_right _)
      rcases logged_rollback (h.stacked a) t with heq | ⟨pre, e, post, hl, hs, hl'⟩
      · rw [heq]; exact hm
      · -- the entry taken out carries the timestamp of t
        rw [hl']
        rw [hl, map_append] at hm
        rcases mem_append.1 hm with hm | hm
        · exact mem_append_left _ hm
        · rcases mem_cons.1 hm with heq | hm
          · have he : e ∈ s.chain a := (mem_live.1 (hl ▸ mem_append_right _ mem_cons_self)).1
            obtain ⟨-, r, hr⟩ := h.pending a e he t hs
            have hts : e.startTs = p.2 := (congrArg LogEntry.startTs heq).symm
            rw [hts] at hr
            exact absurd (hslots.eq_of_ts (q := p.1) hp hr) hut
          · exact mem_append_right _ hm
  · exact fun p v hp hv _ => ⟨hp, hv⟩
  · intro ha d hd
    rcases live_rollback (h.stacked a) t with heq | ⟨pre, p, post, hl, hs, hmap⟩
    · rw [heq] at hd; exact h.top a ha d hd
    · have hpre := h.pending_first ha hl hs
      subst hpre
      obtain ⟨e, he, stop, rfl⟩ := exists_of_forgetStop_eq hmap (mem_of_mem_tail hd)
      exact h.top a ha e (by rw [hl]; exact he)

/-! ## Folding -/

variable (hok : ∀ t, TxnOk (s.txn t)) (hslots : SlotInv floor s) (hquiet : ∀ t, (s.txn t).phase.inside = false)
  (hfail : s.seq.failed = false) (hpoison : s.seq.seqr.poisoned = false)

include hok hslots hquiet hfail hpoison

/-- when no writer is inside its envelope, every live version is committed and behind the frontier -/
theorem settled {e : VersionEntry} (he : e ∈ live (s.chain a)) : e.state = .committed ∧ e.startTs ≤ s.frontier := by
  have hidle : ∀ t, ¬ (s.txn t).phase.holding = true := fun t hh => by
    have := hquiet t
    rw [inside_of_holding hh] at this; cases this
  obtain ⟨hmem, hlive⟩ := mem_live.1 he
  cases hstate : e.state with
  | aborted => exact absurd hstate hlive
  | pending t =>
    have hheld := (h.pending a e hmem t hstate).1
    exact absurd ((hok t).held (ne_nil_of_mem hheld)) (hidle t)
  | committed =>
    refine ⟨rfl, ?_⟩
    rcases h.origin a (logged e) (mem_append_left _ (mem_map_of_mem hmem)) with hle | ⟨q, w, hslot, -⟩
    · exact hle.trans hslots.floor_le
    · have hver : logged e ∈ s.versions a :=
        mem_append_left _ (mem_map_of_mem (mem_filter.2 ⟨hmem, decide_eq_true hstate⟩))
      have hdurable := h.committed a _ hver (hslots.slot _ _ hslot).2
      have hphase : (s.txn (logged e).txnId).phase = .committed := by
        have hin := hquiet (logged e).txnId
        cases hph : (s.txn (logged e).txnId).phase <;> simp_all [durable, inside]
      exact hslots.reached (fun t => by simpa using hidle t) hfail hpoison hslot hphase

/-- a fold empties the chain -/
theorem folded (a : Addr) :
    (s.chain a).filter (kept s.frontier) = [] ∧
      (live (s.chain a)).filter (fun e => !kept s.frontier e) = live (s.chain a) := by
  have hkept : ∀ e ∈ s.chain a, kept s.frontier e = false := by
    intro e he
    by_cases hl : e.state = .aborted
    · simp [kept, hl]
    · obtain ⟨hc, hle⟩ := h.settled hok hslots hquiet hfail hpoison (mem_live.2 ⟨he, hl⟩)
      exact kept_of_foldable (foldable_iff.2 ⟨hc, hle⟩)
  constructor
  · exact filter_eq_nil_iff.2 fun e he => by simp [hkept e he]
  · exact filter_eq_self.2 fun e he => by simp [hkept e (mem_live.1 he).1]

theorem fold (a : Addr) (cell : Addr → Option VersionData) (hist : HistoryStore) : ChainsInv floor { s with
      cell, hist
      chain := update s.chain a []
      old := update s.old a ((live (s.chain a)).map logged ++ s.old a) } := by
  have hset : ∀ e ∈ live (s.chain a), e.state = .committed ∧ e.startTs ≤ s.frontier := fun e he =>
    h.settled hok hslots hquiet hfail hpoison he
  generalize hs' : ({ s with
      cell, hist
      chain := update s.chain a []
      old := update s.old a ((live (s.chain a)).map logged ++ s.old a) } : Engine) = s'
  have hchain : ∀ b, s'.chain b = if b = a then [] else s.chain b := fun b => hs' ▸ update_apply ..
  have hold : ∀ b, s'.old b = if b = a then (live (s.chain a)).map logged ++ s.old a else s.old b := fun b =>
    hs' ▸ update_apply ..
  have htxn : s'.txn = s.txn := by rw [← hs']
  have hlog : ∀ b, s'.log b = s.log b := by
    intro b
    unfold log
    rw [hchain, hold]
    split_ifs with hb
    · rw [hb]; rfl
    · rfl
  constructor
  · intro b
    rw [hchain]
    split_ifs
    · exact stacked_nil
    · exact h.stacked b
  · intro b e he t ht
    rw [hchain] at he
    split_ifs at he
    · cases he
    · rw [htxn]; exact h.pending b e he t ht
  · intro b x hx
    have hcarry : ∀ u, Carries (s.txn u) (s'.txn u) := fun u => htxn ▸ Carries.refl _
    refine Origin.carry hcarry (h.origin b x ?_)
    rw [hchain, hold] at hx
    split_ifs at hx with hb
    · exact log_subset (hb ▸ hx)
    · exact hx
  · intro b x hx
    rw [htxn]
    refine h.committed b x ?_
    unfold versions at hx ⊢
    rw [hchain, hold] at hx
    split_ifs at hx with hb
    · subst hb
      have hx : x ∈ (live (s.chain b)).map logged ++ s.old b := hx
      refine (mem_append.1 hx).elim (fun hx => mem_append_left _ ?_) (mem_append_right _)
      obtain ⟨e, he, rfl⟩ := mem_map.1 hx
      exact mem_map_of_mem (mem_filter.2 ⟨(mem_live.1 he).1, decide_eq_true (hset e he).1⟩)
    · exact hx
  · intro b
    rw [hlog]; exact h.starts b
  · intro t p w hp hw
    rw [hlog]
    rw [htxn] at hp hw
    exact h.present t p w hp hw
  · intro b hb
    rw [hchain]
    split_ifs
    · intro d hd; cases hd
    · exact h.top b hb
  · intro b x hx
    have hf : s'.frontier = s.frontier := by rw [← hs']; rfl
    rw [hf]
    rw [hold] at hx
    split_ifs at hx with hb
    · rcases mem_append.1 hx with hx | hx
      · obtain ⟨e, he, rfl⟩ := mem_map.1 hx
        exact (hset e he).2
      · exact h.old a x hx
    · exact h.old b x hx

end ChainsInv

/-! ## Every step, every run -/

/-- what holds in every state of every run -/
structure EngineInv (floor : Ts) (s : Engine) : Prop where
  txns : ∀ t, TxnOk (s.txn t)
  ids : IdInv s
  slots : SlotInv floor s
  chains : ChainsInv floor s

namespace EngineInv

variable {env : Env} {floor : Ts} {s s' : Engine} {act : Act}

theorem quiet_inside (h : EngineInv floor s) (hq : s.quiet = true) (t : TxnId) : (s.txn t).phase.inside = false := by
  by_cases ht : t < s.nextTxn
  · have := all_eq_true.1 hq t (mem_range.2 ht)
    simpa using this
  · rw [h.ids.unborn t (not_lt.1 ht)]
    rfl

theorem trans_of_step (h : EngineInv floor s) (hs : s.step env act = some s') : Trans env s act s' :=
  PagedEngine.trans_of_step (h.chains.unstaged h.txns) hs

end EngineInv

theorem chainsInv_trans {act : Act} (h : EngineInv floor s) (ht : Trans env s act s') : ChainsInv floor s' := by
  have hc := h.chains
  have hok := h.txns
  have hslots := h.slots
  have hf := frontier_trans hslots ht
  cases ht with
  | openView => exact hc.frame rfl rfl hf (fun _ => Carries.refl _) (fun _ _ => id) (fun _ _ _ hp hw => ⟨hp, hw⟩)
  | poison => exact hc.setSeq hf
  | begin =>
    have hfresh : s.txn s.nextTxn = Txn.fresh := h.ids.unborn _ le_rfl
    have h' := hc.setTxn (t := s.nextTxn) (x := { Txn.fresh with phase := .selecting })
      (.of_none (by rw [hfresh]; rfl) (by rw [hfresh]; rfl)) (fun a ha => by rw [hfresh] at ha; cases ha)
      (fun p w hp => by cases hp)
    exact h'.frame rfl rfl le_rfl (fun _ => Carries.refl _) (fun _ _ => id) (fun _ _ _ hp hw => ⟨hp, hw⟩)
  | @prepare t act x hp =>
    obtain ⟨h1, h2⟩ := hp.slot (hok t)
    have hnot : ¬ (s.txn t).phase.holding = true ∧ ¬ (s.txn t).phase.durable = true := by
      have := (hok t).slotted h1
      cases hph : (s.txn t).phase <;> simp_all [early, holding, durable]
    refine hc.setTxn (.of_none h1 (by simpa using hnot.2)) (fun a ha => ?_) (fun p w hp => by rw [h2] at hp; cases hp)
    exact absurd ((hok t).held (ne_nil_of_mem ha)) hnot.1
  | @unregistered t wall hphase hwall hreg hguards =>
    have hbare := (hok t).bare (by rw [hphase]; rfl)
    refine (hc.setSeq hf).setTxn (.of_none hbare (by simp [hphase, durable])) (fun a ha => ha) (fun p w hp => ?_)
    rw [hbare] at hp; cases hp
  | @register t wall slot hphase =>
    have hbare := (hok t).bare (by rw [hphase]; rfl)
    refine (hc.setSeq hf).setTxn (.of_none hbare (by simp [hphase, durable])) (fun a ha => ha) (fun p w hp hw => ?_)
    -- nothing is installed yet
    rcases hw.2 with hd | ⟨-, hn⟩
    · cases hd
    · exact absurd hw.1 hn
  | push hphase hslot hw hclass => exact hc.push hok hslots hphase hslot hw hclass
  | @fail t act _ hphase =>
    refine hc.setTxn ⟨fun _ => id, fun _ _ hw hn => ⟨hw, hn⟩, fun hd => ?_⟩ (fun a ha => ha) (fun p w hp hw => ?_)
    · rw [hphase] at hd; cases hd
    · rcases hw.2 with hd | ⟨hi, -⟩
      · cases hd
      · cases hi
  | @durable t hphase htodo =>
    refine hc.setTxn ⟨fun _ => id, fun _ _ hw hn => ⟨hw, hn⟩, fun _ => rfl⟩ (fun a ha => ha) (fun p w hp hw => ?_)
    exact ⟨hp, hw.1, .inr ⟨hphase, by rw [htodo]; exact not_mem_nil⟩⟩
  | commit hphase hslot => exact hc.commit hphase hslot _
  | rollback hphase => exact hc.rollback hslots hphase _
  | @ready t q ts publish hphase hslot hheld =>
    refine (hc.setSeq hf).setTxn ⟨fun _ => id, fun _ _ hw hn => ⟨hw, hn⟩, fun _ => rfl⟩ (fun a ha => ha)
      (fun p w hp hw => ?_)
    exact ⟨hp, hw.1, .inl (by simp [hphase, durable])⟩
  | @release t q ts publish hphase hslot hheld =>
    refine (hc.setSeq hf).setTxn ⟨fun _ => id, fun _ _ hw hn => ⟨hw, hn⟩, fun hd => ?_⟩ (fun a ha => ha)
      (fun p w hp hw => ?_)
    · rw [hphase] at hd; cases hd
    · rcases hw.2 with hd | ⟨hi, -⟩
      · cases hd
      · cases hi
  | @fold a oldestRequiredTs f hist hquiet hfail hpoison hk hh =>
    have hin := h.quiet_inside hquiet
    obtain ⟨hnil, hall⟩ := hc.folded hok hslots hin hfail hpoison a
    rw [(foldKey_ok hk).2.1, hnil, hall]
    exact hc.fold hok hslots hin hfail hpoison a _ _

/-- **One step** keeps the invariant. -/
theorem engineInv_step (s : Engine) (act : Act) (s' : Engine) (h : EngineInv floor s)
    (hs : s.step env act = some s') : EngineInv floor s' := by
  have ht := h.trans_of_step hs
  exact ⟨txnOk_trans h.txns ht, idInv_trans h.ids h.slots ht, slotInv_trans h.slots h.txns (h.ids.unborn _ le_rfl) ht,
    chainsInv_trans h ht⟩

theorem engineInv_run {l : List Act} (h : EngineInv floor s) (hr : run (step env) s l = some s') : EngineInv floor s' :=
  run_invariant_all engineInv_step h hr

end Mqlite.PagedEngine
