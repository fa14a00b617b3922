/-
What readers see of the chains.

A view is open when it is a reader's, or that of a writer that is still staging. It is never above the frontier, and no
Pending entry is its own; so it reads committed versions only (`visible_committed`), and of those the first one in the
chain that starts at or before its `read_ts` (`visibleAt_open`). Committed versions never go away (`versions_trans`).
-/
import Mqlite.PagedEngine.Log

namespace Mqlite.PagedEngine

open Lib Mvcc Publish Storage List

/-- a reader's view, or the view of a writer that has not installed anything -/
def Engine.Open (s : Engine) (view : ReadView) : Prop :=
  view ∈ s.views ∨ ∃ t, (s.txn t).phase = .staging ∧ view = ⟨(s.txn t).readTs, t⟩

namespace EngineInv

variable {env : Env} {floor : Ts} {s s' : Engine} {act : Act} {view : ReadView}

variable {a : Addr} {e : VersionEntry}

theorem mem_versions (he : e ∈ s.chain a) (hc : e.state = .committed) : logged e ∈ s.versions a :=
  mem_append_left _ (mem_map_of_mem (mem_filter.2 ⟨he, decide_eq_true hc⟩))

/-- a committed version is in the log -/
theorem log_of_versions {x : LogEntry} (hx : x ∈ s.versions a) : x ∈ s.log a := by
  refine (((monotone_filter_right _ fun e hc => ?_).map logged).append_right _).subset hx
  simp [of_decide_eq_true hc]

/-- a step on one chain keeps the committed entries of all keys if it keeps those of that one -/
theorem committed_setChain {t : TxnId} {x : Txn} {b : Addr} {c : Chain}
    (hkeep : ∀ e ∈ s.chain a, e.state = .committed → ∃ d ∈ c, d.state = .committed ∧ logged d = logged e)
    (he : e ∈ s.chain b) (hc : e.state = .committed) :
    ∃ d ∈ ((s.setChain a c).setTxn t x).chain b, d.state = .committed ∧ logged d = logged e := by
  rw [Engine.setTxn_chain, Engine.setChain_chain]
  split_ifs with hb
  · exact hkeep e (hb ▸ he) hc
  · exact ⟨e, he, hc, rfl⟩

variable (h : EngineInv floor s)

include h

theorem open_le (hv : s.Open view) : view.readTs ≤ s.frontier := by
  rcases hv with hv | ⟨t, -, rfl⟩
  · exact (h.ids.views view hv).2.2
  · exact h.ids.reads t

/-- no Pending entry belongs to an open view -/
theorem open_foreign (hv : s.Open view) (he : e ∈ s.chain a) : e.state ≠ .pending view.txnId := by
  intro hp
  have hheld := (h.chains.pending a e he _ hp).1
  have hhold := (h.txns view.txnId).held (ne_nil_of_mem hheld)
  rcases hv with hv | ⟨t, hphase, rfl⟩
  · rw [(h.ids.views view hv).2.1] at hhold; cases hhold
  · rw [hphase] at hhold; cases hhold

/-- a live version that the frontier has reached is committed -/
theorem committed_of_le (he : e ∈ live (s.chain a)) (hle : e.startTs ≤ s.frontier) : e.state = .committed := by
  obtain ⟨hmem, hlive⟩ := mem_live.1 he
  cases hst : e.state with
  | committed => rfl
  | aborted => exact absurd hst hlive
  | pending t =>
    obtain ⟨hheld, q, hq⟩ := h.chains.pending a e hmem t hst
    exact absurd hle (not_le.2 (h.slots.ahead hq ((h.txns t).held (ne_nil_of_mem hheld))))

/-- **Lookup.** An open view reads the first live entry that starts at or before its timestamp. -/
theorem visibleAt_open (hv : s.Open view) (a : Addr) :
    visibleAt s.frontier view (s.chain a) = (live (s.chain a)).find? fun e => e.startTs ≤ view.readTs := by
  rw [visibleAt_eq (h.chains.stacked a) (h.open_le hv) ((h.open_le hv).trans_lt h.slots.frontier_lt_max)]
  refine find?_congr fun e he => ?_
  have hforeign : e.isPendingOf view.txnId = false := by
    simpa [VersionEntry.isPendingOf] using h.open_foreign hv (mem_live.1 he).1
  rw [hforeign, Bool.false_or]

theorem visible_committed (hv : s.Open view) (he : visibleAt s.frontier view (s.chain a) = some e) :
    e ∈ s.chain a ∧ e.state = .committed ∧ e.startTs ≤ view.readTs := by
  rw [h.visibleAt_open hv] at he
  have hmem := mem_of_find?_eq_some he
  have hle : e.startTs ≤ view.readTs := by simpa using find?_some he
  exact ⟨(mem_live.1 hmem).1, h.committed_of_le hmem (hle.trans (h.open_le hv)), hle⟩

/-- only a fold takes committed entries out of a chain -/
theorem committed_trans (ht : Trans env s act s') (hf : act.isFold = false)
    (he : e ∈ s.chain a) (hc : e.state = .committed) :
    ∃ d ∈ s'.chain a, d.state = .committed ∧ logged d = logged e := by
  cases ht with
  | openView | poison | begin | prepare | unregistered | register | fail | durable | ready | release =>
    exact ⟨e, he, hc, rfl⟩
  | @push t q ts w =>
    refine committed_setChain (fun e he hc => ?_) he hc
    obtain ⟨d, hd, stop, rfl⟩ := exists_of_forgetStop_eq (forgetStop_supersede ts (s.chain w.addr)).symm he
    exact ⟨d, mem_cons_of_mem _ hd, hc, rfl⟩
  | @commit t b q ts hphase hslot =>
    refine committed_setChain (fun e he hc => ?_) he hc
    refine ⟨commitEntry t ts e, ?_, ?_, ?_⟩
    · rw [flip_committed]; exact mem_map_of_mem he
    · simp [commitEntry, hc]
    · exact logged_commitEntry (h.chains.pending_start hslot b e he)
  | @rollback t b =>
    refine committed_setChain (fun e he hc => ?_) he hc
    rcases (h.chains.stacked b).abort_cases t with ⟨-, heq⟩ | ⟨pre, p, post, hch, hs, -, -, -, heq⟩
    · rw [heq]; exact ⟨e, he, hc, rfl⟩
    · rw [heq]
      rw [hch] at he
      rcases mem_append.1 he with he | he
      · exact ⟨e, mem_append_left _ he, hc, rfl⟩
      · rcases mem_cons.1 he with rfl | he
        · rw [hs] at hc; cases hc
        · obtain ⟨d, hd, stop, rfl⟩ := exists_of_forgetStop_eq (forgetStop_restore p.startTs post).symm he
          exact ⟨d, mem_append_right _ (mem_cons_of_mem _ hd), hc, rfl⟩
  | fold => cases hf

/-- **Committed versions stay**, in the chain or among those folded away. -/
theorem versions_trans (ht : Trans env s act s') {x : LogEntry} (hx : x ∈ s.versions a) : x ∈ s'.versions a := by
  cases hf : act.isFold with
  | false =>
    refine (mem_append.1 hx).elim (fun hx => mem_append_left _ ?_) fun hx => mem_append_right _ ?_
    · obtain ⟨e, he, rfl⟩ := mem_map.1 hx
      obtain ⟨hmem, hc⟩ := mem_filter.1 he
      obtain ⟨d, hd, hdc, heq⟩ := h.committed_trans ht hf hmem (of_decide_eq_true hc)
      rw [← heq]
      exact mem_map_of_mem (mem_filter.2 ⟨hd, decide_eq_true hdc⟩)
    · rw [old_trans ht hf]; exact hx
  | true =>
    cases ht with
    | @fold b oldestRequiredTs f hist hquiet hfail hpoison hk hh =>
      obtain ⟨hnil, hall⟩ := h.chains.folded h.txns h.slots (h.quiet_inside hquiet) hfail hpoison b
      rw [(foldKey_ok hk).2.1, hnil, hall]
      by_cases hab : a = b
      · subst hab
        have hlog : x ∈ s.log a := log_of_versions hx
        unfold Engine.versions
        simpa [Engine.log] using hlog
      · unfold Engine.versions at hx ⊢
        simpa [Function.update_of_ne hab] using hx
    | prepare hp => rw [hp.isFold] at hf; cases hf
    | fail hact => rw [hact] at hf; cases hf
    | _ => cases hf

end EngineInv

/-! ## Views are not older than the run -/

structure Since (floor : Ts) (s : Engine) : Prop where
  views : ∀ v ∈ s.views, floor ≤ v.readTs
  writers : ∀ t, (s.txn t).phase = .staging → floor ≤ (s.txn t).readTs

namespace Since

variable {env : Env} {floor : Ts} {s s' : Engine} {act : Act}

theorem of_opened (h : Opened s) : Since s.frontier s := by
  refine ⟨fun v hv => ?_, fun t ht => ?_⟩
  · rw [h.views] at hv; cases hv
  · rw [h.txns] at ht; cases ht

theorem open_ge (hs : Since floor s) {view : ReadView} (hv : s.Open view) : floor ≤ view.readTs := by
  rcases hv with hv | ⟨t, ht, rfl⟩
  · exact hs.views view hv
  · exact hs.writers t ht

/-- one record changes -/
theorem change (hs : Since floor s) (hviews : s'.views = s.views) {t : TxnId} {x : Txn}
    (htxn : s'.txn = Function.update s.txn t x) (hx : x.phase = .staging → floor ≤ x.readTs) : Since floor s' := by
  refine ⟨fun v hv => hs.views v (hviews ▸ hv), fun u => ?_⟩
  rw [htxn, Function.update_apply]
  split_ifs
  · exact hx
  · exact hs.writers u

theorem prepare (hs : Since floor s) (hf : floor ≤ s.frontier) {t : TxnId} {x : Txn} (hp : Prepares env s t act x) :
    x.phase = .staging → floor ≤ x.readTs := by
  have hsame := hs.writers t
  cases hp with
  | enter => exact fun _ => hf
  | reject => intro h; cases h
  | select | attach | stageInsert | stageMutation | stageSec => exact hsame

theorem trans (hs : Since floor s) (h : EngineInv floor s) (ht : Trans env s act s') : Since floor s' := by
  cases ht with
  | openView => exact ⟨forall_mem_cons.2 ⟨h.slots.floor_le, hs.views⟩, hs.writers⟩
  | poison | fold => exact ⟨hs.views, hs.writers⟩
  | begin =>
    refine hs.change rfl rfl fun hp => ?_
    cases hp
  | prepare hp => exact hs.change rfl rfl (hs.prepare h.slots.floor_le hp)
  | unregistered | register | fail | durable | ready | release => refine hs.change rfl rfl fun hp => ?_; cases hp
  | push | commit | rollback => refine hs.change rfl rfl ?_; exact hs.writers _

end Since

/-! ## Committed writes -/

/-- t is committed, and wrote the key at ts -/
def Wrote (s : Engine) (a : Addr) (t : TxnId) (ts : Ts) (op : WriteOp) : Prop :=
  (s.txn t).phase = .committed ∧ (∃ q, (s.txn t).slot = some (q, ts)) ∧ ∃ w ∈ (s.txn t).writes, w.addr = a ∧ w.op = op

section

variable {floor : Ts} {s : Engine} {a : Addr}

theorem Wrote.mem_log (h : EngineInv floor s) {t : TxnId} {ts : Ts} {op : WriteOp} (hw : Wrote s a t ts op) :
    LogEntry.of ts t op ∈ s.log a := by
  obtain ⟨hphase, ⟨q, hq⟩, w, hw, rfl, rfl⟩ := hw
  exact h.chains.present t _ w hq ⟨hw, .inl (by rw [hphase]; rfl)⟩

/-- a version of the log that the frontier has reached is from before the run, or was written by a committed
transaction -/
theorem wrote_of_log (h : EngineInv floor s) {x : LogEntry} (hx : x ∈ s.log a) (hle : x.startTs ≤ s.frontier) :
    x.startTs ≤ floor ∨ ∃ op, Wrote s a x.txnId x.startTs op ∧ x = .of x.startTs x.txnId op := by
  refine (h.chains.origin a x (Engine.log_subset hx)).imp_right ?_
  rintro ⟨q, w, hslot, hw, -, ha, heq⟩
  -- the version is committed, and an aborted transaction has no committed version
  have hver : x ∈ s.versions a := by
    refine (mem_append.1 hx).elim (fun hlive => ?_) (mem_append_right _)
    obtain ⟨e, he, rfl⟩ := mem_map.1 hlive
    exact EngineInv.mem_versions (mem_live.1 he).1 (h.committed_of_le he hle)
  have hdurable := h.chains.committed a x hver (h.slots.slot _ _ hslot).2
  have hphase := (h.slots.behind (h.txns _) hslot hle).resolve_right fun hp => by rw [hp] at hdurable; cases hdurable
  exact ⟨w.op, ⟨hphase, ⟨q, hslot⟩, w, hw, ha, rfl⟩, heq⟩

end

end Mqlite.PagedEngine
