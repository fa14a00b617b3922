/-
The log of a key: what is below each version.

A step leaves a log alone, or puts a version in front of it, or takes one out (`log_trans`). On a primary tree a log
changes only at its front: an install puts a version there, a rollback takes it away again. So what an install finds
below its version stays there for good. `Links P` says that P holds of every staged write and of the part of the log
below its version; it is enough to check P when the write is installed (`links_trans`).

- `Opened`: the states a run starts from, and `engineInv_opened`;
- `Links.of_installed`: what P says of a version that is in the log;
- `next_unique`: two versions of one key do not lie directly on the same version.
-/
import Mqlite.PagedEngine.Chains

namespace Mqlite.PagedEngine

open Lib Mvcc Publish Storage List Engine LogEntry

/-! ## Where runs start -/

/-- the engine has just been opened: base cells, history and committed versions are arbitrary -/
structure Opened (s : Engine) : Prop where
  txns : ∀ t, s.txn t = Txn.fresh
  views : s.views = []
  seq : ∃ frontier oracle nextSeq, 1 ≤ nextSeq ∧ nextSeq < 2 ^ 64 ∧ frontier ≤ oracle ∧ TimestampOracle.Sane oracle ∧
    s.seq = SeqState.opened frontier oracle nextSeq
  stacked : ∀ a, Stacked (s.chain a)
  settled : ∀ a, ∀ e ∈ s.chain a, (∀ t, e.state ≠ .pending t) ∧ e.startTs ≤ s.frontier
  old : ∀ a, s.old a = []

variable {s s' : Engine} {env : Env} {floor ts : Ts} {act : Act} {t : TxnId} {q : ℕ} {w : StagedWrite}
  {P : StagedWrite → List LogEntry → Prop}

theorem engineInv_opened (h : Opened s) : EngineInv s.frontier s := by
  obtain ⟨frontier, oracle, nextSeq, h1, h2, h3, h4, hseq⟩ := h.seq
  have hI := seqInv_opened h1 h2 h3
  rw [← hseq] at hI
  have hlow : ∀ a, ∀ x ∈ (s.chain a).map logged ++ s.old a, x.startTs ≤ s.frontier := by
    intro a x hx
    rw [h.old, append_nil] at hx
    obtain ⟨e, he, rfl⟩ := mem_map.1 hx
    exact (h.settled a e he).2
  have hslot : ∀ t p, (s.txn t).slot ≠ some p := fun t p hp => by rw [h.txns] at hp; cases hp
  refine ⟨fun t => ?_, ?_, ?_, ?_⟩
  · rw [h.txns]; exact txnOk_fresh
  · refine ⟨fun t _ => h.txns t, fun v hv => ?_, fun t => ?_⟩
    · rw [h.views] at hv; cases hv
    · rw [h.txns]; exact zero_le _
  · refine ⟨hI.1, hI.2, ?_, le_rfl, fun t p hp => absurd hp (hslot t p), fun t u p hp => absurd hp (hslot t p),
      fun t p hp => absurd hp (hslot t p), fun t p hp => absurd hp (hslot t p), fun p hp => ?_⟩
    · rw [hseq]; exact h4
    · rw [hseq] at hp; cases hp
  · refine ⟨h.stacked, fun a e he t ht => absurd ht ((h.settled a e he).1 t), fun a x hx => .inl (hlow a x hx),
      fun a x hx hlt => ?_, fun a => ?_, fun t p w hp => absurd hp (hslot t p), fun a _ d hd => ?_, fun a x hx => ?_⟩
    · exact absurd (hlow a x (((filter_sublist.map _).append_right _).subset hx)) (not_le.2 hlt)
    · rw [log, h.old, append_nil, map_map]
      exact ((h.stacked a).starts).sublist (filter_sublist.map _)
    · obtain ⟨hd, hlive⟩ := mem_live.1 (mem_of_mem_tail hd)
      cases hst : d.state with
      | committed => rfl
      | aborted => exact absurd hst hlive
      | pending t => exact absurd hst ((h.settled a d hd).1 t)
    · rw [h.old] at hx; cases hx

/-- what a run starts with is behind the frontier -/
theorem Opened.log_le (h : Opened s) {a : Addr} {x : LogEntry} (hx : x ∈ s.log a) : x.startTs ≤ s.frontier := by
  rw [log, h.old, append_nil] at hx
  obtain ⟨e, he, rfl⟩ := mem_map.1 hx
  exact (h.settled a e (mem_live.1 he).1).2

/-- an engine opened on a base image: no chains, no history -/
def Engine.image (cell : Addr → Option VersionData) : Engine :=
  ⟨cell, fun _ => [], fun _ _ => OrdMap.empty, fun _ => [], SeqState.opened ⟨3, 0⟩ ⟨3, 0⟩ 1, [], 1, fun _ => Txn.fresh⟩

theorem opened_image (cell : Addr → Option VersionData) : Opened (image cell) where
  txns _ := rfl
  views := rfl
  seq := ⟨⟨3, 0⟩, ⟨3, 0⟩, 1, le_rfl, by decide, le_rfl, by decide, rfl⟩
  stacked _ := stacked_nil
  settled _ e he := by cases he
  old _ := rfl

/-- the document key of the concrete runs below -/
def docAddr : Addr := ⟨⟨1, .primary⟩, [7]⟩

/-- the document is in the base image -/
def docCell (a : Addr) : Option VersionData := if a = docAddr then some (.inline [1]) else none

/-- no overflow pages; documents are compared byte by byte -/
def plainEnv : Env := ⟨fun _ _ => [], fun x y => x = y⟩

/-- a registered transaction with one staged write runs to its end -/
def commitActs (t : TxnId) (a : Addr) : List Act := [.install t a, .durable t, .flip t a, .finish t true]

/-- **Run rule.** What every step taken under C keeps, given the invariant on both sides, holds with the invariant in
every state of the run. -/
theorem engine_run {I : Engine → Prop} {C : Engine → Act → Prop} {s₀ : Engine} {l : List Act}
    (hstep : ∀ s act s', EngineInv s₀.frontier s → EngineInv s₀.frontier s' → Trans env s act s' → I s → C s act → I s')
    (h₀ : Opened s₀) (hI : I s₀) (hl : Along (step env) C s₀ l) (hr : run (step env) s₀ l = some s) :
    EngineInv s₀.frontier s ∧ I s :=
  run_invariant (I := fun s => EngineInv s₀.frontier s ∧ I s) (fun s act s' h hc hs =>
      have h' := engineInv_step s act s' h.1 hs
      ⟨h', hstep s act s' h.1 h' (h.1.trans_of_step hs) h.2 hc⟩)
    ⟨engineInv_opened h₀, hI⟩ hl hr

/-! ## Steps on a log -/

/-- the step is an install of w by t, and it proceeds -/
structure Pushes (s : Engine) (act : Act) (t : TxnId) (q : ℕ) (ts : Ts) (w : StagedWrite) : Prop where
  act : act = .install t w.addr
  phase : (s.txn t).phase = .installing
  slot : (s.txn t).slot = some (q, ts)
  todo : w ∈ (s.txn t).todo
  proceed : classifyDeltaInstall (s.chain w.addr) w.expectedHead w.addr.scope w.addr.key t = .ok .proceed

/-- what one step can do to the record of t -/
inductive Turn (env : Env) (s : Engine) (act : Act) (t : TxnId) : Txn → Prop
  | rest : Turn env s act t (s.txn t)
  | begin (hnew : t = s.nextTxn) : Turn env s act t { Txn.fresh with phase := .selecting }
  | prepare {x : Txn} (h : Prepares env s t act x) : Turn env s act t x
  | register {slot : ℕ × Ts} (hphase : (s.txn t).phase = .staging) :
      Turn env s act t { s.txn t with phase := .installing, slot := some slot, todo := (s.txn t).writes }
  | push {q : ℕ} {ts : Ts} {w : StagedWrite} (h : Pushes s act t q ts w) :
      Turn env s act t { s.txn t with todo := (s.txn t).todo.erase w, held := w.addr :: (s.txn t).held }
  | fail (hphase : (s.txn t).phase = .installing) : Turn env s act t { s.txn t with phase := .aborting }
  | durable (hphase : (s.txn t).phase = .installing) (htodo : (s.txn t).todo = []) :
      Turn env s act t { s.txn t with phase := .committing }
  | flip {held : List Addr} : Turn env s act t { s.txn t with held }
  | ready (hphase : (s.txn t).phase = .committing) : Turn env s act t { s.txn t with phase := .committed }
  | abort : Turn env s act t { s.txn t with phase := .aborted }

theorem turn_trans (ht : Trans env s act s') (t : TxnId) : Turn env s act t (s'.txn t) := by
  have hset : ∀ {s₁ : Engine} {u : TxnId} {x : Txn}, s₁.txn = s.txn → Turn env s act u x →
      Turn env s act t ((s₁.setTxn u x).txn t) := by
    intro s₁ u x hs₁ hx
    rw [setTxn_txn, hs₁]
    split_ifs with htu
    · rw [htu]; exact hx
    · exact .rest
  cases ht with
  | openView | poison | fold => exact .rest
  | begin => exact hset rfl (.begin rfl)
  | prepare h => exact hset rfl (.prepare h)
  | unregistered | release => exact hset rfl .abort
  | register hphase => exact hset rfl (.register hphase)
  | push hphase hslot hw hclass => exact hset rfl (.push ⟨rfl, hphase, hslot, hw, hclass⟩)
  | fail _ hphase => exact hset rfl (.fail hphase)
  | durable hphase htodo => exact hset rfl (.durable hphase htodo)
  | commit | rollback => exact hset rfl .flip
  | ready hphase => exact hset rfl (.ready hphase)

/-- a transaction inside its envelope was there before, or has just entered -/
theorem inside_trans (ht : Trans env s act s') (h : (s'.txn t).phase.inside = true) :
    ((s.txn t).phase.inside = true ∧ (s'.txn t).writes = (s.txn t).writes ∧
      ((s'.txn t).phase = .staging → (s.txn t).phase = .staging ∧ (s'.txn t).readTs = (s.txn t).readTs)) ∨
    ∃ x, Prepares env s t act x ∧ s'.txn t = x := by
  have hturn := turn_trans ht t
  generalize s'.txn t = x at hturn h ⊢
  cases hturn with
  | prepare hprep => exact .inr ⟨x, hprep, rfl⟩
  | rest | push | flip => exact .inl ⟨h, rfl, fun hp => ⟨hp, rfl⟩⟩
  | register hphase | fail hphase | durable hphase => exact .inl ⟨by rw [hphase]; rfl, rfl, fun hp => by cases hp⟩
  | begin | ready | abort => cases h

/-- only a fold takes versions out of chains for good -/
theorem old_trans (ht : Trans env s act s') (hf : act.isFold = false) : s'.old = s.old := by
  cases ht <;> first | rfl | cases hf

theorem log_flip (s : Engine) (t : TxnId) (a : Addr) (ts : Option Ts) (b : Addr) :
    (s.flip t a ts).log b = if b = a then (live (flipPendingInChain (s.chain a) t ts)).map logged ++
      s.old a else s.log b := by
  unfold Engine.flip Engine.log
  rw [Engine.setTxn_chain, Engine.setChain_chain]
  split_ifs with hb
  · rw [hb]; rfl
  · rfl

/-- an install that proceeds is above the frontier -/
theorem Pushes.ahead (hp : Pushes s act t q ts w) (h : EngineInv floor s) : s.frontier < ts :=
  h.slots.ahead hp.slot (by rw [hp.phase]; rfl)

/-- what an install that proceeds on a primary tree has found -/
theorem Pushes.found (hp : Pushes s act t q ts w) (h : EngineInv floor s) (ha : w.addr.ident.kind = .primary) :
    live (s.chain w.addr) = [] ∨ ∃ head l, live (s.chain w.addr) = head :: l ∧ head.state = .committed ∧
      (w.expectedHead = some head.headId ∧ head.isTombstone = false ∨ w.expectedHead = none ∧
        head.isTombstone = true) := by
  have hclass := hp.proceed
  rw [Addr.scope_primary ha] at hclass
  exact proceed_primary (h.chains.stacked _) (h.chains.unstaged h.txns t w hp.todo) hclass

section

variable (h : EngineInv floor s)

include h

variable (ht : Trans env s act s')

include ht

/-- selections, candidates and staged writes change only while a transaction prepares, and its slot only when it is
given one -/
theorem record_trans
    (t : TxnId) : ((s'.txn t).selected = (s.txn t).selected ∧ (s'.txn t).candidates = (s.txn t).candidates ∧
      (s'.txn t).writes = (s.txn t).writes ∧ ((s.txn t).slot = none ∨ (s'.txn t).slot = (s.txn t).slot)) ∨
    ∃ x, Prepares env s t act x ∧ s'.txn t = x := by
  have hturn := turn_trans ht t
  generalize s'.txn t = x at hturn ⊢
  cases hturn with
  | prepare hprep => exact .inr ⟨x, hprep, rfl⟩
  | begin hnew =>
    subst hnew
    rw [h.ids.unborn _ le_rfl]
    exact .inl ⟨rfl, rfl, rfl, .inl rfl⟩
  | register hphase => exact .inl ⟨rfl, rfl, rfl, .inl ((h.txns _).bare (by rw [hphase]; rfl))⟩
  | rest | push | fail | durable | flip | ready | abort => exact .inl ⟨rfl, rfl, rfl, .inr rfl⟩

/-- a registered transaction keeps its slot and its staged writes -/
theorem registered_trans {p : ℕ × Ts} (hp : (s.txn t).slot = some p) :
    (s'.txn t).slot = some p ∧ (s'.txn t).writes = (s.txn t).writes := by
  rcases record_trans h ht t with ⟨-, -, hw, hs⟩ | ⟨x, hprep, -⟩
  · refine ⟨?_, hw⟩
    rcases hs with hs | hs
    · rw [hp] at hs; cases hs
    · exact hs.trans hp
  · have := (hprep.slot (h.txns t)).1
    rw [hp] at this; cases this

/-- where a selection comes from -/
theorem selected_trans {sel : Selection} (hsel : sel ∈ (s'.txn t).selected) : sel ∈ (s.txn t).selected ∨
      ∃ view ∈ s.views, act = .select t view sel.addr ∧ s.observe env view sel.addr = some (sel.observed, sel.doc) := by
  rcases record_trans h ht t with ⟨hs, -⟩ | ⟨x, hprep, hx⟩
  · exact .inl (hs ▸ hsel)
  · rw [hx] at hsel
    cases hprep with
    | select hphase hview hkind hobs =>
      rcases mem_cons.1 hsel with rfl | hsel
      · exact .inr ⟨_, hview, rfl, hobs⟩
      · exact .inl hsel
    | attach | enter | stageInsert | stageMutation | stageSec | reject => exact .inl hsel

/-- where a candidate comes from -/
theorem candidates_trans {cand : Candidate} (hcand : cand ∈ (s'.txn t).candidates) :
    cand ∈ (s.txn t).candidates ∨ act = .attach t cand.sel ∧ cand.sel ∈ (s.txn t).selected ∧
      expectedHeadForSelectedDoc env (s.chain cand.sel.addr) cand.sel.doc = .ok cand.expectedHead := by
  rcases record_trans h ht t with ⟨-, hc, -⟩ | ⟨x, hprep, hx⟩
  · exact .inl (hc ▸ hcand)
  · rw [hx] at hcand
    cases hprep with
    | attach hphase hsel hhead =>
      rcases mem_cons.1 hcand with rfl | hcand
      · exact .inr ⟨rfl, hsel, hhead⟩
      · exact .inl hcand
    | select | enter | stageInsert | stageMutation | stageSec | reject => exact .inl hcand

/-- **The log of a key**: a step leaves it alone, pushes one version, or takes one out; the first one, on a primary
tree. -/
theorem log_trans (a : Addr) : s'.log a = s.log a ∨
    (∃ t q ts w, Pushes s act t q ts w ∧ w.addr = a ∧ s'.log a = .of ts t w.op :: s.log a) ∨
    ∃ pre x post, s.log a = pre ++ x :: post ∧ s'.log a = pre ++ post ∧ s.frontier < x.startTs ∧
      (a.ident.kind = .primary → pre = []) := by
  cases ht with
  | openView | poison | begin | prepare | unregistered | register | fail | durable | ready | release => exact .inl rfl
  | @push t q ts w hphase hslot hw hclass =>
    by_cases haw : w.addr = a
    · refine .inr (.inl ⟨t, q, ts, w, ⟨rfl, hphase, hslot, hw, hclass⟩, haw, ?_⟩)
      rw [log, setTxn_chain, setChain_chain, if_pos haw.symm, logged_push, haw]
      rfl
    · exact .inl (by rw [log, setTxn_chain, setChain_chain, if_neg (Ne.symm haw)]; rfl)
  | @commit t b q ts hphase hslot hb =>
    rw [log_flip]
    split_ifs with hab
    · subst hab
      rw [logged_commit (h.chains.pending_start hslot a)]
      exact .inl rfl
    · exact .inl rfl
  | @rollback t b hphase hb =>
    rw [log_flip]
    split_ifs with hab
    · subst hab
      rcases logged_rollback (h.chains.stacked a) t with heq | ⟨pre, p, post, hl, hs, hl'⟩
      · rw [heq]; exact .inl rfl
      · have hp : p ∈ s.chain a := (mem_live.1 (hl ▸ mem_append_right _ mem_cons_self)).1
        obtain ⟨-, q, hq⟩ := h.chains.pending a p hp t hs
        refine .inr (.inr ⟨pre.map logged, logged p, post.map logged ++ s.old a, ?_, ?_, ?_, fun ha => ?_⟩)
        · rw [log, hl, map_append, map_cons, append_assoc, cons_append]
        · rw [hl', append_assoc]
        · exact h.slots.ahead hq (by rw [hphase]; rfl)
        · rw [h.chains.pending_first ha hl hs]
          rfl
    · exact .inl rfl
  | @fold b oldestRequiredTs f hist hquiet hfail hpoison hk hh =>
    left
    obtain ⟨hnil, hall⟩ := h.chains.folded h.txns h.slots (h.quiet_inside hquiet) hfail hpoison b
    unfold log
    rw [(foldKey_ok hk).2.1, hnil, hall]
    by_cases hab : a = b
    · subst hab
      simp
    · simp [Function.update_of_ne hab]

end

/-! ## What lies below a version -/

/-- P holds of every staged write and of the log below its version -/
def Links (P : StagedWrite → List LogEntry → Prop) (s : Engine) : Prop :=
  ∀ a, a.ident.kind = .primary → ∀ x below, x :: below <:+ s.log a → ∀ q, (s.txn x.txnId).slot = some (q, x.startTs) →
    ∀ w ∈ (s.txn x.txnId).writes, w.addr = a → P w below

theorem links_opened (h : Opened s) : Links P s := by
  intro a _ x below _ q hq
  rw [h.txns] at hq; cases hq

/-- **Link rule.** It is enough that P holds of the whole log when a write is installed. -/
theorem links_trans (h : EngineInv floor s) (h' : EngineInv floor s') (ht : Trans env s act s') (hl : Links P s)
    (hP : ∀ t q ts w, Pushes s act t q ts w → w.addr.ident.kind = .primary → P w (s.log w.addr)) : Links P s' := by
  intro a ha x below hsuf q hq w hw hwa
  -- a version that was in the log before
  have hold : x :: below <:+ s.log a → P w below := by
    intro hsuf
    rcases h.chains.origin a x (log_subset (hsuf.subset mem_cons_self)) with hle | ⟨r, v, hr, -⟩
    · exact absurd (h'.slots.slot _ _ hq).2 (not_lt.2 hle)
    · obtain ⟨hr', hwrites⟩ := registered_trans h ht hr
      exact hl a ha x below hsuf r hr w (hwrites ▸ hw) hwa
  rcases log_trans h ht a with hlog | ⟨t, r, ts, v, hpush, rfl, hlog⟩ | ⟨pre, y, post, hlog, hlog', -, hpre⟩
  · exact hold (hlog ▸ hsuf)
  · rw [hlog] at hsuf
    rcases suffix_cons_iff.1 hsuf with heq | hsuf
    · obtain ⟨rfl, rfl⟩ := List.cons.inj heq
      -- the new version is that of the write just installed
      have hwrites := (registered_trans h ht hpush.slot).2
      have hw : w ∈ (s.txn t).writes := hwrites ▸ hw
      have hwv : w = v := (h.txns t).unique hw ((h.txns t).todo.subset hpush.todo) hwa
      rw [hwv]
      exact hP t r ts v hpush ha
    · exact hold hsuf
  · refine hold (hsuf.trans ?_)
    rw [hlog, hlog', hpre ha]
    exact suffix_cons _ _

theorem Links.of_installed (hl : Links P s) (h : EngineInv floor s) (hslot : (s.txn t).slot = some (q, ts))
    (hw : Installed (s.txn t) w) (ha : w.addr.ident.kind = .primary) :
    ∃ below, of ts t w.op :: below <:+ s.log w.addr ∧ P w below := by
  obtain ⟨pre, post, hlog⟩ := append_of_mem (h.chains.present t _ w hslot hw)
  have hsuf : of ts t w.op :: post <:+ s.log w.addr := hlog ▸ suffix_append _ _
  exact ⟨post, hsuf, hl w.addr ha _ post hsuf q hslot w hw.1 rfl⟩

/-- in a list without repetitions different elements are followed by different ones -/
theorem eq_of_suffix_head {α : Type} {l : List α} (hl : l.Nodup) {x y : α} {post post' : List α} (h : x :: post <:+ l)
    (h' : y :: post' <:+ l) (hh : post.head? = post'.head?) : x = y := by
  wlog hle : post.length ≤ post'.length generalizing x y post post'
  · exact (this h' h hh.symm (Nat.le_of_not_le hle)).symm
  have hsuf : x :: post <:+ y :: post' := suffix_of_suffix_length_le h h' (Nat.succ_le_succ hle)
  rcases suffix_cons_iff.1 hsuf with heq | hsuf
  · exact (List.cons.inj heq).1
  · -- then the head of the longer rest occurs twice
    exfalso
    have hnodup : post'.Nodup := (nodup_cons.1 (hl.sublist h'.sublist)).2
    cases post' with
    | nil => exact not_mem_nil (hsuf.subset mem_cons_self)
    | cons z r =>
      have hz : z ∈ post := mem_of_mem_head? hh
      rcases suffix_cons_iff.1 hsuf with heq | hsuf
      · obtain ⟨-, rfl⟩ := List.cons.inj heq
        exact (nodup_cons.1 hnodup).1 hz
      · exact (nodup_cons.1 hnodup).1 (hsuf.subset (mem_cons_of_mem _ hz))

/-- two transactions whose versions of a key lie directly on the same version, or both at the bottom, are the same -/
theorem next_unique (h : EngineInv floor s) {a : Addr} {u : TxnId} {p r : ℕ × Ts}
    (ht : (s.txn t).slot = some p) (hu : (s.txn u).slot = some r) {op op' : WriteOp} {below below' : List LogEntry}
    (hb : of p.2 t op :: below <:+ s.log a) (hb' : of r.2 u op' :: below' <:+ s.log a)
    (hnext : below.head?.map startTs = below'.head?.map startTs) : t = u := by
  have hts : p.2 = r.2 := by
    refine eq_of_suffix_head (h.chains.starts a) (hb.map startTs) (hb'.map startTs) ?_
    rw [head?_map, head?_map, hnext]
  exact h.slots.eq_of_ts (q := p.1) (r := r.1) ht (hts ▸ hu)

end Mqlite.PagedEngine
