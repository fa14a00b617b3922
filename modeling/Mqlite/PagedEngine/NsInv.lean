/-
The invariant of operations on namespaces.

- `OpInv`: where an operation's selections, expected heads and staged writes belong;
- `Crossed`: an operation that was selected in one collection and staged for another has no primary write installed;
- `CatInv`: a collection from before the run is the same in every epoch as long as it is in the catalog.

An expected head names a version by timestamp and writer. Its writer wrote to the collection of the selection, and a
transaction writes to one collection only; so it is never the live head in another one (`NsInv.refused`), and what is
left of the conflict check is whether there is a live head at all.
-/
import Mqlite.PagedEngine.Conflict
import Mqlite.PagedEngine.Namespace

namespace Mqlite.PagedEngine

open Lib Mvcc Publish Storage List Function Engine Operation

/-! ## Reachable states -/

/-- selected in one collection and written to another -/
def Operation.crosses (o : Operation) : Bool :=
  match o.source, o.target with
  | some source, some target => source ≠ target
  | _, _ => false

/-- the version with this id was written to the collection, or is from before the run -/
def Belongs (floor : Ts) (s : NsEngine) (id : ℤ) (x : ExpectedHead) : Prop :=
  x.commitTs ≤ floor ∨
    ∃ q o, (s.eng.txn x.txnId).slot = some (q, x.commitTs) ∧ s.op x.txnId = some o ∧ o.target = some id

/-- what holds of an operation that crosses, as long as its installs on the primary tree are refused -/
structure Crossed (first : ℤ) (x : Txn) (o : Operation) : Prop where
  fresh : ∀ id, o.target = some id → first ≤ id
  primary : x.writes ≠ [] → ∃ w ∈ x.writes, w.addr.ident.kind = .primary
  installing : x.phase = .installing → ∀ w ∈ x.writes, w.addr.ident.kind = .primary → w ∈ x.todo
  durable : x.phase.durable = true → x.writes = []

structure OpInv (floor : Ts) (first : ℤ) (s : NsEngine) (t : TxnId) (o : Operation) : Prop where
  born : t < s.eng.nextTxn
  source : ∀ id, o.source = some id → ∃ p ∈ s.epochs, p.2 o.name = some id
  picks : ∀ sel ∈ (s.eng.txn t).selected, o.target.or o.source = some sel.addr.ident.collectionId
  heads : ∀ cand ∈ (s.eng.txn t).candidates, ∀ x, cand.expectedHead = some x →
    ∃ id, o.source = some id ∧ Belongs floor s id x
  outside : o.target = none → (s.eng.txn t).phase.inside = false ∧ (s.eng.txn t).writes = []
  writes : ∀ w ∈ (s.eng.txn t).writes, o.target = some w.addr.ident.collectionId
  cross : o.crosses = true → Crossed first (s.eng.txn t) o

/-- what holds of the catalog; ids from first on are given out during the run -/
structure CatInv (first : ℤ) (s : NsEngine) : Prop where
  first_le : first ≤ s.nextId
  -- a namespace that is as it was at the start is so in every epoch
  settled : ∀ name id, s.catalog name = some id → id < first → ∀ p ∈ s.epochs, p.2 name = some id

structure NsInv (floor : Ts) (first : ℤ) (s : NsEngine) : Prop where
  eng : EngineInv floor s.eng
  cat : CatInv first s
  fresh : ∀ a : Addr, first ≤ a.ident.collectionId → ∀ x ∈ s.eng.log a, floor < x.startTs
  ops : ∀ t o, s.op t = some o → OpInv floor first s t o
  unnamed : ∀ t, s.op t = none → (s.eng.txn t).selected = [] ∧ (s.eng.txn t).writes = []

/-! ## Engine steps -/

section Engine

variable {env : Env} {floor : Ts} {s s' : Engine} {act : Act} {t : TxnId}

/-- a transaction is durable from the step on that finds everything installed -/
theorem durable_trans (ht : Trans env s act s') (h : (s'.txn t).phase.durable = true) :
    (s'.txn t).writes = (s.txn t).writes ∧
      ((s.txn t).phase.durable = true ∨ (s.txn t).phase = .installing ∧ (s.txn t).todo = []) := by
  have hturn := turn_trans ht t
  generalize s'.txn t = x at hturn h ⊢
  cases hturn with
  | rest | push | flip => exact ⟨rfl, .inl h⟩
  | durable hphase htodo => exact ⟨rfl, .inr ⟨hphase, htodo⟩⟩
  | ready hphase => exact ⟨rfl, .inl (by rw [hphase]; rfl)⟩
  | begin | register | fail | abort => cases h
  | prepare hprep =>
    cases hprep with
    | select hphase | attach hphase | stageInsert hphase | stageMutation hphase | stageSec hphase =>
      exact absurd h (by simp [hphase, TxnPhase.durable])
    | enter | reject => cases h

/-- an installing transaction has everything before it, or has just installed one write -/
theorem installing_trans (ht : Trans env s act s') (h : (s'.txn t).phase = .installing) :
    (s'.txn t).todo = (s'.txn t).writes ∨
    (s.txn t).phase = .installing ∧ (s'.txn t).writes = (s.txn t).writes ∧ ((s'.txn t).todo = (s.txn t).todo ∨
        ∃ q ts w, Pushes s act t q ts w ∧ (s'.txn t).todo = (s.txn t).todo.erase w) := by
  have hturn := turn_trans ht t
  generalize s'.txn t = x at hturn h ⊢
  cases hturn with
  | rest | flip => exact .inr ⟨h, rfl, .inl rfl⟩
  | register => exact .inl rfl
  | push hpush => exact .inr ⟨h, rfl, .inr ⟨_, _, _, hpush, rfl⟩⟩
  | begin | fail | durable | ready | abort => cases h
  | prepare hprep =>
    cases hprep with
    | select hphase | attach hphase | stageInsert hphase | stageMutation hphase | stageSec hphase =>
      exact absurd h (by simp [hphase])
    | enter | reject => cases h

theorem nextTxn_trans (ht : Trans env s act s') : s.nextTxn ≤ s'.nextTxn := by
  cases ht <;> first | exact le_rfl | exact Nat.le_succ _

/-- who prepares, if it is not an error -/
def Act.actor : Act → Option TxnId
  | .select t _ _ | .attach t _ | .enter t | .stageInsert t _ _ | .stageMutation t _ _ | .stageSec t _ _ => some t
  | _ => none

theorem Prepares.actor {x : Txn} (hp : Prepares env s t act x) :
    act.actor = some t ∨ x = { s.txn t with phase := .aborted } := by
  cases hp with
  | reject => exact .inr rfl
  | _ => exact .inl rfl

/-- a change of what a transaction has selected, before it enters its envelope -/
theorem EngineInv.reselect (h : EngineInv floor s) (hphase : (s.txn t).phase = .selecting) {sels : List Selection}
    {cands : List Candidate} (hsels : ∀ sel ∈ sels, sel.addr.ident.kind = .primary)
    (hcands : ∀ cand ∈ cands, cand.sel ∈ sels) :
    EngineInv floor (s.setTxn t { s.txn t with selected := sels, candidates := cands }) := by
  have hbare : (s.txn t).slot = none := (h.txns t).bare (by rw [hphase]; rfl)
  refine ⟨forall_setTxn h.txns ?_, ?_, ?_, ?_⟩
  · refine { h.txns t with selected := hsels, candidates := hcands, mutations := fun w hw => ?_ }
    rw [(h.txns t).unstaged hphase] at hw; cases hw
  · exact h.ids.change rfl rfl le_rfl rfl (by rw [hphase]; simp) (h.ids.reads t)
  · exact h.slots.setTxn rfl fun _ _ => ⟨rfl, id⟩
  · refine h.chains.setTxn (.of_none hbare (by simp [hphase, TxnPhase.durable])) (fun a ha => ha) fun p w hp => ?_
    rw [hbare] at hp; cases hp

end Engine

/-! ## Operations under engine steps -/

section Operations

variable {env : Env} {floor : Ts} {first : ℤ} {s : NsEngine} {eng' : Engine} {act : Act} {t : TxnId} {o : Operation}

theorem Operation.crosses_iff : o.crosses = true ↔ ∃ id id', o.source = some id ∧ o.target = some id' ∧ id ≠ id' := by
  obtain ⟨name, source, view, target⟩ := o
  cases source <;> cases target <;> simp [crosses]

theorem Belongs.engine (h : EngineInv floor s.eng) (ht : Trans env s.eng act eng') {id : ℤ} {x : ExpectedHead}
    (hb : Belongs floor s id x) : Belongs floor { s with eng := eng' } id x := by
  refine hb.imp_right fun ⟨q, o, hslot, hop, htarget⟩ => ?_
  exact ⟨q, o, (registered_trans h ht hslot).1, hop, htarget⟩

/-- a step in which t does not prepare anything -/
theorem OpInv.engine (h : EngineInv floor s.eng) (hi : OpInv floor first s t o) (ht : Trans env s.eng act eng')
    (hprep : ∀ x, Prepares env s.eng t act x → eng'.txn t = x → x = { s.eng.txn t with phase := .aborted })
    (hpush : ∀ q ts w, o.crosses = true → Pushes s.eng act t q ts w → w.addr.ident.kind ≠ .primary) :
    OpInv floor first { s with eng := eng' } t o := by
  have hrec : (eng'.txn t).selected = (s.eng.txn t).selected ∧ (eng'.txn t).candidates = (s.eng.txn t).candidates ∧
      (eng'.txn t).writes = (s.eng.txn t).writes := by
    rcases record_trans h ht t with ⟨h1, h2, h3, -⟩ | ⟨x, hp, hx⟩
    · exact ⟨h1, h2, h3⟩
    · rw [hx, hprep x hp hx]
      exact ⟨rfl, rfl, rfl⟩
  obtain ⟨hsel, hcand, hwrites⟩ := hrec
  refine ⟨hi.born.trans_le (nextTxn_trans ht), hi.source, ?_, ?_, ?_, ?_, ?_⟩
  · intro sel hs
    exact hi.picks sel (hsel ▸ hs)
  · intro cand hc x hx
    obtain ⟨id, hid, hb⟩ := hi.heads cand (hcand ▸ hc) x hx
    exact ⟨id, hid, hb.engine h ht⟩
  · intro hnone
    obtain ⟨hout, hw⟩ := hi.outside hnone
    refine ⟨?_, hwrites.trans hw⟩
    by_contra hin
    rcases inside_trans ht (by simpa using hin) with ⟨hin, -⟩ | ⟨x, hp, hx⟩
    · rw [hout] at hin; cases hin
    · rw [hx, hprep x hp hx] at hin
      exact hin rfl
  · intro w hw
    exact hi.writes w (hwrites ▸ hw)
  · intro hcross
    have hc := hi.cross hcross
    refine ⟨hc.fresh, ?_, ?_, ?_⟩
    · rw [hwrites]; exact hc.primary
    · intro hphase w hw ha
      rcases installing_trans ht hphase with heq | ⟨hphase', -, hsame | ⟨q, ts, v, hp, herase⟩⟩
      · rw [heq]; exact hw
      · rw [hsame]
        exact hc.installing hphase' w (hwrites ▸ hw) ha
      · -- what is installed is not on the primary tree
        have hne : w ≠ v := fun he => hpush q ts v hcross hp (he ▸ ha)
        rw [herase]
        exact (mem_erase_of_ne hne).2 (hc.installing hphase' w (hwrites ▸ hw) ha)
    · intro hd
      obtain ⟨hsame, hd | ⟨hphase, htodo⟩⟩ := durable_trans ht hd
      · exact hsame.trans (hc.durable hd)
      · by_contra hne
        obtain ⟨w, hw, ha⟩ := hc.primary (by rwa [← hwrites])
        have := hc.installing hphase w hw ha
        rw [htodo] at this; cases this

/-- the live head that an operation expects in one collection is never the live head in a later one -/
theorem NsInv.refused (hi : NsInv floor first s) (ho : s.op t = some o) (hcross : o.crosses = true) {q : ℕ} {ts : Ts}
    {w : StagedWrite} (hp : Pushes s.eng act t q ts w) (ha : w.addr.ident.kind = .primary) :
    ∀ head ∈ liveHead (s.eng.chain w.addr), w.expectedHead = none ∧ head.state = .committed ∧
      head.isTombstone = true := by
  intro head hhead
  rw [liveHead_eq_head? (hi.eng.chains.stacked _)] at hhead
  have hw : w ∈ (s.eng.txn t).writes := (hi.eng.txns t).todo.subset hp.todo
  have hop := hi.ops t o ho
  rcases hp.found hi.eng ha with hnil | ⟨d, l, hl, hcm, ⟨hexp, -⟩ | ⟨hexp, htomb⟩⟩
  · rw [hnil] at hhead; cases hhead
  · exfalso
    have hmem : d ∈ live (s.eng.chain w.addr) := hl ▸ mem_cons_self
    -- the id was looked up in the collection of the selection
    obtain ⟨id, hid, hb⟩ : ∃ id, o.source = some id ∧ Belongs floor s id d.headId := by
      cases hobs : w.observed with
      | none =>
        have := ((hi.eng.txns t).inserts w hw ha).2 hobs
        rw [hexp] at this; cases this
      | some obs =>
        obtain ⟨cand, hc, -, -, hce⟩ := (hi.eng.txns t).mutations w hw obs hobs
        exact hop.heads cand hc _ (hce.trans hexp)
    -- and belongs to a transaction that wrote to this one
    have hfirst := (hop.cross hcross).fresh _ (hop.writes w hw)
    have hlt := hi.fresh w.addr hfirst (logged d) (mem_append_left _ (mem_map_of_mem hmem))
    have horigin := hi.eng.chains.origin w.addr (logged d) (mem_append_left _ (mem_map_of_mem (mem_live.1 hmem).1))
    rcases hb with hle | ⟨-, o', -, ho', htarget⟩
    · exact absurd hlt (not_lt.2 hle)
    · rcases horigin with hle | ⟨-, v, -, hv, -, hva, -⟩
      · exact absurd hlt (not_lt.2 hle)
      · have hv' := (hi.ops _ o' ho').writes v hv
        rw [htarget, hva] at hv'
        obtain ⟨id₁, id₂, h1, h2, hne⟩ := crosses_iff.1 hcross
        have htw := hop.writes w hw
        rw [hid] at h1
        rw [h2] at htw
        exact hne ((Option.some.inj h1).symm.trans ((Option.some.inj hv').trans (Option.some.inj htw).symm))
  · rw [hl] at hhead
    cases hhead
    exact ⟨hexp, hcm, htomb⟩

/-- a step of others that leaves the record of t alone -/
theorem OpInv.frame {s' : NsEngine} (hi : OpInv floor first s t o) (htxn : s'.eng.txn t = s.eng.txn t)
    (hnext : s.eng.nextTxn ≤ s'.eng.nextTxn) (hepochs : ∀ p ∈ s.epochs, p ∈ s'.epochs)
    (hkeep : ∀ u p, (s.eng.txn u).slot = some p → (s'.eng.txn u).slot = some p ∧ s'.op u = s.op u) :
    OpInv floor first s' t o := by
  refine ⟨hi.born.trans_le hnext, fun id hid => ?_, ?_, ?_, ?_, ?_, ?_⟩
  · obtain ⟨p, hp, hname⟩ := hi.source id hid
    exact ⟨p, hepochs p hp, hname⟩
  · rw [htxn]; exact hi.picks
  · rw [htxn]
    intro cand hc x hx
    obtain ⟨id, hid, hb⟩ := hi.heads cand hc x hx
    refine ⟨id, hid, hb.imp_right fun ⟨q, o', hslot, hop, htarget⟩ => ?_⟩
    obtain ⟨h1, h2⟩ := hkeep _ _ hslot
    exact ⟨q, o', h1, h2.trans hop, htarget⟩
  · rw [htxn]; exact hi.outside
  · rw [htxn]; exact hi.writes
  · rw [htxn]; exact hi.cross

namespace NsInv

/-- an engine step, given what it does to the operations -/
theorem of_ops (hi : NsInv floor first s) (hs : s.eng.step env act = some eng')
    (hops : ∀ t o, s.op t = some o → OpInv floor first { s with eng := eng' } t o)
    (hun : ∀ t, s.op t = none → (eng'.txn t).selected = [] ∧ (eng'.txn t).writes = []) :
    NsInv floor first { s with eng := eng' } := by
  have h' := engineInv_step s.eng act eng' hi.eng hs
  refine ⟨h', ⟨hi.cat.first_le, hi.cat.settled⟩, fun a ha x hx => ?_, hops, hun⟩
  rcases log_trans hi.eng (hi.eng.trans_of_step hs) a
    with hlog | ⟨t, q, ts, w, hp, -, hlog⟩ | ⟨pre, y, post, hlog, hlog', -⟩
  · exact hi.fresh a ha x (hlog ▸ hx)
  · rw [hlog] at hx
    rcases mem_cons.1 hx with rfl | hx
    · exact hi.eng.slots.floor_le.trans_lt (hp.ahead hi.eng)
    · exact hi.fresh a ha x hx
  · refine hi.fresh a ha x ?_
    rw [hlog'] at hx
    rw [hlog]
    exact (mem_append.1 hx).elim (mem_append_left _) fun hx =>
      mem_append_right _ (mem_cons_of_mem _ hx)

/-- an engine step in which at most one operation prepares something -/
theorem engine (hi : NsInv floor first s) (hs : s.eng.step env act = some eng')
    (hpush : ∀ t o q ts w, s.op t = some o → o.crosses = true → Pushes s.eng act t q ts w →
      w.addr.ident.kind ≠ .primary)
    (hactor : ∀ t o, s.op t = some o → act.actor = some t → ∀ x, Prepares env s.eng t act x → eng'.txn t = x →
      x = { s.eng.txn t with phase := .aborted } ∨ OpInv floor first { s with eng := eng' } t o)
    (hnone : ∀ t, s.op t = none → ∀ x, Prepares env s.eng t act x → x.selected = (s.eng.txn t).selected ∧
      x.writes = (s.eng.txn t).writes) :
    NsInv floor first { s with eng := eng' } := by
  have ht := hi.eng.trans_of_step hs
  refine hi.of_ops hs (fun t o ho => ?_) fun t ho => ?_
  · by_cases hq : ∃ x, Prepares env s.eng t act x ∧ eng'.txn t = x ∧ x ≠ { s.eng.txn t with phase := .aborted }
    · obtain ⟨x, hp, hx, hne⟩ := hq
      exact (hactor t o ho (hp.actor.resolve_right hne) x hp hx).resolve_left hne
    · refine (hi.ops t o ho).engine hi.eng ht (fun x hp hx => ?_) fun q ts w => hpush t o q ts w ho
      by_contra hne
      exact hq ⟨x, hp, hx, hne⟩
  · obtain ⟨hsel, hw⟩ := hi.unnamed t ho
    rcases record_trans hi.eng ht t with ⟨h1, -, h3, -⟩ | ⟨x, hp, hx⟩
    · exact ⟨h1.trans hsel, h3.trans hw⟩
    · obtain ⟨h1, h3⟩ := hnone t ho x hp
      rw [hx]
      exact ⟨h1.trans hsel, h3.trans hw⟩

/-- a step that one operation prepares something with -/
theorem prepare (hi : NsInv floor first s) (ho : s.op t = some o) (hactor : act.actor = some t)
    (hs : s.eng.step env act = some eng') (hop : ∀ x, Prepares env s.eng t act x → eng'.txn t = x →
      x = { s.eng.txn t with phase := .aborted } ∨ OpInv floor first { s with eng := eng' } t o) :
    NsInv floor first { s with eng := eng' } := by
  refine hi.engine hs (fun _ _ _ _ _ _ _ hp => ?_) (fun u o' ho' hu => ?_) fun u hu x hp => ?_
  · rw [hp.act] at hactor; cases hactor
  · cases hactor.symm.trans hu
    cases ho.symm.trans ho'
    exact hop
  · rcases hp.actor with hu' | rfl
    · cases hactor.symm.trans hu'
      cases ho.symm.trans hu
    · exact ⟨rfl, rfl⟩

theorem attach (hi : NsInv floor first s) {sel : Selection} (ho : s.op t = some o) (htarget : o.target = none)
    (hs : s.eng.step env (.attach t sel) = some eng') : NsInv floor first { s with eng := eng' } := by
  have ht := hi.eng.trans_of_step hs
  have hop := hi.ops t o ho
  refine hi.prepare ho rfl hs fun x hp hx => ?_
  cases hp with
  | reject => exact .inl rfl
  | @attach _ head hphase hsel hhead =>
    right
    refine ⟨hop.born.trans_le (nextTxn_trans ht), hop.source, ?_, ?_, ?_, ?_, ?_⟩
    · simp only [hx]; exact hop.picks
    · simp only [hx]
      refine forall_mem_cons.2 ⟨fun y hy => ?_, fun cand hc y hy => ?_⟩
      · -- the head is in the tree of the selection
        have hpick := hop.picks sel hsel
        rw [htarget] at hpick
        refine ⟨_, hpick, ?_⟩
        rcases expectedHead_ok hhead with ⟨-, hnone⟩ | ⟨d, hd, -, hsome⟩
        · rw [hnone] at hy; cases hy
        · rw [hsome] at hy; cases hy
          have hmem : d ∈ s.eng.chain sel.addr := by
            rw [liveHead_eq_head? (hi.eng.chains.stacked _)] at hd
            exact (mem_live.1 (mem_of_mem_head? hd)).1
          refine (hi.eng.chains.origin sel.addr (logged d)
            (mem_append_left _ (mem_map_of_mem hmem))).imp_right fun ⟨q, v, hslot, hv, _, hva, _⟩ => ?_
          cases hdo : s.op (logged d).txnId with
          | none => rw [(hi.unnamed _ hdo).2] at hv; cases hv
          | some od => exact ⟨q, od, (registered_trans hi.eng ht hslot).1, hdo, hva ▸ (hi.ops _ od hdo).writes v hv⟩
      · obtain ⟨id, hid, hb⟩ := hop.heads cand hc y hy
        exact ⟨id, hid, hb.engine hi.eng ht⟩
    · simp only [hx]; exact hop.outside
    · simp only [hx]; exact hop.writes
    · intro hcross
      obtain ⟨_, id, -, h2, -⟩ := crosses_iff.1 hcross
      rw [htarget] at h2; cases h2

section

variable (hi : NsInv floor first s)

include hi

/-- an operation inside its envelope stages one more write, for its target -/
theorem staged (ho : s.op t = some o) (ht : Trans env s.eng act eng') {w : StagedWrite}
    (hphase : (s.eng.txn t).phase = .staging)
    (hx : eng'.txn t = { s.eng.txn t with writes := w :: (s.eng.txn t).writes })
    (hw : o.target = some w.addr.ident.collectionId)
    (hprim : o.crosses = true → w.addr.ident.kind = .primary ∨ (s.eng.txn t).writes ≠ []) :
    OpInv floor first { s with eng := eng' } t o := by
  have hop := hi.ops t o ho
  refine ⟨hop.born.trans_le (nextTxn_trans ht), hop.source, ?_, ?_, ?_, ?_, ?_⟩
  · simp only [hx]; exact hop.picks
  · simp only [hx]
    intro cand hc y hy
    obtain ⟨id, hid, hb⟩ := hop.heads cand hc y hy
    exact ⟨id, hid, hb.engine hi.eng ht⟩
  · intro hnone
    rw [hnone] at hw; cases hw
  · simp only [hx]
    exact forall_mem_cons.2 ⟨hw, hop.writes⟩
  · simp only [hx]
    intro hcross
    have hc := hop.cross hcross
    refine ⟨hc.fresh, fun _ => ?_, fun hp => ?_, fun hd => ?_⟩
    · rcases hprim hcross with hkind | hne
      · exact ⟨w, mem_cons_self, hkind⟩
      · obtain ⟨v, hv, hkind⟩ := hc.primary hne
        exact ⟨v, mem_cons_of_mem _ hv, hkind⟩
    · rw [hphase] at hp; cases hp
    · rw [hphase] at hd; cases hd

/-- who is inside its envelope has a target -/
theorem target_of_inside (ho : s.op t = some o) (hin : (s.eng.txn t).phase.inside = true) :
    ∃ id, o.target = some id := by
  cases htarget : o.target with
  | some id => exact ⟨id, rfl⟩
  | none =>
    have := ((hi.ops t o ho).outside htarget).1
    rw [hin] at this; cases this

theorem stage {cand : Candidate} {op : WriteOp}
    (hs : s.eng.step env (.stageMutation t cand op) = some eng') : NsInv floor first { s with eng := eng' } := by
  have ht := hi.eng.trans_of_step hs
  refine hi.engine hs (fun _ _ _ _ _ _ _ hp => by cases hp.act) (fun u o ho hactor x hp hx => ?_) fun u hu x hp => ?_
  · cases hactor
    cases hp with
    | reject => exact .inl rfl
    | stageMutation hphase hcand hnew hop =>
      right
      have hsel := (hi.eng.txns t).candidates cand hcand
      obtain ⟨id, htarget⟩ := hi.target_of_inside ho (by rw [hphase]; rfl)
      refine hi.staged ho ht hphase hx ?_ fun _ => .inl ((hi.eng.txns t).selected _ hsel)
      have hpick := (hi.ops t o ho).picks _ hsel
      rw [htarget] at hpick
      exact htarget.trans hpick
  · cases hp with
    | reject => exact ⟨rfl, rfl⟩
    | stageMutation hphase hcand =>
      have := (hi.eng.txns t).candidates cand hcand
      rw [(hi.unnamed t hu).1] at this; cases this

theorem stageInsert {id : ℤ} {key : Key} {doc : Bytes} (ho : s.op t = some o) (htarget : o.target = some id)
    (hs : s.eng.step env (.stageInsert t ⟨⟨id, .primary⟩, key⟩ doc) = some eng') :
    NsInv floor first { s with eng := eng' } := by
  refine hi.prepare ho rfl hs fun x hp hx => ?_
  cases hp with
  | reject => exact .inl rfl
  | stageInsert hphase => exact .inr (hi.staged ho (hi.eng.trans_of_step hs) hphase hx htarget fun _ => .inl rfl)

theorem stageSec {id : ℤ} {a : Addr} {op : WriteOp} (ho : s.op t = some o)
    (htarget : o.target = some id) (ha : a.ident.collectionId = id) (hne : (s.eng.txn t).writes ≠ [])
    (hs : s.eng.step env (.stageSec t a op) = some eng') : NsInv floor first { s with eng := eng' } := by
  refine hi.prepare ho rfl hs fun x hp hx => ?_
  cases hp with
  | reject => exact .inl rfl
  | stageSec hphase => exact .inr (hi.staged ho (hi.eng.trans_of_step hs) hphase hx (ha ▸ htarget) fun _ => .inr hne)

/-- a step that only knows engine steps of nobody in particular -/
theorem idle (hactor : act.actor = none)
    (hpush : ∀ t o q ts w, s.op t = some o → o.crosses = true → Pushes s.eng act t q ts w →
      w.addr.ident.kind ≠ .primary)
    (hs : s.eng.step env act = some eng') : NsInv floor first { s with eng := eng' } := by
  refine hi.engine hs hpush (fun t o _ ht => ?_) fun t _ x hp => ?_
  · rw [hactor] at ht; cases ht
  · rcases hp.actor with ht | rfl
    · rw [hactor] at ht; cases ht
    · exact ⟨rfl, rfl⟩

/-- a change of the record of one operation that has no slot, and of nothing else -/
theorem reset {s' : NsEngine} (heng : EngineInv floor s'.eng) (hcat : CatInv first s')
    (hlog : s'.eng.log = s.eng.log) (hnext : s.eng.nextTxn ≤ s'.eng.nextTxn) (hepochs : s'.epochs = s.epochs)
    (hslot : (s.eng.txn t).slot = none) (htxn : ∀ u, u ≠ t → s'.eng.txn u = s.eng.txn u)
    (hop : ∀ u, u ≠ t → s'.op u = s.op u) (hself : s'.op t = some o) (ho : OpInv floor first s' t o) :
    NsInv floor first s' := by
  refine ⟨heng, hcat, ?_, fun u o' hu => ?_, fun u hu => ?_⟩
  · rw [hlog]; exact hi.fresh
  · by_cases hut : u = t
    · subst hut
      rw [hself] at hu; cases hu
      exact ho
    · rw [hop u hut] at hu
      refine (hi.ops u o' hu).frame (htxn u hut) hnext (fun p hp => hepochs ▸ hp) fun v p hp => ?_
      have hvt : v ≠ t := by
        rintro rfl
        rw [hslot] at hp; cases hp
      exact ⟨by rw [htxn v hvt]; exact hp, hop v hvt⟩
  · have hut : u ≠ t := by
      rintro rfl
      rw [hself] at hu; cases hu
    rw [htxn u hut]
    exact hi.unnamed u (hop u hut ▸ hu)

/-- a new operation -/
theorem begin (hs : s.eng.step env .begin = some eng') (htarget : o.target = none)
    (hsource : ∀ id, o.source = some id → ∃ p ∈ s.epochs, p.2 o.name = some id) :
    NsInv floor first ({ s with eng := eng' }.setOp s.eng.nextTxn o) := by
  have h' := engineInv_step s.eng .begin eng' hi.eng hs
  cases hs
  have hself : Function.update s.op s.eng.nextTxn (some o) s.eng.nextTxn = some o := update_self ..
  have hfresh : s.eng.txn s.eng.nextTxn = Txn.fresh := hi.eng.ids.unborn _ le_rfl
  refine hi.reset h' ⟨hi.cat.first_le, hi.cat.settled⟩ rfl (Nat.le_succ _) rfl (t := s.eng.nextTxn)
    (by rw [hfresh]; rfl) (fun u hu => update_of_ne hu _ _) (fun u hu => update_of_ne hu _ _) hself ?_
  have hrec : (setTxn s.eng s.eng.nextTxn { Txn.fresh with phase := .selecting }).txn s.eng.nextTxn =
      { Txn.fresh with phase := .selecting } := update_self ..
  refine ⟨Nat.lt_succ_self _, hsource, fun sel hsel => ?_, fun cand hc => ?_, fun _ => ?_, fun w hw => ?_, fun hc => ?_⟩
  · simp only [NsEngine.setOp, hrec] at hsel; cases hsel
  · simp only [NsEngine.setOp, hrec] at hc; cases hc
  · simp only [NsEngine.setOp, hrec]; exact ⟨rfl, rfl⟩
  · simp only [NsEngine.setOp, hrec] at hw; cases hw
  · obtain ⟨_, id, -, h2, -⟩ := crosses_iff.1 hc
    rw [htarget] at h2; cases h2

/-- one more selected document -/
theorem select (ho : s.op t = some o) (htarget : o.target = none)
    (hphase : (s.eng.txn t).phase = .selecting) {sel : Selection} (hkind : sel.addr.ident.kind = .primary)
    (hsource : o.source = some sel.addr.ident.collectionId) :
    NsInv floor first { s with eng := s.eng.setTxn t { s.eng.txn t with
      selected := sel :: (s.eng.txn t).selected } } := by
  have hok := hi.eng.txns t
  have hop := hi.ops t o ho
  have h' :=
    hi.eng.reselect hphase (forall_mem_cons.2 ⟨hkind, hok.selected⟩)
      (fun cand hc => mem_cons_of_mem _ (hok.candidates cand hc))
  have hbare : (s.eng.txn t).slot = none := hok.bare (by rw [hphase]; rfl)
  refine hi.reset h' ⟨hi.cat.first_le, hi.cat.settled⟩ rfl le_rfl rfl hbare (fun u hu => update_of_ne hu _ _)
    (fun _ _ => rfl) ho ?_
  refine ⟨hop.born, hop.source, ?_, ?_, ?_, ?_, ?_⟩
  · simp only [setTxn_txn_self]
    refine forall_mem_cons.2 ⟨?_, hop.picks⟩
    rw [htarget]; exact hsource
  · simp only [setTxn_txn_self]
    intro cand hc x hx
    obtain ⟨id, hid, hb⟩ := hop.heads cand hc x hx
    refine ⟨id, hid, hb.imp_right fun ⟨q, o', hslot, hop', htarget'⟩ => ⟨q, o', ?_, hop', htarget'⟩⟩
    have hne : x.txnId ≠ t := by
      intro he
      rw [he, hbare] at hslot; cases hslot
    rw [setTxn_txn, if_neg hne]; exact hslot
  · simp only [setTxn_txn_self]; exact hop.outside
  · simp only [setTxn_txn_self]; exact hop.writes
  · intro hcross
    obtain ⟨_, id, -, h2, -⟩ := crosses_iff.1 hcross
    rw [htarget] at h2; cases h2

/-- the name is resolved again -/
theorem enter {name : String} {source : Option ℤ} {view : ReadView} {id : ℤ}
    (ho : s.op t = some ⟨name, source, view, none⟩) (hid : s.catalog name = some id)
    (hs : (s.eng.move t id).step env (.enter t) = some eng') :
    NsInv floor first ({ s with eng := eng' }.setOp t ⟨name, source, view, some id⟩) := by
  have hop := hi.ops t _ ho
  have hok := hi.eng.txns t
  have hphase : (s.eng.txn t).phase = .selecting := by
    by_contra hne
    simp [step, move, hne] at hs
  have hbare : (s.eng.txn t).slot = none := hok.bare (by rw [hphase]; rfl)
  have hwrites : (s.eng.txn t).writes = [] := hok.unstaged hphase
  have hmove : EngineInv floor (s.eng.move t id) := by
    refine hi.eng.reselect hphase (fun sel hsel => ?_) (fun cand hc => ?_)
    · obtain ⟨sel, -, rfl⟩ := mem_map.1 hsel
      rfl
    · obtain ⟨cand, hmem, rfl⟩ := mem_map.1 hc
      exact mem_map_of_mem (hok.candidates cand hmem)
  have h' := engineInv_step _ _ eng' hmove hs
  have hother : ∀ u, u ≠ t → eng'.txn u = s.eng.txn u := by
    intro u hu
    simp only [step, move, setTxn_txn_self, hphase, if_true, Option.some.injEq] at hs
    rw [← hs, setTxn_txn, if_neg hu, setTxn_txn, if_neg hu]
  have hself : eng'.txn t = { s.eng.txn t with
      selected := (s.eng.txn t).selected.map (Selection.move id)
      candidates := (s.eng.txn t).candidates.map (Candidate.move id)
      phase := .staging
      readTs := s.eng.frontier } := by
    simp only [step, move, setTxn_txn_self, hphase, if_true, Option.some.injEq] at hs
    rw [← hs, setTxn_txn_self]
    rfl
  have hrest : eng'.log = s.eng.log ∧ eng'.nextTxn = s.eng.nextTxn := by
    simp only [step, move, setTxn_txn_self, hphase, if_true, Option.some.injEq] at hs
    rw [← hs]
    exact ⟨rfl, rfl⟩
  refine hi.reset h' ⟨hi.cat.first_le, hi.cat.settled⟩ hrest.1 hrest.2.ge rfl hbare hother
    (fun u hu => update_of_ne hu _ _) (update_self ..) ?_
  refine ⟨hop.born.trans_le hrest.2.ge, hop.source, ?_, ?_, fun hnone => ?_, ?_, ?_⟩
  · simp only [NsEngine.setOp, hself]
    intro sel hsel
    obtain ⟨sel, -, rfl⟩ := mem_map.1 hsel
    rfl
  · simp only [NsEngine.setOp, hself]
    intro cand hc x hx
    obtain ⟨cand, hmem, rfl⟩ := mem_map.1 hc
    obtain ⟨id', hid', hb⟩ := hop.heads cand hmem x hx
    refine ⟨id', hid', hb.imp_right fun hother' => ?_⟩
    obtain ⟨q, o', hslot, hop', htarget'⟩ := hother'
    have hne : x.txnId ≠ t := by
      intro he
      rw [he, hbare] at hslot; cases hslot
    exact ⟨q, o', by rw [hother _ hne]; exact hslot, (update_of_ne hne _ _).trans hop', htarget'⟩
  · cases hnone
  · simp only [NsEngine.setOp, hself, hwrites]
    exact fun w hw => by cases hw
  · simp only [NsEngine.setOp, hself, hwrites]
    intro hcross
    obtain ⟨id₁, id₂, h1, h2, hne⟩ := crosses_iff.1 hcross
    cases h2
    refine ⟨fun id' hid' => ?_, fun hw => absurd rfl hw, fun hp => (by cases hp), fun hd => (by cases hd)⟩
    cases hid'
    -- a collection from before the run would be the one of the selection
    by_contra hlt
    obtain ⟨p, hp, hname⟩ := hop.source id₁ h1
    have hsame := hi.cat.settled name id hid (not_le.1 hlt) p hp
    exact hne (Option.some.inj (hname.symm.trans hsame))

theorem openView (hs : s.eng.step env .openView = some eng') (view : ReadView) :
    NsInv floor first { s with eng := eng', epochs := (view, s.catalog) :: s.epochs } := by
  have h' := hi.idle rfl (fun _ _ _ _ _ _ _ hp => by cases hp.act) hs
  refine ⟨h'.eng, ⟨hi.cat.first_le, fun name id hid hlt => ?_⟩, h'.fresh, fun t o ho => ?_, h'.unnamed⟩
  · exact forall_mem_cons.2 ⟨hid, hi.cat.settled name id hid hlt⟩
  · exact (h'.ops t o ho).frame rfl le_rfl (fun p hp => mem_cons_of_mem _ hp) fun _ _ hp => ⟨hp, rfl⟩

/-- the publish slot of a DDL is nobody's -/
theorem ddl {wall : UInt64} {ok : Bool} (hr : run (step env) s.eng (ddlActs s.eng.nextTxn wall ok) = some eng') :
    NsInv floor first { s with eng := eng' } := by
  have hnone : s.op s.eng.nextTxn = none := by
    cases ho : s.op s.eng.nextTxn with
    | none => rfl
    | some o => exact absurd (hi.ops _ o ho).born (lt_irrefl _)
  refine run_invariant_on (I := fun e => NsInv floor first { s with eng := e })
    (Q := fun act => (∀ t a, act ≠ .install t a) ∧ (act.actor = none ∨ act = .enter s.eng.nextTxn)) ?_ hi ?_ hr
  · rintro e act e' hI ⟨hinstall, hactor⟩ hs
    have hpush : ∀ t o q ts w, s.op t = some o → o.crosses = true → Pushes e act t q ts w →
        w.addr.ident.kind ≠ .primary :=
      fun t _ _ _ w _ _ hp => absurd hp.act (hinstall t w.addr)
    rcases hactor with hactor | rfl
    · exact hI.idle hactor hpush hs
    · refine hI.engine hs hpush (fun t o ho ht => ?_) fun t _ x hp => ?_
      · cases ht
        rw [hnone] at ho; cases ho
      · cases hp with
        | enter | reject => exact ⟨rfl, rfl⟩
  · intro act hact
    simp only [ddlActs, mem_cons, not_mem_nil, or_false] at hact
    rcases hact with rfl | rfl | rfl | rfl | rfl
    · exact ⟨fun _ _ => by simp, .inl rfl⟩
    · exact ⟨fun _ _ => by simp, .inr rfl⟩
    · exact ⟨fun _ _ => by simp, .inl rfl⟩
    · cases ok
      · exact ⟨fun _ _ => by simp, .inl rfl⟩
      · exact ⟨fun _ _ => by simp, .inl rfl⟩
    · exact ⟨fun _ _ => by simp, .inl rfl⟩

/-- a DDL gives out new ids only -/
theorem applyDdl {d : Ddl} {ok : Bool} {catalog : Catalog} {nextId : ℤ}
    (hd : s.applyDdl d ok = some (catalog, nextId)) (writer : Option Ddl) :
    NsInv floor first { s with catalog := catalog, nextId := nextId, writer := writer } := by
  have hcat : first ≤ nextId ∧ ∀ name id, catalog name = some id → s.catalog name = some id ∨ first ≤ id := by
    cases d with
    | create name =>
      cases ok with
      | true =>
        simp only [NsEngine.applyDdl] at hd
        split_ifs at hd
        cases hd
        refine ⟨by have := hi.cat.first_le; omega, fun n id hn => ?_⟩
        rw [update_apply] at hn
        split_ifs at hn
        · cases hn; exact .inr hi.cat.first_le
        · exact .inl hn
      | false =>
        cases hd
        refine ⟨?_, fun n id hn => .inl hn⟩
        have := hi.cat.first_le
        split_ifs <;> omega
    | drop name =>
      cases ok with
      | true =>
        cases hd
        refine ⟨hi.cat.first_le, fun n id hn => ?_⟩
        rw [update_apply] at hn
        split_ifs at hn
        exact .inl hn
      | false => cases hd; exact ⟨hi.cat.first_le, fun n id hn => .inl hn⟩
  refine ⟨hi.eng, ⟨hcat.1, fun name id hid hlt => ?_⟩, hi.fresh, fun t o ho => ?_, hi.unnamed⟩
  · rcases hcat.2 name id hid with hold | hge
    · exact hi.cat.settled name id hold hlt
    · exact absurd hlt (not_lt.2 hge)
  · exact (hi.ops t o ho).frame rfl le_rfl (fun p hp => hp) fun _ _ hp => ⟨hp, rfl⟩

end

end NsInv

end Operations

end Mqlite.PagedEngine
