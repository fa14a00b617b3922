/-
Abort is invisible: a transaction that installs a Pending entry and later aborts leaves nothing a reader of another
transaction could notice, however many other transactions installed, committed and aborted above or below its entry in
between, and however many do so afterwards.

The comparison is between two runs: one with the transaction t, and one in which t never installs and the others perform
exactly those of their steps that took effect in the first run. Steps that t's Pending entry made fail (first committer
wins: a primary install over a foreign Pending head is refused) are the one thing t does to the others, and that is on
purpose; `refused_because_of_pending` shows why they have to be left out.

- `EraseSim t s u`: u is s without t's entry. Interval ends may differ: an aborted entry leaves its predecessor open
  where the other run has it closed.
- `eraseSim_step`: a step of another transaction that takes effect next to t's entry takes effect without it, and keeps
  the relation.
- `abort_invisible`: afterwards every lookup agrees in the two runs.
-/
import Mqlite.Mvcc.ChainRun

namespace Mqlite.Mvcc

open Lib List Function ChainState VersionEntry

/-! ## The relation between the two runs -/

/-- u is s without the entry of t, up to interval ends -/
structure EraseSim (t : TxnId) (s u : ChainState) : Prop where
  left : ChainInv s
  right : ChainInv u
  same : ((live s.chain).map VersionEntry.forgetStop).filter (fun e => e.txnId ≠ t) =
    (live u.chain).map VersionEntry.forgetStop
  mine : ∀ e ∈ live s.chain, e.txnId = t → e.state = .pending t
  phase : ∀ x, x ≠ t → s.phase x ≠ .finished → u.phase x = s.phase x
  used : ∀ ts ∈ u.used, ts ∈ s.used

/-- entries equal up to interval ends belong to the same transaction, in the same state, with the same data -/
theorem forgetStop_inj {e d : VersionEntry} (h : e.forgetStop = d.forgetStop) :
    e.txnId = d.txnId ∧ e.state = d.state ∧ e.isTombstone = d.isTombstone ∧ e.headId = d.headId := by
  obtain ⟨h1, -, h3, h4, -, h5⟩ := VersionEntry.mk.injEq .. ▸ h
  exact ⟨h3, h4, h5, by simp only [VersionEntry.headId, h1, h3]⟩

/-- the classification reads only the live head, and not its interval end -/
theorem classify_congr {c d : Chain} (h : (liveHead c).map forgetStop = (liveHead d).map forgetStop)
    (expectedHead : Option ExpectedHead) (scope : InstallConflictScope) (key : Key) (x : TxnId) :
    classifyDeltaInstall c expectedHead scope key x = classifyDeltaInstall d expectedHead scope key x := by
  unfold classifyDeltaInstall
  cases hc : liveHead c with
  | none =>
    cases hd : liveHead d with
    | none => rfl
    | some e => rw [hc, hd] at h; cases h
  | some e =>
    cases hd : liveHead d with
    | none => rw [hc, hd] at h; cases h
    | some e' =>
      rw [hc, hd] at h
      obtain ⟨-, hstate, htomb, hid⟩ := forgetStop_inj (Option.some.inj h)
      simp only [hstate, htomb, hid]

variable {t : TxnId} {s s' u : ChainState} {key : Key} {expectedHead : Option ExpectedHead}

/-- an install that is accepted next to t's Pending entry is accepted without it -/
theorem EraseSim.classify {x : TxnId} (h : EraseSim t s u) (hx : x ≠ t) (hidle : u.phase x = .idle)
    {scope : InstallConflictScope} (hp : classifyDeltaInstall s.chain expectedHead scope key x = .ok .proceed) :
    classifyDeltaInstall u.chain expectedHead scope key x = .ok .proceed := by
  have hsame := h.same
  have hmine := h.mine
  cases hl : live s.chain with
  | nil =>
    -- nothing live on either side
    rw [hl] at hsame
    have hu : live u.chain = [] := map_eq_nil_iff.1 hsame.symm
    unfold classifyDeltaInstall
    rw [liveHead_eq_head? h.right.stacked, hu]
    rfl
  | cons e l =>
    rw [hl] at hsame hmine
    have hhead : liveHead s.chain = some e := by rw [liveHead_eq_head? h.left.stacked, hl]; rfl
    by_cases het : e.txnId = t
    · -- t's own Pending entry is in front: only a secondary install without an expected head goes on
      have hes := hmine e mem_cons_self het
      unfold classifyDeltaInstall at hp
      rw [hhead] at hp
      simp only [hes, VersionState.pending.injEq, Ne.symm hx, if_false, reduceCtorEq, false_and] at hp
      cases expectedHead with
      | some _ => simp at hp
      | none =>
        cases scope with
        | primary => simp at hp
        | secondary =>
          unfold classifyDeltaInstall
          cases hu : liveHead u.chain with
          | none => rfl
          | some d =>
            have hd : d ∈ u.chain := mem_of_find?_eq_some hu
            have hdx : d.state ≠ .pending x := fun hs => by
              have := h.right.pending d hd x hs
              rw [hidle] at this; cases this
            simp [hdx]
    · -- the same version is in front on both sides
      rw [← hp]
      refine classify_congr ?_ expectedHead scope key x
      rw [hhead, liveHead_eq_head? h.right.stacked]
      rw [map_cons, filter_cons_of_pos (by exact decide_eq_true het)] at hsame
      cases hu : live u.chain with
      | nil => rw [hu] at hsame; cases hsame
      | cons d m =>
        rw [hu, map_cons, List.cons.injEq] at hsame
        exact congrArg some hsame.1.symm

/-! ## The steps -/

theorem commitEntry_txnId (x : TxnId) (ts : Ts) (e : VersionEntry) : (commitEntry x ts e).txnId = e.txnId := by
  unfold commitEntry
  split_ifs <;> rfl

theorem eraseSim_skip (s u : ChainState) (a : ChainAct) (s' : ChainState) (h : EraseSim t s u)
    (_ : a.txnId ≠ t) (hs : step key s a = some s') (hk : noEffect key s a = true) : EraseSim t s' u := by
  have hinv := chainInv_step s a s' h.left hs
  rcases step_cases h.left hs with ⟨x, ts, scope, expectedHead, op, -, -, -, -, ⟨-, rfl⟩ | ⟨hno, -, -⟩⟩ |
    ⟨x, ts, rfl, hp, -⟩ | ⟨x, ts, rfl, hp, -⟩ | ⟨x, -, -, rfl⟩
  · refine ⟨hinv, h.right, h.same, h.mine, fun y hy hf => ?_, fun z hz => mem_cons_of_mem _ (h.used z hz)⟩
    by_cases hyx : y = x
    · simp [hyx] at hf
    · simp only [update_of_ne hyx] at hf ⊢
      exact h.phase y hy hf
  · rw [hk] at hno; cases hno
  · simp [noEffect, hp] at hk
  · simp [noEffect, hp] at hk
  · exact h

/-- the two sides go through the same phases until a transaction has finished -/
theorem EraseSim.phase_update (h : EraseSim t s u) (x : TxnId) (p : ChainPhase) :
    ∀ y, y ≠ t → update s.phase x p y ≠ .finished → update u.phase x p y = update s.phase x p y := by
  intro y hy hf
  by_cases hyx : y = x
  · simp [hyx]
  · rw [update_of_ne hyx] at hf ⊢
    rw [update_of_ne hyx]
    exact h.phase y hy hf

section Steps

variable {t x : TxnId} {ts : Ts} {s u s' u' : ChainState} {key : Key}

theorem EraseSim.install (h : EraseSim t s u) (hx : x ≠ t) {op : WriteOp} (hs' : ChainInv s') (hu' : ChainInv u')
    (hs : s' = ⟨pushPending s.chain ts x op, update s.phase x (.installed ts), ts :: s.used⟩)
    (hu : u' = ⟨pushPending u.chain ts x op, update u.phase x (.installed ts), ts :: u.used⟩) : EraseSim t s' u' := by
  subst hs hu
  refine ⟨hs', hu', ?_, ?_, h.phase_update x _, ?_⟩
  · rw [live_pushPending, live_pushPending, map_cons, map_cons, forgetStop_supersede, forgetStop_supersede,
      filter_cons_of_pos (by exact decide_eq_true hx), h.same]
  · intro e he het
    rw [live_pushPending] at he
    rcases mem_cons.1 he with rfl | he
    · exact absurd het hx
    · obtain ⟨d, hd, z, rfl⟩ := exists_of_forgetStop_eq (forgetStop_supersede ts (live s.chain)) he
      exact h.mine d hd het
  · intro z hz
    rcases mem_cons.1 hz with rfl | hz
    · exact mem_cons_self
    · exact mem_cons_of_mem _ (h.used z hz)

theorem EraseSim.commit (h : EraseSim t s u) (hx : x ≠ t) (hs' : ChainInv s') (hu' : ChainInv u')
    (hs : s' = ⟨flipPendingInChain s.chain x (some ts), update s.phase x .finished, s.used⟩)
    (hu : u' = ⟨flipPendingInChain u.chain x (some ts), update u.phase x .finished, u.used⟩) : EraseSim t s' u' := by
  subst hs hu
  refine ⟨hs', hu', ?_, ?_, h.phase_update x _, h.used⟩
  · have hcomm : forgetStop ∘ commitEntry x ts = commitEntry x ts ∘ forgetStop := by
      funext e
      unfold commitEntry isPendingOf forgetStop
      dsimp only [Function.comp]
      split_ifs <;> rfl
    rw [live_flip_committed, live_flip_committed, map_map, map_map, hcomm, ← map_map, ← map_map, filter_map, ← h.same]
    refine congrArg _ (filter_congr fun e _ => ?_)
    simp [commitEntry_txnId]
  · intro e he het
    rw [live_flip_committed] at he
    obtain ⟨d, hd, rfl⟩ := mem_map.1 he
    rw [commitEntry_txnId] at het
    have hds := h.mine d hd het
    rw [commitEntry, if_neg (by simp [hds, Ne.symm hx])]
    exact hds

theorem EraseSim.abort (h : EraseSim t s u) (hp : s.phase x = .installed ts) (hp' : u.phase x = .installed ts)
    (hs' : ChainInv s') (hu' : ChainInv u')
    (hs : s' = ⟨flipPendingInChain s.chain x none, update s.phase x .finished, s.used⟩)
    (hu : u' = ⟨flipPendingInChain u.chain x none, update u.phase x .finished, u.used⟩) : EraseSim t s' u' := by
  subst hs hu
  have hopen : ∀ {v : ChainState}, ChainInv v → v.phase x = .installed ts →
      ∀ e ∈ live v.chain, e.txnId = x → e.state = .pending x := fun hv hvp e he hex =>
    hex ▸ hv.open_ e (mem_live.1 he).1 ts (hex ▸ hvp)
  have hforget := forget_abort h.left.stacked (hopen h.left hp)
  refine ⟨hs', hu', ?_, ?_, h.phase_update x _, h.used⟩
  · rw [hforget, forget_abort h.right.stacked (hopen h.right hp'), ← h.same, filter_filter, filter_filter]
    exact filter_congr fun e _ => Bool.and_comm _ _
  · intro e he het
    have hmem := mem_map_of_mem (f := forgetStop) he
    rw [hforget] at hmem
    obtain ⟨d, hd, heq⟩ := mem_map.1 (mem_filter.1 hmem).1
    obtain ⟨htxn, hstate, -⟩ := forgetStop_inj heq
    rw [← hstate]
    exact h.mine d hd (htxn.trans het)

end Steps

theorem eraseSim_step (s u : ChainState) (a : ChainAct) (s' : ChainState) (h : EraseSim t s u)
    (ha : a.txnId ≠ t) (hs : step key s a = some s') (hk : noEffect key s a = false) :
    noEffect key u a = false ∧ ∃ u', step key u a = some u' ∧ EraseSim t s' u' := by
  have hinv := chainInv_step s a s' h.left hs
  rcases step_cases h.left hs with
    ⟨x, ts, scope, expectedHead, op, rfl, hidle, hts, hmax, ⟨hr, -⟩ | ⟨-, hproceed, hs'⟩⟩ | ⟨x, ts, rfl, hp, hs'⟩ |
    ⟨x, ts, rfl, hp, hs'⟩ | ⟨x, hor, hp, -⟩
  · rw [hk] at hr; cases hr
  · have hx : x ≠ t := ha
    have hidle' : u.phase x = .idle := (h.phase x hx (by rw [hidle]; simp)).trans hidle
    have hproceed' := h.classify hx hidle' hproceed
    have hu : step key u (.install x ts scope expectedHead op) =
        some ⟨pushPending u.chain ts x op, update u.phase x (.installed ts), ts :: u.used⟩ := by
      simp only [step, installOnChain, hproceed']
      rw [if_pos ⟨hidle', fun hm => hts (h.used ts hm), hmax⟩]
    refine ⟨by simp [noEffect, hproceed', Except.isOk, Except.toBool], _, hu, ?_⟩
    exact h.install ha hinv (chainInv_step u _ _ h.right hu) hs' rfl
  · have hp' : u.phase x = .installed ts := (h.phase x ha (by rw [hp]; simp)).trans hp
    have hu : step key u (.commit x) =
        some ⟨flipPendingInChain u.chain x (some ts), update u.phase x .finished, u.used⟩ := by
      simp only [step, hp']
    exact ⟨by simp [noEffect, hp'], _, hu, h.commit ha hinv (chainInv_step u _ _ h.right hu) hs' rfl⟩
  · have hp' : u.phase x = .installed ts := (h.phase x ha (by rw [hp]; simp)).trans hp
    have hu : step key u (.abort x) = some ⟨flipPendingInChain u.chain x none, update u.phase x .finished, u.used⟩ := by
      simp only [step, hp']
    exact ⟨by simp [noEffect, hp'], _, hu, h.abort hp hp' hinv (chainInv_step u _ _ h.right hu) hs' rfl⟩
  · rcases hor with rfl | rfl <;> simp [noEffect, hp] at hk

/-! ## The transaction's own two steps -/

/-- installing: the other run has not moved -/
theorem eraseSim_install {ts : Ts} {scope : InstallConflictScope} {op : WriteOp} (h : ChainInv s)
    (hs : step key s (.install t ts scope expectedHead op) = some s')
    (hk : noEffect key s (.install t ts scope expectedHead op) = false) : EraseSim t s' s := by
  have hinv := chainInv_step s _ s' h hs
  rcases step_cases h hs with ⟨x, ts, scope, expectedHead, op, heq, hidle, -, -, ⟨hr, -⟩ | ⟨-, -, rfl⟩⟩ |
    ⟨x, ts, heq, -, -⟩ | ⟨x, ts, heq, -, -⟩ | ⟨x, heq | heq, -, -⟩
  · rw [hk] at hr; cases hr
  · cases heq
    have hne : ∀ e ∈ s.chain, e.txnId ≠ t := fun e he hte => h.owner e he (hte ▸ hidle)
    refine ⟨hinv, h, ?_, ?_, fun x hx _ => (update_of_ne hx _ _).symm, fun z hz => mem_cons_of_mem _ hz⟩
    · rw [live_pushPending, map_cons, filter_cons_of_neg (by simp [forgetStop, pendingEntry]), forgetStop_supersede,
        filter_eq_self]
      intro e he
      obtain ⟨d, hd, rfl⟩ := mem_map.1 he
      exact decide_eq_true (hne d (mem_live.1 hd).1)
    · intro e he het
      rw [live_pushPending] at he
      rcases mem_cons.1 he with rfl | he
      · rfl
      · obtain ⟨d, hd, z, rfl⟩ := exists_of_forgetStop_eq (forgetStop_supersede ts (live s.chain)) he
        exact absurd het (hne d (mem_live.1 hd).1)
  · cases heq
  · cases heq
  · cases heq
  · cases heq

/-- aborting: the entry is gone on this side too -/
theorem eraseSim_abort (h : EraseSim t s u) (hs : step key s (.abort t) = some s') :
    EraseSim t s' u ∧ s'.phase t = .finished := by
  have hinv := chainInv_step s _ s' h.left hs
  rcases step_cases h.left hs with ⟨x, ts, scope, expectedHead, op, heq, -⟩ | ⟨x, ts, heq, -, -⟩ |
    ⟨x, ts, heq, -, rfl⟩ | ⟨x, heq | heq, hp, rfl⟩
  · cases heq
  · cases heq
  · cases heq
    have hforget := forget_abort h.left.stacked h.mine
    have hgone : ∀ e ∈ live (flipPendingInChain s.chain t none), e.txnId ≠ t := by
      intro e he hte
      have hm := mem_map_of_mem (f := forgetStop) he
      rw [hforget] at hm
      exact of_decide_eq_true (mem_filter.1 hm).2 hte
    refine ⟨⟨hinv, h.right, ?_, fun e he hte => absurd hte (hgone e he), fun x hx hf => ?_, h.used⟩, by simp⟩
    · rw [hforget]
      simpa using h.same
    · simp only [update_of_ne hx] at hf ⊢
      exact h.phase x hx hf
  · cases heq
  · cases heq
    exact ⟨h, hp⟩

/-- once t has finished, the two sides agree on all live entries -/
theorem EraseSim.same_of_finished (h : EraseSim t s u) (ht : s.phase t = .finished) :
    (live s.chain).map forgetStop = (live u.chain).map forgetStop := by
  rw [← h.same, filter_eq_self.2]
  intro e he
  obtain ⟨d, hd, rfl⟩ := mem_map.1 he
  refine decide_eq_true fun hdt => ?_
  have := h.left.pending d (mem_live.1 hd).1 t (h.mine d hd hdt)
  rw [ht] at this; cases this

theorem step_phase_other {a : ChainAct} (h : ChainInv s) (ha : a.txnId ≠ t) (hs : step key s a = some s') :
    s'.phase t = s.phase t := by
  rcases step_cases h hs with ⟨x, ts, scope, expectedHead, op, rfl, -, -, -, ⟨-, rfl⟩ | ⟨-, -, rfl⟩⟩ |
    ⟨x, ts, rfl, -, rfl⟩ | ⟨x, ts, rfl, -, rfl⟩ | ⟨x, -, -, rfl⟩
  · exact update_of_ne (Ne.symm ha) _ _
  · exact update_of_ne (Ne.symm ha) _ _
  · exact update_of_ne (Ne.symm ha) _ _
  · exact update_of_ne (Ne.symm ha) _ _
  · rfl

/-! ## Main result -/

/-- **Abort is invisible.** From any chain reached, transaction t installs a Pending entry, other transactions take any
steps l1, t aborts, and other transactions take any further steps l2. Without t, from the same chain, the others can
take exactly those of their steps that had an effect, none of them being refused, and then every coherent view reads the
same version of the key in the two runs (the same transaction's, with the same data; only interval ends may differ). -/
theorem abort_invisible (key : Key) (l0 l1 l2 : List ChainAct) (t : TxnId) (ts : Ts) (scope : InstallConflictScope)
    (expectedHead : Option ExpectedHead) (op : WriteOp) (s s1 s2 s3 s4 : ChainState)
    (h0 : run (ChainState.step key) ChainState.init l0 = some s)
    (hin : ChainState.step key s (.install t ts scope expectedHead op) = some s1)
    (hacc : ChainState.noEffect key s (.install t ts scope expectedHead op) = false)
    (hl1 : ∀ a ∈ l1, a.txnId ≠ t) (h1 : run (ChainState.step key) s1 l1 = some s2)
    (hab : ChainState.step key s2 (.abort t) = some s3)
    (hl2 : ∀ a ∈ l2, a.txnId ≠ t) (h2 : run (ChainState.step key) s3 l2 = some s4) :
    let others := effective (ChainState.step key) (ChainState.noEffect key) s1 l1 ++
      effective (ChainState.step key) (ChainState.noEffect key) s3 l2
    Along (ChainState.step key) (fun v a => ChainState.noEffect key v a = false) s others ∧
      ∃ u, run (ChainState.step key) s others = some u ∧ ∀ frontier view, view.Coherent frontier →
        (visibleAt frontier view s4.chain).map VersionEntry.forgetStop =
          (visibleAt frontier view u.chain).map VersionEntry.forgetStop := by
  intro others
  have hinv := chainInv_run chainInv_init h0
  have hsim1 := eraseSim_install hinv hin hacc
  obtain ⟨hal1, u1, hu1, hsim2⟩ := run_simulates eraseSim_skip eraseSim_step hsim1 hl1 h1
  obtain ⟨hsim3, hfin⟩ := eraseSim_abort hsim2 hab
  obtain ⟨hal2, u2, hu2, hsim4⟩ := run_simulates eraseSim_skip eraseSim_step hsim3 hl2 h2
  have hfin4 : s4.phase t = .finished := by
    refine (run_invariant_on (I := fun s => ChainInv s ∧ s.phase t = .finished) ?_ ⟨hsim3.left, hfin⟩ hl2 h2).2
    exact fun v a w hI ha hs => ⟨chainInv_step v a w hI.1 hs, (step_phase_other hI.1 ha hs).trans hI.2⟩
  refine ⟨hal1.append hu1 hal2, u2, ?_, fun frontier view hv => ?_⟩
  · rw [run_append, hu1]; exact hu2
  · exact visibleAt_congr hsim4.left.stacked hsim4.right.stacked (hsim4.same_of_finished hfin4) hv

/-- the aborted entry of transaction 1 lies under the entry of transaction 2, which commits afterwards -/
theorem abort_invisible_under_another : ∃ s4 u, run (ChainState.step [7]) ChainState.init
        [.install 0 ⟨5, 0⟩ .secondary none (.insert [1]), .commit 0, .install 1 ⟨10, 0⟩ .secondary none .delete,
          .install 2 ⟨20, 0⟩ .secondary none .delete, .abort 1, .commit 2] = some s4 ∧
      run (ChainState.step [7]) ChainState.init
        [.install 0 ⟨5, 0⟩ .secondary none (.insert [1]), .commit 0, .install 2 ⟨20, 0⟩ .secondary none .delete,
          .commit 2] = some u ∧
      ∀ frontier view, view.Coherent frontier → (visibleAt frontier view s4.chain).map VersionEntry.forgetStop =
        (visibleAt frontier view u.chain).map VersionEntry.forgetStop := by
  obtain ⟨-, u, hu, hsame⟩ := abort_invisible [7]
    [.install 0 ⟨5, 0⟩ .secondary none (.insert [1]),
      .commit 0] [.install 2 ⟨20, 0⟩ .secondary none .delete] [.commit 2]
    1 ⟨10, 0⟩ .secondary none .delete _ _ _ _ _ rfl rfl rfl (by decide) rfl rfl (by decide) rfl
  exact ⟨_, u, rfl, hu, hsame⟩

/-- **The one effect.** Transaction 1 installs and aborts. In between, its Pending entry makes the install of
transaction 2 fail, so that transaction 3 gets the key. Without transaction 1 the same calls give the key to transaction
2 first, the install of transaction 3 is the one refused, and the view that read 3's document finds nothing. -/
theorem refused_because_of_pending : ∃ s u, run (ChainState.step [7]) ChainState.init
        [.install 1 ⟨10, 0⟩ .primary none (.insert [1]), .install 2 ⟨20, 0⟩ .primary none (.insert [2]), .abort 1,
          .install 3 ⟨30, 0⟩ .primary none (.insert [3]), .abort 2, .commit 3] = some s ∧
      run (ChainState.step [7]) ChainState.init
        [.install 2 ⟨20, 0⟩ .primary none (.insert [2]), .install 3 ⟨30, 0⟩ .primary none (.insert [3]), .abort 2,
          .commit 3] = some u ∧
      (visibleAt ⟨40, 0⟩ ⟨⟨40, 0⟩, 9⟩ s.chain).map VersionEntry.data = some (.inline [3]) ∧
      visibleAt ⟨40, 0⟩ ⟨⟨40, 0⟩, 9⟩ u.chain = none :=
  ⟨_, _, rfl, rfl, by decide, by decide⟩

end Mqlite.Mvcc
