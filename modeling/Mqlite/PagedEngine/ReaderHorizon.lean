/-
The horizon that readers hold (`storage/paged_engine/snapshot_ops/read_exec.rs`, `mvcc/registry.rs`,
`mvcc/read_view.rs`).

`open_snapshot_read_view` takes several steps, and other threads may run between any two of them:
- register the transaction id at the zero timestamp;
- load the published epoch, and load it again until the sequencer's frontier has reached it;
- build the view, and raise its slot in the registry to the view's `read_ts`;
- load the catalog generation again; if it has changed, the view is dropped, which unregisters it.
Meanwhile views are dropped, epochs are published with increasing `visible_ts`, and somebody samples
`oldest_required_ts`.

Result: `horizon_below_views`. After a sample v, every view that is open then or is opened later reads at or above
min(v, the `visible_ts` published at the sample). A half-open view counts: either its slot is still at zero, so v is
zero, or it is at the view's `read_ts`.

Left out: the back-pointers in the registry's slots, which only the forced expiry of views reads.
-/
import Mqlite.Storage.DeferredFree

namespace Mqlite.PagedEngine.Horizon

open Lib Mvcc Storage OrdMap Function

/-! ## Model -/

structure PublishedEpoch where
  visibleTs : Ts
  catalogGeneration : UInt64
deriving DecidableEq, Repr

/-- a call of `open_snapshot_read_view`, from its first step to the drop of the view it returns -/
inductive Opening where
  | idle
  | pinned
  /-- an epoch is loaded; the frontier has not been compared with it -/
  | loaded (epoch : PublishedEpoch)
  | captured (epoch : PublishedEpoch)
  /-- the view is built; the catalog generation has not been loaded again -/
  | attached (epoch : PublishedEpoch)
  | opened (epoch : PublishedEpoch)
  | closed
deriving DecidableEq, Repr

structure State where
  registry : OrdMap TxnId Ts
  published : PublishedEpoch
  publishedFrontier : Ts
  opening : TxnId → Opening

/-- `Ts::default()` -/
def zeroTs : Ts := ⟨0, 0⟩

/-- no view is open -/
def init (published : PublishedEpoch) (publishedFrontier : Ts) : State :=
  ⟨.empty, published, publishedFrontier, fun _ => .idle⟩

/-- the view that a call builds over its epoch -/
def PublishedEpoch.readView (epoch : PublishedEpoch) (txnId : TxnId) : ReadView := ⟨epoch.visibleTs, txnId⟩

inductive Move where
  | register (txnId : TxnId)
  | load (txnId : TxnId)
  | compareFrontier (txnId : TxnId)
  | attach (txnId : TxnId)
  | recheck (txnId : TxnId)
  /-- the guard of the pin is dropped while it is armed -/
  | unwind (txnId : TxnId)
  | dropView (txnId : TxnId)
  | publish (epoch : PublishedEpoch)
  | advance (frontier : Ts)
deriving DecidableEq, Repr

def State.goto (s : State) (txnId : TxnId) (opening : Opening) : State :=
  { s with opening := Function.update s.opening txnId opening }

/-- `unregister`, and the call or its view is gone -/
def State.close (s : State) (txnId : TxnId) : State := { s.goto txnId .closed with registry := s.registry.erase txnId }

/-- a transaction id is used by one call -/
def step (s : State) : Move → Option State
  | .register txnId =>
    match s.opening txnId with
    | .idle => some { s.goto txnId .pinned with registry := s.registry.insert txnId zeroTs }
    | _ => none
  | .load txnId =>
    match s.opening txnId with
    | .pinned => some (s.goto txnId (.loaded s.published))
    | _ => none
  | .compareFrontier txnId =>
    match s.opening txnId with
    | .loaded epoch => some (s.goto txnId (if epoch.visibleTs ≤ s.publishedFrontier then .captured epoch else .pinned))
    | _ => none
  | .attach txnId =>
    match s.opening txnId with
    -- `attach_view_and_refine`
    | .captured epoch =>
      some { s.goto txnId (.attached epoch) with
        registry := s.registry.modify txnId fun _ => (epoch.readView txnId).readTs }
    | _ => none
  | .recheck txnId =>
    match s.opening txnId with
    | .attached epoch =>
      if s.published.catalogGeneration = epoch.catalogGeneration then some (s.goto txnId (.opened epoch))
        else some (s.close txnId)
    | _ => none
  | .unwind txnId =>
    match s.opening txnId with
    | .pinned | .loaded _ | .captured _ => some (s.close txnId)
    | _ => none
  | .dropView txnId =>
    match s.opening txnId with
    | .opened _ => some (s.close txnId)
    | _ => none
  | .publish epoch => if s.published.visibleTs ≤ epoch.visibleTs then some { s with published := epoch } else none
  | .advance frontier => if s.publishedFrontier ≤ frontier then some { s with publishedFrontier := frontier } else none

/-! ## Slots -/

/-- what the registry has for a call -/
def Opening.slot : Opening → Option Ts
  | .idle | .closed => none
  | .pinned | .loaded _ | .captured _ => some zeroTs
  | .attached epoch | .opened epoch => some epoch.visibleTs

/-- the epoch a call has loaded -/
def Opening.epoch? : Opening → Option PublishedEpoch
  | .idle | .pinned | .closed => none
  | .loaded epoch | .captured epoch | .attached epoch | .opened epoch => some epoch

/-- the registry has what the calls have put there -/
def Registered (s : State) : Prop := ∀ txnId, s.registry.get? txnId = (s.opening txnId).slot

/-- nothing that is loaded, or can be loaded, is below the floor -/
structure Above (floor : Ts) (s : State) : Prop where
  published : floor ≤ s.published.visibleTs
  loaded : ∀ txnId epoch, (s.opening txnId).epoch? = some epoch → floor ≤ epoch.visibleTs

section Step

variable {s s' : State} {a : Move} {txnId : TxnId} {next : Opening} {floor : Ts}

/-- **What a step does**: a call moves on and its slot with it, or something is published. -/
theorem step_cases (h : step s a = some s') :
    (∃ txnId next, s'.opening = Function.update s.opening txnId next ∧ s'.published = s.published ∧
      (next.epoch? = none ∨ next.epoch? = (s.opening txnId).epoch? ∨ next.epoch? = some s.published) ∧
      ((s.opening txnId).slot = next.slot ∧ s'.registry = s.registry ∨
        s'.registry = s.registry.insert txnId zeroTs ∧ next.slot = some zeroTs ∨
        (∃ ts, s'.registry = s.registry.modify txnId (fun _ => ts) ∧ (s.opening txnId).slot ≠ none ∧
          next.slot = some ts) ∨
        s'.registry = s.registry.erase txnId ∧ next.slot = none)) ∨
    s'.opening = s.opening ∧ s'.registry = s.registry ∧ s.published.visibleTs ≤ s'.published.visibleTs := by
  cases a with simp only [step] at h
  | register txnId =>
    split at h
    next hidle =>
      cases h
      exact .inl ⟨txnId, .pinned, rfl, rfl, .inl rfl, .inr (.inl ⟨rfl, rfl⟩)⟩
    next => cases h
  | load txnId =>
    split at h
    next hpinned =>
      cases h
      refine .inl ⟨txnId, .loaded s.published, rfl, rfl, .inr (.inr rfl), .inl ⟨?_, rfl⟩⟩
      rw [hpinned]
      rfl
    next => cases h
  | compareFrontier txnId =>
    split at h
    next epoch hloaded =>
      cases h
      refine .inl ⟨txnId, _, rfl, rfl, ?_, .inl ⟨?_, rfl⟩⟩
      · rw [hloaded]
        split_ifs
        · exact .inr (.inl rfl)
        · exact .inl rfl
      · rw [hloaded]
        split_ifs <;> rfl
    next => cases h
  | attach txnId =>
    split at h
    next epoch hcaptured =>
      cases h
      refine .inl ⟨txnId, .attached epoch, rfl, rfl, .inr (.inl ?_), .inr (.inr (.inl ⟨_, rfl, ?_, rfl⟩))⟩
      · rw [hcaptured]
        rfl
      · rw [hcaptured]
        simp [Opening.slot]
    next => cases h
  | recheck txnId =>
    split at h
    next epoch hattached =>
      split_ifs at h
      · cases h
        refine .inl ⟨txnId, .opened epoch, rfl, rfl, .inr (.inl ?_), .inl ⟨?_, rfl⟩⟩
        · rw [hattached]
          rfl
        · rw [hattached]
          rfl
      · cases h
        exact .inl ⟨txnId, .closed, rfl, rfl, .inl rfl, .inr (.inr (.inr ⟨rfl, rfl⟩))⟩
    next => cases h
  | unwind txnId =>
    split at h
    case h_4 => cases h
    all_goals
      cases h
      exact .inl ⟨txnId, .closed, rfl, rfl, .inl rfl, .inr (.inr (.inr ⟨rfl, rfl⟩))⟩
  | dropView txnId =>
    split at h
    next =>
      cases h
      exact .inl ⟨txnId, .closed, rfl, rfl, .inl rfl, .inr (.inr (.inr ⟨rfl, rfl⟩))⟩
    next => cases h
  | publish epoch =>
    split_ifs at h with hle
    cases h
    exact .inr ⟨rfl, rfl, hle⟩
  | advance frontier =>
    split_ifs at h
    cases h
    exact .inr ⟨rfl, rfl, le_rfl⟩

theorem Registered.step (h : Registered s) (hstep : step s a = some s') : Registered s' := by
  obtain ⟨txnId, next, hopening, -, -, hslot⟩ | ⟨hopening, hregistry, -⟩ := step_cases hstep
  · intro t
    rw [hopening]
    by_cases ht : t = txnId
    · subst ht
      rw [update_self]
      rcases hslot with ⟨hsame, hregistry⟩ | ⟨hregistry, hslot⟩ | ⟨ts, hregistry, hold, hslot⟩ | ⟨hregistry, hslot⟩
      · rw [hregistry, h t, hsame]
      · rw [hregistry, get?_insert, if_pos rfl, hslot]
      · rw [hregistry, get?_modify, if_pos rfl, h t, hslot]
        cases hget : (s.opening t).slot with
        | none => exact absurd hget hold
        | some old => rfl
      · rw [hregistry, get?_erase, if_pos rfl, hslot]
    · rw [update_of_ne ht, ← h t]
      rcases hslot with ⟨-, hregistry⟩ | ⟨hregistry, -⟩ | ⟨ts, hregistry, -, -⟩ | ⟨hregistry, -⟩
      · rw [hregistry]
      · rw [hregistry, get?_insert, if_neg ht]
      · rw [hregistry, get?_modify, if_neg ht]
      · rw [hregistry, get?_erase, if_neg ht]
  · intro t
    rw [hopening, hregistry, h t]

/-- the floor stays below all views: what is loaded was published, and what is published only rises -/
theorem Above.step (h : Above floor s) (hstep : step s a = some s') : Above floor s' := by
  obtain ⟨txnId, next, hopening, hpublished, hepoch, -⟩ | ⟨hopening, -, hle⟩ := step_cases hstep
  · refine ⟨by rw [hpublished]; exact h.published, fun t epoch ht => ?_⟩
    rw [hopening] at ht
    by_cases htxn : t = txnId
    · subst htxn
      rw [update_self] at ht
      rcases hepoch with hnone | hsame | hnew
      · rw [hnone] at ht
        cases ht
      · exact h.loaded t epoch (hsame ▸ ht)
      · rw [hnew] at ht
        cases ht
        exact h.published
    · rw [update_of_ne htxn] at ht
      exact h.loaded t epoch ht
  · refine ⟨h.published.trans hle, fun t epoch ht => ?_⟩
    rw [hopening] at ht
    exact h.loaded t epoch ht

/-! ## Samples -/

theorem zeroTs_le (ts : Ts) : zeroTs ≤ ts := by
  rw [Ts.le_iff]
  change 0 < _ ∨ 0 = _ ∧ 0 ≤ _
  omega

/-- **A sample is a floor.** -/
theorem Registered.above (h : Registered s) : Above (min (oldestRequiredTs s.registry) s.published.visibleTs) s := by
  refine ⟨min_le_right _ _, fun txnId epoch hepoch => ?_⟩
  -- a call that has loaded an epoch has a slot, at zero or at the epoch's timestamp
  have hslot : ∃ ts ≤ epoch.visibleTs, (s.opening txnId).slot = some ts := by
    cases ho : s.opening txnId with
    | idle | pinned | closed => rw [ho] at hepoch; cases hepoch
    | loaded e | captured e => exact ⟨zeroTs, zeroTs_le _, rfl⟩
    | attached e | opened e =>
      rw [ho] at hepoch
      cases hepoch
      exact ⟨_, le_rfl, rfl⟩
  obtain ⟨ts, hts, hslot⟩ := hslot
  rw [← h txnId, get?_eq_some_iff] at hslot
  exact (min_le_left _ _).trans ((oldestRequiredTs_le (List.mem_map_of_mem hslot)).trans hts)

end Step

/-- **The horizon is below every view** that is open when it is sampled or is opened later. -/
theorem horizon_below_views {published : PublishedEpoch} {publishedFrontier : Ts} {before after : List Move}
    {s s' : State} (hbefore : run step (init published publishedFrontier) before = some s)
    (hafter : run step s after = some s') {txnId : TxnId}
    {epoch : PublishedEpoch} (hopen : s'.opening txnId = .opened epoch) :
    min (oldestRequiredTs s.registry) s.published.visibleTs ≤ (epoch.readView txnId).readTs := by
  have hregistered : Registered s :=
    run_invariant (fun _ _ _ h _ hstep => h.step hstep) (fun _ => rfl) (along_true _ _) hbefore
  have habove : Above (min (oldestRequiredTs s.registry) s.published.visibleTs) s' :=
    run_invariant (fun _ _ _ h _ hstep => h.step hstep) hregistered.above (along_true _ _) hafter
  refine habove.loaded txnId epoch ?_
  rw [hopen]
  rfl

/-- a view is open at 5 and another one is being opened when the horizon is sampled; the second one opens at 7 -/
theorem horizon_below_views_two_readers : ∃ s s',
    run step (init ⟨⟨5, 0⟩, 1⟩ ⟨5, 0⟩) [.register 1, .load 1, .compareFrontier 1, .attach 1, .recheck 1,
      .advance ⟨7, 0⟩] = some s ∧
    oldestRequiredTs s.registry = ⟨5, 0⟩ ∧
    run step s [.publish ⟨⟨7, 0⟩, 1⟩, .register 2, .load 2, .compareFrontier 2, .attach 2, .recheck 2, .dropView 1] =
      some s' ∧
    s'.opening 2 = .opened ⟨⟨7, 0⟩, 1⟩ ∧ min (oldestRequiredTs s.registry) s.published.visibleTs ≤ ⟨7, 0⟩ := by
  obtain ⟨s, hs, holdest, hpublished, hrest⟩ : ∃ s,
      run step (init ⟨⟨5, 0⟩, 1⟩ ⟨5, 0⟩) [.register 1, .load 1, .compareFrontier 1, .attach 1, .recheck 1,
        .advance ⟨7, 0⟩] = some s ∧
      oldestRequiredTs s.registry = ⟨5, 0⟩ ∧ s.published = ⟨⟨5, 0⟩, 1⟩ ∧ ∃ s',
        run step s [.publish ⟨⟨7, 0⟩, 1⟩, .register 2, .load 2, .compareFrontier 2, .attach 2, .recheck 2,
          .dropView 1] = some s' ∧
        s'.opening 2 = .opened ⟨⟨7, 0⟩, 1⟩ :=
    ⟨_, rfl, rfl, rfl, _, rfl, rfl⟩
  obtain ⟨s', hs', hopen⟩ := hrest
  exact ⟨s, s', hs, holdest, hs', hopen, horizon_below_views hs hs' hopen⟩

end Mqlite.PagedEngine.Horizon
