/-
Runs of the publish sequencer: any number of writers register, and each uses its guard once, to mark its slot Ready or
Aborted or by dropping it; waiting writers run the window loop whenever they wake; the engine may be poisoned at any
time.

The run state adds to the sequencer the oracle, the guards that are still held, and a record of what has happened: every
slot registered, marked Ready, marked Aborted and published.

- `SeqInv`: the slots above the window are exactly the registered ones that are not done, timestamps and slot numbers
  grow together, and the frontier is below every slot the window has not reached.
- `seqInv_step`, `seqInv_run`: it holds in every state of every run.
-/
import Mqlite.Lib.Run
import Mqlite.Publish.Sequencer

namespace Mqlite.Publish

open Lib Mvcc List OrdMap Nat PublishSequencer TimestampOracle

/-! ## The machine -/

structure SeqState where
  seqr : PublishSequencer
  /-- last timestamp issued -/
  oracle : Ts
  /-- slots whose guard has not been used -/
  guards : List ℕ
  /-- all slots ever registered, newest first -/
  registered : List (ℕ × Ts)
  readied : List ℕ
  aborted : List ℕ
  /-- all publications, newest first -/
  published : List (ℕ × Ts)
  /-- a publish closure has returned an error -/
  failed : Bool
deriving DecidableEq

inductive SeqAct where
  | register (wall : UInt64)
  | markReady (seq : ℕ) (publish : Bool)
  | markAborted (seq : ℕ)
  | dropGuard (seq : ℕ)
  | wake
  | poison
deriving DecidableEq

namespace SeqState

/-- the engine has just been opened -/
def opened (frontier oracle : Ts) (nextSeq : ℕ) : SeqState :=
  ⟨PublishSequencer.newInner frontier nextSeq, oracle, [], [], [], [], [], false⟩

/-- take over what a window loop left -/
def absorb (s : SeqState) (r : Advance) : SeqState :=
  { s with seqr := r.seqr, published := r.published, failed := s.failed || r.result matches .error .publishFailed }

def register (s : SeqState) (wall : UInt64) : SeqState :=
  match s.seqr.registerWithOracle s.oracle wall with
  | (.ok (seq, ts), seqr, oracle) =>
    { s with seqr, oracle, guards := seq :: s.guards, registered := (seq, ts) :: s.registered }
  | (.error _, seqr, oracle) => { s with seqr, oracle }

def markReady (s : SeqState) (seq : ℕ) (publish : Bool) : SeqState :=
  { s.absorb (s.seqr.markReady seq publish s.published) with
    guards := s.guards.erase seq
    readied := if s.seqr.poisoned then s.readied else seq :: s.readied }

def markAborted (s : SeqState) (seq : ℕ) : SeqState :=
  { s.absorb (s.seqr.markAborted seq s.published) with
    guards := s.guards.erase seq
    aborted := if s.seqr.poisoned then s.aborted else seq :: s.aborted }

/-- a guard is used at most once -/
def step (s : SeqState) : SeqAct → Option SeqState
  | .register wall => some (s.register wall)
  | .markReady seq publish => if seq ∈ s.guards then some (s.markReady seq publish) else none
  | .markAborted seq | .dropGuard seq => if seq ∈ s.guards then some (s.markAborted seq) else none
  | .wake => some (s.absorb (s.seqr.advanceWindowLocked s.published))
  | .poison => some { s with seqr := s.seqr.poison }

end SeqState

/-! ## The invariant -/

open SeqState

/-- the invariant, without what it says about a window at rest -/
structure SeqInv (s : SeqState) : Prop where
  window : s.seqr.lastPublished < s.seqr.nextSeq
  fits : s.seqr.nextSeq < 2 ^ 64
  -- registered slots: dense above the window, timestamps and numbers grow together
  dense : ∀ q, s.seqr.lastPublished < q → q < s.seqr.nextSeq → ∃ t, (q, t) ∈ s.registered
  order : s.registered.Pairwise fun newer older => older.1 < newer.1 ∧ older.2 < newer.2
  issued : ∀ p ∈ s.registered, p.1 < s.seqr.nextSeq ∧ p.2 ≤ s.oracle
  -- the frontier
  frontier : s.seqr.publishedFrontier ≤ s.oracle
  ahead : ∀ p ∈ s.registered, s.seqr.lastPublished < p.1 → s.seqr.publishedFrontier < p.2
  -- where every registered slot is
  slots : ∀ q slot, s.seqr.pending.get? q = some slot → s.seqr.lastPublished < q ∧ (q, slot.commitTs) ∈ s.registered
  resident : ∀ p ∈ s.registered, s.seqr.lastPublished < p.1 → (∃ st, s.seqr.pending.get? p.1 = some ⟨p.2, st⟩) ∨
    (s.failed = true ∧ p.1 = s.seqr.lastPublished + 1 ∧ p.1 ∈ s.readied)
  stuck : s.failed = true → s.seqr.pending.get? (s.seqr.lastPublished + 1) = none ∧
    s.seqr.lastPublished + 1 < s.seqr.nextSeq
  done : ∀ p ∈ s.registered, p.1 ≤ s.seqr.lastPublished → p ∈ s.published ∨ p.1 ∈ s.aborted
  -- what the state of a slot says about its past
  fresh : ∀ q t, s.seqr.pending.get? q = some ⟨t, .pending⟩ → q ∉ s.readied ∧ q ∉ s.aborted
  ready : ∀ q t b, s.seqr.pending.get? q = some ⟨t, .ready b⟩ → q ∈ s.readied
  skipped : ∀ q t, s.seqr.pending.get? q = some ⟨t, .aborted⟩ → q ∈ s.aborted
  exclusive : ∀ q ∈ s.readied, q ∉ s.aborted
  marked : ∀ q, q ∈ s.readied ∨ q ∈ s.aborted → ∃ t, (q, t) ∈ s.registered
  held : ∀ q ∈ s.guards, ∃ t, s.seqr.pending.get? q = some ⟨t, .pending⟩
  once : s.guards.Nodup
  -- publications
  published : ∀ p ∈ s.published, p ∈ s.registered ∧ p.1 ≤ s.seqr.lastPublished ∧ p.1 ∈ s.readied
  sorted : s.published.Pairwise fun newer older => older.1 < newer.1
  reached : ∀ p ∈ s.published, p.2 ≤ s.seqr.publishedFrontier

/-- the window has moved as far as it can, unless the engine is poisoned or a closure has failed -/
def AtRest (s : SeqState) : Prop :=
  s.seqr.poisoned = false → s.failed = false →
    ∀ slot, s.seqr.pending.get? (s.seqr.lastPublished + 1) = some slot → slot.state = .pending

theorem seqInv_opened {frontier oracle : Ts} {nextSeq : ℕ} (h1 : 1 ≤ nextSeq) (h2 : nextSeq < 2 ^ 64)
    (h3 : frontier ≤ oracle) : SeqInv (opened frontier oracle nextSeq) ∧ AtRest (opened frontier oracle nextSeq) := by
  constructor
  · constructor <;> simp [opened, newInner, h3]
    · omega
    · exact h2
    · omega
  · intro _ _ slot h
    simp [opened, newInner] at h

namespace SeqInv

variable {s : SeqState}

theorem next_eq (h : SeqInv s) : s.seqr.next = s.seqr.lastPublished + 1 := by
  have h1 := h.window
  have h2 := h.fits
  unfold PublishSequencer.next
  omega

/-- of two registered slots the one with the smaller number has the smaller timestamp -/
theorem compare (h : SeqInv s) {p r : ℕ × Ts} (hp : p ∈ s.registered) (hr : r ∈ s.registered) :
    p = r ∨ (p.1 < r.1 ∧ p.2 < r.2) ∨ (r.1 < p.1 ∧ r.2 < p.2) := by
  by_cases heq : p = r
  · exact .inl heq
  have hp' : s.registered.Pairwise fun p r => (p.1 < r.1 ∧ p.2 < r.2) ∨ (r.1 < p.1 ∧ r.2 < p.2) := h.order.imp .inr
  have : Std.Symm fun p r : ℕ × Ts => (p.1 < r.1 ∧ p.2 < r.2) ∨ (r.1 < p.1 ∧ r.2 < p.2) := ⟨fun _ _ => Or.symm⟩
  exact .inr (hp'.forall hp hr heq)

variable {k q : ℕ} {slot : PublishSlot} {ts : Ts} {st : PublishSlotState}

section

variable (h : SeqInv s)

include h

theorem unique {t u : Ts} (ht : (q, t) ∈ s.registered) (hu : (q, u) ∈ s.registered) : t = u := by
  rcases h.compare ht hu with heq | ⟨hlt, -⟩ | ⟨hlt, -⟩
  · exact (Prod.mk.inj heq).2
  · exact absurd hlt (lt_irrefl q)
  · exact absurd hlt (lt_irrefl q)

/-! ## Steps of the window -/

/-- taking the next slot out of the window and moving on -/
theorem moved (hk : k = s.seqr.next) (hq : (s.seqr.pending.erase k).get? q = some slot) :
    k < q ∧ s.seqr.pending.get? q = some slot := by
  rw [get?_erase] at hq
  split_ifs at hq with hne
  have := (h.slots q slot hq).1
  rw [h.next_eq] at hk
  exact ⟨by omega, hq⟩

theorem resident_moved (hk : k = s.seqr.next) {p : ℕ × Ts} (hp : p ∈ s.registered) (hkp : k < p.1) :
    ∃ st, (s.seqr.pending.erase k).get? p.1 = some ⟨p.2, st⟩ := by
  have hk' : k = s.seqr.lastPublished + 1 := hk.trans h.next_eq
  rcases h.resident p hp (by omega) with ⟨st, hst⟩ | ⟨-, hlost, -⟩
  · exact ⟨st, by rw [get?_erase, if_neg (ne_of_gt hkp), hst]⟩
  · omega

theorem held_moved (hget : s.seqr.pending.get? k = some slot) (hs : slot.state ≠ .pending) (hq : q ∈ s.guards) :
    ∃ t, (s.seqr.pending.erase k).get? q = some ⟨t, .pending⟩ := by
  obtain ⟨t, ht⟩ := h.held q hq
  have hne : q ≠ k := fun he => hs (by rw [he, hget] at ht; cases ht; rfl)
  exact ⟨t, by rw [get?_erase, if_neg hne, ht]⟩

theorem publish (hget : s.seqr.pending.get? k = some ⟨ts, .ready true⟩)
    (hk : k = s.seqr.next) : SeqInv { s with seqr := s.seqr.publish k ts, published := (k, ts) :: s.published } := by
  obtain ⟨hlt, hreg⟩ := h.slots k _ hget
  have hk' : k = s.seqr.lastPublished + 1 := hk.trans h.next_eq
  refine { h with
    window := (h.issued _ hreg).1
    dense := fun q hq => h.dense q (hlt.trans hq)
    frontier := (h.issued _ hreg).2
    ahead := fun p hp hkp => ?_
    slots := fun q slot hq => ⟨(h.moved hk hq).1, (h.slots q slot (h.moved hk hq).2).2⟩
    resident := fun p hp hkp => .inl (h.resident_moved hk hp hkp)
    stuck := fun hf => absurd ((h.stuck hf).1.symm.trans (hk' ▸ hget)) (by simp)
    done := fun p hp hpk => ?_
    fresh := fun q t hq => h.fresh q t (h.moved hk hq).2
    ready := fun q t b hq => h.ready q t b (h.moved hk hq).2
    skipped := fun q t hq => h.skipped q t (h.moved hk hq).2
    held := fun q hq => h.held_moved hget (by simp) hq
    published := fun p hp => ?_
    sorted := pairwise_cons.2 ⟨fun p hp => lt_of_le_of_lt (h.published p hp).2.1 hlt, h.sorted⟩
    reached := fun p hp => ?_ }
  · -- a later slot has a later timestamp
    rcases h.compare hp hreg with rfl | ⟨h1, -⟩ | ⟨-, h2⟩
    · exact absurd hkp (lt_irrefl _)
    · exact absurd (h1.trans hkp) (lt_irrefl _)
    · exact h2
  · by_cases hpk' : p.1 = k
    · have : p = (k, ts) := Prod.ext hpk' (h.unique (hpk' ▸ hp : (k, p.2) ∈ s.registered) hreg)
      exact .inl (this ▸ mem_cons_self)
    · have hpk : p.1 ≤ k := hpk
      exact (h.done p hp (by omega)).imp_left (mem_cons_of_mem _)
  · rcases mem_cons.1 hp with rfl | hp
    · exact ⟨hreg, le_rfl, h.ready k ts true hget⟩
    · obtain ⟨h1, h2, h3⟩ := h.published p hp
      exact ⟨h1, h2.trans hlt.le, h3⟩
  · rcases mem_cons.1 hp with rfl | hp
    · exact le_rfl
    · exact (h.reached p hp).trans (h.ahead _ hreg hlt).le

theorem skip (hget : s.seqr.pending.get? k = some ⟨ts, .aborted⟩) (hk : k = s.seqr.next) :
    SeqInv { s with seqr := s.seqr.skip k } := by
  obtain ⟨hlt, hreg⟩ := h.slots k _ hget
  have hk' : k = s.seqr.lastPublished + 1 := hk.trans h.next_eq
  refine { h with
    window := (h.issued _ hreg).1
    dense := fun q hq => h.dense q (hlt.trans hq)
    ahead := fun p hp hkp => h.ahead p hp (hlt.trans hkp)
    slots := fun q slot hq => ⟨(h.moved hk hq).1, (h.slots q slot (h.moved hk hq).2).2⟩
    resident := fun p hp hkp => .inl (h.resident_moved hk hp hkp)
    stuck := fun hf => absurd ((h.stuck hf).1.symm.trans (hk' ▸ hget)) (by simp)
    done := fun p hp hpk => ?_
    fresh := fun q t hq => h.fresh q t (h.moved hk hq).2
    ready := fun q t b hq => h.ready q t b (h.moved hk hq).2
    skipped := fun q t hq => h.skipped q t (h.moved hk hq).2
    held := fun q hq => h.held_moved hget (by simp) hq
    published := fun p hp => ⟨(h.published p hp).1, (h.published p hp).2.1.trans hlt.le, (h.published p hp).2.2⟩ }
  by_cases hpk' : p.1 = k
  · exact .inr (hpk' ▸ h.skipped k ts hget)
  · have hpk : p.1 ≤ k := hpk
    exact h.done p hp (by omega)

/-- the failing slot is taken out, and the window stays -/
theorem fail {ts : Ts} (hget : s.seqr.pending.get? s.seqr.next = some ⟨ts, .ready false⟩) :
    SeqInv { s with seqr := { s.seqr with pending := s.seqr.pending.erase s.seqr.next }, failed := true } := by
  have hnext := (h.issued _ (h.slots _ _ hget).2).1
  refine { h with
    slots := fun q slot hq => h.slots q slot (h.moved rfl hq).2
    resident := fun p hp hkp => ?_
    stuck := fun _ => ⟨by rw [get?_erase, if_pos h.next_eq.symm], h.next_eq ▸ hnext⟩
    fresh := fun q t hq => h.fresh q t (h.moved rfl hq).2
    ready := fun q t b hq => h.ready q t b (h.moved rfl hq).2
    skipped := fun q t hq => h.skipped q t (h.moved rfl hq).2
    held := fun q hq => h.held_moved hget (by simp) hq }
  by_cases hpk : p.1 = s.seqr.next
  · exact .inr ⟨rfl, hpk.trans h.next_eq, h.ready p.1 ts false (hpk ▸ hget)⟩
  · have hkp : s.seqr.lastPublished < p.1 := hkp
    exact .inl (h.resident_moved rfl hp (by have := h.next_eq; omega))

/-- **The window loop** keeps the invariant, and ends at rest unless the engine is poisoned. -/
theorem advance : SeqInv (s.absorb (s.seqr.advanceWindowLocked s.published)) ∧
      AtRest (s.absorb (s.seqr.advanceWindowLocked s.published)) := by
  have hrule := advance_rule (P := fun g out => SeqInv { s with seqr := g, published := out })
    (fun g out k ts hI hget hk => SeqInv.publish hI hget hk) (fun g out k ts hI hget hk => SeqInv.skip hI hget hk)
    s.seqr s.published h
  generalize s.seqr.advanceWindowLocked s.published = r at hrule
  rcases hrule with ⟨hpoison, rfl⟩ | ⟨hok, hI, hhalt⟩ | ⟨herr, g, ts, hI, hget, hr⟩
  · refine ⟨by simpa [absorb] using h, fun hp => ?_⟩
    have hp : s.seqr.poisoned = false := hp
    rw [hpoison] at hp; cases hp
  · have hs : s.absorb r = { s with seqr := r.seqr, published := r.published } := by simp [absorb, hok]
    rw [hs]
    refine ⟨hI, fun _ _ slot hslot => ?_⟩
    -- no slot is below the window, so the next one is the first
    have hfirst := head?_of_le hslot fun q v hq => (hI.slots q v hq).1
    exact hhalt _ hfirst hI.next_eq.symm
  · have hs : s.absorb r = { s with seqr := r.seqr, published := r.published, failed := true } := by
      simp [absorb, herr]
    rw [hs, hr]
    exact ⟨SeqInv.fail hI hget, fun _ hf => by cases hf⟩

end

/-! ## Steps of the writers -/

theorem get?_setState (g : PublishSequencer) (q j : ℕ) (st : PublishSlotState) :
    (g.setState q st).pending.get? j = if j = q then (g.pending.get? j).map fun slot => { slot with state := st }
      else g.pending.get? j :=
  get?_modify _ _ _ _

/-- a slot of the window after one slot has been marked -/
theorem marked_cases {g : PublishSequencer} {j : ℕ} (h : (g.setState q st).pending.get? j = some slot) :
    (j = q ∧ slot.state = st ∧ ∃ st', g.pending.get? q = some ⟨slot.commitTs, st'⟩) ∨
      (j ≠ q ∧ g.pending.get? j = some slot) := by
  rw [get?_setState] at h
  split_ifs at h with hj
  · obtain ⟨old, hold, rfl⟩ := Option.map_eq_some_iff.1 h
    exact .inl ⟨hj, rfl, old.state, hj ▸ hold⟩
  · exact .inr ⟨hj, h⟩

/-- a held guard marks its slot Ready or Aborted -/
theorem mark (h : SeqInv s) (hq : q ∈ s.guards) {R A : List ℕ}
    (hcase : (∃ b, st = .ready b ∧ R = q :: s.readied ∧ A = s.aborted) ∨
      (st = .aborted ∧ R = s.readied ∧ A = q :: s.aborted)) :
    SeqInv { s with seqr := s.seqr.setState q st, guards := s.guards.erase q, readied := R, aborted := A } := by
  obtain ⟨t, ht⟩ := h.held q hq
  obtain ⟨hwin, hreg⟩ := h.slots q _ ht
  obtain ⟨hnr, hna⟩ := h.fresh q t ht
  have hR : ∀ j ∈ s.readied, j ∈ R := by
    rcases hcase with ⟨b, -, rfl, -⟩ | ⟨-, rfl, -⟩
    · exact fun j => mem_cons_of_mem q
    · exact fun j hj => hj
  have hA : ∀ j ∈ s.aborted, j ∈ A := by
    rcases hcase with ⟨b, -, -, rfl⟩ | ⟨-, -, rfl⟩
    · exact fun j hj => hj
    · exact fun j => mem_cons_of_mem q
  have hother : ∀ j, j ≠ q → (j ∈ R ↔ j ∈ s.readied) ∧ (j ∈ A ↔ j ∈ s.aborted) := by
    intro j hj
    rcases hcase with ⟨b, -, rfl, rfl⟩ | ⟨-, rfl, rfl⟩ <;> simp [hj]
  refine { h with
    slots := fun j slot hj => ?_
    resident := fun p hp hkp => ?_
    stuck :=
      fun hf =>
        ⟨(get?_setState ..).trans
          (by split_ifs <;> first | exact congrArg (Option.map _) (h.stuck hf).1 | exact (h.stuck hf).1),
          (h.stuck hf).2⟩
    done := fun p hp hpk => (h.done p hp hpk).imp_right (hA p.1)
    fresh := fun j t hj => ?_
    ready := fun j t b hj => ?_
    skipped := fun j t hj => ?_
    exclusive := fun j hjR hjA => ?_
    marked := fun j hj => ?_
    held := fun j hj => ?_
    once := h.once.erase q
    published := fun p hp => ⟨(h.published p hp).1, (h.published p hp).2.1, hR _ (h.published p hp).2.2⟩ }
  · rcases marked_cases hj with ⟨rfl, -, st', hold⟩ | ⟨-, hold⟩
    · exact h.slots j ⟨slot.commitTs, st'⟩ hold
    · exact h.slots j slot hold
  · rcases h.resident p hp hkp with ⟨st', hst⟩ | ⟨hf, hlost, hr⟩
    · by_cases hpq : p.1 = q
      · exact .inl ⟨st, by rw [get?_setState, if_pos hpq, hst]; rfl⟩
      · exact .inl ⟨st', by rw [get?_setState, if_neg hpq, hst]⟩
    · exact .inr ⟨hf, hlost, hR _ hr⟩
  · rcases marked_cases hj with ⟨-, hst, -⟩ | ⟨hne, hold⟩
    · rcases hcase with ⟨b, rfl, -⟩ | ⟨rfl, -⟩ <;> cases hst
    · rw [(hother j hne).1, (hother j hne).2]
      exact h.fresh j t hold
  · rcases marked_cases hj with ⟨rfl, hst, -⟩ | ⟨-, hold⟩
    · rcases hcase with ⟨b, -, rfl, -⟩ | ⟨rfl, -⟩
      · exact mem_cons_self
      · cases hst
    · exact hR j (h.ready j t b hold)
  · rcases marked_cases hj with ⟨rfl, hst, -⟩ | ⟨-, hold⟩
    · rcases hcase with ⟨b, rfl, -⟩ | ⟨-, -, rfl⟩
      · cases hst
      · exact mem_cons_self
    · exact hA j (h.skipped j t hold)
  · by_cases hjq : j = q
    · subst hjq
      rcases hcase with ⟨b, -, -, rfl⟩ | ⟨-, rfl, -⟩
      · exact hna hjA
      · exact hnr hjR
    · exact h.exclusive j ((hother j hjq).1.1 hjR) ((hother j hjq).2.1 hjA)
  · by_cases hjq : j = q
    · exact ⟨t, hjq ▸ hreg⟩
    · rw [(hother j hjq).1, (hother j hjq).2] at hj
      exact h.marked j hj
  · have hne : j ≠ q := fun he => h.once.not_mem_erase (he ▸ hj)
    obtain ⟨t', ht'⟩ := h.held j (mem_of_mem_erase hj)
    exact ⟨t', by rw [get?_setState, if_neg hne, ht']⟩

/-- a guard used after the engine has been poisoned -/
theorem unguard (h : SeqInv s) (q : ℕ) : SeqInv { s with guards := s.guards.erase q } :=
  { h with held := fun j hj => h.held j (mem_of_mem_erase hj), once := h.once.erase q }

/-- a new slot, above everything -/
theorem newSlot (h : SeqInv s) (hts : s.oracle < ts) (hfits : s.seqr.nextSeq + 1 < 2 ^ 64) : SeqInv { s with
      seqr := { s.seqr with
        nextSeq := s.seqr.nextSeq + 1, pending := s.seqr.pending.insert s.seqr.nextSeq ⟨ts, .pending⟩ }
      oracle := ts
      guards := s.seqr.nextSeq :: s.guards
      registered := (s.seqr.nextSeq, ts) :: s.registered } := by
  have hold : ∀ {j slot}, s.seqr.pending.get? j = some slot → j < s.seqr.nextSeq := fun hj =>
    (h.issued _ (h.slots _ _ hj).2).1
  have hget : ∀ {j slot}, (s.seqr.pending.insert s.seqr.nextSeq ⟨ts, .pending⟩).get? j = some slot →
      (j = s.seqr.nextSeq ∧ slot = ⟨ts, .pending⟩) ∨ s.seqr.pending.get? j = some slot := by
    intro j slot hj
    rw [get?_insert] at hj
    split_ifs at hj with hn
    · exact .inl ⟨hn, (Option.some.inj hj).symm⟩
    · exact .inr hj
  have hkeep : ∀ {j slot}, s.seqr.pending.get? j = some slot →
      (s.seqr.pending.insert s.seqr.nextSeq ⟨ts, .pending⟩).get? j = some slot := fun hj => by
    rw [get?_insert, if_neg (hold hj).ne, hj]
  refine { h with
    window := h.window.trans (lt_succ_self _)
    fits := hfits
    dense := fun q hq hlt => ?_
    order := pairwise_cons.2 ⟨fun p hp => ⟨(h.issued p hp).1, lt_of_le_of_lt (h.issued p hp).2 hts⟩, h.order⟩
    issued := fun p hp => ?_
    frontier := h.frontier.trans hts.le
    ahead := fun p hp hkp => ?_
    slots := fun j slot hj => ?_
    resident := fun p hp hkp => ?_
    stuck :=
      fun hf => ⟨by rw [get?_insert, if_neg (h.stuck hf).2.ne, (h.stuck hf).1], (h.stuck hf).2.trans (lt_succ_self _)⟩
    done := fun p hp hpk => ?_
    fresh := fun j t hj => ?_
    ready := fun j t b hj => ?_
    skipped := fun j t hj => ?_
    marked := fun j hj => (h.marked j hj).imp fun _ => mem_cons_of_mem _
    held := fun j hj => ?_
    once := nodup_cons.2 ⟨fun hm => ?_, h.once⟩
    published := fun p hp => ⟨List.mem_cons_of_mem _ (h.published p hp).1, (h.published p hp).2⟩ }
  · rcases Nat.lt_succ_iff_lt_or_eq.1 hlt with hlt | rfl
    · obtain ⟨t, ht⟩ := h.dense q hq hlt
      exact ⟨t, mem_cons_of_mem _ ht⟩
    · exact ⟨ts, mem_cons_self⟩
  · rcases mem_cons.1 hp with rfl | hp
    · exact ⟨lt_succ_self _, le_rfl⟩
    · exact ⟨(h.issued p hp).1.trans (lt_succ_self _), (h.issued p hp).2.trans hts.le⟩
  · rcases mem_cons.1 hp with rfl | hp
    · exact lt_of_le_of_lt h.frontier hts
    · exact h.ahead p hp hkp
  · rcases hget hj with ⟨rfl, rfl⟩ | hj
    · exact ⟨h.window, mem_cons_self⟩
    · exact ⟨(h.slots j slot hj).1, mem_cons_of_mem _ (h.slots j slot hj).2⟩
  · rcases mem_cons.1 hp with rfl | hp
    · exact .inl ⟨.pending, by rw [get?_insert, if_pos rfl]⟩
    · exact (h.resident p hp hkp).imp_left fun ⟨st, hst⟩ => ⟨st, hkeep hst⟩
  · rcases mem_cons.1 hp with rfl | hp
    · exact absurd hpk (not_le.2 h.window)
    · exact h.done p hp hpk
  · rcases hget hj with ⟨rfl, -⟩ | hj
    · have hnew : ¬ ∃ t, (s.seqr.nextSeq, t) ∈ s.registered := fun ⟨t, ht⟩ => (h.issued _ ht).1.false
      exact ⟨fun hr => hnew (h.marked _ (.inl hr)), fun ha => hnew (h.marked _ (.inr ha))⟩
    · exact h.fresh j t hj
  · rcases hget hj with ⟨-, heq⟩ | hj
    · cases heq
    · exact h.ready j t b hj
  · rcases hget hj with ⟨-, heq⟩ | hj
    · cases heq
    · exact h.skipped j t hj
  · rcases mem_cons.1 hj with rfl | hj
    · exact ⟨ts, by rw [get?_insert, if_pos rfl]⟩
    · obtain ⟨t, ht⟩ := h.held j hj
      exact ⟨t, hkeep ht⟩
  · obtain ⟨t, ht⟩ := h.held _ hm
    exact (hold ht).false

end SeqInv

/-! ## Every step, every run -/

namespace SeqState

/-- the outcomes of a registration -/
theorem register_cases (s : SeqState) (wall : UInt64) : s.register wall = s ∨
    (∃ ts, s.oracle < ts ∧ commit wall s.oracle = some ts ∧ s.register wall = { s with oracle := ts }) ∨
    (∃ ts, s.oracle < ts ∧ s.seqr.poisoned = false ∧ s.seqr.nextSeq + 1 < 2 ^ 64 ∧
      commit wall s.oracle = some ts ∧ s.register wall = { s with
        seqr := { s.seqr with
          nextSeq := s.seqr.nextSeq + 1, pending := s.seqr.pending.insert s.seqr.nextSeq ⟨ts, .pending⟩ }
        oracle := ts
        guards := s.seqr.nextSeq :: s.guards
        registered := (s.seqr.nextSeq, ts) :: s.registered }) := by
  unfold register registerWithOracle
  by_cases hp : s.seqr.poisoned = true
  · left; simp [hp]
  · rw [if_neg hp]
    cases hc : commit wall s.oracle with
    | none => left; rfl
    | some ts =>
      right
      have hlt := commit_gt hc
      by_cases hn : s.seqr.nextSeq + 1 < 2 ^ 64
      · right; exact ⟨ts, hlt, by simpa using hp, hn, rfl, by simp only [if_pos hn]⟩
      · left; exact ⟨ts, hlt, rfl, by simp only [if_neg hn]⟩

variable {s : SeqState} {wall : UInt64}

theorem markReady_poisoned (hp : s.seqr.poisoned = true) (q : ℕ) (b : Bool) :
    s.markReady q b = { s with guards := s.guards.erase q } := by
  simp [markReady, absorb, PublishSequencer.markReady, hp]

theorem markAborted_poisoned (hp : s.seqr.poisoned = true) (q : ℕ) :
    s.markAborted q = { s with guards := s.guards.erase q } := by
  simp [markAborted, absorb, PublishSequencer.markAborted, hp]

/-- marking Ready is marking the slot and running the window loop -/
theorem markReady_eq (h : SeqInv s) (hp : s.seqr.poisoned = false) {q : ℕ} (hq : q ∈ s.guards) (b : Bool) :
    s.markReady q b = absorb
      { s with seqr := s.seqr.setState q (.ready b), guards := s.guards.erase q, readied := q :: s.readied }
      ((s.seqr.setState q (.ready b)).advanceWindowLocked s.published) := by
  obtain ⟨t, ht⟩ := h.held q hq
  simp [markReady, absorb, PublishSequencer.markReady, hp, ht]

theorem markAborted_eq (hp : s.seqr.poisoned = false) (q : ℕ) : s.markAborted q = absorb
      { s with seqr := s.seqr.setState q .aborted, guards := s.guards.erase q, aborted := q :: s.aborted }
      ((s.seqr.setState q .aborted).advanceWindowLocked s.published) := by
  simp [markAborted, absorb, PublishSequencer.markAborted, hp]

/-- the window loop does not poison -/
theorem absorb_poisoned (s : SeqState) (g : PublishSequencer) (out : List (ℕ × Ts)) :
    (s.absorb (g.advanceWindowLocked out)).seqr.poisoned = g.poisoned := by
  have hrule :=
    advance_rule (P := fun g' _ => g'.poisoned = g.poisoned) (fun _ _ _ _ hP _ _ => hP)
      (fun _ _ _ _ hP _ _ => hP) g out rfl
  rcases hrule with ⟨-, heq⟩ | ⟨-, heq, -⟩ | ⟨-, g', ts, heq, -, hr⟩
  · rw [absorb, heq]
  · exact heq
  · rw [absorb, hr]
    exact heq

theorem markReady_poison (h : SeqInv s) {q : ℕ} (hq : q ∈ s.guards) (b : Bool) :
    (s.markReady q b).seqr.poisoned = s.seqr.poisoned := by
  cases hp : s.seqr.poisoned with
  | true => rw [markReady_poisoned hp]; exact hp
  | false => rw [markReady_eq h hp hq, absorb_poisoned]; exact hp

theorem markAborted_poison (s : SeqState) (q : ℕ) : (s.markAborted q).seqr.poisoned = s.seqr.poisoned := by
  cases hp : s.seqr.poisoned with
  | true => rw [markAborted_poisoned hp]; exact hp
  | false => rw [markAborted_eq hp, absorb_poisoned]; exact hp

/-- what a registration leaves alone -/
theorem register_frame (s : SeqState) (wall : UInt64) :
    (s.register wall).readied = s.readied ∧ (s.register wall).aborted = s.aborted ∧
      (s.register wall).seqr.poisoned = s.seqr.poisoned ∧
      (s.register wall).seqr.publishedFrontier = s.seqr.publishedFrontier := by
  rcases s.register_cases wall with heq | ⟨ts, -, -, heq⟩ | ⟨ts, -, -, -, -, heq⟩
  · rw [heq]; exact ⟨rfl, rfl, rfl, rfl⟩
  · rw [heq]; exact ⟨rfl, rfl, rfl, rfl⟩
  · rw [heq]; exact ⟨rfl, rfl, rfl, rfl⟩

theorem register_sane (hw : wall < UInt64.ofNat (2 ^ 64 - 1))
    (hs : TimestampOracle.Sane s.oracle) : TimestampOracle.Sane (s.register wall).oracle := by
  rcases s.register_cases wall with heq | ⟨ts, -, hc, heq⟩ | ⟨ts, -, -, -, hc, heq⟩
  · rw [heq]; exact hs
  · rw [heq]; exact commit_sane hw hs hc
  · rw [heq]; exact commit_sane hw hs hc

end SeqState

variable {s : SeqState}

theorem seqInv_markReady (h : SeqInv s) {q : ℕ} (hq : q ∈ s.guards) (b : Bool) :
    SeqInv (s.markReady q b) ∧ AtRest (s.markReady q b) := by
  cases hp : s.seqr.poisoned with
  | true =>
    rw [markReady_poisoned hp]
    exact ⟨h.unguard q, fun hp' => by simp [hp] at hp'⟩
  | false =>
    rw [markReady_eq h hp hq]
    exact (h.mark hq (.inl ⟨b, rfl, rfl, rfl⟩)).advance

theorem seqInv_markAborted (h : SeqInv s) {q : ℕ} (hq : q ∈ s.guards) :
    SeqInv (s.markAborted q) ∧ AtRest (s.markAborted q) := by
  cases hp : s.seqr.poisoned with
  | true =>
    rw [markAborted_poisoned hp]
    exact ⟨h.unguard q, fun hp' => by simp [hp] at hp'⟩
  | false =>
    rw [markAborted_eq hp]
    exact (h.mark hq (.inr ⟨rfl, rfl, rfl⟩)).advance

theorem seqInv_register (h : SeqInv s) (hrest : AtRest s) (wall : UInt64) :
    SeqInv (s.register wall) ∧ AtRest (s.register wall) := by
  rcases s.register_cases wall with heq | ⟨ts, hts, -, heq⟩ | ⟨ts, hts, -, hfits, -, heq⟩
  · rw [heq]; exact ⟨h, hrest⟩
  · rw [heq]
    exact ⟨{ h with
      issued := fun p hp => ⟨(h.issued p hp).1, (h.issued p hp).2.trans hts.le⟩
      frontier := h.frontier.trans hts.le }, hrest⟩
  · rw [heq]
    refine ⟨h.newSlot hts hfits, fun hp hf slot hslot => ?_⟩
    simp only [get?_insert] at hslot
    split_ifs at hslot
    · cases hslot; rfl
    · exact hrest hp hf slot hslot

theorem seqInv_step (s : SeqState) (a : SeqAct) (s' : SeqState) (h : SeqInv s ∧ AtRest s)
    (hs : s.step a = some s') : SeqInv s' ∧ AtRest s' := by
  cases a with
  | register wall => cases hs; exact seqInv_register h.1 h.2 wall
  | markReady q b =>
    simp only [step] at hs
    split_ifs at hs with hq
    cases hs; exact seqInv_markReady h.1 hq b
  | markAborted q | dropGuard q =>
    simp only [step] at hs
    split_ifs at hs with hq
    cases hs; exact seqInv_markAborted h.1 hq
  | wake => cases hs; exact h.1.advance
  | poison => cases hs; exact ⟨{ h.1 with }, fun hp => by simp [poison] at hp⟩

theorem seqInv_run {s' : SeqState} {l : List SeqAct} (h : SeqInv s ∧ AtRest s) (hr : run step s l = some s') :
    SeqInv s' ∧ AtRest s' :=
  run_invariant_all (I := fun s => SeqInv s ∧ AtRest s) seqInv_step h hr

end Mqlite.Publish
