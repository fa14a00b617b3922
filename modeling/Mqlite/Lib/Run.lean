/-
Labelled step systems with a partial step function, and the rules by which a property of one step becomes a property
of every run. Nothing here knows what the states are.

A system is a function `step : σ → α → Option σ`: in state s the action a is either refused (`none`) or leads to one
state. `run` performs a list of actions and is refused as soon as one of them is.

`Along C` says that every step of a run is taken under a condition C on the state BEFORE the step and the action. It is
how a result says "in every run whose steps all meet C".

Rules:
- `run_invariant`: what holds at the start and is kept by every step taken under C holds at the end;
- `run_relates`: a reflexive and transitive relation that every step respects relates the two ends of a run;
- `run_simulates`: a second run that performs only the steps of the first one that take effect (`effective`), when a
  relation between the two states is kept.
-/
import Mathlib.Tactic

namespace Mqlite.Lib

open List

variable {σ α : Type}

/-- perform the actions one after the other; `none` as soon as one of them is refused -/
def run (step : σ → α → Option σ) : σ → List α → Option σ
  | s, [] => some s
  | s, a :: l => (step s a).bind fun t => run step t l

/-- every action of the list is taken in a state where C holds of it -/
def Along (step : σ → α → Option σ) (C : σ → α → Prop) : σ → List α → Prop
  | _, [] => True
  | s, a :: l => C s a ∧ ∀ t ∈ step s a, Along step C t l

variable {step : σ → α → Option σ} {C D : σ → α → Prop}

@[simp] theorem run_nil (s : σ) : run step s [] = some s := rfl

theorem run_cons (s : σ) (a : α) (l : List α) : run step s (a :: l) = (step s a).bind fun t => run step t l := rfl

variable {s t : σ} {l : List α} {Q : α → Prop} {I : σ → Prop}

/-- inversion of a run that starts with a: the first step is taken, and the rest runs from there -/
theorem run_cons_some {u : σ} {a : α} (h : run step s (a :: l) = some u) :
    ∃ t, step s a = some t ∧ run step t l = some u :=
  Option.bind_eq_some_iff.1 h

theorem run_append (s : σ) (l m : List α) : run step s (l ++ m) = (run step s l).bind fun t => run step t m := by
  induction l generalizing s with
  | nil => rfl
  | cons a l ih =>
    rw [cons_append, run_cons, run_cons, Option.bind_assoc]
    exact congrArg _ (funext ih)

theorem Along.cons {a : α} (hc : C s a) (h : step s a = some t) (hl : Along step C t l) : Along step C s (a :: l) := by
  refine ⟨hc, fun u hu => ?_⟩
  rw [h] at hu
  cases hu
  exact hl

theorem along_true (s : σ) (l : List α) : Along step (fun _ _ => True) s l := by
  induction l generalizing s with
  | nil => trivial
  | cons a l ih => exact ⟨trivial, fun t _ => ih t⟩

/-- a condition on the actions alone can be added to the condition of a run -/
theorem Along.and_mem (hl : Along step C s l) (hQ : ∀ a ∈ l, Q a) : Along step (fun s a => C s a ∧ Q a) s l := by
  induction l generalizing s with
  | nil => trivial
  | cons a l ih =>
    exact ⟨⟨hl.1, hQ a mem_cons_self⟩, fun t ht => ih (hl.2 t ht) fun b hb => hQ b (mem_cons_of_mem _ hb)⟩

theorem Along.append {m : List α} (hl : Along step C s l) (hr : run step s l = some t)
    (hm : Along step C t m) : Along step C s (l ++ m) := by
  induction l generalizing s with
  | nil => cases hr; exact hm
  | cons a l ih =>
    obtain ⟨u, hu, hr⟩ := run_cons_some hr
    refine ⟨hl.1, fun v hv => ?_⟩
    rw [hu] at hv; cases hv
    exact ih (hl.2 u hu) hr

/-- **Invariant rule.** What holds at the start of a run and is kept by every step taken under C holds at its end. -/
theorem run_invariant (hstep : ∀ s a t, I s → C s a → step s a = some t → I t)
    (h0 : I s) (hl : Along step C s l) (hr : run step s l = some t) : I t := by
  induction l generalizing s with
  | nil => cases hr; exact h0
  | cons a l ih =>
    obtain ⟨u, hu, hr⟩ := run_cons_some hr
    exact ih (hstep s a u h0 hl.1 hu) (hl.2 u hu) hr

/-- the invariant rule for steps that need no condition -/
theorem run_invariant_all (hstep : ∀ s a t, I s → step s a = some t → I t) (h0 : I s) (hr : run step s l = some t) :
    I t :=
  run_invariant (fun s a t h _ => hstep s a t h) h0 (along_true s l) hr

/-- the invariant rule for actions of one kind -/
theorem run_invariant_on (hstep : ∀ s a t, I s → Q a → step s a = some t → I t)
    (h0 : I s) (hl : ∀ a ∈ l, Q a) (hr : run step s l = some t) : I t :=
  run_invariant (fun s a t h hc => hstep s a t h hc.2) h0 ((along_true s l).and_mem hl) hr

/-- **Relation rule.** A reflexive, transitive relation respected by every step from an invariant state relates the two
ends of a run. -/
theorem run_relates {R : σ → σ → Prop} (hrefl : ∀ s, R s s) (htrans : ∀ s t u, R s t → R t u → R s u)
    (hstep : ∀ s a t, I s → C s a → step s a = some t → I t ∧ R s t)
    (h0 : I s) (hl : Along step C s l) (hr : run step s l = some t) : R s t := by
  induction l generalizing s with
  | nil => cases hr; exact hrefl _
  | cons a l ih =>
    obtain ⟨u, hu, hr⟩ := run_cons_some hr
    obtain ⟨hI, hR⟩ := hstep s a u h0 hl.1 hu
    exact htrans s u t hR (ih hI (hl.2 u hu) hr)

/-- the actions of a run that take effect, `skip s a` being those that do not -/
def effective (step : σ → α → Option σ) (skip : σ → α → Bool) : σ → List α → List α
  | _, [] => []
  | s, a :: l =>
    match step s a with
    | none => []
    | some t => if skip s a then effective step skip t l else a :: effective step skip t l

/-- **Simulation rule.** If a skipped step keeps the relation, and a step that takes effect can be taken on the other
side too (where it is not skipped) and keeps it, then the other side performs the effective steps of the whole run. -/
theorem run_simulates {skip : σ → α → Bool} {R : σ → σ → Prop}
    (hskip : ∀ s u a t, R s u → Q a → step s a = some t → skip s a = true → R t u)
    (hstep : ∀ s u a t, R s u → Q a → step s a = some t → skip s a = false →
      skip u a = false ∧ ∃ v, step u a = some v ∧ R t v) {u :
      σ} (hR : R s u) (hQ : ∀ a ∈ l, Q a) (hr : run step s l = some t) :
    Along step (fun v a => skip v a = false) u (effective step skip s l) ∧
      ∃ v, run step u (effective step skip s l) = some v ∧ R t v := by
  induction l generalizing s u with
  | nil => cases hr; exact ⟨trivial, u, rfl, hR⟩
  | cons a l ih =>
    obtain ⟨s', hs, hr⟩ := run_cons_some hr
    have hQl : ∀ b ∈ l, Q b := fun b hb => hQ b (mem_cons_of_mem _ hb)
    have hQa := hQ a mem_cons_self
    simp only [effective, hs]
    cases hk : skip s a with
    | true => exact ih (hskip s u a s' hR hQa hs hk) hQl hr
    | false =>
      obtain ⟨hku, u', hu, hR'⟩ := hstep s u a s' hR hQa hs hk
      obtain ⟨hal, v, hv, hRv⟩ := ih hR' hQl hr
      refine ⟨⟨hku, fun w hw => ?_⟩, v, ?_, hRv⟩
      · rw [hu] at hw; cases hw; exact hal
      · rw [if_neg Bool.false_ne_true, run_cons, hu]; exact hv

/-- the condition can be checked by running -/
instance decidableAlong [∀ s a, Decidable (C s a)] : ∀ (s : σ) (l : List α), Decidable (Along step C s l)
  | _, [] => .isTrue trivial
  | s, a :: l =>
    match h : step s a with
    | none =>
      decidable_of_iff (C s a) ⟨fun hc => ⟨hc, fun t ht => by rw [h] at ht; exact absurd ht (by simp)⟩, And.left⟩
    | some t =>
      have := decidableAlong t l
      decidable_of_iff (C s a ∧ Along step C t l)
        ⟨fun hc => ⟨hc.1, fun u hu => by rw [h] at hu; cases hu; exact hc.2⟩, fun hc => ⟨hc.1, hc.2 t h⟩⟩

end Mqlite.Lib
