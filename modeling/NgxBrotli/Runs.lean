import Mathlib

/-!
# Runs of a labelled system

`step i s` is the state after the step labelled `i`, or `none` where it is not enabled in `s`.  A
condition on the steps restricts the runs to those all of whose steps meet it.
-/

namespace Runs

variable {ι σ : Type*} {step : ι → σ → Option σ} {P Q : ι → σ → Prop} {init s s' : σ}

/-- The states that runs reach from `init` by steps that meet `P`. -/
inductive Reach (step : ι → σ → Option σ) (P : ι → σ → Prop) (init : σ) : σ → Prop
  | init : Reach step P init init
  | step {s s' : σ} {i : ι} : Reach step P init s → P i s → step i s = some s' →
      Reach step P init s'

/-- No condition on the steps. -/
abbrev Reachable (step : ι → σ → Option σ) (init : σ) : σ → Prop :=
  Reach step (fun _ _ => True) init

theorem Reach.mono (hPQ : ∀ i s, P i s → Q i s) (h : Reach step P init s) :
    Reach step Q init s := by
  induction h with
  | init => exact .init
  | step _ hp hs ih => exact .step ih (hPQ _ _ hp) hs

theorem Reach.reachable (h : Reach step P init s) : Reachable step init s :=
  h.mono fun _ _ _ => trivial

theorem Reach.trans (h : Reach step P init s) (h' : Reach step P s s') : Reach step P init s' := by
  induction h' with
  | init => exact h
  | step _ hp hs ih => exact .step ih hp hs

/-- The invariant rule; the step may use that the state before it is reached. -/
theorem Reach.invariant {I : σ → Prop} (h0 : I init)
    (hstep : ∀ i s s', Reach step P init s → P i s → I s → step i s = some s' → I s')
    (h : Reach step P init s) : I s := by
  induction h with
  | init => exact h0
  | step hr hp hs ih => exact hstep _ _ _ hr hp ih hs

/-- The state after a list of labels. -/
def run (step : ι → σ → Option σ) : List ι → σ → Option σ
  | [], s => some s
  | i :: is, s => (step i s).bind (run step is)

theorem Reachable.run {is : List ι} (h : Reachable step init s)
    (hrun : run step is s = some s') : Reachable step init s' := by
  induction is generalizing s with
  | nil => exact Option.some.inj hrun ▸ h
  | cons i is ih =>
    obtain ⟨t, ht, hrun⟩ := Option.bind_eq_some_iff.mp hrun
    exact ih (.step h trivial ht) hrun

def guarded (P : ι → σ → Prop) [∀ i s, Decidable (P i s)] (step : ι → σ → Option σ)
    (i : ι) (s : σ) : Option σ := if P i s then step i s else none

/-- The run rule for runs all of whose steps meet a condition. -/
theorem Reach.run_guarded [∀ i s, Decidable (P i s)] {is : List ι} (h : Reach step P init s)
    (hrun : run (guarded P step) is s = some s') : Reach step P init s' := by
  induction is generalizing s with
  | nil => exact Option.some.inj hrun ▸ h
  | cons i is ih =>
    obtain ⟨t, ht, hrun⟩ := Option.bind_eq_some_iff.mp hrun
    rw [guarded, Option.ite_none_right_eq_some] at ht
    exact ih (.step h ht.1 ht.2) hrun

/-- A run is also one of another system that takes the same steps to where `J` holds, if `J` holds
of its end and cannot be lost on the way back. -/
theorem run_transfer {step' : ι → σ → Option σ} {J : σ → Prop} {is : List ι}
    (hback : ∀ i s t, Reachable step init s → step i s = some t → J t → J s)
    (hsame : ∀ i s t, Reachable step init s → step i s = some t → J t → step' i s = some t)
    (h : Reachable step init s) (hrun : run step is s = some s') (hJ : J s') :
    run step' is s = some s' ∧ J s := by
  induction is generalizing s with
  | nil => exact ⟨hrun, Option.some.inj hrun ▸ hJ⟩
  | cons i is ih =>
    obtain ⟨t, ht, hrun⟩ := Option.bind_eq_some_iff.mp hrun
    obtain ⟨hrest, hJt⟩ := ih (.step h trivial ht) hrun
    refine ⟨?_, hback i s t h ht hJt⟩
    rw [Runs.run, hsame i s t h ht hJt]
    exact hrest

end Runs
