import NgxBrotli.Runs

/-!
# Runs that come to a stop

A system whose active states go down along a well-founded relation leaves them after finitely many
steps, whatever the labels.  Such relations are built from simpler ones: in rounds, where a step of
one kind is followed by steps of another, and on optional values.
-/

namespace Halting
open Runs Relation

variable {ι σ α : Type*}

/-- The stopping rule: an active state that keeps `I` has a step, which keeps `I`, and goes down as
long as the state stays active. -/
theorem exists_stop {step : ι → σ → Option σ} {I : σ → Prop} {below : σ → σ → Prop}
    (hwf : WellFounded below) (active : σ → Prop) (labels : ℕ → ι)
    (hstep : ∀ k s, I s → active s → ∃ s', step (labels k) s = some s' ∧ I s' ∧
      (active s' → below s' s)) {s : σ} (hs : I s) :
    ∃ n s', run step ((List.range n).map labels) s = some s' ∧ I s' ∧ ¬active s' := by
  -- the labels are shifted by each step, so they are generalized with the state
  induction s using hwf.induction generalizing labels with
  | _ s ih =>
    by_cases hactive : active s
    · obtain ⟨s', hs', hI, hbelow⟩ := hstep 0 s hs hactive
      by_cases hactive' : active s'
      · obtain ⟨n, t, hrun, ht⟩ := ih s' (hbelow hactive') (fun k => labels (k + 1))
          (fun k => hstep (k + 1)) hI
        refine ⟨n + 1, t, ?_, ht⟩
        rw [List.range_succ_eq_map, List.map_cons, List.map_map, run, hs']
        exact hrun
      · refine ⟨1, s', ?_, hI, hactive'⟩
        rw [List.range_one, List.map_singleton, run, hs']
        rfl
    · exact ⟨0, s, rfl, hs, hactive⟩

variable {fine coarse : α → α → Prop}

/-- Fine and coarse steps come to an end, if the fine ones do, and the coarse ones do with any fine
ones after each. -/
theorem wellFounded_rounds (hfine : WellFounded fun t s => fine s t)
    (hround : WellFounded fun t s => ∃ u, coarse s u ∧ ReflTransGen fine u t) :
    WellFounded fun t s => fine s t ∨ coarse s t := by
  have hcoarse (s : α) : ∀ u, coarse s u → Acc (fun t s => fine s t ∨ coarse s t) u := by
    induction s using hround.induction with
    | _ s ih =>
      intro u hu
      -- every state of the fine steps after the coarse one
      have hall (t : α) : ReflTransGen fine u t → Acc (fun t s => fine s t ∨ coarse s t) t := by
        induction t using hfine.induction with
        | _ t iht =>
          intro ht
          refine Acc.intro t fun v hv => ?_
          obtain hv | hv := hv
          · exact iht v hv (ht.tail hv)
          · exact ih t ⟨u, hu, ht⟩ v hv
      exact hall u .refl
  refine ⟨fun s => ?_⟩
  induction s using hfine.induction with
  | _ s ih =>
    refine Acc.intro s fun t ht => ?_
    obtain ht | ht := ht
    · exact ih t ht
    · exact hcoarse s t ht

def Lift (r : α → α → Prop) (a b : Option α) : Prop := ∃ t s, a = some t ∧ b = some s ∧ r t s

theorem wellFounded_lift {r : α → α → Prop} (hr : WellFounded r) : WellFounded (Lift r) := by
  have hsome (s : α) : Acc (Lift r) (some s) := by
    induction s using hr.induction with
    | _ s ih =>
      refine Acc.intro _ ?_
      rintro _ ⟨t, s', rfl, hs, ht⟩
      obtain rfl := Option.some.inj hs
      exact ih t ht
  refine ⟨fun a => ?_⟩
  cases a with
  | some s => exact hsome s
  | none =>
    refine Acc.intro _ ?_
    rintro _ ⟨t, s, -, hs, -⟩
    cases hs

end Halting
