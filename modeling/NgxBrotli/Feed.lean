import Mathlib

/-!
# Machines that read a queue

A step reads some of the queue and gives some output; it is `none` where the machine waits for input
or has stopped.  A step that a machine can take stays the same when more input arrives behind the
queue, so what the machine gives does not depend on when its input arrives.
-/

namespace Feed

variable {κ ι ο : Type*}

structure Machine (κ ι ο : Type*) where
  /-- the state after a step, the queue that it leaves, its output -/
  step : κ → List ι → Option (κ × List ι × List ο)
  step_append {k k' : κ} {q q' : List ι} {out : List ο} (h : step k q = some (k', q', out))
    (r : List ι) : step k (q ++ r) = some (k', q' ++ r, out)

namespace Machine

/-- Some steps: the state and the queue after them, and all of their output. -/
inductive Steps (m : Machine κ ι ο) : κ → List ι → κ → List ι → List ο → Prop
  | refl (k : κ) (q : List ι) : Steps m k q k q []
  | head {k k₁ k₂ : κ} {q q₁ q₂ : List ι} {out₁ out₂ : List ο}
      (hstep : m.step k q = some (k₁, q₁, out₁)) (h : Steps m k₁ q₁ k₂ q₂ out₂) :
      Steps m k q k₂ q₂ (out₁ ++ out₂)

/-- No input makes the machine go on. -/
def Stopped (m : Machine κ ι ο) (k : κ) : Prop := ∀ q, m.step k q = none

variable {m : Machine κ ι ο} {k k₁ k₂ : κ} {q q' q₁ q₂ : List ι} {out₁ out₂ : List ο}

theorem Steps.trans (h₁ : m.Steps k q k₁ q₁ out₁) (h₂ : m.Steps k₁ q₁ k₂ q₂ out₂) :
    m.Steps k q k₂ q₂ (out₁ ++ out₂) := by
  induction h₁ with
  | refl => exact h₂
  | head hstep _ ih =>
    rw [List.append_assoc]
    exact .head hstep (ih h₂)

theorem Steps.tail (h : m.Steps k q k₁ q₁ out₁) (hstep : m.step k₁ q₁ = some (k₂, q₂, out₂)) :
    m.Steps k q k₂ q₂ (out₁ ++ out₂) := by
  have hlast : m.Steps k₁ q₁ k₂ q₂ (out₂ ++ []) := .head hstep (.refl k₂ q₂)
  rw [List.append_nil] at hlast
  exact h.trans hlast

/-- Input that arrives behind the queue. -/
theorem Steps.append (h : m.Steps k q k₁ q₁ out₁) (r : List ι) :
    m.Steps k (q ++ r) k₁ (q₁ ++ r) out₁ := by
  induction h with
  | refl => exact .refl _ _
  | head hstep _ ih => exact .head (m.step_append hstep r) ih

theorem Steps.comparable (h₁ : m.Steps k q k₁ q₁ out₁) (h₂ : m.Steps k q k₂ q₂ out₂) :
    (∃ out, m.Steps k₁ q₁ k₂ q₂ out ∧ out₂ = out₁ ++ out) ∨
      ∃ out, m.Steps k₂ q₂ k₁ q₁ out ∧ out₁ = out₂ ++ out := by
  induction h₁ generalizing out₂ with
  | refl => exact .inl ⟨out₂, h₂, rfl⟩
  | @head k k' k₁ q q' q₁ out out₁ hstep h ih =>
    cases h₂ with
    | refl => exact .inr ⟨_, .head hstep h, rfl⟩
    | head hstep' h' =>
      -- the machine takes the same step in both
      obtain ⟨rfl, hrest⟩ := Prod.mk.inj (Option.some.inj (hstep.symm.trans hstep'))
      obtain ⟨rfl, rfl⟩ := Prod.mk.inj hrest
      obtain ⟨o, ho, rfl⟩ | ⟨o, ho, rfl⟩ := ih h'
      · exact .inl ⟨o, ho, (List.append_assoc _ _ _).symm⟩
      · exact .inr ⟨o, ho, (List.append_assoc _ _ _).symm⟩

theorem Steps.align (h₁ : m.Steps k q k₁ q₁ out₁) (h₂ : m.Steps k q' k₂ q₂ out₂)
    (hq : q <+: q' ∨ q' <+: q) :
    ∃ p p₁ p₂, m.Steps k p k₁ p₁ out₁ ∧ m.Steps k p k₂ p₂ out₂ := by
  obtain ⟨r, rfl⟩ | ⟨r, rfl⟩ := hq
  · exact ⟨_, _, _, h₁.append r, h₂⟩
  · exact ⟨_, _, _, h₁, h₂.append r⟩

theorem Steps.prefix_or_prefix (h₁ : m.Steps k q k₁ q₁ out₁) (h₂ : m.Steps k q' k₂ q₂ out₂)
    (hq : q <+: q' ∨ q' <+: q) : out₁ <+: out₂ ∨ out₂ <+: out₁ := by
  obtain ⟨p, p₁, p₂, h₁, h₂⟩ := h₁.align h₂ hq
  obtain ⟨o, -, rfl⟩ | ⟨o, -, rfl⟩ := h₁.comparable h₂
  · exact .inl (List.prefix_append _ _)
  · exact .inr (List.prefix_append _ _)

/-- A machine that stopped has given all that it gives. -/
theorem Steps.prefix_of_stopped (h₁ : m.Steps k q k₁ q₁ out₁) (h₂ : m.Steps k q' k₂ q₂ out₂)
    (hq : q <+: q' ∨ q' <+: q) (hstop : m.Stopped k₂) : out₁ <+: out₂ := by
  obtain ⟨p, p₁, p₂, h₁, h₂⟩ := h₁.align h₂ hq
  obtain ⟨o, -, rfl⟩ | ⟨o, ho, rfl⟩ := h₁.comparable h₂
  · exact List.prefix_append _ _
  · cases ho with
    | refl => rw [List.append_nil]
    | head hstep =>
      rw [hstop] at hstep
      cases hstep

end Machine

end Feed
