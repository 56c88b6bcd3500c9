import Mathlib

/-!
# Settings that may be overwritten

A left fold in which each element may overwrite the accumulator leaves the last answer given.  Among
nested scopes that is the setting of the innermost one that has one.
-/

namespace LastWins

variable {α β : Type*}

/-- The last answer `f` gives along `l`. -/
def lastOf (f : α → Option β) (l : List α) : Option β := (l.filterMap f).getLast?

@[simp] theorem lastOf_nil (f : α → Option β) : lastOf f [] = none := rfl

theorem lastOf_append (f : α → Option β) (a b : List α) :
    lastOf f (a ++ b) = (lastOf f b).or (lastOf f a) := by
  rw [lastOf, List.filterMap_append, List.getLast?_append]
  rfl

theorem lastOf_cons (f : α → Option β) (x : α) (l : List α) :
    lastOf f (x :: l) = (lastOf f l).or (f x) := by
  rw [← List.singleton_append, lastOf_append]
  congr 1
  cases h : f x <;> simp [lastOf, h]

theorem lastOf_map {γ : Type*} (f : β → Option γ) (g : α → β) (l : List α) :
    lastOf f (l.map g) = lastOf (fun x => f (g x)) l := by
  rw [lastOf, List.filterMap_map]
  rfl

theorem lastOf_filterMap {γ : Type*} (f : β → Option γ) (g : α → Option β) (l : List α) :
    lastOf f (l.filterMap g) = lastOf (fun x => (g x).bind f) l := by
  rw [lastOf, List.filterMap_filterMap]
  rfl

theorem lastOf_congr {f g : α → Option β} {l : List α} (h : ∀ x ∈ l, f x = g x) :
    lastOf f l = lastOf g l := by
  rw [lastOf, lastOf, List.filterMap_congr h]

theorem lastOf_eq_some_imp {f : α → Option β} {l : List α} {b : β} (h : lastOf f l = some b) :
    ∃ x ∈ l, f x = some b :=
  List.mem_filterMap.mp (List.mem_of_getLast? h)

end LastWins

namespace Scopes
open LastWins

section

variable {κ α : Type*} [DecidableEq α]

/-- The value of a scope merged with that of the scope around it. -/
def merge (unset default outer inner : α) : α :=
  if inner = unset then (if outer = unset then default else outer) else inner

def setting (unset : α) (f : κ → α) (scope : κ) : Option α :=
  if f scope = unset then none else some (f scope)

theorem setting_eq_some_iff {unset v : α} {f : κ → α} {scope : κ} :
    setting unset f scope = some v ↔ f scope = v ∧ v ≠ unset := by
  rw [setting]
  split
  case isTrue h => exact ⟨nofun, fun ⟨hv, hne⟩ => absurd (hv.symm.trans h) hne⟩
  case isFalse h =>
    rw [Option.some.injEq]
    exact ⟨fun hv => ⟨hv, hv ▸ h⟩, And.left⟩

/-- The innermost setting of nested scopes, or else the default. -/
def inherited (unset default : α) (f : κ → α) (scopes : List κ) : α :=
  (lastOf (setting unset f) scopes).getD default

theorem inherited_cases (unset default : α) (f : κ → α) (scopes : List κ) :
    inherited unset default f scopes = default ∨
      ∃ scope, f scope = inherited unset default f scopes ∧ f scope ≠ unset := by
  rw [inherited]
  cases h : lastOf (setting unset f) scopes with
  | none => exact .inl rfl
  | some v =>
    obtain ⟨scope, -, hv⟩ := lastOf_eq_some_imp h
    obtain ⟨rfl, hne⟩ := setting_eq_some_iff.mp hv
    exact .inr ⟨scope, rfl, hne⟩

theorem merge_inherited {unset default : α} (f : κ → α) (scopes : List κ) (scope : κ) :
    merge unset default (inherited unset default f scopes) (f scope) =
      inherited unset default f (scopes ++ [scope]) := by
  rw [merge, inherited, inherited, lastOf_append, lastOf_cons, lastOf_nil, Option.none_or]
  by_cases hset : f scope = unset
  · have hnone : setting unset f scope = none := if_pos hset
    rw [if_pos hset, hnone, Option.none_or]
    -- what is inherited is unset only as a default
    cases h : lastOf (setting unset f) scopes with
    | none => exact ite_self _ |>.trans rfl
    | some v =>
      obtain ⟨m, -, hv⟩ := lastOf_eq_some_imp h
      exact if_neg (setting_eq_some_iff.mp hv).2
  · have hsome : setting unset f scope = some (f scope) := if_neg hset
    rw [if_neg hset, hsome]
    rfl

/-- Scopes merged from the outside in; the outermost one is not merged itself. -/
theorem foldl_merge {unset default : α} (f : κ → α) (outermost : κ) {path : List κ}
    (hpath : path ≠ []) :
    path.foldl (fun prev scope => merge unset default prev (f scope)) (f outermost) =
      inherited unset default f (outermost :: path) := by
  induction path using List.reverseRecOn with
  | nil => exact absurd rfl hpath
  | append_singleton ls l ih =>
    rw [List.foldl_append, List.foldl_cons, List.foldl_nil, ← List.cons_append,
      ← merge_inherited]
    cases ls with
    | nil =>
      rw [List.foldl_nil, inherited, lastOf_cons, lastOf_nil, Option.none_or, merge, merge]
      by_cases houtermost : f outermost = unset
      · have hnone : setting unset f outermost = none := if_pos houtermost
        simp [hnone, houtermost]
      · have hsome : setting unset f outermost = some (f outermost) := if_neg houtermost
        simp [hsome, houtermost]
    | cons m ms => rw [ih (List.cons_ne_nil m ms)]

end

/-- What the lines read so far left in the scopes, and whether one of them was a latching one. -/
structure Blocks (κ α : Type) where
  latched : Bool
  confs : κ → α

/-- The line of a scope is the second of the pair. -/
def linesOf {κ β : Type} [DecidableEq κ] (scope : κ) (ls : List (κ × β)) : List β :=
  (ls.filter fun l => l.1 = scope).map Prod.snd

section

variable {κ α β ε : Type} [DecidableEq κ] (set : α → β → Except ε α) (latches : β → Bool)

def Blocks.line (s : Blocks κ α) (l : κ × β) : Except ε (Blocks κ α) := do
  let conf ← set (s.confs l.1) l.2
  pure ⟨s.latched || latches l.2, Function.update s.confs l.1 conf⟩

/-- All lines, over scopes that are fresh. -/
def readLines (fresh : α) (ls : List (κ × β)) : Except ε (Blocks κ α) :=
  ls.foldlM (Blocks.line set latches) ⟨false, fun _ => fresh⟩

variable {set latches}

theorem bind_eq_ok_iff {γ δ : Type} {x : Except ε γ} {f : γ → Except ε δ} {b : δ} :
    x >>= f = .ok b ↔ ∃ a, x = .ok a ∧ f a = .ok b := by
  cases x with
  | error e => exact iff_of_false nofun fun ⟨_, h, _⟩ => nomatch h
  | ok a => exact ⟨fun h => ⟨a, rfl, h⟩, fun ⟨_, rfl, h⟩ => h⟩

/-- The invariant rule of a fold that may fail. -/
theorem foldlM_invariant {γ δ : Type} {f : γ → δ → Except ε γ} {P : γ → Prop} {l : List δ} {a b : γ}
    (hstep : ∀ a b x, x ∈ l → P a → f a x = .ok b → P b) (ha : P a) (h : l.foldlM f a = .ok b) :
    P b := by
  induction l generalizing a with
  | nil => exact Except.ok.inj h ▸ ha
  | cons x l ih =>
    rw [List.foldlM_cons] at h
    obtain ⟨c, hc, h⟩ := bind_eq_ok_iff.mp h
    exact ih (fun a b y hy => hstep a b y (List.mem_cons_of_mem x hy))
      (hstep a c x List.mem_cons_self ha hc) h

theorem foldlM_line {s₀ s : Blocks κ α} {ls : List (κ × β)}
    (h : ls.foldlM (Blocks.line set latches) s₀ = .ok s) :
    s.latched = (s₀.latched || ls.any fun l => latches l.2) ∧
      ∀ scope, (linesOf scope ls).foldlM set (s₀.confs scope) = .ok (s.confs scope) := by
  induction ls generalizing s₀ with
  | nil =>
    cases h
    exact ⟨(Bool.or_false _).symm, fun _ => rfl⟩
  | cons l ls ih =>
    rw [List.foldlM_cons] at h
    obtain ⟨s₁, hl, h⟩ := bind_eq_ok_iff.mp h
    obtain ⟨conf, hset, hl⟩ := bind_eq_ok_iff.mp hl
    cases hl
    obtain ⟨hlatch, hconfs⟩ := ih h
    refine ⟨by rw [hlatch, List.any_cons, Bool.or_assoc], fun scope => ?_⟩
    rw [← hconfs scope]
    by_cases hscope : l.1 = scope
    · subst hscope
      simp [linesOf, hset, bind, Except.bind]
    · simp [linesOf, hscope, Function.update_of_ne (Ne.symm hscope)]

/-- A scope is left by its own lines, in their order; the latch is left by all of them. -/
theorem readLines_scope {fresh : α} {ls : List (κ × β)} {s : Blocks κ α}
    (h : readLines set latches fresh ls = .ok s) :
    s.latched = ls.any (fun l => latches l.2) ∧
      ∀ scope, (linesOf scope ls).foldlM set fresh = .ok (s.confs scope) := by
  obtain ⟨hlatch, hconfs⟩ := foldlM_line h
  exact ⟨by rw [hlatch, Bool.false_or], hconfs⟩

/-- What every line that does not latch preserves holds of all scopes while the latch is clear. -/
theorem readLines_unlatched {P : α → Prop} {fresh : α} {ls : List (κ × β)} {s : Blocks κ α}
    (h : readLines set latches fresh ls = .ok s) (hlatch : s.latched = false) (hfresh : P fresh)
    (hstep : ∀ conf conf' line, latches line = false → P conf → set conf line = .ok conf' → P conf')
    (scope : κ) : P (s.confs scope) := by
  obtain ⟨hall, hconfs⟩ := readLines_scope h
  rw [hlatch] at hall
  refine foldlM_invariant (fun conf conf' line hline => hstep conf conf' line ?_) hfresh
    (hconfs scope)
  obtain ⟨l, hl, rfl⟩ := List.mem_map.mp hline
  simpa using List.any_eq_false.mp hall.symm l (List.mem_of_mem_filter hl)

end

end Scopes
