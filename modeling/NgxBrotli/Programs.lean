import Mathlib

/-!
# Computations that note what they do, and programs with calls to an environment

A logged computation is a value with what was noted on the way to it.  A program is a tree: a
result, or a call and what follows each answer; an environment answers from a state of its own.
-/

universe u

structure Logged (ε α : Type u) where
  val : α
  log : List ε

namespace Logged

variable {ε α β : Type u}

instance : Monad (Logged ε) where
  pure a := ⟨a, []⟩
  bind x f := ⟨(f x.val).val, x.log ++ (f x.val).log⟩

def note (e : ε) : Logged ε PUnit := ⟨⟨⟩, [e]⟩

@[simp] theorem val_pure (a : α) : (pure a : Logged ε α).val = a := rfl

@[simp] theorem val_bind (x : Logged ε α) (f : α → Logged ε β) :
    (x >>= f).val = (f x.val).val := rfl

@[simp] theorem val_ite (c : Prop) [Decidable c] (x y : Logged ε α) :
    (if c then x else y).val = if c then x.val else y.val := apply_ite val c x y

/-- Every entry of the log satisfies `P`. -/
def Notes (P : ε → Prop) (x : Logged ε α) : Prop := ∀ e ∈ x.log, P e

variable {P : ε → Prop}

@[simp] theorem notes_pure (a : α) : Notes P (pure a : Logged ε α) := nofun

@[simp] theorem notes_note {e : ε} : Notes P (note e) ↔ P e := List.forall_mem_singleton

/-- The rule of sequence. -/
@[simp] theorem notes_bind {x : Logged ε α} {f : α → Logged ε β} :
    Notes P (x >>= f) ↔ Notes P x ∧ Notes P (f x.val) := List.forall_mem_append

end Logged

/-- A program whose calls `i : ι` are answered by an `ο i`. -/
inductive Prog (ι : Type) (ο : ι → Type) (α : Type)
  | ret (a : α)
  | call (i : ι) (k : ο i → Prog ι ο α)

namespace Prog

variable {ι : Type} {ο : ι → Type} {ω α β : Type}

protected def bind : Prog ι ο α → (α → Prog ι ο β) → Prog ι ο β
  | ret a, f => f a
  | call i k, f => call i fun o => (k o).bind f

instance : Monad (Prog ι ο) where
  pure := ret
  bind := Prog.bind

instance : LawfulMonad (Prog ι ο) := LawfulMonad.mk' _
  (fun p => by
    induction p with
    | ret a => rfl
    | call i k ih => exact congrArg (call i) (funext ih))
  (fun _ _ => rfl)
  (fun p f g => by
    induction p with
    | ret a => rfl
    | call i k ih => exact congrArg (call i) (funext ih))

def ask (i : ι) : Prog ι ο (ο i) := call i ret

section

variable (env : ω → (i : ι) → ο i × ω)

/-- The result in an environment, and its state then. -/
def exec : Prog ι ο α → ω → α × ω
  | ret a, s => (a, s)
  | call i k, s => exec (k (env s i).1) (env s i).2

/-- From `s` every call is made where it is safe, and the result satisfies `Q`. -/
def Wp (safe : ω → ι → Prop) (Q : α → ω → Prop) : Prog ι ο α → ω → Prop
  | ret a, s => Q a s
  | call i k, s => safe s i ∧ Wp safe Q (k (env s i).1) (env s i).2

@[simp] theorem exec_pure (a : α) (s : ω) : exec env (pure a : Prog ι ο α) s = (a, s) := rfl

@[simp] theorem exec_ask (i : ι) (s : ω) : exec env (ask i : Prog ι ο (ο i)) s = env s i := rfl

@[simp] theorem exec_bind (p : Prog ι ο α) (f : α → Prog ι ο β) (s : ω) :
    exec env (p >>= f) s = exec env (f (exec env p s).1) (exec env p s).2 := by
  induction p generalizing s with
  | ret a => rfl
  | call i k ih => exact ih _ _

@[simp] theorem exec_map (f : α → β) (p : Prog ι ο α) (s : ω) :
    exec env (f <$> p) s = (f (exec env p s).1, (exec env p s).2) := by
  rw [← bind_pure_comp, exec_bind, exec_pure]

variable {env} {safe : ω → ι → Prop} {Q R : α → ω → Prop}

@[simp] theorem wp_pure {a : α} {s : ω} : Wp env safe Q (pure a) s ↔ Q a s := Iff.rfl

@[simp] theorem wp_ask {i : ι} {Q : ο i → ω → Prop} {s : ω} :
    Wp env safe Q (ask i) s ↔ safe s i ∧ Q (env s i).1 (env s i).2 := Iff.rfl

/-- The rule of sequence. -/
@[simp] theorem wp_bind {p : Prog ι ο α} {f : α → Prog ι ο β} {Q : β → ω → Prop} {s : ω} :
    Wp env safe Q (p >>= f) s ↔ Wp env safe (fun a t => Wp env safe Q (f a) t) p s := by
  induction p generalizing s with
  | ret a => exact Iff.rfl
  | call i k ih => exact and_congr_right fun _ => ih _

/-- The rule of consequence. -/
theorem Wp.mono (hQR : ∀ a t, Q a t → R a t) {p : Prog ι ο α} {s : ω} (h : Wp env safe Q p s) :
    Wp env safe R p s := by
  induction p generalizing s with
  | ret a => exact hQR a s h
  | call i k ih => exact ⟨h.1, ih _ h.2⟩

/-- Environments that answer the safe calls alike run such a program alike. -/
theorem Wp.exec_congr {env' : ω → (i : ι) → ο i × ω} (henv : ∀ s i, safe s i → env' s i = env s i)
    {p : Prog ι ο α} {s : ω} (h : Wp env safe Q p s) : exec env' p s = exec env p s := by
  induction p generalizing s with
  | ret a => rfl
  | call i k ih =>
    rw [exec, exec, henv s i h.1]
    exact ih _ h.2

theorem Wp.result {p : Prog ι ο α} {s : ω} (h : Wp env safe Q p s) :
    Q (exec env p s).1 (exec env p s).2 := by
  induction p generalizing s with
  | ret a => exact h
  | call i k ih => exact ih _ h.2

end

abbrev History (ι : Type) (ο : ι → Type) := List (Σ i, ο i)

/-- The environment whose state is what was called so far. -/
def recorded (answer : History ι ο → (i : ι) → ο i) (h : History ι ο) (i : ι) :
    ο i × History ι ο := (answer h i, h ++ [⟨i, answer h i⟩])

section

variable {answer : History ι ο → (i : ι) → ο i} {safe : History ι ο → ι → Prop}
  {Q : α → History ι ο → Prop} {p : Prog ι ο α} {h pre post : History ι ο} {e : Σ i, ο i}

theorem prefix_exec (p : Prog ι ο α) (h : History ι ο) : h <+: (exec (recorded answer) p h).2 := by
  induction p generalizing h with
  | ret a => exact List.prefix_refl h
  | call i k ih => exact (List.prefix_append h _).trans (ih _ _)

theorem Wp.event (hp : Wp (recorded answer) safe Q p h)
    (htrace : (exec (recorded answer) p h).2 = pre ++ e :: post) (hpre : h.length ≤ pre.length) :
    safe pre e.1 ∧ e = ⟨e.1, answer pre e.1⟩ := by
  induction p generalizing h with
  | ret a =>
    have hlen : h.length = (pre ++ e :: post).length := congrArg List.length htrace
    rw [List.length_append, List.length_cons] at hlen
    omega
  | call i k ih =>
    obtain ⟨hsafe, hrest⟩ := hp
    rw [exec] at htrace
    obtain hlt | heq := Nat.lt_or_eq_of_le hpre
    · exact ih _ hrest htrace (by simpa [recorded] using hlt)
    · -- it is the first call
      have hgrow : (recorded answer h i).2 <+: (exec (recorded answer) (k (recorded answer h i).1)
          (recorded answer h i).2).2 := prefix_exec _ _
      rw [htrace] at hgrow
      have hsplit : h ++ [⟨i, answer h i⟩] <+: pre ++ [e] ++ post := by
        rw [List.append_assoc]
        exact hgrow
      have hfirst : h ++ [⟨i, answer h i⟩] = pre ++ [e] := by
        apply (List.prefix_of_prefix_length_le hsplit (List.prefix_append _ _) _).eq_of_length
        · simp [heq]
        · simp [heq]
      obtain ⟨rfl, he⟩ := List.append_inj hfirst heq
      rw [← List.singleton_inj.mp he]
      exact ⟨hsafe, rfl⟩

def after (env : ω → (i : ι) → ο i × ω) (s : ω) (h : History ι ο) : ω :=
  h.foldl (fun s e => (env s e.1).2) s

def replay (env : ω → (i : ι) → ο i × ω) (s : ω) (h : History ι ο) (i : ι) : ο i :=
  (env (after env s h) i).1

theorem exec_replay (env : ω → (i : ι) → ο i × ω) (s : ω) (p : Prog ι ο α) (h : History ι ο) :
    (exec (recorded (replay env s)) p h).1 = (exec env p (after env s h)).1 := by
  induction p generalizing h with
  | ret a => rfl
  | call i k ih =>
    have hafter : after env s (h ++ [⟨i, replay env s h i⟩]) = (env (after env s h) i).2 := by
      rw [after, List.foldl_append]
      rfl
    rw [exec, exec, ih, recorded, hafter]
    rfl

theorem Wp.calls (hp : Wp (recorded answer) safe Q p h)
    (htrace : (exec (recorded answer) p h).2 = pre ++ e :: post) (hpre : h.length ≤ pre.length) :
    safe pre e.1 := (hp.event htrace hpre).1

end

end Prog
