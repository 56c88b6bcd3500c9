import NgxBrotli.Programs

/-!
# Scans of memory

A scan reads cells by their address and moves cursors; what it touches is noted, and its loops run
on fuel.  `Wp` is total: the scan ends, touches only what is safe, and its result satisfies a
condition.  `Piece` ties a stretch of memory inside a window to the list of its cells.
-/

inductive Touch
  | read (p : ℕ)
  | move (p : ℕ)
  deriving DecidableEq, Repr

/-- From the cells of memory, a result and what was touched; no result where the fuel ran out. -/
def Scan (β α : Type) : Type := (ℕ → β) → Logged Touch (Option α)

namespace Scan
open Logged

variable {β α γ σ : Type}

instance : Monad (Scan β) where
  pure a := fun _ => pure (some a)
  bind x f := fun m => x m >>= fun a => a.elim (pure none) fun a => f a m

/-- `*p` -/
def read (p : ℕ) : Scan β β := fun m => do
  note (.read p)
  pure (some (m p))

def move (p : ℕ) : Scan β ℕ := fun _ => do
  note (.move p)
  pure (some p)

def stuck : Scan β α := fun _ => pure none

def loop (turn : σ → Scan β (σ ⊕ α)) : ℕ → σ → Scan β α
  | 0, _ => stuck
  | fuel + 1, s => turn s >>= Sum.elim (loop turn fuel) pure

/-- `p < e && f(*p)` -/
def peek (e : ℕ) (f : β → Bool) (p : ℕ) : Scan β Bool :=
  if p < e then f <$> read p else pure false

/-- `while (p < e && f(*p)) { p++; }` -/
def skipWhile (fuel e : ℕ) (f : β → Bool) : ℕ → Scan β ℕ :=
  loop (fun p => do
    if ← peek e f p then return .inl (← move (p + 1))
    else return .inr p) fuel

/-- `while (e > p && f(e[-1])) { e--; }` -/
def trimWhile (fuel p : ℕ) (f : β → Bool) : ℕ → Scan β ℕ :=
  loop (fun e => do
    if p < e then
      if f (← read (e - 1)) then return .inl (← move (e - 1))
      else return .inr e
    else return .inr e) fuel

/-- The scan ends with a result that satisfies `Q`, and what it touched is safe. -/
def Wp (m : ℕ → β) (safe : Touch → Prop) (Q : α → Prop) (x : Scan β α) : Prop :=
  Notes safe (x m) ∧ ∃ a, (x m).val = some a ∧ Q a

section

variable {m : ℕ → β} {safe : Touch → Prop} {Q R : α → Prop}

@[simp] theorem wp_pure {a : α} : Wp m safe Q (pure a) ↔ Q a := by
  constructor
  · rintro ⟨-, b, hb, hQ⟩
    obtain rfl := Option.some.inj hb
    exact hQ
  · intro hQ
    exact ⟨notes_pure _, a, rfl, hQ⟩

@[simp] theorem wp_read {Q : β → Prop} {p : ℕ} :
    Wp m safe Q (read p) ↔ safe (.read p) ∧ Q (m p) := by
  constructor
  · rintro ⟨hsafe, b, hb, hQ⟩
    obtain rfl := Option.some.inj hb
    exact ⟨hsafe _ List.mem_cons_self, hQ⟩
  · rintro ⟨hsafe, hQ⟩
    exact ⟨List.forall_mem_singleton.mpr hsafe, m p, rfl, hQ⟩

@[simp] theorem wp_move {Q : ℕ → Prop} {p : ℕ} :
    Wp m safe Q (move p) ↔ safe (.move p) ∧ Q p := by
  constructor
  · rintro ⟨hsafe, b, hb, hQ⟩
    obtain rfl := Option.some.inj hb
    exact ⟨hsafe _ List.mem_cons_self, hQ⟩
  · rintro ⟨hsafe, hQ⟩
    exact ⟨List.forall_mem_singleton.mpr hsafe, p, rfl, hQ⟩

/-- The rule of sequence. -/
@[simp] theorem wp_bind {Q : γ → Prop} {x : Scan β α} {f : α → Scan β γ} :
    Wp m safe Q (x >>= f) ↔ Wp m safe (fun a => Wp m safe Q (f a)) x := by
  change Notes safe (x m >>= fun a => a.elim (pure none) fun a => f a m) ∧ _ ↔ _
  rw [notes_bind, and_assoc, Wp]
  refine and_congr_right fun _ => ?_
  change _ ∧ (∃ c, (((x m).val.elim (pure none) fun a => f a m).val = some c) ∧ Q c) ↔ _
  cases (x m).val with
  | none => simp
  | some a => simp [Wp]

@[simp] theorem wp_map {Q : γ → Prop} {x : Scan β α} {f : α → γ} :
    Wp m safe Q (f <$> x) ↔ Wp m safe (fun a => Q (f a)) x := by
  change Wp m safe Q (x >>= fun a => pure (f a)) ↔ _
  simp only [wp_bind, wp_pure]

theorem Wp.mono (hQR : ∀ a, Q a → R a) {x : Scan β α} (h : Wp m safe Q x) : Wp m safe R x := by
  obtain ⟨hsafe, a, ha, hQ⟩ := h
  exact ⟨hsafe, a, ha, hQR a hQ⟩

/-- The rule of a loop: a turn that goes on keeps the invariant and lowers the measure. -/
theorem wp_loop {turn : σ → Scan β (σ ⊕ α)} (I : σ → Prop) (rank : σ → ℕ)
    (hturn : ∀ s, I s → Wp m safe (Sum.elim (fun s' => I s' ∧ rank s' < rank s) Q) (turn s))
    {s : σ} (hs : I s) {fuel : ℕ} (hfuel : rank s < fuel) : Wp m safe Q (loop turn fuel s) := by
  induction fuel generalizing s with
  | zero => exact absurd hfuel (Nat.not_lt_zero _)
  | succ fuel ih =>
    rw [loop, wp_bind]
    apply (hturn s hs).mono
    rintro (s' | a) h
    · exact ih h.1 (Nat.lt_of_lt_of_le h.2 (Nat.le_of_lt_succ hfuel))
    · exact wp_pure.mpr h

end

end Scan

/-- Reads are inside the window, and cursors are too or at its end. -/
def Touch.Within (lo hi : ℕ) : Touch → Prop
  | read p => lo ≤ p ∧ p < hi
  | move p => lo ≤ p ∧ p ≤ hi

inductive Span {β : Type} (m : ℕ → β) : ℕ → ℕ → List β → Prop
  | nil (p : ℕ) : Span m p p []
  | cons {p e : ℕ} {l : List β} (h : Span m (p + 1) e l) : Span m p e (m p :: l)

/-- The cells from `p` up to `e` inside a window. -/
structure Piece {β : Type} (m : ℕ → β) (lo hi p e : ℕ) (l : List β) : Prop where
  low : lo ≤ p
  high : e ≤ hi
  span : Span m p e l

section

variable {β : Type} {m : ℕ → β} {lo hi p q e : ℕ} {a b l : List β}

namespace Span

theorem length_eq (h : Span m p e l) : p + l.length = e := by
  induction h with
  | nil p => rfl
  | cons h ih =>
    rw [List.length_cons]
    omega

theorem append (h : Span m p q a) (h' : Span m q e b) : Span m p e (a ++ b) := by
  induction h with
  | nil p => exact h'
  | cons h ih => exact .cons (ih h')

theorem of_append (h : Span m p e (a ++ b)) : ∃ q, Span m p q a ∧ Span m q e b := by
  induction a generalizing p with
  | nil => exact ⟨p, .nil p, h⟩
  | cons c a ih =>
    cases h with
    | cons h =>
      obtain ⟨q, ha, hb⟩ := ih h
      exact ⟨q, .cons ha, hb⟩

theorem range' (m : ℕ → β) (p n : ℕ) : Span m p (p + n) ((List.range' p n).map m) := by
  induction n generalizing p with
  | zero => exact .nil p
  | succ n ih =>
    rw [List.range'_succ, List.map_cons, ← Nat.succ_add_eq_add_succ]
    exact .cons (ih (p + 1))

theorem of_le (m : ℕ → β) (h : p ≤ e) : ∃ l, Span m p e l := by
  obtain ⟨n, rfl⟩ := Nat.exists_eq_add_of_le h
  exact ⟨_, range' m p n⟩

end Span

namespace Piece

theorem length_eq (h : Piece m lo hi p e l) : p + l.length = e := h.span.length_eq

theorem sub_eq (h : Piece m lo hi p e l) : e - p = l.length := by
  rw [← h.length_eq, Nat.add_sub_cancel_left]

theorem cases (h : Piece m lo hi p e l) :
    p = e ∧ l = [] ∨ ∃ t, l = m p :: t ∧ p < e ∧ Piece m lo hi (p + 1) e t := by
  obtain ⟨hlow, hhigh, hspan⟩ := h
  cases hspan with
  | nil => exact .inl ⟨rfl, rfl⟩
  | @cons _ _ t h =>
    have hlen := h.length_eq
    exact .inr ⟨t, rfl, by omega, by omega, hhigh, h⟩

theorem of_cons {c : β} {t : List β} (h : Piece m lo hi p e (c :: t)) :
    c = m p ∧ Piece m lo hi (p + 1) e t := by
  obtain ⟨-, hnil⟩ | ⟨t', heq, -, ht⟩ := h.cases
  · cases hnil
  · obtain ⟨rfl, rfl⟩ := List.cons.inj heq
    exact ⟨rfl, ht⟩

theorem read_within {c : β} {t : List β} (h : Piece m lo hi p e (c :: t)) :
    Touch.Within lo hi (.read p) := by
  have hlen := h.length_eq
  have hhigh := h.high
  rw [List.length_cons] at hlen
  exact ⟨h.low, by omega⟩

theorem move_within (h : Piece m lo hi p e l) : Touch.Within lo hi (.move p) := by
  have hlen := h.length_eq
  have hhigh := h.high
  exact ⟨h.low, by omega⟩

theorem le_of_suffix (h : Piece m lo hi p e l) (h' : Piece m lo hi q e b) (hb : b <:+ l) :
    p ≤ q ∧ q ≤ e := by
  have hlen := h.length_eq
  have hlen' := h'.length_eq
  have hle := hb.length_le
  omega

theorem nil_left (h : Piece m lo hi p e l) : Piece m lo hi p p [] := by
  have hlen := h.length_eq
  have hhigh := h.high
  exact ⟨h.low, by omega, .nil p⟩

theorem before (h : Piece m lo hi p e (a ++ b)) (h' : Piece m lo hi q e b) :
    Piece m lo hi p q a := by
  obtain ⟨r, ha, hb⟩ := h.span.of_append
  have hlen := hb.length_eq
  have hlen' := h'.length_eq
  obtain rfl : r = q := by omega
  exact ⟨h.low, h'.move_within.2, ha⟩

theorem concat (h : Piece m lo hi p q a) (hq : q < hi) : Piece m lo hi p (q + 1) (a ++ [m q]) :=
  ⟨h.low, hq, h.span.append (.cons (.nil (q + 1)))⟩

theorem cases_last (h : Piece m lo hi p e l) :
    p = e ∧ l = [] ∨ ∃ t, l = t ++ [m (e - 1)] ∧ p < e ∧ Piece m lo hi p (e - 1) t := by
  rcases List.eq_nil_or_concat l with rfl | ⟨t, c, rfl⟩
  · exact .inl ⟨h.length_eq, rfl⟩
  · rw [List.concat_eq_append] at *
    have hlen := h.length_eq
    have hhigh := h.high
    rw [List.length_append, List.length_singleton] at hlen
    obtain ⟨q, ht, hc⟩ := h.span.of_append
    cases hc with
    | cons hc =>
      cases hc
      exact .inr ⟨t, rfl, by omega, h.low, by omega, ht⟩

end Piece

namespace Scan

variable {α σ : Type} {Q : α → Prop} {fuel : ℕ}

/-- The rule of a loop with a cursor: a turn that goes on keeps `J` and leaves less of the piece. -/
theorem wp_scan {turn : σ → Scan β (σ ⊕ α)} (cur : σ → ℕ) (J : σ → List β → Prop)
    (hturn : ∀ s l, Piece m lo hi (cur s) e l → J s l →
      Wp m (Touch.Within lo hi) (Sum.elim (fun s' => ∃ l', Piece m lo hi (cur s') e l' ∧ J s' l' ∧
        l'.length < l.length) Q) (turn s))
    {s : σ} (h : Piece m lo hi (cur s) e l) (hJ : J s l) (hfuel : hi - lo < fuel) :
    Wp m (Touch.Within lo hi) Q (loop turn fuel s) := by
  refine wp_loop (fun s => ∃ l, Piece m lo hi (cur s) e l ∧ J s l) (fun s => e - cur s) ?_
    ⟨l, h, hJ⟩ ?_
  · rintro s ⟨l, h, hJ⟩
    apply (hturn s l h hJ).mono
    rintro (s' | a) hs'
    · obtain ⟨l', h', hJ', hlt⟩ := hs'
      have hlen := h.length_eq
      have hlen' := h'.length_eq
      exact ⟨⟨l', h', hJ'⟩, by omega⟩
    · exact hs'
  · have hlow := h.low
    have hhigh := h.high
    omega

theorem wp_peek {Q : Bool → Prop} {f : β → Bool} (h : Piece m lo hi p e l) :
    Wp m (Touch.Within lo hi) Q (peek e f p) ↔ Q (l.head?.any f) := by
  rw [peek]
  obtain ⟨rfl, rfl⟩ | ⟨t, rfl, hlt, -⟩ := h.cases
  · rw [if_neg (Nat.lt_irrefl p), wp_pure]
    rfl
  · rw [if_pos hlt, wp_map, wp_read]
    exact and_iff_right h.read_within

theorem wp_if_peek_nil {f : β → Bool} {x y : Scan β α} (h : Piece m lo hi p e []) :
    Wp m (Touch.Within lo hi) Q (do if ← peek e f p then x else y) ↔
      Wp m (Touch.Within lo hi) Q y := by
  rw [wp_bind, wp_peek h]
  exact iff_of_eq (congrArg _ (if_neg Bool.false_ne_true))

theorem wp_if_peek_pos {f : β → Bool} {x y : Scan β α} {c : β} {t : List β}
    (h : Piece m lo hi p e (c :: t)) (hf : f c = true) :
    Wp m (Touch.Within lo hi) Q (do if ← peek e f p then x else y) ↔
      Wp m (Touch.Within lo hi) Q x := by
  rw [wp_bind, wp_peek h]
  exact iff_of_eq (congrArg _ (if_pos hf))

theorem wp_if_peek_neg {f : β → Bool} {x y : Scan β α} {c : β} {t : List β}
    (h : Piece m lo hi p e (c :: t)) (hf : ¬f c = true) :
    Wp m (Touch.Within lo hi) Q (do if ← peek e f p then x else y) ↔
      Wp m (Touch.Within lo hi) Q y := by
  rw [wp_bind, wp_peek h]
  exact iff_of_eq (congrArg _ (if_neg hf))

theorem wp_skipWhile {f : β → Bool} (h : Piece m lo hi p e l) (hfuel : hi - lo < fuel) :
    Wp m (Touch.Within lo hi) (fun q => Piece m lo hi p q (l.takeWhile f) ∧
      Piece m lo hi q e (l.dropWhile f)) (skipWhile fuel e f p) := by
  -- what was skipped, and what the rest gives, are those of the whole
  refine wp_scan id (fun q b => ∃ a, Piece m lo hi p q a ∧ a ++ b.takeWhile f = l.takeWhile f ∧
    b.dropWhile f = l.dropWhile f) ?_ h ⟨[], h.nil_left, rfl, rfl⟩ hfuel
  rintro q b hb ⟨a, ha, htake, hdrop⟩
  rw [id] at hb
  obtain ⟨rfl, rfl⟩ | ⟨t, rfl, hlt, ht⟩ := hb.cases
  · rw [List.takeWhile_nil, List.append_nil] at htake
    rw [wp_if_peek_nil hb, wp_pure, Sum.elim_inr, ← htake, ← hdrop]
    exact ⟨ha, hb⟩
  · by_cases hf : f (m q) = true
    · have hq : q < hi := Nat.lt_of_lt_of_le hlt hb.high
      rw [List.takeWhile_cons_of_pos hf, List.append_cons] at htake
      rw [List.dropWhile_cons_of_pos hf] at hdrop
      rw [wp_if_peek_pos hb hf, wp_bind, wp_move, wp_pure, Sum.elim_inl]
      exact ⟨ht.move_within, t, ht, ⟨_, ha.concat hq, htake, hdrop⟩, Nat.lt_succ_self _⟩
    · rw [List.takeWhile_cons_of_neg hf, List.append_nil] at htake
      rw [List.dropWhile_cons_of_neg hf] at hdrop
      rw [wp_if_peek_neg hb hf, wp_pure, Sum.elim_inr, ← htake, ← hdrop]
      exact ⟨ha, hb⟩

theorem wp_trimWhile {f : β → Bool} (h : Piece m lo hi p e l) (hfuel : hi - lo < fuel) :
    Wp m (Touch.Within lo hi) (fun q => Piece m lo hi p q (l.rdropWhile f))
      (trimWhile fuel p f e) := by
  refine wp_loop (fun q => ∃ a, Piece m lo hi p q a ∧ a.rdropWhile f = l.rdropWhile f)
    (fun q => q - p) ?_ ⟨l, h, rfl⟩ ?_
  · rintro q ⟨a, ha, hdrop⟩
    obtain ⟨rfl, rfl⟩ | ⟨t, rfl, hlt, ht⟩ := ha.cases_last
    · rw [if_neg (Nat.lt_irrefl p), wp_pure, Sum.elim_inr, ← hdrop]
      exact ha
    · have hhigh := ha.high
      have hlow := ha.low
      have hread : Touch.Within lo hi (.read (q - 1)) := by
        constructor <;> omega
      rw [if_pos hlt, wp_bind, wp_read]
      refine ⟨hread, ?_⟩
      by_cases hf : f (m (q - 1)) = true
      · rw [List.rdropWhile_concat_pos _ _ _ hf] at hdrop
        have hmove : Touch.Within lo hi (.move (q - 1)) := by
          constructor <;> omega
        rw [if_pos hf, wp_bind, wp_move, wp_pure]
        exact ⟨hmove, ⟨t, ht, hdrop⟩, by omega⟩
      · rw [List.rdropWhile_concat_neg _ _ _ hf] at hdrop
        rw [if_neg hf, wp_pure, Sum.elim_inr, ← hdrop]
        exact ha
  · have hlow := h.low
    have hhigh := h.high
    omega

end Scan

end
