import Mathlib

/-!
# Splitting a text at the separators outside its quoted runs

A quoted run opens at a `quote` symbol and closes at the next one; an `escape` inside the run
hides the symbol after it.  A run that never closes extends to the end of the text.  The symbols
are parameters, and a piece is kept together with the text that follows it, so that a parser
started at a piece can be compared with one that reads the whole text.
-/

namespace QuotedSplit

/-- Where a left-to-right scan of the text stands. -/
inductive Mode
  | outside
  | inside
  | escaped
  deriving DecidableEq, Repr

section Scan

variable {α : Type*} [DecidableEq α] (quote escape : α)

/-- One symbol of the scan. -/
def next : Mode → α → Mode
  | .outside, c => if c = quote then .inside else .outside
  | .inside, c => if c = quote then .outside else if c = escape then .escaped else .inside
  | .escaped, _ => .inside

def scan (m : Mode) (l : List α) : Mode := l.foldl (next quote escape) m

@[simp] theorem scan_nil (m : Mode) : scan quote escape m [] = m := rfl

@[simp] theorem scan_cons (m : Mode) (c : α) (l : List α) :
    scan quote escape m (c :: l) = scan quote escape (next quote escape m c) l := rfl

theorem scan_append (m : Mode) (a b : List α) :
    scan quote escape m (a ++ b) = scan quote escape (scan quote escape m a) b :=
  List.foldl_append

def afterRun : Mode → List α → List α
  | _, [] => []
  | m, c :: l =>
    if next quote escape m c = .outside then l else afterRun (next quote escape m c) l

variable {quote escape}

theorem scan_outside_of_no_quote {l : List α} (h : quote ∉ l) :
    scan quote escape .outside l = .outside := by
  induction l with
  | nil => rfl
  | cons c l ih =>
    rw [List.mem_cons, not_or] at h
    have hc : c ≠ quote := fun e => h.1 e.symm
    rw [scan_cons, next, if_neg hc]
    exact ih h.2

theorem scan_inside_of_plain {l : List α} (hq : quote ∉ l) (he : escape ∉ l) :
    scan quote escape .inside l = .inside := by
  induction l with
  | nil => rfl
  | cons c l ih =>
    rw [List.mem_cons, not_or] at hq he
    have hc : c ≠ quote := fun e => hq.1 e.symm
    have hc' : c ≠ escape := fun e => he.1 e.symm
    rw [scan_cons, next, if_neg hc, if_neg hc']
    exact ih hq.2 he.2

theorem scan_closed_run {l : List α} (hq : quote ∉ l) (he : escape ∉ l) :
    scan quote escape .outside (quote :: (l ++ [quote])) = .outside := by
  rw [scan_cons, next, if_pos rfl, scan_append, scan_inside_of_plain hq he, scan_cons, next,
    if_pos rfl, scan_nil]

end Scan

section Pieces

variable {α : Type*} [DecidableEq α] (quote escape sep : α)

/-- The pieces between the separators met outside quoted runs, each with the text from the
separator that ends it on. -/
def pieces : Mode → List α → List (List α × List α)
  | _, [] => [([], [])]
  | m, c :: l =>
    if m = .outside ∧ c = sep then ([], c :: l) :: pieces .outside l
    else (pieces (next quote escape m c) l).modifyHead fun e => (c :: e.1, e.2)

/-- The text up to the first separator outside quoted runs. -/
def takePiece : Mode → List α → List α
  | _, [] => []
  | m, c :: l =>
    if m = .outside ∧ c = sep then [] else c :: takePiece (next quote escape m c) l

def dropPiece : Mode → List α → List α
  | _, [] => []
  | m, c :: l =>
    if m = .outside ∧ c = sep then c :: l else dropPiece (next quote escape m c) l

def laterStarts : Mode → List α → List (List α)
  | _, [] => []
  | m, c :: l =>
    if m = .outside ∧ c = sep then l :: laterStarts .outside l
    else laterStarts (next quote escape m c) l

def starts (l : List α) : List (List α) := l :: laterStarts quote escape sep .outside l

theorem length_dropPiece_le (m : Mode) (l : List α) :
    (dropPiece quote escape sep m l).length ≤ l.length := by
  induction l generalizing m with
  | nil => simp [dropPiece]
  | cons c l ih =>
    unfold dropPiece
    split
    · exact le_rfl
    · exact (ih _).trans (Nat.le_succ _)

theorem dropPiece_eq_nil_or_sep (m : Mode) (l : List α) :
    dropPiece quote escape sep m l = [] ∨ ∃ t, dropPiece quote escape sep m l = sep :: t := by
  induction l generalizing m with
  | nil => exact .inl rfl
  | cons c l ih =>
    unfold dropPiece
    split
    case isTrue h => exact .inr ⟨l, by rw [h.2]⟩
    case isFalse => exact ih _

theorem takePiece_append_dropPiece (m : Mode) (l : List α) :
    takePiece quote escape sep m l ++ dropPiece quote escape sep m l = l := by
  induction l generalizing m with
  | nil => rfl
  | cons c l ih =>
    rw [takePiece, dropPiece]
    split
    · rfl
    · rw [List.cons_append, ih]

theorem quote_mem_of_takePiece {l w u : List α}
    (h : takePiece quote escape sep .outside l = w ++ sep :: u) : quote ∈ w := by
  induction l generalizing w with
  | nil => simp [takePiece] at h
  | cons c l ih =>
    unfold takePiece at h
    split at h
    case isTrue => simp at h
    case isFalse hc =>
      cases w with
      | nil => exact absurd ⟨rfl, (List.cons.inj h).1⟩ hc
      | cons d w =>
        obtain ⟨rfl, ht⟩ := List.cons.inj h
        by_cases hq : c = quote
        · exact hq ▸ List.mem_cons_self
        · rw [next, if_neg hq] at ht
          exact List.mem_cons_of_mem c (ih ht)

theorem pieces_eq_cons (m : Mode) (l : List α) :
    pieces quote escape sep m l =
      (takePiece quote escape sep m l, dropPiece quote escape sep m l) ::
        match dropPiece quote escape sep m l with
        | [] => []
        | _ :: t => pieces quote escape sep .outside t := by
  induction l generalizing m with
  | nil => rfl
  | cons c l ih =>
    rw [pieces, takePiece, dropPiece]
    split
    · rfl
    · rw [ih, List.modifyHead_cons]

theorem laterStarts_eq (m : Mode) (l : List α) :
    laterStarts quote escape sep m l =
      match dropPiece quote escape sep m l with
      | [] => []
      | _ :: t => starts quote escape sep t := by
  induction l generalizing m with
  | nil => rfl
  | cons c l ih =>
    rw [laterStarts, dropPiece]
    split
    · rfl
    · exact ih _

/-- Each piece is the first piece of the text from its start on. -/
theorem pieces_eq_map_starts (l : List α) :
    pieces quote escape sep .outside l = (starts quote escape sep l).map fun s =>
      (takePiece quote escape sep .outside s, dropPiece quote escape sep .outside s) := by
  rw [pieces_eq_cons, starts, laterStarts_eq, List.map_cons]
  congr 1
  have hlen := length_dropPiece_le quote escape sep .outside l
  cases hd : dropPiece quote escape sep .outside l with
  | nil => rfl
  | cons d t =>
    have ht : t.length < l.length := by simpa [hd] using hlen
    exact pieces_eq_map_starts t
termination_by l.length

theorem laterStarts_append (hsep : sep ≠ quote) (m : Mode) (a b : List α) :
    laterStarts quote escape sep m (a ++ b) =
      (laterStarts quote escape sep m a).map (· ++ b) ++
        laterStarts quote escape sep (scan quote escape m a) b := by
  induction a generalizing m with
  | nil => rfl
  | cons c a ih =>
    rw [List.cons_append, laterStarts, laterStarts, scan_cons]
    split
    case isTrue h =>
      have hn : next quote escape m c = .outside := by
        rw [h.1, h.2, next, if_neg hsep]
      rw [ih, hn]
      rfl
    case isFalse => exact ih _

theorem laterStarts_closed_run {l : List α} (hq : quote ∉ l) (he : escape ∉ l) (b : List α) :
    (sep ≠ quote) → laterStarts quote escape sep .outside (quote :: (l ++ [quote]) ++ b) =
      laterStarts quote escape sep .outside b := by
  intro hsep
  have hinside : laterStarts quote escape sep .inside l = [] := by
    induction l with
    | nil => rfl
    | cons c l ih =>
      rw [List.mem_cons, not_or] at hq he
      rw [laterStarts, if_neg (by simp), next, if_neg (Ne.symm hq.1), if_neg (Ne.symm he.1)]
      exact ih hq.2 he.2
  have hrun : laterStarts quote escape sep .outside (quote :: (l ++ [quote])) = [] := by
    rw [laterStarts, if_neg (fun h => hsep h.2.symm), next, if_pos rfl,
      laterStarts_append _ _ _ hsep,
      hinside, scan_inside_of_plain hq he, laterStarts, if_neg (by simp)]
    rfl
  rw [laterStarts_append _ _ _ hsep, scan_closed_run hq he, hrun]
  rfl

theorem dropPiece_inside (m : Mode) (hm : m ≠ .outside) (l : List α) :
    dropPiece quote escape sep m l =
      dropPiece quote escape sep .outside (afterRun quote escape m l) := by
  induction l generalizing m with
  | nil => rfl
  | cons c l ih =>
    rw [dropPiece, if_neg (fun h => hm h.1), afterRun]
    split
    case isTrue h => rw [h]
    case isFalse h => exact ih _ h

theorem laterStarts_inside (m : Mode) (hm : m ≠ .outside) (l : List α) :
    laterStarts quote escape sep m l =
      laterStarts quote escape sep .outside (afterRun quote escape m l) := by
  induction l generalizing m with
  | nil => rfl
  | cons c l ih =>
    rw [laterStarts, if_neg (fun h => hm h.1), afterRun]
    split
    case isTrue h => rw [h]
    case isFalse h => exact ih _ h

theorem takePiece_append (m : Mode) (a b : List α) :
    takePiece quote escape sep m (a ++ b) =
      if takePiece quote escape sep m a = a then
        a ++ takePiece quote escape sep (scan quote escape m a) b
      else takePiece quote escape sep m a := by
  induction a generalizing m with
  | nil => rfl
  | cons c a ih =>
    rw [List.cons_append, takePiece, takePiece, scan_cons]
    by_cases h : m = .outside ∧ c = sep
    · rw [if_pos h, if_pos h, if_neg (List.cons_ne_nil c a).symm]
    · rw [if_neg h, if_neg h, ih]
      by_cases ha : takePiece quote escape sep (next quote escape m c) a = a
      · rw [if_pos ha, if_pos (congrArg (c :: ·) ha)]
        rfl
      · rw [if_neg ha, if_neg (fun e => ha (List.cons.inj e).2)]

variable {quote escape sep}

theorem suffix_of_mem_starts {l s : List α} (h : s ∈ starts quote escape sep l) : s <:+ l := by
  have hlater (m : Mode) : ∀ t ∈ laterStarts quote escape sep m l, t <:+ l := by
    clear h
    induction l generalizing m with
    | nil => simp [laterStarts]
    | cons c l ih =>
      unfold laterStarts
      split
      · intro t ht
        rcases List.mem_cons.mp ht with rfl | ht
        · exact List.suffix_cons c t
        · exact (ih .outside t ht).trans (List.suffix_cons c l)
      · exact fun t ht => (ih _ t ht).trans (List.suffix_cons c l)
  rcases List.mem_cons.mp h with rfl | h
  · exact List.suffix_refl s
  · exact hlater _ _ h

theorem pieces_fst_of_no_quote {l : List α} (h : quote ∉ l) :
    (pieces quote escape sep .outside l).map Prod.fst = l.splitOn sep := by
  induction l with
  | nil => rfl
  | cons c l ih =>
    rw [List.mem_cons, not_or] at h
    have hc : c ≠ quote := fun e => h.1 e.symm
    rw [pieces, List.splitOn_cons_eq_if_modifyHead, next, if_neg hc]
    by_cases hs : c = sep
    · simp [hs, ih h.2]
    · rw [if_neg (fun e => hs e.2), if_neg (by simpa using hs), ← ih h.2]
      cases pieces quote escape sep .outside l <;> rfl

end Pieces

end QuotedSplit
