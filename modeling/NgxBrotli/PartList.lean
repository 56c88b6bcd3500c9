import Mathlib

/-!
# Lists kept in parts

A growing sequence kept as a chain of parts of bounded capacity.  Elements are pushed at the end of
the last part, and a new part is opened by the push that finds the last one full, so only the first
part can be empty.  A walk that crosses into the next part and then reads an element there without
looking at its length relies on that.
-/

/-- A list in parts; the parts after the first are not empty. -/
structure PartList (α : Type*) where
  first : List α
  rest : List (List α)
  rest_ne : ∀ part ∈ rest, part ≠ []
  deriving DecidableEq

namespace PartList

variable {α β σ : Type*}

def toList (l : PartList α) : List α := l.first ++ l.rest.flatten

def ofList (l : List α) : PartList α := ⟨l, [], by simp⟩

@[simp] theorem toList_ofList (l : List α) : (ofList l).toList = l := List.append_nil l

/-- The push onto a last part that may be full; `allocOk` says whether a new part can be had. -/
def pushLast (capacity : ℕ) (allocOk : Bool) (part : List α) (a : α) : Option (List (List α)) :=
  if part.length < capacity then some [part ++ [a]]
  else if allocOk then some [part, [a]]
  else none

theorem pushLast_flatten {capacity : ℕ} {allocOk : Bool} {part : List α} {a : α}
    {parts : List (List α)} (h : pushLast capacity allocOk part a = some parts) :
    parts.flatten = part ++ [a] := by
  unfold pushLast at h
  split at h
  · obtain rfl := Option.some.inj h
    simp
  · split at h
    · obtain rfl := Option.some.inj h
      simp
    · cases h

theorem pushLast_ne {capacity : ℕ} {allocOk : Bool} {part : List α} {a : α}
    {parts : List (List α)} (h : pushLast capacity allocOk part a = some parts) :
    (part ≠ [] → ∀ p ∈ parts, p ≠ []) ∧ parts ≠ [] ∧ ∀ p ∈ parts.tail, p ≠ [] := by
  unfold pushLast at h
  split at h
  · obtain rfl := Option.some.inj h
    simp
  · split at h
    · obtain rfl := Option.some.inj h
      simp
    · cases h

/-- The push at the end; `none` where it needs a part that cannot be had. -/
def push (capacity : ℕ) (allocOk : Bool) (l : PartList α) (a : α) : Option (PartList α) :=
  if hr : l.rest = [] then
    match h : pushLast capacity allocOk l.first a with
    | some parts =>
      some ⟨parts.headD [], parts.tail, (pushLast_ne h).2.2⟩
    | none => none
  else
    match h : pushLast capacity allocOk (l.rest.getLast hr) a with
    | some parts =>
      some ⟨l.first, l.rest.dropLast ++ parts, by
        intro part hp
        rcases List.mem_append.mp hp with hp | hp
        · exact l.rest_ne part (List.mem_of_mem_dropLast hp)
        · exact (pushLast_ne h).1 (l.rest_ne _ (List.getLast_mem hr)) part hp⟩
    | none => none

theorem toList_push {capacity : ℕ} {allocOk : Bool} {l l' : PartList α} {a : α}
    (h : l.push capacity allocOk a = some l') : l'.toList = l.toList ++ [a] := by
  unfold push at h
  split at h
  case isTrue hr =>
    split at h
    case h_1 parts hp =>
      obtain rfl := Option.some.inj h
      have hf := pushLast_flatten hp
      obtain ⟨p, ps, rfl⟩ := List.exists_cons_of_ne_nil (pushLast_ne hp).2.1
      simpa [toList, hr] using hf
    case h_2 => cases h
  case isFalse hr =>
    split at h
    case h_1 parts hp =>
      obtain rfl := Option.some.inj h
      have hf := pushLast_flatten hp
      have hl : l.rest.flatten = l.rest.dropLast.flatten ++ l.rest.getLast hr := by
        conv_lhs => rw [← List.dropLast_append_getLast hr]
        simp
      rw [toList, toList, List.flatten_append, hf, hl]
      simp
    case h_2 => cases h

theorem push_ne_none {capacity : ℕ} {l : PartList α} {a : α} : l.push capacity true a ≠ none := by
  have hlast (part : List α) : pushLast capacity true part a ≠ none := by
    unfold pushLast
    split <;> exact Option.some_ne_none _
  unfold push
  split
  · split
    · exact Option.some_ne_none _
    case h_2 h => exact absurd h (hlast _)
  · split
    · exact Option.some_ne_none _
    case h_2 h => exact absurd h (hlast _)

/-- The loop `for (i = 0; ; i++) { if (i >= part->nelts) { if (part->next == NULL) break;
part = part->next; h = part->elts; i = 0; } body(h[i]) }` on what is left of the current part and
the parts after it.  A body answers `error` to leave the loop; `none` is the read of `h[0]` in an
empty part. -/
def walkParts (body : σ → α → Except β σ) : σ → List α → List (List α) → Option (Except β σ)
  | s, [], [] => some (.ok s)
  | _, [], [] :: _ => none
  | s, [], (a :: part) :: rest =>
    match body s a with
    | .error b => some (.error b)
    | .ok s => walkParts body s part rest
  | s, a :: part, rest =>
    match body s a with
    | .error b => some (.error b)
    | .ok s => walkParts body s part rest
termination_by _ part rest => part.length + rest.flatten.length + rest.length

/-- Over parts that are not empty the walk is a fold over the elements. -/
theorem walkParts_eq (body : σ → α → Except β σ) (s : σ) (part : List α) (rest : List (List α))
    (hr : ∀ p ∈ rest, p ≠ []) :
    walkParts body s part rest = some ((part ++ rest.flatten).foldlM body s) := by
  fun_induction walkParts body s part rest with
  | case1 => rfl
  | case2 => exact absurd rfl (hr [] List.mem_cons_self)
  | case3 s a part rest b h =>
    rw [List.nil_append, List.flatten_cons, List.cons_append, List.foldlM_cons, h]
    rfl
  | case4 s a part rest s' h ih =>
    rw [ih fun p hp => hr p (List.mem_cons_of_mem _ hp), List.nil_append, List.flatten_cons,
      List.cons_append, List.foldlM_cons, h]
    rfl
  | case5 s a part rest b h =>
    rw [List.cons_append, List.foldlM_cons, h]
    rfl
  | case6 s a part rest s' h ih =>
    rw [ih hr, List.cons_append, List.foldlM_cons, h]
    rfl

/-- The walk over a list in parts. -/
def walk (body : σ → α → Except β σ) (s : σ) (l : PartList α) : Except β σ :=
  (walkParts body s l.first l.rest).get (by simp [walkParts_eq body s l.first l.rest l.rest_ne])

theorem walk_eq_foldlM (body : σ → α → Except β σ) (s : σ) (l : PartList α) :
    l.walk body s = l.toList.foldlM body s := by
  simp only [walk, walkParts_eq body s l.first l.rest l.rest_ne, Option.get_some, toList]

/-- The walk that leaves at the first element it looks for. -/
def find? (test : α → Bool) (l : PartList α) : Option α :=
  match l.walk (fun (_ : Unit) a => if test a then .error a else .ok ()) () with
  | .error a => some a
  | .ok () => none

theorem find?_eq (test : α → Bool) (l : PartList α) : l.find? test = l.toList.find? test := by
  rw [find?, walk_eq_foldlM]
  induction l.toList with
  | nil => rfl
  | cons a l ih =>
    rw [List.foldlM_cons, List.find?_cons]
    cases test a with
    | true => rfl
    | false => exact ih

/-- The walk that visits all elements and folds those it tests for. -/
def foldIf (test : α → Bool) (f : σ → α → σ) (s : σ) (l : PartList α) : σ :=
  match l.walk (fun s a => if test a then .ok (f s a) else .ok s) s with
  | .error (e : Empty) => nomatch e
  | .ok s => s

theorem foldIf_eq (test : α → Bool) (f : σ → α → σ) (s : σ) (l : PartList α) :
    l.foldIf test f s = (l.toList.filter test).foldl f s := by
  rw [foldIf, walk_eq_foldlM]
  induction l.toList generalizing s with
  | nil => rfl
  | cons a l ih =>
    rw [List.foldlM_cons]
    cases h : test a with
    | true =>
      rw [List.filter_cons_of_pos h, List.foldl_cons]
      exact ih (f s a)
    | false =>
      rw [List.filter_cons_of_neg (by simp [h])]
      exact ih s

end PartList
