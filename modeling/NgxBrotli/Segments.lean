import Mathlib

/-!
# Segments

The non-empty pieces of a list between separators, and how a scan from left to right finds them.
-/

namespace Segments

variable {α : Type*} [BEq α] [LawfulBEq α] {sep : α} {l : List α}

/-- The non-empty pieces of `l` between occurrences of `sep`. -/
def segments (sep : α) (l : List α) : List (List α) := (l.splitOn sep).filter (!·.isEmpty)

omit [LawfulBEq α] in
@[simp] theorem segments_nil : segments sep ([] : List α) = [] := by simp [segments]

@[simp] theorem segments_sep (l : List α) : segments sep (sep :: l) = segments sep l := by
  simp [segments, List.splitOn_cons_eq_if_modifyHead]

theorem segments_dropWhile (l : List α) :
    segments sep (l.dropWhile (· == sep)) = segments sep l := by
  induction l with
  | nil => rfl
  | cons x l ih =>
    rw [List.dropWhile_cons]
    split
    case isTrue hx =>
      obtain rfl : x = sep := by simpa using hx
      rw [ih, segments_sep]
    case isFalse => rfl

theorem segments_append_seps {seps : List α} (h : ∀ x ∈ seps, x = sep) (l : List α) :
    segments sep (seps ++ l) = segments sep l := by
  induction seps with
  | nil => rfl
  | cons x seps ih =>
    obtain rfl := h x List.mem_cons_self
    rw [List.cons_append, segments_sep, ih fun y hy => h y (List.mem_cons_of_mem _ hy)]

theorem segments_singleton {piece : List α} (hne : piece ≠ []) (hno : sep ∉ piece) :
    segments sep piece = [piece] := by
  rw [segments, List.splitOn_eq_singleton hno]
  simpa using hne

theorem segments_append {piece rest : List α} (hne : piece ≠ []) (hno : sep ∉ piece)
    (hrest : ∀ x, rest.head? = some x → x = sep) :
    segments sep (piece ++ rest) = piece :: segments sep rest := by
  cases rest with
  | nil => rw [List.append_nil, segments_singleton hne hno, segments_nil]
  | cons x rest =>
    obtain rfl := hrest x rfl
    have hpiece : (!piece.isEmpty) = true := by simpa using hne
    rw [segments, List.splitOn_append_cons_self_of_not_mem hno, List.filter_cons, if_pos hpiece,
      ← segments, segments_sep]

theorem segments_eq_cons (hne : l.takeWhile (· != sep) ≠ []) :
    segments sep l = l.takeWhile (· != sep) :: segments sep (l.dropWhile (· != sep)) := by
  have hno : sep ∉ l.takeWhile (· != sep) := fun hmem => by
    simpa using List.mem_takeWhile_imp hmem
  conv_lhs => rw [← List.takeWhile_append_dropWhile (p := (· != sep)) (l := l)]
  apply segments_append hne hno
  intro x hx
  have hhead := List.head?_dropWhile_not (· != sep) l
  rw [hx] at hhead
  simpa using hhead

theorem segments_eq_nil_iff : segments sep l = [] ↔ l.all (· == sep) = true := by
  induction l with
  | nil => simp
  | cons x l ih =>
    by_cases hx : x = sep
    · subst hx
      simp [ih]
    · have hne : (x :: l).takeWhile (· != sep) ≠ [] := by simp [hx]
      simp [segments_eq_cons hne, hx]

/-- A piece of `l` without a separator in it, after which `after` is left. -/
structure Cut (sep : α) (l piece after : List α) : Prop where
  ne_nil : piece ≠ []
  not_mem : sep ∉ piece
  scanned : ∃ seps, (∀ x ∈ seps, x = sep) ∧ l = seps ++ (piece ++ after)
  stop : ∀ x, after.head? = some x → x = sep

/-- The scan that skips separators and stops at the next one cuts off the first piece. -/
theorem cut_scan (hne : l.dropWhile (· == sep) ≠ []) :
    Cut sep l ((l.dropWhile (· == sep)).takeWhile (· != sep))
      ((l.dropWhile (· == sep)).dropWhile (· != sep)) := by
  have hpiece : (l.dropWhile (· == sep)).takeWhile (· != sep) ≠ [] := by
    have hhead := List.head?_dropWhile_not (· == sep) l
    cases h : l.dropWhile (· == sep) with
    | nil => exact absurd h hne
    | cons x rest =>
      rw [h] at hhead
      simpa using hhead
  refine ⟨hpiece, fun hmem => by simpa using List.mem_takeWhile_imp hmem, ?_, ?_⟩
  · refine ⟨l.takeWhile (· == sep), fun x hx => by simpa using List.mem_takeWhile_imp hx, ?_⟩
    rw [List.takeWhile_append_dropWhile, List.takeWhile_append_dropWhile]
  · intro x hx
    have hhead := List.head?_dropWhile_not (· != sep) (l.dropWhile (· == sep))
    rw [hx] at hhead
    simpa using hhead

namespace Cut

variable {piece after : List α}

theorem segments_eq (h : Cut sep l piece after) :
    segments sep l = piece :: segments sep after := by
  obtain ⟨seps, hseps, rfl⟩ := h.scanned
  rw [segments_append_seps hseps, segments_append h.ne_nil h.not_mem h.stop]

omit [BEq α] [LawfulBEq α] in
theorem suffix (h : Cut sep l piece after) : piece ++ after <:+ l := by
  obtain ⟨seps, -, rfl⟩ := h.scanned
  exact List.suffix_append _ _

omit [BEq α] [LawfulBEq α] in
theorem length_lt (h : Cut sep l piece after) : after.length < l.length := by
  have hpos := List.length_pos_iff.mpr h.ne_nil
  have hle := h.suffix.length_le
  rw [List.length_append] at hle
  omega

end Cut

theorem of_mem_segments {piece : List α} (h : piece ∈ segments sep l) :
    piece ≠ [] ∧ sep ∉ piece := by
  induction hn : l.length using Nat.strong_induction_on generalizing l with
  | _ n ih =>
  by_cases hl : l.dropWhile (· == sep) = []
  · rw [← segments_dropWhile, hl, segments_nil] at h
    exact absurd h List.not_mem_nil
  · have hcut := cut_scan hl
    rw [hcut.segments_eq] at h
    rcases List.mem_cons.mp h with rfl | h
    · exact ⟨hcut.ne_nil, hcut.not_mem⟩
    · exact ih _ (hn ▸ hcut.length_lt) h rfl

end Segments
