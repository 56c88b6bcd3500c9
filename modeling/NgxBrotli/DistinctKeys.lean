import Mathlib

/-!
# Lists of entries with distinct keys

Inputs are turned into entries one after the other, and an entry joins the list where its key is
new.  The order of the inputs matters neither for the success nor for a lookup by key.
-/

namespace DistinctKeys

variable {α β κ : Type*} {R : α → β → Prop} {key : β → κ}

/-- From `acc`, the inputs are entered in order, and the list is `out` then. -/
def Enters (R : α → β → Prop) (key : β → κ) : List β → List α → List β → Prop
  | acc, [], out => out = acc
  | acc, x :: xs, out => ∃ d, R x d ∧ key d ∉ acc.map key ∧ Enters R key (acc ++ [d]) xs out

theorem nodup_map_snoc {acc : List β} {d : β} :
    ((acc ++ [d]).map key).Nodup ↔ key d ∉ acc.map key ∧ (acc.map key).Nodup := by
  rw [List.map_append, List.map_singleton, ← List.concat_eq_append, List.nodup_concat]

/-- The inputs are entered where each has an entry and all keys are distinct. -/
theorem enters_iff {acc : List β} (hacc : (acc.map key).Nodup) {xs : List α} {out : List β} :
    Enters R key acc xs out ↔
      ∃ ds, List.Forall₂ R xs ds ∧ ((acc ++ ds).map key).Nodup ∧ out = acc ++ ds := by
  induction xs generalizing acc with
  | nil => simp [Enters, hacc]
  | cons x xs ih =>
    rw [Enters]
    constructor
    · rintro ⟨d, hd, hnew, hrest⟩
      obtain ⟨ds, hds, hnodup, rfl⟩ := (ih (nodup_map_snoc.mpr ⟨hnew, hacc⟩)).mp hrest
      rw [List.append_assoc, List.singleton_append] at hnodup ⊢
      exact ⟨d :: ds, .cons hd hds, hnodup, rfl⟩
    · -- the entries of the rest are appended behind the first one
      rintro ⟨_, _ | ⟨hd, hds⟩, hnodup, rfl⟩
      rename_i d ds
      have hsplit : acc ++ d :: ds = (acc ++ [d]) ++ ds := by simp
      rw [hsplit] at hnodup
      have hnext : ((acc ++ [d]).map key).Nodup := by
        rw [List.map_append] at hnodup
        exact hnodup.of_append_left
      exact ⟨d, hd, (nodup_map_snoc.mp hnext).1, (ih hnext).mpr ⟨ds, hds, hnodup, hsplit⟩⟩

theorem enters_nil_iff {xs : List α} {out : List β} :
    Enters R key [] xs out ↔ List.Forall₂ R xs out ∧ (out.map key).Nodup := by
  rw [enters_iff (by simp)]
  simp

theorem Enters.perm {xs ys : List α} {out : List β} (h : Enters R key [] xs out)
    (hperm : ys.Perm xs) : ∃ out', Enters R key [] ys out' ∧ out'.Perm out := by
  obtain ⟨hout, hnodup⟩ := enters_nil_iff.mp h
  obtain ⟨out', hout', hoperm⟩ := List.perm_comp_forall₂ hperm hout
  exact ⟨out', enters_nil_iff.mpr ⟨hout', (hoperm.map key).nodup_iff.mpr hnodup⟩, hoperm⟩

theorem Enters.unique (hR : Relator.RightUnique R) {xs : List α} {out out' : List β}
    (h : Enters R key [] xs out) (h' : Enters R key [] xs out') : out = out' :=
  List.right_unique_forall₂' hR (enters_nil_iff.mp h).1 (enters_nil_iff.mp h').1

section

variable [BEq κ] [LawfulBEq κ] {l l' : List β}

theorem find?_key_iff (hnodup : (l.map key).Nodup) (k : κ) (d : β) :
    (l.find? fun e => key e == k) = some d ↔ d ∈ l ∧ key d = k := by
  constructor
  · intro h
    exact ⟨List.mem_of_find?_eq_some h, by simpa using List.find?_some h⟩
  · rintro ⟨hd, rfl⟩
    obtain ⟨e, he⟩ : ∃ e, (l.find? fun e => key e == key d) = some e := by
      rw [← Option.isSome_iff_exists, List.find?_isSome]
      exact ⟨d, hd, by simp⟩
    have heq : key e = key d := by simpa using List.find?_some he
    rw [he, List.inj_on_of_nodup_map hnodup (List.mem_of_find?_eq_some he) hd heq]

theorem find?_perm (hperm : l.Perm l') (hnodup : (l.map key).Nodup) (k : κ) :
    (l.find? fun e => key e == k) = l'.find? fun e => key e == k := by
  ext d
  rw [find?_key_iff hnodup, find?_key_iff ((hperm.map key).nodup_iff.mp hnodup), hperm.mem_iff]

end

end DistinctKeys
