import Mathlib

/-!
# Byte strings of nginx

`ngx_str_t` values are byte lists.  A cursor `p` into such a value, bounded by `end`, is the list
of the bytes from `p` on: `p < end` says that it is not empty, `*p` is its head, and `p++` drops
the head.
-/

namespace NgxBrotli

abbrev Bytes := List UInt8

/-- The bytes of a string literal of the source. -/
def ascii (s : String) : Bytes := s.toList.map fun c => UInt8.ofNat c.toNat

abbrev SP : UInt8 := 0x20
abbrev HTAB : UInt8 := 0x09
abbrev DQUOTE : UInt8 := 0x22
abbrev COMMA : UInt8 := 0x2c
abbrev SEMICOLON : UInt8 := 0x3b
abbrev EQUALS : UInt8 := 0x3d
abbrev BACKSLASH : UInt8 := 0x5c
abbrev STAR : UInt8 := 0x2a
abbrev DOT : UInt8 := 0x2e
abbrev COLON : UInt8 := 0x3a
abbrev SLASH : UInt8 := 0x2f

def isOws (c : UInt8) : Bool := c == SP || c == HTAB

def isDigit (c : UInt8) : Bool := 0x30 ≤ c && c ≤ 0x39

/-- The number a run of decimal digits writes. -/
def decimal (ds : Bytes) : Int := ds.foldl (fun n c => 10 * n + ((c.toNat : Int) - 0x30)) 0

theorem decimal_append (ds es : Bytes) :
    decimal (ds ++ es) = decimal ds * 10 ^ es.length + decimal es := by
  have hfold (n : Int) : es.foldl (fun n c => 10 * n + ((c.toNat : Int) - 0x30)) n =
      n * 10 ^ es.length + decimal es := by
    induction es generalizing n with
    | nil => simp [decimal]
    | cons c es ih =>
      rw [decimal, List.foldl_cons, List.foldl_cons, ih, ih, List.length_cons]
      ring
  rw [decimal, List.foldl_append, hfold]
  rfl

/-- `ngx_tolower`: ASCII only. -/
def ngxTolower (c : UInt8) : UInt8 := if 0x41 ≤ c ∧ c ≤ 0x5a then c ||| 0x20 else c

/-- `ngx_strncasecmp`: compares at most `n` bytes and stops early, as equal, at a NUL in both.
Every caller has compared the lengths first, so neither string ends before `n` bytes. -/
def ngxStrncasecmp : Bytes → Bytes → ℕ → Int
  | c₁ :: s₁, c₂ :: s₂, n + 1 =>
    if ngxTolower c₁ = ngxTolower c₂ then
      if ngxTolower c₁ ≠ 0 then ngxStrncasecmp s₁ s₂ n else 0
    else (ngxTolower c₁).toNat - (ngxTolower c₂).toNat
  | _, _, _ => 0

/-- The idiom `s.len == sizeof(lit) - 1 && ngx_strncasecmp(s.data, lit, sizeof(lit) - 1) == 0`. -/
def matchesName (s lit : Bytes) : Bool :=
  s.length == lit.length && ngxStrncasecmp s lit lit.length == 0

/-- Equality of byte strings up to the case of ASCII letters. -/
def EqNoCase (s t : Bytes) : Prop := s.map ngxTolower = t.map ngxTolower

instance (s t : Bytes) : Decidable (EqNoCase s t) :=
  inferInstanceAs (Decidable (s.map ngxTolower = t.map ngxTolower))

theorem EqNoCase.length_eq {s t : Bytes} (h : EqNoCase s t) : s.length = t.length := by
  simpa using congrArg List.length h

theorem EqNoCase.symm {s t : Bytes} (h : EqNoCase s t) : EqNoCase t s := Eq.symm h

@[simp] theorem EqNoCase.rfl {s : Bytes} : EqNoCase s s := Eq.refl _

theorem ngxTolower_eq_zero {c : UInt8} (h : ngxTolower c = 0) : c = 0 := by
  revert c
  decide +kernel

theorem ngxStrncasecmp_eq_zero {s t : Bytes} (hl : s.length = t.length) (h0 : 0 ∉ t) :
    ngxStrncasecmp s t t.length = 0 ↔ EqNoCase s t := by
  induction s generalizing t with
  | nil =>
    obtain rfl : t = [] := List.length_eq_zero_iff.mp hl.symm
    simp [ngxStrncasecmp]
  | cons c s ih =>
    obtain ⟨d, t, rfl⟩ : ∃ d t', t = d :: t' := List.exists_cons_of_length_eq_add_one hl.symm
    rw [List.mem_cons, not_or] at h0
    have hs : s.length = t.length := by simpa using hl
    rw [List.length_cons, ngxStrncasecmp]
    by_cases hc : ngxTolower c = ngxTolower d
    · have hz : ngxTolower c ≠ 0 := fun h => h0.1 (ngxTolower_eq_zero (hc ▸ h)).symm
      rw [if_pos hc, if_pos hz, ih hs h0.2]
      simp [EqNoCase, hc]
    · have hne : (ngxTolower c).toNat ≠ (ngxTolower d).toNat :=
        fun h => hc (UInt8.toNat_inj.mp h)
      rw [if_neg hc]
      refine ⟨fun h => absurd (by omega) hne, fun h => absurd ?_ hc⟩
      exact (List.cons.inj h).1

/-- For a literal without NUL the idiom is equality up to case. -/
theorem matchesName_iff {s lit : Bytes} (h0 : 0 ∉ lit) :
    matchesName s lit = true ↔ EqNoCase s lit := by
  rw [matchesName, Bool.and_eq_true, beq_iff_eq, beq_iff_eq]
  refine ⟨fun h => (ngxStrncasecmp_eq_zero h.1 h0).mp h.2, fun h => ?_⟩
  exact ⟨h.length_eq, (ngxStrncasecmp_eq_zero h.length_eq h0).mpr h⟩

theorem dropWhile_dropWhile_self (f : UInt8 → Bool) (p : Bytes) :
    (p.dropWhile f).dropWhile f = p.dropWhile f := by
  cases h : p.dropWhile f with
  | nil => rfl
  | cons c t =>
    have := List.head_dropWhile_not f (l := p) (by simp [h])
    simp only [h, List.head_cons] at this
    exact List.dropWhile_cons_of_neg (by simp [this])

end NgxBrotli
