import Mathlib

/-!
# Long division

A fraction `n / d` digit by digit in a base, and a digit found by adding instead of multiplying: the
multiples of the remainder are accumulated modulo `d`, in words that may wrap.
-/

namespace LongDivision

section

variable {b d n m r : ℕ}

theorem div_next (hd : 0 < d) : b * n / d = b * (n / d) + b * (n % d) / d := by
  conv_lhs => rw [← Nat.div_add_mod n d, Nat.mul_add, Nat.mul_left_comm]
  rw [Nat.mul_add_div hd]

theorem mod_next : b * n % d = b * (n % d) % d :=
  (Nat.mul_mod_mod b n d).symm

theorem digit_lt (hb : 0 < b) (hd : 0 < d) : b * (n % d) / d < b :=
  (Nat.div_lt_iff_lt_mul hd).mpr ((Nat.mul_lt_mul_left hb).mpr (Nat.mod_lt n hd))

theorem append_digit {q e : ℕ} (he : e < b) : (b * q + e) % (b * m) = b * (q % m) + e := by
  have hb : 0 < b := Nat.zero_lt_of_lt he
  rw [Nat.mod_mul, Nat.mul_add_mod, Nat.mod_eq_of_lt he, Nat.mul_add_div hb, Nat.div_eq_of_lt he,
    Nat.add_zero, Nat.add_comm]

theorem add_multiple (hr : r < d) :
    (m + 1) * r / d = m * r / d + (if d ≤ m * r % d + r then 1 else 0) ∧
      (m + 1) * r % d = m * r % d + r - if d ≤ m * r % d + r then d else 0 := by
  have hd : 0 < d := Nat.zero_lt_of_lt hr
  have hacc := Nat.mod_lt (m * r) hd
  have hsum : (m + 1) * r = m * r % d + r + d * (m * r / d) := by
    have := Nat.mod_add_div (m * r) d
    rw [Nat.add_mul, Nat.one_mul]
    omega
  rw [hsum, Nat.add_mul_div_left _ _ hd, Nat.add_mul_mod_self_left]
  split
  case isTrue hle =>
    -- the sum of two remainders is below twice the divisor
    obtain ⟨x, hx⟩ := Nat.exists_eq_add_of_le hle
    have hlt : x < d := by omega
    rw [hx, Nat.add_div_left _ hd, Nat.add_mod_left, Nat.div_eq_of_lt hlt, Nat.mod_eq_of_lt hlt]
    omega
  case isFalse hlt =>
    have hlt := Nat.lt_of_not_le hlt
    rw [Nat.div_eq_of_lt hlt, Nat.mod_eq_of_lt hlt]
    omega

end

section

variable {acc r d : UInt64}

theorem wrapped_iff (hacc : acc.toNat < d.toNat) :
    acc + r ≥ d ∨ acc + r < r ↔ d.toNat ≤ acc.toNat + r.toNat := by
  have hr := r.toNat_lt
  have hd := d.toNat_lt
  rw [ge_iff_le, UInt64.le_iff_toNat_le, UInt64.lt_iff_toNat_lt, UInt64.toNat_add]
  omega

theorem toNat_add_sub (hacc : acc.toNat < d.toNat) (hle : d.toNat ≤ acc.toNat + r.toNat) :
    (acc + r - d).toNat = acc.toNat + r.toNat - d.toNat := by
  have hr := r.toNat_lt
  have hd := d.toNat_lt
  rw [UInt64.toNat_sub, UInt64.toNat_add]
  omega

theorem toNat_add_of_lt (hlt : acc.toNat + r.toNat < d.toNat) :
    (acc + r).toNat = acc.toNat + r.toNat := by
  have hd := d.toNat_lt
  rw [UInt64.toNat_add]
  omega

end

end LongDivision
