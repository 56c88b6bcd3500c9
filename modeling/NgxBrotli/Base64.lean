import Mathlib

namespace Base64

def symbol (v : ℕ) : UInt8 :=
  if v < 26 then UInt8.ofNat (v + 0x41)
  else if v < 52 then UInt8.ofNat (v - 26 + 0x61)
  else if v < 62 then UInt8.ofNat (v - 52 + 0x30)
  else if v = 62 then 0x2b
  else 0x2f

def value (c : UInt8) : Option ℕ :=
  if 0x41 ≤ c ∧ c ≤ 0x5a then some (c.toNat - 0x41)
  else if 0x61 ≤ c ∧ c ≤ 0x7a then some (c.toNat - 0x61 + 26)
  else if 0x30 ≤ c ∧ c ≤ 0x39 then some (c.toNat - 0x30 + 52)
  else if c = 0x2b then some 62
  else if c = 0x2f then some 63
  else none

abbrev pad : UInt8 := 0x3d

def sextets : List UInt8 → List ℕ
  | a :: b :: c :: bs =>
    a.toNat / 4 :: (a.toNat % 4 * 16 + b.toNat / 16) :: (b.toNat % 16 * 4 + c.toNat / 64) ::
      c.toNat % 64 :: sextets bs
  | [a, b] => [a.toNat / 4, a.toNat % 4 * 16 + b.toNat / 16, b.toNat % 16 * 4]
  | [a] => [a.toNat / 4, a.toNat % 4 * 16]
  | [] => []

def octets : List ℕ → List UInt8
  | v :: w :: x :: y :: vs =>
    UInt8.ofNat (v * 4 + w / 16) :: UInt8.ofNat (w % 16 * 16 + x / 4) ::
      UInt8.ofNat (x % 4 * 64 + y) :: octets vs
  | [v, w, x] => [UInt8.ofNat (v * 4 + w / 16), UInt8.ofNat (w % 16 * 16 + x / 4)]
  | [v, w] => [UInt8.ofNat (v * 4 + w / 16)]
  | _ => []

def encode (bs : List UInt8) : List UInt8 :=
  (sextets bs).map symbol ++ List.replicate ((3 - bs.length % 3) % 3) pad

def decode (s : List UInt8) : Option (List UInt8) :=
  ((s.takeWhile (· != pad)).mapM value).bind fun vs =>
    if vs.length % 4 = 1 then none else some (octets vs)

theorem value_symbol {v : ℕ} (hv : v < 64) : value (symbol v) = some v := by
  revert v
  decide

theorem symbol_ne_pad {v : ℕ} (hv : v < 64) : symbol v ≠ pad := by
  revert v
  decide

theorem sextets_lt (bs : List UInt8) : ∀ v ∈ sextets bs, v < 64 := by
  have hlt (a : UInt8) : a.toNat < 256 := a.toNat_lt
  fun_induction sextets bs with
  | case1 a b c bs ih =>
    have ha := hlt a
    have hb := hlt b
    have hc := hlt c
    simp only [List.mem_cons]
    rintro v (rfl | rfl | rfl | rfl | hv)
    · omega
    · omega
    · omega
    · omega
    · exact ih v hv
  | case2 a b =>
    have ha := hlt a
    have hb := hlt b
    simp only [List.mem_cons, List.not_mem_nil, or_false]
    rintro v (rfl | rfl | rfl) <;> omega
  | case3 a =>
    have ha := hlt a
    simp only [List.mem_cons, List.not_mem_nil, or_false]
    rintro v (rfl | rfl) <;> omega
  | case4 => simp

theorem ofNat_of_toNat_eq {a : UInt8} {n : ℕ} (h : n = a.toNat) : UInt8.ofNat n = a := by
  rw [h, UInt8.ofNat_toNat]

theorem octets_sextets (bs : List UInt8) : octets (sextets bs) = bs := by
  have hlt (a : UInt8) : a.toNat < 256 := a.toNat_lt
  fun_induction sextets bs with
  | case1 a b c bs ih =>
    have hb := hlt b
    have hc := hlt c
    rw [octets, ih, ofNat_of_toNat_eq (a := a) (by omega), ofNat_of_toNat_eq (a := b) (by omega),
      ofNat_of_toNat_eq (a := c) (by omega)]
  | case2 a b =>
    have hb := hlt b
    rw [octets, ofNat_of_toNat_eq (a := a) (by omega), ofNat_of_toNat_eq (a := b) (by omega)]
  | case3 a => rw [octets, ofNat_of_toNat_eq (a := a) (by omega)]
  | case4 => rfl

theorem length_sextets (bs : List UInt8) : (sextets bs).length = (4 * bs.length + 2) / 3 := by
  fun_induction sextets bs with
  | case1 a b c bs ih =>
    simp only [List.length_cons, ih]
    omega
  | case2 => simp
  | case3 => simp
  | case4 => simp

theorem length_encode (bs : List UInt8) : (encode bs).length = 4 * ((bs.length + 2) / 3) := by
  rw [encode, List.length_append, List.length_map, List.length_replicate, length_sextets]
  omega

/-- Decoding inverts encoding. -/
theorem decode_encode (bs : List UInt8) : decode (encode bs) = some bs := by
  have hbody : (encode bs).takeWhile (· != pad) = (sextets bs).map symbol := by
    have hall : ∀ c ∈ (sextets bs).map symbol, (c != pad) = true := by
      intro c hc
      obtain ⟨v, hv, rfl⟩ := List.mem_map.mp hc
      exact bne_iff_ne.mpr (symbol_ne_pad (sextets_lt bs v hv))
    rw [encode, List.takeWhile_append_of_pos hall]
    cases (3 - bs.length % 3) % 3 <;> simp [List.replicate_succ]
  have hvalues : ((sextets bs).map symbol).mapM value = some (sextets bs) := by
    have hlt := sextets_lt bs
    generalize sextets bs = vs at hlt
    induction vs with
    | nil => rfl
    | cons v vs ih =>
      rw [List.map_cons, List.mapM_cons, value_symbol (hlt v List.mem_cons_self),
        ih fun w hw => hlt w (List.mem_cons_of_mem v hw)]
      rfl
  have hlen : (sextets bs).length % 4 ≠ 1 := by
    rw [length_sextets]
    omega
  rw [decode, hbody, hvalues, Option.bind_some, if_neg hlen, octets_sextets]

end Base64
