import NgxBrotli.Bytes

namespace NgxBrotli

/-- The value of a hex character, and `0xff` for any other. -/
def hexDigit (c : UInt8) : UInt8 :=
  if 0x30 ≤ c ∧ c ≤ 0x39 then c - 0x30
  else if 0x61 ≤ c ∧ c ≤ 0x66 then c - 0x61 + 10
  else if 0x41 ≤ c ∧ c ≤ 0x46 then c - 0x41 + 10
  else 0xff

/-- `hash[i]`, for each pair of characters. -/
def hexBytes : Bytes → Option Bytes
  | [] => some []
  | [_] => none
  | c :: d :: value =>
    if hexDigit c = 0xff ∨ hexDigit d = 0xff then none
    else (hexBytes value).map ((hexDigit c <<< 4 ||| hexDigit d) :: ·)

def hexChar (n : UInt8) : UInt8 := (ascii "0123456789abcdef").getD n.toNat 0

/-- `ngx_hex_dump` -/
def hexDump (s : Bytes) : Bytes :=
  s.flatMap fun (b : UInt8) => [hexChar (b >>> 4), hexChar (b &&& 0xf)]

theorem hexDigit_spec : ∀ c : UInt8, hexDigit c ≠ 0xff →
    hexDigit c < 16 ∧ hexChar (hexDigit c) = ngxTolower c := by
  decide +kernel

theorem hexDigit_ngxTolower : ∀ c : UInt8, hexDigit (ngxTolower c) = hexDigit c := by
  decide +kernel

theorem hexDigit_hexChar : ∀ n : UInt8, n < 16 → hexDigit (hexChar n) = n := by
  decide +kernel

theorem ngxTolower_hexChar : ∀ n : UInt8, n < 16 → ngxTolower (hexChar n) = hexChar n := by
  decide +kernel

theorem nibbles_lt : ∀ b : UInt8, b >>> 4 < 16 ∧ b &&& 0xf < 16 := by
  decide +kernel

theorem join_nibbles : ∀ b : UInt8, (b >>> 4) <<< 4 ||| (b &&& 0xf) = b := by
  decide +kernel

theorem nibbles_join : ∀ hi : UInt8, hi < 16 → ∀ lo : UInt8, lo < 16 →
    (hi <<< 4 ||| lo) >>> 4 = hi ∧ (hi <<< 4 ||| lo) &&& 0xf = lo := by
  decide +kernel

theorem hexDigit_eq_iff {c n : UInt8} (hn : n < 16) :
    hexDigit c = n ↔ ngxTolower c = ngxTolower (hexChar n) := by
  constructor
  · rintro rfl
    have hne : hexDigit c ≠ 0xff := by
      rintro h
      rw [h] at hn
      exact absurd hn (by decide)
    rw [ngxTolower_hexChar _ hn, (hexDigit_spec c hne).2]
  · intro h
    rw [← hexDigit_ngxTolower, h, hexDigit_ngxTolower, hexDigit_hexChar n hn]

theorem hexPair_iff {c d b : UInt8} :
    ¬(hexDigit c = 0xff ∨ hexDigit d = 0xff) ∧ hexDigit c <<< 4 ||| hexDigit d = b ↔
      hexDigit c = b >>> 4 ∧ hexDigit d = b &&& 0xf := by
  obtain ⟨hhigh, hlow⟩ := nibbles_lt b
  constructor
  · rintro ⟨hhex, rfl⟩
    obtain ⟨hc, hd⟩ := not_or.mp hhex
    obtain ⟨h₁, h₂⟩ := nibbles_join _ (hexDigit_spec c hc).1 _ (hexDigit_spec d hd).1
    exact ⟨h₁.symm, h₂.symm⟩
  · rintro ⟨hc, hd⟩
    have hne : ∀ n : UInt8, n < 16 → n ≠ 0xff := by
      rintro n hn rfl
      exact absurd hn (by decide)
    rw [hc, hd]
    exact ⟨not_or.mpr ⟨hne _ hhigh, hne _ hlow⟩, join_nibbles b⟩

@[simp] theorem hexDump_nil : hexDump [] = [] := rfl

@[simp] theorem hexDump_cons (b : UInt8) (s : Bytes) :
    hexDump (b :: s) = hexChar (b >>> 4) :: hexChar (b &&& 0xf) :: hexDump s := rfl

theorem length_hexDump (s : Bytes) : (hexDump s).length = 2 * s.length := by
  induction s with
  | nil => rfl
  | cons b s ih =>
    rw [hexDump_cons, List.length_cons, List.length_cons, List.length_cons, ih]
    omega

/-- A literal is read as the bytes it renders, in any letter case. -/
theorem hexBytes_eq_some_iff {value key : Bytes} :
    hexBytes value = some key ↔ EqNoCase value (hexDump key) := by
  induction value using hexBytes.induct generalizing key with
  | case1 =>
    cases key with
    | nil => simp [hexBytes]
    | cons b key => simp [hexBytes, EqNoCase]
  | case2 c =>
    refine iff_of_false (by simp [hexBytes]) fun h => ?_
    have hlen := h.length_eq
    rw [length_hexDump, List.length_singleton] at hlen
    omega
  | case3 c d value hbad =>
    -- a pair of hex characters of `key` would have been read
    rw [hexBytes, if_pos hbad]
    refine iff_of_false (Option.some_ne_none key).symm fun h => ?_
    cases key with
    | nil => simp [EqNoCase] at h
    | cons b key =>
      obtain ⟨hc, hd, -⟩ := by simpa [EqNoCase] using h
      rw [← hexDigit_eq_iff (nibbles_lt b).1] at hc
      rw [← hexDigit_eq_iff (nibbles_lt b).2] at hd
      exact (hexPair_iff.mpr ⟨hc, hd⟩).1 hbad
  | case4 c d value hhex ih =>
    rw [hexBytes, if_neg hhex]
    cases key with
    | nil => simp [EqNoCase]
    | cons b key =>
      have hpair : hexDigit c <<< 4 ||| hexDigit d = b ↔
          ngxTolower c = ngxTolower (hexChar (b >>> 4)) ∧
            ngxTolower d = ngxTolower (hexChar (b &&& 0xf)) := by
        rw [← hexDigit_eq_iff (nibbles_lt b).1, ← hexDigit_eq_iff (nibbles_lt b).2, ← hexPair_iff,
          and_iff_right hhex]
      have hcons : (∃ tail, hexBytes value = some tail ∧
          (hexDigit c <<< 4 ||| hexDigit d) :: tail = b :: key) ↔
            hexDigit c <<< 4 ||| hexDigit d = b ∧ hexBytes value = some key := by
        simp only [List.cons.injEq]
        constructor
        · rintro ⟨tail, htail, hb, rfl⟩
          exact ⟨hb, htail⟩
        · rintro ⟨hb, hkey⟩
          exact ⟨key, hkey, hb, rfl⟩
      rw [Option.map_eq_some_iff, hcons, hpair, ih, hexDump_cons]
      simp only [EqNoCase, List.map_cons, List.cons.injEq, and_assoc]

theorem length_of_hexBytes {value key : Bytes} (h : hexBytes value = some key) :
    value.length = 2 * key.length := by
  rw [(hexBytes_eq_some_iff.mp h).length_eq, length_hexDump]

end NgxBrotli
