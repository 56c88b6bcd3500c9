import NgxBrotli.BodyFilter
import NgxBrotli.LongDivision

namespace NgxBrotli

/-- One turn of the loop that peels whole divisors off; `acc` and the digit. -/
def peelStep (remainder bytesOut : UInt64) (p : UInt64 × UInt64) : UInt64 × UInt64 :=
  let acc := p.1 + remainder
  -- wrapped past, or reached, one whole `bytes_out`
  if acc ≥ bytesOut ∨ acc < remainder then (acc - bytesOut, p.2 + 1) else (acc, p.2)

/-- The first `k` turns of it. -/
def peel (remainder bytesOut : UInt64) : ℕ → UInt64 × UInt64
  | 0 => (remainder, 0)
  | k + 1 => peelStep remainder bytesOut (peel remainder bytesOut k)

abbrev UINT64_MAX : UInt64 := 0xffffffffffffffff

/-- One turn of the digit loop; the remainder and `frac`. -/
def ratioDigit (bytesOut : UInt64) (p : UInt64 × UInt64) : UInt64 × UInt64 :=
  if p.1 ≤ UINT64_MAX / 10 then
    let remainder := p.1 * 10
    (remainder % bytesOut, p.2 * 10 + remainder / bytesOut)
  else
    let (acc, digit) := peel p.1 bytesOut 9
    (acc, p.2 * 10 + digit)

/-- The first `i` turns of it. -/
def ratioDigits (bytesIn bytesOut : UInt64) : ℕ → UInt64 × UInt64
  | 0 => (bytesIn % bytesOut, 0)
  | i + 1 => ratioDigit bytesOut (ratioDigits bytesIn bytesOut i)

/-- `ngx_http_brotli_ratio_parts`: `ratio_int` and `ratio_frac`, or `none`, a division by zero. -/
def ratioParts (bytesIn bytesOut : UInt64) : Option (UInt64 × UInt64) :=
  if bytesOut = 0 then none
  else some (bytesIn / bytesOut, (ratioDigits bytesIn bytesOut 3).2)

/-- `ngx_http_variable_value_t` -/
structure VariableValue where
  valid : Bool
  noCacheable : Bool
  notFound : Bool
  data : Bytes
  deriving DecidableEq, Repr

/-- The third digit is rounded away. -/
def roundRatio (ratioInt ratioFrac : UInt64) : UInt64 × UInt64 :=
  if ratioFrac % 10 > 4 then
    let ratioFrac := ratioFrac / 10 + 1
    if ratioFrac > 99 then (ratioInt + 1, 0) else (ratioInt, ratioFrac)
  else (ratioInt, ratioFrac / 10)

/-- `ngx_http_brotli_ratio_variable`: the return code and the value, or `none`, a division by zero.
`sprintfUi` is `ngx_sprintf` on `%ui`, padded with zeros to a width. -/
def ratioVariable {σ : Type} (sprintfUi : ℕ → UInt64 → Bytes) (ctx : Option (BodyCtx σ))
    (allocOk : Bool) (v : VariableValue) : Option (Int × VariableValue) :=
  let v := { v with valid := true, noCacheable := false, notFound := false }
  match ctx with
  | none => some (NGX_OK, { v with notFound := true })
  | some ctx =>
    if !ctx.success then some (NGX_OK, { v with notFound := true })
    else if !allocOk then some (NGX_ERROR, { v with data := [] })
    else
      (ratioParts ctx.bytesIn ctx.bytesOut).map fun (ratioInt, ratioFrac) =>
        let (ratioInt, ratioFrac) := roundRatio ratioInt ratioFrac
        (NGX_OK, { v with data := sprintfUi 0 ratioInt ++ [DOT] ++ sprintfUi 2 ratioFrac })

/-- What `ngx_sprintf` writes for `%ui`: the digits of the number, and zeros before them up to the
width. -/
structure WritesUi (sprintfUi : ℕ → UInt64 → Bytes) : Prop where
  digits (width : ℕ) (n : UInt64) : (sprintfUi width n).all isDigit = true
  value (width : ℕ) (n : UInt64) : decimal (sprintfUi width n) = n.toNat
  length (width : ℕ) (n : UInt64) :
    (sprintfUi width n).length = max width (Nat.log 10 n.toNat + 1)

section

variable {bytesIn bytesOut remainder frac : UInt64}

theorem peel_spec (hr : remainder.toNat < bytesOut.toNat) {k : ℕ} (hk : k < 10) :
    (peel remainder bytesOut k).1.toNat = (k + 1) * remainder.toNat % bytesOut.toNat ∧
      (peel remainder bytesOut k).2.toNat = (k + 1) * remainder.toNat / bytesOut.toNat ∧
      (peel remainder bytesOut k).2.toNat ≤ k := by
  induction k with
  | zero => simp [peel, Nat.mod_eq_of_lt hr, Nat.div_eq_of_lt hr]
  | succ k ih =>
    obtain ⟨hacc, hdigit, hle⟩ := ih (by omega)
    obtain ⟨hdiv, hmod⟩ := LongDivision.add_multiple (m := k + 1) hr
    have hlt : (peel remainder bytesOut k).1.toNat < bytesOut.toNat := by
      rw [hacc]
      exact Nat.mod_lt _ (Nat.zero_lt_of_lt hr)
    rw [peel, peelStep, hdiv, hmod, ← hacc, ← hdigit]
    by_cases hover : bytesOut.toNat ≤ (peel remainder bytesOut k).1.toNat + remainder.toNat
    · rw [if_pos ((LongDivision.wrapped_iff hlt).mpr hover), if_pos hover, if_pos hover]
      refine ⟨LongDivision.toNat_add_sub hlt hover, ?_⟩
      rw [UInt64.toNat_add, UInt64.toNat_one]
      omega
    · rw [if_neg (mt (LongDivision.wrapped_iff hlt).mp hover), if_neg hover, if_neg hover]
      exact ⟨LongDivision.toNat_add_of_lt (Nat.lt_of_not_le hover), rfl, Nat.le_succ_of_le hle⟩

theorem ratioDigit_spec (hr : remainder.toNat < bytesOut.toNat) (hf : frac.toNat < 2 ^ 32) :
    (ratioDigit bytesOut (remainder, frac)).1.toNat = 10 * remainder.toNat % bytesOut.toNat ∧
      (ratioDigit bytesOut (remainder, frac)).2.toNat =
        10 * frac.toNat + 10 * remainder.toNat / bytesOut.toNat := by
  have hlt : 10 * remainder.toNat / bytesOut.toNat < 10 := by
    have :=
      LongDivision.digit_lt (n := remainder.toNat) (b := 10) (by decide) (Nat.zero_lt_of_lt hr)
    rwa [Nat.mod_eq_of_lt hr] at this
  have hten : (10 : UInt64).toNat = 10 := rfl
  have hstep {digit : UInt64} (hd : digit.toNat = 10 * remainder.toNat / bytesOut.toNat) :
      (frac * 10 + digit).toNat = 10 * frac.toNat + digit.toNat := by
    rw [UInt64.toNat_add, UInt64.toNat_mul, hten]
    omega
  unfold ratioDigit
  split
  case isTrue hsmall =>
    have hmax : remainder.toNat ≤ 1844674407370955161 := UInt64.le_iff_toNat_le.mp hsmall
    have hmul : (remainder * 10).toNat = 10 * remainder.toNat := by
      rw [UInt64.toNat_mul, hten]
      omega
    have hdigit : (remainder * 10 / bytesOut).toNat = 10 * remainder.toNat / bytesOut.toNat := by
      rw [UInt64.toNat_div, hmul]
    exact ⟨by rw [UInt64.toNat_mod, hmul], (hstep hdigit).trans (by rw [hdigit])⟩
  case isFalse hlarge =>
    -- the product may wrap, so its multiples are added one by one
    obtain ⟨hacc, hdigit, -⟩ := peel_spec hr (k := 9) (by decide)
    exact ⟨hacc, (hstep hdigit).trans (by rw [hdigit])⟩

theorem ratioDigits_spec (bytesIn : UInt64) (hout : 0 < bytesOut.toNat) {i : ℕ} (hi : i ≤ 9) :
    (ratioDigits bytesIn bytesOut i).1.toNat = 10 ^ i * bytesIn.toNat % bytesOut.toNat ∧
      (ratioDigits bytesIn bytesOut i).2.toNat =
        10 ^ i * bytesIn.toNat / bytesOut.toNat % 10 ^ i := by
  induction i with
  | zero => simp [ratioDigits, UInt64.toNat_mod, Nat.mod_one]
  | succ i ih =>
    obtain ⟨hrem, hfrac⟩ := ih (by omega)
    have hr : (ratioDigits bytesIn bytesOut i).1.toNat < bytesOut.toNat := by
      rw [hrem]
      exact Nat.mod_lt _ hout
    have hf : (ratioDigits bytesIn bytesOut i).2.toNat < 2 ^ 32 := by
      have hpow : 10 ^ i ≤ 10 ^ 9 := Nat.pow_le_pow_right (by decide) (by omega)
      have hmod := Nat.mod_lt (10 ^ i * bytesIn.toNat / bytesOut.toNat)
        (Nat.pow_pos (n := i) (show 0 < 10 by decide))
      omega
    obtain ⟨hrem', hfrac'⟩ := ratioDigit_spec hr hf
    have hdigit := LongDivision.digit_lt (n := 10 ^ i * bytesIn.toNat) (b := 10) (by decide) hout
    rw [ratioDigits, hrem', hfrac', hrem, hfrac, pow_succ', mul_assoc]
    refine ⟨LongDivision.mod_next.symm, ?_⟩
    rw [LongDivision.div_next (b := 10) (n := 10 ^ i * bytesIn.toNat) hout,
      LongDivision.append_digit hdigit]

/-- `ngx_http_brotli_ratio_parts` is the quotient and three exact decimals. -/
theorem ratioParts_spec (bytesIn : UInt64) (hout : 0 < bytesOut.toNat) :
    ∃ ratioInt ratioFrac, ratioParts bytesIn bytesOut = some (ratioInt, ratioFrac) ∧
      ratioInt.toNat = bytesIn.toNat / bytesOut.toNat ∧
      ratioFrac.toNat = 1000 * bytesIn.toNat / bytesOut.toNat % 1000 := by
  have hne : bytesOut ≠ 0 := by
    rintro rfl
    exact absurd hout (by decide)
  refine ⟨_, _, if_neg hne, UInt64.toNat_div _ _, ?_⟩
  exact (ratioDigits_spec bytesIn hout (i := 3) (by decide)).2

/-- Three decimals, rounded half up to two: the carry reaches the integer part without a wrap. -/
theorem roundRatio_spec {ratioInt ratioFrac : UInt64} (hfrac : ratioFrac.toNat < 1000)
    (hint : ratioInt.toNat < 2 ^ 64 - 1 ∨ ratioFrac.toNat < 995) :
    100 * (roundRatio ratioInt ratioFrac).1.toNat + (roundRatio ratioInt ratioFrac).2.toNat =
        (1000 * ratioInt.toNat + ratioFrac.toNat + 5) / 10 ∧
      (roundRatio ratioInt ratioFrac).2.toNat < 100 := by
  have hmod : (ratioFrac % 10).toNat = ratioFrac.toNat % 10 := UInt64.toNat_mod _ _
  have hdiv : (ratioFrac / 10).toNat = ratioFrac.toNat / 10 := UInt64.toNat_div _ _
  have hnext : (ratioFrac / 10 + 1).toNat = ratioFrac.toNat / 10 + 1 := by
    rw [UInt64.toNat_add, hdiv, UInt64.toNat_one]
    omega
  have hup : ratioFrac % 10 > 4 ↔ 4 < ratioFrac.toNat % 10 := by
    rw [gt_iff_lt, UInt64.lt_iff_toNat_lt, hmod]
    rfl
  have hcarry : ratioFrac / 10 + 1 > 99 ↔ 99 < ratioFrac.toNat / 10 + 1 := by
    rw [gt_iff_lt, UInt64.lt_iff_toNat_lt, hnext]
    rfl
  unfold roundRatio
  by_cases h : ratioFrac % 10 > 4
  · rw [if_pos h]
    rw [hup] at h
    by_cases hc : ratioFrac / 10 + 1 > 99
    · simp only [if_pos hc]
      rw [hcarry] at hc
      rw [UInt64.toNat_add, UInt64.toNat_one, UInt64.toNat_zero]
      omega
    · simp only [if_neg hc]
      rw [hcarry] at hc
      rw [hnext]
      omega
  · rw [if_neg h]
    rw [hup] at h
    dsimp only
    rw [hdiv]
    omega

end

theorem hundredths_eq {n d : ℕ} (hd : 0 < d) :
    (200 * n + d) / (2 * d) = (1000 * (n / d) + 1000 * n / d % 1000 + 5) / 10 := by
  have hquot : 1000 * n / d / 1000 = n / d := by
    rw [Nat.div_div_eq_div_mul, Nat.mul_comm d, Nat.mul_div_mul_left _ _ (by decide)]
  have hthousandths : 1000 * (n / d) + 1000 * n / d % 1000 = 1000 * n / d := by
    rw [← hquot, Nat.div_add_mod]
  calc (200 * n + d) / (2 * d) = 5 * (200 * n + d) / (5 * (2 * d)) :=
        (Nat.mul_div_mul_left _ _ (by decide)).symm
    _ = (1000 * n + 5 * d) / (d * 10) := by congr 1 <;> ring
    _ = (1000 * n / d + 5) / 10 := by
        rw [← Nat.div_div_eq_div_mul, Nat.add_mul_div_right _ _ hd]
    _ = (1000 * (n / d) + 1000 * n / d % 1000 + 5) / 10 := by rw [hthousandths]

theorem quotient_lt_or {n d : ℕ} (hn : n < 2 ^ 64) (hd : 0 < d) :
    n / d < 2 ^ 64 - 1 ∨ 1000 * n / d % 1000 < 995 := by
  obtain rfl | h2 : d = 1 ∨ 2 ≤ d := by omega
  · right
    rw [Nat.div_one, Nat.mul_mod_right]
    decide
  · left
    have hhalf : n / d ≤ n / 2 := Nat.div_le_div_left h2 two_pos
    omega

theorem log_ten_lt (n : UInt64) : Nat.log 10 n.toNat < 20 := by
  apply Nat.log_lt_of_lt_pow'
  · decide
  · exact n.toNat_lt.trans (by decide)

/-- The ratio is exact: the parts are those of the fraction, and the printed value is the fraction
in hundredths, rounded half up, in at most 23 characters. -/
theorem ratio_exact {sprintfUi : ℕ → UInt64 → Bytes} (hprint : WritesUi sprintfUi)
    (bytesIn bytesOut : UInt64) (hout : 1 ≤ bytesOut.toNat) :
    (∃ ratioInt ratioFrac, ratioParts bytesIn bytesOut = some (ratioInt, ratioFrac) ∧
      ratioInt.toNat = bytesIn.toNat / bytesOut.toNat ∧
      ratioFrac.toNat = 1000 * bytesIn.toNat / bytesOut.toNat % 1000) ∧
    ∀ (σ : Type) (ctx : BodyCtx σ) (v : VariableValue), ctx.success = true →
      ctx.bytesIn = bytesIn → ctx.bytesOut = bytesOut →
      ∃ whole cents, ratioVariable sprintfUi (some ctx) true v =
          some (NGX_OK, ⟨true, false, false, whole ++ [DOT] ++ cents⟩) ∧
        (whole ++ cents).all isDigit = true ∧ whole ≠ [] ∧ cents.length = 2 ∧
        decimal (whole ++ cents) =
          ((200 * bytesIn.toNat + bytesOut.toNat) / (2 * bytesOut.toNat) : ℕ) ∧
        (whole ++ [DOT] ++ cents).length ≤ 23 := by
  obtain ⟨ratioInt, ratioFrac, hparts, hint, hfrac⟩ := ratioParts_spec bytesIn hout
  refine ⟨⟨ratioInt, ratioFrac, hparts, hint, hfrac⟩, fun σ ctx v hs hin hout' => ?_⟩
  have hlt : ratioFrac.toNat < 1000 := by
    rw [hfrac]
    exact Nat.mod_lt _ (by decide)
  have hfits : ratioInt.toNat < 2 ^ 64 - 1 ∨ ratioFrac.toNat < 995 := by
    rw [hint, hfrac]
    exact quotient_lt_or bytesIn.toNat_lt hout
  obtain ⟨hround, hcents⟩ := roundRatio_spec hlt hfits
  obtain ⟨whole, cents, hr⟩ : ∃ whole cents, roundRatio ratioInt ratioFrac = (whole, cents) :=
    ⟨_, _, rfl⟩
  rw [hr] at hround hcents
  have hlog : Nat.log 10 cents.toNat + 1 ≤ 2 := Nat.log_lt_of_lt_pow' (by decide) hcents
  have hlength : (sprintfUi 2 cents).length = 2 := by
    rw [hprint.length]
    omega
  have hwhole := hprint.length 0 whole
  have hlog20 := log_ten_lt whole
  refine ⟨sprintfUi 0 whole, sprintfUi 2 cents, ?_, ?_, ?_, hlength, ?_, ?_⟩
  · simp [ratioVariable, hs, hin, hout', hparts, hr]
  · rw [List.all_append, hprint.digits, hprint.digits]
    rfl
  · rw [← List.length_pos_iff, hwhole]
    omega
  · rw [decimal_append, hprint.value, hprint.value, hlength, hundredths_eq hout, ← hint, ← hfrac,
      ← hround]
    push_cast
    ring
  · rw [List.length_append, List.length_append, List.length_singleton, hwhole, hlength]
    omega

def uiDigits (n : ℕ) : Bytes :=
  if n = 0 then [0x30] else (Nat.digits 10 n).reverse.map fun d => UInt8.ofNat (0x30 + d)

def decimalUi (width : ℕ) (n : UInt64) : Bytes :=
  List.replicate (width - (uiDigits n.toNat).length) 0x30 ++ uiDigits n.toNat

theorem toNat_digit {d : ℕ} (hd : d < 10) : (UInt8.ofNat (0x30 + d)).toNat = 0x30 + d := by
  rw [UInt8.toNat_ofNat']
  omega

theorem isDigit_digit {d : ℕ} (hd : d < 10) : isDigit (UInt8.ofNat (0x30 + d)) = true := by
  have hval := toNat_digit hd
  rw [isDigit, Bool.and_eq_true, decide_eq_true_eq, decide_eq_true_eq, UInt8.le_iff_toNat_le,
    UInt8.le_iff_toNat_le, hval]
  exact ⟨Nat.le_add_right _ _, by change 0x30 + d ≤ 0x39; omega⟩

theorem length_uiDigits (n : ℕ) : (uiDigits n).length = Nat.log 10 n + 1 := by
  unfold uiDigits
  split
  case isTrue h => simp [h]
  case isFalse h => simp [Nat.length_digits 10 n (by decide) h]

theorem decimal_digits {ds : List ℕ} (h : ∀ d ∈ ds, d < 10) :
    decimal (ds.reverse.map fun d => UInt8.ofNat (0x30 + d)) = (Nat.ofDigits 10 ds : ℕ) := by
  induction ds with
  | nil => rfl
  | cons d ds ih =>
    have hd := toNat_digit (h d List.mem_cons_self)
    rw [List.reverse_cons, List.map_append, decimal_append,
      ih fun e he => h e (List.mem_cons_of_mem d he), Nat.ofDigits_cons]
    simp only [decimal, List.map_cons, List.map_nil, List.foldl_cons, List.foldl_nil,
      List.length_singleton, hd]
    push_cast
    ring

theorem decimal_uiDigits (n : ℕ) : decimal (uiDigits n) = n := by
  unfold uiDigits
  split
  case isTrue h =>
    subst h
    rfl
  case isFalse =>
    rw [decimal_digits fun d hd => Nat.digits_lt_base (by decide) hd, Nat.ofDigits_digits]

theorem decimal_zeros (k : ℕ) : decimal (List.replicate k 0x30) = 0 := by
  induction k with
  | zero => rfl
  | succ k ih =>
    rw [List.replicate_succ', decimal_append, ih]
    rfl

theorem decimalUi_writes : WritesUi decimalUi where
  digits width n := by
    rw [decimalUi, List.all_append, Bool.and_eq_true, List.all_eq_true, List.all_eq_true]
    constructor
    · intro c hc
      rw [List.eq_of_mem_replicate hc]
      rfl
    · intro c hc
      unfold uiDigits at hc
      split at hc
      case isTrue =>
        rw [List.mem_singleton.mp hc]
        rfl
      case isFalse =>
        obtain ⟨d, hd, rfl⟩ := List.mem_map.mp hc
        exact isDigit_digit (Nat.digits_lt_base (by decide) (List.mem_reverse.mp hd))
  value width n := by
    rw [decimalUi, decimal_append, decimal_zeros, decimal_uiDigits, Int.zero_mul, Int.zero_add]
  length width n := by
    rw [decimalUi, List.length_append, List.length_replicate, length_uiDigits]
    omega

def BodyCtx.counted (bytesIn bytesOut : UInt64) : BodyCtx Unit :=
  { BodyCtx.ofFilterCtx ⟨-1, none⟩ with success := true, bytesIn := bytesIn, bytesOut := bytesOut }

/-- 1.999 is printed as 2.00. -/
theorem ratio_exact_carry :
    ∃ whole cents,
        ratioVariable decimalUi (some (.counted 1999 1000)) true ⟨false, true, true, []⟩ =
        some (NGX_OK, ⟨true, false, false, whole ++ [DOT] ++ cents⟩) ∧
      decimal (whole ++ cents) = 200 := by
  have hratio := (ratio_exact decimalUi_writes 1999 1000 (by decide)).2
  obtain ⟨whole, cents, hvalue, -, -, -, hdecimal, -⟩ :=
    hratio Unit (.counted 1999 1000) ⟨false, true, true, []⟩ rfl rfl rfl
  exact ⟨whole, cents, hvalue, hdecimal⟩

end NgxBrotli
