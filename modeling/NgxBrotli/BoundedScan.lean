import NgxBrotli.CursorWalker
import NgxBrotli.HeaderFilter

namespace NgxBrotli
open Scan

/-- The scan for `seg_end`. -/
def scanSegmentAt (fuel last : ℕ) : ℕ → Scan UInt8 ℕ :=
  loop (fun p => do
    if ← peek last (· != COMMA) p then
      if (← read p) = DQUOTE then return .inl (← quotedAt fuel last p)
      else return .inl (← move (p + 1))
    else return .inr p) fuel

/-- `ngx_http_brotli_cc_value_no_transform` -/
def ccValueNoTransformAt (fuel : ℕ) (value : NgxStr) : Scan UInt8 Bool :=
  loop (fun p => do
    if p < value.last then
      let start ← skipWhile fuel value.last isOws p
      let segEnd ← scanSegmentAt fuel value.last start
      let cut ← skipWhile fuel segEnd (fun c => c != SEMICOLON && c != EQUALS) start
      let nameEnd ← trimWhile fuel start isOws cut
      if ← matchesNameAt start nameEnd (ascii "no-transform") then return .inr true
      else if segEnd < value.last then return .inl (← move (segEnd + 1))
      else return .inl segEnd
    else return .inr false) fuel value.data

section

variable {m : ℕ → UInt8} {lo hi p e fuel : ℕ} {value : NgxStr} {l : Bytes}

theorem scanSegmentQuoted_eq (p : Bytes) :
    scanSegmentQuoted p = scanSegment (skipQuotedLoop p) := by
  fun_induction skipQuotedLoop p with
  | case1 => rw [scanSegmentQuoted, scanSegment]
  | case2 p => rw [scanSegmentQuoted.eq_def]; exact if_pos rfl
  | case3 => rw [scanSegmentQuoted.eq_def, scanSegment]; rfl
  | case4 c p hc ih => rw [← ih, scanSegmentQuoted.eq_def]; rfl
  | case5 c p hc hb ih =>
    rw [← ih, scanSegmentQuoted.eq_def]
    dsimp only
    rw [if_neg hc, if_neg hb]

theorem wp_scanSegmentAt (h : Piece m lo hi p e l) (hfuel : hi - lo < fuel) :
    Wp m (Touch.Within lo hi) (fun q => Piece m lo hi q e (scanSegment l))
      (scanSegmentAt fuel e p) := by
  refine wp_scan id (fun _ r => scanSegment r = scanSegment l) ?_ h rfl hfuel
  intro q r hr hscan
  rw [id] at hr
  rw [← hscan]
  obtain ⟨rfl, rfl⟩ | ⟨t, rfl, -, ht⟩ := hr.cases
  · rw [scanSegment, wp_if_peek_nil hr, wp_pure]
    exact hr
  rw [scanSegment]
  by_cases hc : m q = COMMA
  · rw [wp_if_peek_neg hr (by simpa using hc), if_pos hc, wp_pure]
    exact hr
  rw [wp_if_peek_pos hr (by simpa using hc), if_neg hc, wp_bind, wp_read]
  refine ⟨hr.read_within, ?_⟩
  by_cases hq : m q = DQUOTE
  · rw [if_pos hq, if_pos hq, wp_bind, scanSegmentQuoted_eq]
    apply (wp_quotedAt hr hfuel).mono
    intro q' hq'
    rw [wp_pure]
    exact ⟨_, hq', rfl, Nat.lt_succ_of_le (skipQuotedLoop_suffix t).length_le⟩
  · rw [if_neg hq, if_neg hq, wp_bind, wp_move, wp_pure]
    exact ⟨ht.move_within, _, ht, rfl, Nat.lt_succ_self _⟩

theorem piece_segment (h : Piece m lo hi p e l) {q : ℕ} (hq : Piece m lo hi q e (scanSegment l)) :
    Piece m lo hi p q (l.take (l.length - (scanSegment l).length)) := by
  obtain ⟨seg, hseg⟩ := (scanSegment_suffix l).1
  rw [take_of_append hseg]
  rw [← hseg] at h
  exact h.before hq

theorem wp_ccValueNoTransformAt (h : Piece m lo hi value.data value.last l)
    (hfuel : hi - lo < fuel) :
    Wp m (Touch.Within lo hi) (· = ccValueNoTransform l) (ccValueNoTransformAt fuel value) := by
  refine wp_scan id (fun _ r => ccValueNoTransform r = ccValueNoTransform l) ?_ h rfl hfuel
  intro q r hr hvalue
  rw [id] at hr
  rw [← hvalue]
  obtain ⟨heq, rfl⟩ | ⟨t, rfl, hlt, -⟩ := hr.cases
  · rw [if_neg (by omega), wp_pure, ccValueNoTransform]
    rfl
  rw [if_pos hlt, wp_bind, ccValueNoTransform]
  apply (wp_skipWhile hr hfuel).mono
  rintro start ⟨-, hstart⟩
  have hshort := (dropOws_suffix (m q :: t)).length_le
  generalize (m q :: t).dropWhile isOws = s at hstart hshort
  rw [wp_bind]
  apply (wp_scanSegmentAt hstart hfuel).mono
  intro segEnd hend
  rw [wp_bind]
  apply (wp_skipWhile (piece_segment hstart hend) hfuel).mono
  rintro cut ⟨hcut, -⟩
  rw [wp_bind]
  apply (wp_trimWhile hcut hfuel).mono
  intro nameEnd hname
  rw [wp_bind]
  apply (wp_matchesNameAt hname (ascii "no-transform")).mono
  rintro _ rfl
  rw [trimEnd]
  split
  · exact wp_pure.mpr rfl
  -- the next turn starts behind the comma, or at the end
  have hsuffix := (scanSegment_suffix s).1.length_le
  obtain ⟨rfl, hnil⟩ | ⟨t', hcons, hlt', ht'⟩ := hend.cases
  · rw [if_neg (Nat.lt_irrefl _), wp_pure, hnil]
    rw [hnil] at hend
    exact ⟨[], hend, rfl, Nat.succ_pos _⟩
  · rw [if_pos hlt', wp_bind, wp_move, wp_pure, hcons]
    rw [hcons, List.length_cons] at hsuffix
    exact ⟨ht'.move_within, t', ht', rfl, by omega⟩

end

/-- The walk over the comma-separated tokens of a value, up to the first that is `name`. -/
def varyHasTokenAt (fuel : ℕ) (value : NgxStr) (name : Bytes) : Scan UInt8 Bool :=
  loop (fun p => do
    if p < value.last then
      let tstart ← skipWhile fuel value.last isOws p
      if tstart < value.last then
        let p ← skipWhile fuel value.last (· != COMMA) tstart
        let tend ← trimWhile fuel tstart isOws p
        if ← matchesNameAt tstart tend name then return .inr true
        else if ← peek value.last (· == COMMA) p then return .inl (← move (p + 1))
        else return .inl p
      else return .inr false
    else return .inr false) fuel value.data

section

variable {m : ℕ → UInt8} {lo hi fuel : ℕ} {value : NgxStr} {name l t : Bytes} {c : UInt8}

theorem varyHasToken_done (h : l.dropWhile isOws = []) : varyHasToken name l = false := by
  rw [varyHasToken]
  split
  · rfl
  case h_2 heq => cases h.symm.trans heq

theorem varyHasToken_step (h : l.dropWhile isOws = c :: t) :
    varyHasToken name l =
      if matchesName (trimEnd ((c :: t).takeWhile (· != COMMA))) name then true
      else varyHasToken name ((c :: t).dropWhile (· != COMMA)).tail := by
  rw [varyHasToken]
  split
  case h_1 heq => cases h.symm.trans heq
  case h_2 heq =>
    obtain ⟨rfl, rfl⟩ := List.cons.inj (h.symm.trans heq)
    rfl

theorem wp_varyHasTokenAt (h : Piece m lo hi value.data value.last l) (hfuel : hi - lo < fuel)
    (name : Bytes) :
    Wp m (Touch.Within lo hi) (· = varyHasToken name l) (varyHasTokenAt fuel value name) := by
  refine wp_scan id (fun _ r => varyHasToken name r = varyHasToken name l) ?_ h rfl hfuel
  intro q r hr hvalue
  rw [id] at hr
  rw [← hvalue]
  obtain ⟨heq, rfl⟩ | ⟨t, rfl, hlt, -⟩ := hr.cases
  · rw [if_neg (by omega), wp_pure]
    exact (varyHasToken_done rfl).symm
  rw [if_pos hlt, wp_bind]
  apply (wp_skipWhile hr hfuel).mono
  rintro tstart ⟨-, hstart⟩
  obtain ⟨heq, hnil⟩ | ⟨s, hcons, hlt', -⟩ := hstart.cases
  · rw [if_neg (by omega), wp_pure]
    exact (varyHasToken_done hnil).symm
  have hshort := (dropOws_suffix (m q :: t)).length_le
  rw [if_pos hlt', varyHasToken_step hcons, wp_bind]
  rw [hcons] at hstart hshort
  apply (wp_skipWhile hstart hfuel).mono
  rintro p ⟨htok, hp⟩
  rw [wp_bind]
  apply (wp_trimWhile htok hfuel).mono
  intro tend htend
  rw [wp_bind]
  apply (wp_matchesNameAt htend name).mono
  rintro _ rfl
  rw [trimEnd]
  split
  · exact wp_pure.mpr rfl
  -- the next turn starts behind the comma, or at the end
  have hsuffix := (List.dropWhile_suffix (· != COMMA) (l := m tstart :: s)).length_le
  have hcomma := List.head?_dropWhile_not (· != COMMA) (m tstart :: s)
  generalize (m tstart :: s).dropWhile (· != COMMA) = rest at hp hsuffix hcomma
  cases rest with
  | nil =>
    rw [wp_if_peek_nil hp, wp_pure]
    exact ⟨[], hp, rfl, Nat.succ_pos _⟩
  | cons d u =>
    obtain ⟨-, hu⟩ := hp.of_cons
    rw [wp_if_peek_pos hp (by simpa using hcomma), wp_bind, wp_move, wp_pure]
    rw [List.length_cons] at hsuffix
    exact ⟨hu.move_within, u, hu, rfl, by omega⟩

end

def IsWeight (q : Int) : Prop := q = -1 ∨ 0 ≤ q ∧ q ≤ 1000

theorem isDigit_range {c : UInt8} (h : isDigit c = true) :
    0 ≤ (c.toNat : Int) - 0x30 ∧ (c.toNat : Int) - 0x30 ≤ 9 := by
  rw [isDigit, Bool.and_eq_true, decide_eq_true_eq, decide_eq_true_eq, UInt8.le_iff_toNat_le,
    UInt8.le_iff_toNat_le] at h
  change 0x30 ≤ c.toNat ∧ c.toNat ≤ 0x39 at h
  omega

theorem takeDigit_range {low high : Int} {qp : Int × Bytes} (h : low ≤ qp.1 ∧ qp.1 ≤ high)
    {scale : Int} (hscale : 0 ≤ scale) :
    low ≤ (takeDigit scale qp).1 ∧ (takeDigit scale qp).1 ≤ high + 9 * scale := by
  rw [takeDigit]
  split
  · omega
  · split
    case isTrue hd =>
      obtain ⟨hlow, hhigh⟩ := isDigit_range hd
      have hpos := mul_nonneg hlow hscale
      have hnine := mul_le_mul_of_nonneg_right hhigh hscale
      dsimp only
      omega
    case isFalse => omega

theorem qvalue_range {p : Bytes} {q : Int} (h : (qvalue p).1 = some q) : 0 ≤ q ∧ q ≤ 1000 := by
  have hdigits (p : Bytes) : 0 ≤ (takeDigit 1 (takeDigit 10 (takeDigit 100 (0, p)))).1 ∧
      (takeDigit 1 (takeDigit 10 (takeDigit 100 (0, p)))).1 ≤ 999 := by
    have hten : (0 : Int) ≤ 10 := by decide
    have h₁ : 0 ≤ (takeDigit 100 (0, p)).1 ∧ (takeDigit 100 (0, p)).1 ≤ 0 + 9 * 100 :=
      takeDigit_range ⟨le_rfl, le_rfl⟩ (by decide)
    exact takeDigit_range (takeDigit_range h₁ hten) zero_le_one
  revert h
  fun_cases qvalue p with
  | case1 => rintro ⟨⟩
  | case2 => rintro ⟨⟩; decide
  | case3 =>
    rintro ⟨⟩
    exact ⟨(hdigits _).1, (hdigits _).2.trans (by decide)⟩
  | case4 => rintro ⟨⟩; decide
  | case5 => rintro ⟨⟩; decide
  | case6 => rintro ⟨⟩; decide
  | case7 => rintro ⟨⟩; decide
  | case8 => rintro ⟨⟩

def Param.InRange : Param → Prop
  | .malformed _ _ => True
  | .next _ q _ _ => 0 ≤ q ∧ q ≤ 1000

section

variable {q : Int} (h : 0 ≤ q ∧ q ≤ 1000) (p : Bytes) (qSeen quotedName : Bool)
include h

theorem paramEnd_inRange : (paramEnd p q qSeen quotedName).InRange := by
  rw [paramEnd]
  split
  · exact h
  · trivial

theorem param_inRange : (param p q qSeen quotedName).InRange := by
  simp only [param]
  split
  · trivial
  split
  · split
    · split
      · trivial
      · split
        · trivial
        case h_2 hq =>
          split
          · exact paramEnd_inRange (qvalue_range (congrArg Prod.fst hq)) _ _ _
          · trivial
    · exact paramEnd_inRange h _ _ _
  · split
    · trivial
    · exact paramEnd_inRange h _ _ _

theorem evalQvalueLoop_isWeight : IsWeight (evalQvalueLoop p q qSeen quotedName).1 := by
  fun_induction evalQvalueLoop p q qSeen quotedName with
  | case1 => exact .inr h
  | case2 => exact .inl rfl
  | case3 q qSeen quotedName p p' q' qSeen' quotedName' hp ih =>
    have hq' := param_inRange h p qSeen quotedName
    rw [hp] at hq'
    exact ih hq'
  | case4 => exact .inr h

end

theorem evalQvalue_isWeight (p : Bytes) : IsWeight (evalQvalue p).1 :=
  evalQvalueLoop_isWeight (by decide) p false false

theorem element_isWeight (coding p : Bytes) : IsWeight (element coding p).q := by
  simp only [element]
  split
  · exact evalQvalue_isWeight _
  · change IsWeight 1000
    exact .inr (by decide)

theorem codingWeightLoop_isWeight (coding p : Bytes) {codingQ starQ : Int}
    (hcoding : IsWeight codingQ) (hstar : IsWeight starQ) :
    IsWeight (codingWeightLoop coding p codingQ starQ).1 ∧
      IsWeight (codingWeightLoop coding p codingQ starQ).2 := by
  fun_induction codingWeightLoop coding p codingQ starQ with
  | case1 => exact ⟨hcoding, hstar⟩
  | case2 p codingQ starQ c t _ e _ _ ih => exact ih (element_isWeight coding _) hstar
  | case3 p codingQ starQ c t _ e _ _ _ ih => exact ih hcoding (element_isWeight coding _)
  | case4 p codingQ starQ c t _ e _ _ _ ih => exact ih hcoding hstar
  | case5 p codingQ starQ c t _ e _ ih => exact ih hcoding hstar

theorem fieldWeight_isWeight {codingQ starQ : Int} (hcoding : IsWeight codingQ)
    (hstar : IsWeight starQ) (allowWildcard : Bool) :
    IsWeight (fieldWeight codingQ starQ allowWildcard) := by
  rw [fieldWeight]
  split
  · exact hcoding
  split
  · exact hstar
  · exact .inl rfl

def Weights.InRange (w : Weights) : Prop :=
  IsWeight w.result ∧ IsWeight w.explicitQ ∧ IsWeight w.starQ

theorem codingWeightEx_inRange (ae coding : Bytes) (allowWildcard : Bool) :
    (codingWeightEx ae coding allowWildcard).InRange := by
  obtain ⟨hcoding, hstar⟩ := codingWeightLoop_isWeight coding ae (.inl rfl) (.inl rfl)
  exact ⟨fieldWeight_isWeight hcoding hstar allowWildcard, hcoding, hstar⟩

def NgxStr.text (m : ℕ → UInt8) (s : NgxStr) : Bytes := (List.range' s.data s.len).map m

/-- On any fuel above the length of the value the scan ends with a result that satisfies `Q`, has
read the value only, and has left no cursor past its end. -/
def Bounded {α : Type} (m : ℕ → UInt8) (value : NgxStr) (Q : α → Prop) (scan : ℕ → Scan UInt8 α) :
    Prop :=
  ∀ fuel, value.len < fuel → Wp m (Touch.Within value.data value.last) Q (scan fuel)

section

variable (m : ℕ → UInt8) (value : NgxStr)

theorem piece_text : Piece m value.data value.last value.data value.last (value.text m) :=
  ⟨le_rfl, le_rfl, .range' m value.data value.len⟩

variable {m value}

theorem Bounded.intro {α : Type} {Q : α → Prop} {scan : ℕ → Scan UInt8 α}
    (h : ∀ fuel, value.last - value.data < fuel →
      Wp m (Touch.Within value.data value.last) Q (scan fuel)) : Bounded m value Q scan := by
  intro fuel hfuel
  rw [← Nat.add_sub_cancel_left (n := value.data) (m := value.len)] at hfuel
  exact h fuel hfuel

theorem exists_piece {p : ℕ} (hlow : value.data ≤ p) (hhigh : p ≤ value.last) :
    ∃ l, Piece m value.data value.last p value.last l := by
  obtain ⟨l, hl⟩ := Span.of_le m hhigh
  exact ⟨l, hlow, le_rfl, hl⟩

theorem skipQuoted_suffix (p : Bytes) : skipQuoted p <:+ p := by
  fun_cases skipQuoted p with
  | case1 => exact List.suffix_refl _
  | case2 p => exact (skipQuotedLoop_suffix p).trans (List.suffix_cons _ p)
  | case3 => exact List.suffix_refl _

theorem bounded_skipQuotedAt {p : ℕ} (hlow : value.data ≤ p) (hhigh : p ≤ value.last) :
    Bounded m value (fun q => p ≤ q ∧ q ≤ value.last) (skipQuotedAt · value.last p) := by
  obtain ⟨l, h⟩ := exists_piece (m := m) hlow hhigh
  refine .intro fun fuel hfuel => (wp_skipQuotedAt h hfuel).mono fun q hq => ?_
  exact h.le_of_suffix hq (skipQuoted_suffix l)

theorem bounded_evalQvalueAt {pp : ℕ} (hlow : value.data ≤ pp) (hhigh : pp ≤ value.last) :
    Bounded m value (fun r => IsWeight r.1 ∧ pp ≤ r.2 ∧ r.2 ≤ value.last)
      (evalQvalueAt · value pp) := by
  obtain ⟨l, h⟩ := exists_piece (m := m) hlow hhigh
  refine .intro fun fuel hfuel => (wp_evalQvalueAt h hfuel).mono ?_
  rintro r ⟨hweight, hcursor⟩
  have hsuffix : (evalQvalue l).2 <:+ l := by
    unfold evalQvalue
    dsimp only
    split
    · exact List.suffix_refl l
    · exact evalQvalueLoop_suffix l 1000 false false
  exact ⟨hweight ▸ evalQvalue_isWeight l, h.le_of_suffix hcursor hsuffix⟩

end

/-- Every scan of a header value ends inside the value, whatever memory holds in it and behind it,
and every weight is -1 or between 0 and 1000. -/
theorem header_scans_bounded (m : ℕ → UInt8) (value : NgxStr) :
    (∀ p, value.data ≤ p → p ≤ value.last →
      Bounded m value (fun q => p ≤ q ∧ q ≤ value.last) (skipQuotedAt · value.last p)) ∧
    (∀ pp, value.data ≤ pp → pp ≤ value.last →
      Bounded m value (fun r => IsWeight r.1 ∧ pp ≤ r.2 ∧ r.2 ≤ value.last)
        (evalQvalueAt · value pp)) ∧
    (∀ coding allowWildcard,
      Bounded m value
        (fun w => w = codingWeightEx (value.text m) coding allowWildcard ∧ w.InRange)
        (codingWeightExAt · value coding allowWildcard)) ∧
    Bounded m value (· = ccValueNoTransform (value.text m)) (ccValueNoTransformAt · value) ∧
    Bounded m value (· = varyHasToken (ascii "Accept-Encoding") (value.text m))
      (varyHasTokenAt · value (ascii "Accept-Encoding")) := by
  have h := piece_text m value
  refine ⟨fun _ => bounded_skipQuotedAt, fun _ => bounded_evalQvalueAt, ?_, ?_, ?_⟩
  · refine fun coding allowWildcard => .intro fun fuel hfuel => ?_
    apply (wp_codingWeightExAt h hfuel coding allowWildcard).mono
    rintro _ rfl
    exact ⟨rfl, codingWeightEx_inRange _ coding allowWildcard⟩
  · exact .intro fun fuel hfuel => wp_ccValueNoTransformAt h hfuel
  · exact .intro fun fuel hfuel => wp_varyHasTokenAt h hfuel (ascii "Accept-Encoding")

/-- An opening quote with an escape as the last byte, and a DQUOTE in the byte behind the value. -/
theorem header_scans_bounded_escape :
    ∃ m : ℕ → UInt8, (NgxStr.mk 100 7).text m = ascii "br;x=\"\\" ∧ m 107 = DQUOTE ∧
      Wp m (Touch.Within 100 107) (fun q => 105 ≤ q ∧ q ≤ 107) (skipQuotedAt 8 107 105) ∧
      Wp m (Touch.Within 100 107) (fun r => IsWeight r.1 ∧ 102 ≤ r.2 ∧ r.2 ≤ 107)
        (evalQvalueAt 8 ⟨100, 7⟩ 102) := by
  let m (p : ℕ) : UInt8 := (ascii "br;x=\"\\\"").getD (p - 100) 0
  obtain ⟨hquoted, hqvalue, -⟩ := header_scans_bounded m ⟨100, 7⟩
  exact ⟨m, by decide +kernel, by decide +kernel,
    hquoted 105 (by decide) (by decide) 8 (by decide),
    hqvalue 102 (by decide) (by decide) 8 (by decide)⟩

end NgxBrotli
