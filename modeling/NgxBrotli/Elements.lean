import NgxBrotli.AcceptEncoding
import NgxBrotli.QuotedSplit
import NgxBrotli.Scopes

namespace NgxBrotli
open QuotedSplit LastWins

/-- The value from the start of each top-level element on. -/
abbrev topStarts (v : Bytes) : List Bytes := starts DQUOTE BACKSLASH COMMA v

/-- The top-level elements, each with what follows it in the value. -/
abbrev topElements (v : Bytes) : List (Bytes × Bytes) := pieces DQUOTE BACKSLASH COMMA .outside v

theorem skipQuotedLoop_eq_afterRun (p : Bytes) :
    skipQuotedLoop p = afterRun DQUOTE BACKSLASH .inside p := by
  fun_induction skipQuotedLoop p with
  | case1 => rfl
  | case2 p => rfl
  | case3 => rfl
  | case4 c p _ ih =>
    rw [afterRun, afterRun]
    exact ih
  | case5 c p hq hb ih =>
    rw [afterRun, next, if_neg hq, if_neg hb]
    exact ih

theorem skipElement_eq_dropPiece (p : Bytes) :
    skipElement p = dropPiece DQUOTE BACKSLASH COMMA .outside p := by
  unfold skipElement
  fun_induction skipTo (· == COMMA) p with
  | case1 => rfl
  | case2 c p h => rw [dropPiece, if_pos ⟨rfl, by simpa using h⟩]
  | case3 p h ih =>
    rw [ih, dropPiece, if_neg (by decide), skipQuoted_quote, skipQuotedLoop_eq_afterRun]
    exact (dropPiece_inside DQUOTE BACKSLASH COMMA .inside (by decide) p).symm
  | case4 c p h hq ih =>
    rw [ih, dropPiece, if_neg (fun e => h (by simpa using e.2)), next, if_neg hq]

theorem skipElement_eq_nil_or_comma (p : Bytes) :
    skipElement p = [] ∨ ∃ t, skipElement p = COMMA :: t := by
  rw [skipElement_eq_dropPiece]
  exact dropPiece_eq_nil_or_sep DQUOTE BACKSLASH COMMA .outside p

@[simp] theorem skipElement_nil : skipElement [] = [] := by rw [skipElement, skipTo]

@[simp] theorem skipElement_comma (p : Bytes) : skipElement (COMMA :: p) = COMMA :: p := by
  rw [skipElement, skipTo, if_pos (by decide)]

theorem skipElement_quote (p : Bytes) :
    skipElement (DQUOTE :: p) = skipElement (skipQuotedLoop p) := by
  rw [skipElement, skipTo, if_neg (by decide), if_pos rfl]
  rfl

theorem skipElement_cons {c : UInt8} (hc : c ≠ COMMA) (hq : c ≠ DQUOTE) (p : Bytes) :
    skipElement (c :: p) = skipElement p := by
  rw [skipElement, skipTo, if_neg (by simpa using hc), if_neg hq]
  rfl

/-- `p'` is `p` past some bytes that are neither commas nor quotes. -/
def PlainSuffix (p' p : Bytes) : Prop := ∃ w, p = w ++ p' ∧ COMMA ∉ w ∧ DQUOTE ∉ w

theorem PlainSuffix.refl (p : Bytes) : PlainSuffix p p := ⟨[], rfl, by simp, by simp⟩

theorem PlainSuffix.trans {p p' p'' : Bytes} (h : PlainSuffix p'' p') (h' : PlainSuffix p' p) :
    PlainSuffix p'' p := by
  obtain ⟨w, rfl, hc, hq⟩ := h
  obtain ⟨w', rfl, hc', hq'⟩ := h'
  exact ⟨w' ++ w, by simp, by simp [hc, hc'], by simp [hq, hq']⟩

theorem PlainSuffix.cons {p' p : Bytes} {c : UInt8} (h : PlainSuffix p' p)
    (hc : c ≠ COMMA) (hq : c ≠ DQUOTE) : PlainSuffix p' (c :: p) :=
  h.trans ⟨[c], rfl, by simpa using hc.symm, by simpa using hq.symm⟩

theorem PlainSuffix.dropWhile {f : UInt8 → Bool} {p : Bytes} (hc : f COMMA = false)
    (hq : DQUOTE ∉ p.takeWhile f) : PlainSuffix (p.dropWhile f) p := by
  refine ⟨p.takeWhile f, List.takeWhile_append_dropWhile.symm, fun h => ?_, hq⟩
  have := List.mem_takeWhile_imp h
  rw [hc] at this
  exact Bool.false_ne_true this

theorem quote_notMem_takeWhile {f : UInt8 → Bool} {p : Bytes} (hq : f DQUOTE = false) :
    DQUOTE ∉ p.takeWhile f := by
  intro h
  have := List.mem_takeWhile_imp h
  rw [hq] at this
  exact Bool.false_ne_true this

theorem PlainSuffix.dropOws (p : Bytes) : PlainSuffix (p.dropWhile isOws) p :=
  .dropWhile rfl (quote_notMem_takeWhile rfl)

theorem PlainSuffix.skipElement_eq {p' p : Bytes} (h : PlainSuffix p' p) :
    skipElement p' = skipElement p := by
  obtain ⟨w, rfl, hc, hq⟩ := h
  induction w with
  | nil => rfl
  | cons c w ih =>
    rw [List.mem_cons, not_or] at hc hq
    rw [List.cons_append, skipElement_cons (Ne.symm hc.1) (Ne.symm hq.1)]
    exact ih hc.2 hq.2

theorem skipElement_skipValue (p : Bytes) : skipElement (skipValue p) = skipElement p := by
  unfold skipValue
  fun_induction skipTo (fun c => c == SEMICOLON || c == COMMA) p with
  | case1 => rfl
  | case2 => rfl
  | case3 p h ih => rw [ih, skipElement_quote, skipQuoted_quote]
  | case4 c p h hq ih =>
    have hc : c ≠ COMMA := fun e => h (by simp [e])
    rw [ih, skipElement_cons hc hq]

theorem isDigit_ne {c : UInt8} (h : isDigit c = true) : c ≠ COMMA ∧ c ≠ DQUOTE := by
  constructor <;> (rintro rfl; exact absurd h (by decide))

theorem plainSuffix_takeDigit (scale : Int) (qp : Int × Bytes) :
    PlainSuffix (takeDigit scale qp).2 qp.2 := by
  obtain ⟨q, p⟩ := qp
  cases p with
  | nil => exact .refl _
  | cons c p =>
    simp only [takeDigit]
    split
    case isTrue h => exact (PlainSuffix.refl p).cons (isDigit_ne h).1 (isDigit_ne h).2
    case isFalse => exact .refl _

theorem plainSuffix_skipZeros (n : ℕ) (p : Bytes) : PlainSuffix (skipZeros n p) p := by
  fun_induction skipZeros n p with
  | case1 n p ih => exact ih.cons (by decide) (by decide)
  | case2 => exact .refl _
  | case3 => exact .refl _

theorem plainSuffix_qvalue (p : Bytes) : PlainSuffix (qvalue p).2 p := by
  have hd (p' : Bytes) :
      PlainSuffix (takeDigit 1 (takeDigit 10 (takeDigit 100 (0, p')))).2 p' :=
    ((plainSuffix_takeDigit 1 _).trans (plainSuffix_takeDigit 10 _)).trans
      (plainSuffix_takeDigit 100 (0, p'))
  have hz (p' : Bytes) : PlainSuffix (skipZeros 3 p') p' := plainSuffix_skipZeros 3 p'
  have hr (p' : Bytes) : PlainSuffix p' p' := .refl p'
  have hcons (p' p : Bytes) (c : UInt8) (h : PlainSuffix p' p) (h1 : c ≠ COMMA)
      (h2 : c ≠ DQUOTE) : PlainSuffix p' (c :: p) := h.cons h1 h2
  fun_cases qvalue p <;> grind

def Param.quotedName : Param → Bool
  | .malformed _ n => n
  | .next _ _ _ n => n

theorem quotedName_paramEnd (p : Bytes) (q : Int) (qSeen quotedName : Bool) :
    (paramEnd p q qSeen quotedName).quotedName = quotedName := by
  rw [paramEnd]
  split <;> rfl

theorem quotedName_param (p : Bytes) (q : Int) (qSeen quotedName : Bool) :
    (param p q qSeen quotedName).quotedName =
      (quotedName || ((p.dropWhile isOws).takeWhile isParamNameByte).contains DQUOTE) := by
  simp only [param]
  split
  · rfl
  split
  · split
    · split
      · rfl
      · split
        · rfl
        · split
          · exact quotedName_paramEnd _ _ _ _
          · rfl
    · exact quotedName_paramEnd _ _ _ _
  · split
    · rfl
    · exact quotedName_paramEnd _ _ _ _

theorem skipElement_paramEnd (p : Bytes) (q : Int) (qSeen quotedName : Bool) :
    skipElement (paramEnd p q qSeen quotedName).cursor = skipElement p := by
  rw [paramEnd]
  split <;> exact (PlainSuffix.dropOws p).skipElement_eq

theorem skipElement_param {p : Bytes} {q : Int} {qSeen quotedName : Bool}
    (h : (param p q qSeen quotedName).quotedName = false) :
    skipElement (param p q qSeen quotedName).cursor = skipElement p := by
  rw [quotedName_param, Bool.or_eq_false_iff] at h
  have hq : DQUOTE ∉ (p.dropWhile isOws).takeWhile isParamNameByte := by simpa using h.2
  have h0 := PlainSuffix.dropOws p
  have h1 := (PlainSuffix.dropWhile (f := isParamNameByte) rfl hq).trans h0
  have h2 := (PlainSuffix.dropOws _).trans h1
  have h3 (he : (((p.dropWhile isOws).dropWhile isParamNameByte).dropWhile isOws).head? =
      some EQUALS) : PlainSuffix
        ((((p.dropWhile isOws).dropWhile isParamNameByte).dropWhile isOws).tail.dropWhile isOws)
        p := by
    obtain ⟨t, ht⟩ := List.head?_eq_some_iff.mp he
    rw [ht] at h2 ⊢
    exact ((PlainSuffix.dropOws t).trans
      ((PlainSuffix.refl t).cons (by decide) (by decide))).trans h2
  simp only [param]
  split
  · exact h1.skipElement_eq
  split
  case isTrue he =>
    have hv := h3 he
    split
    · split
      · exact hv.skipElement_eq
      · have hqv := (plainSuffix_qvalue _).trans hv
        split
        case h_1 e => rw [e] at hqv; exact hqv.skipElement_eq
        case h_2 e =>
          rw [e] at hqv
          split
          · rw [skipElement_paramEnd]; exact hqv.skipElement_eq
          · exact hqv.skipElement_eq
    · rw [skipElement_paramEnd, skipElement_skipValue]
      exact hv.skipElement_eq
  case isFalse =>
    split
    · exact h2.skipElement_eq
    · rw [skipElement_paramEnd]
      exact h2.skipElement_eq

theorem quotedName_of_param {p : Bytes} {q : Int} {qSeen quotedName : Bool}
    (h : (param p q qSeen quotedName).quotedName = false) : quotedName = false := by
  rw [quotedName_param, Bool.or_eq_false_iff] at h
  exact h.1

/-- `quoted_name` is never cleared, and while it is clear the cursor stays in the element. -/
theorem skipElement_evalQvalueLoop (p : Bytes) (q : Int) (qSeen quotedName : Bool)
    (h : (evalQvalueLoop p q qSeen quotedName).2.2 = false) :
    quotedName = false ∧
      skipElement (evalQvalueLoop p q qSeen quotedName).2.1 = skipElement p := by
  fun_induction evalQvalueLoop p q qSeen quotedName with
  | case1 => exact ⟨h, rfl⟩
  | case2 q qSeen quotedName p p'' n hp =>
    have hn : (param p q qSeen quotedName).quotedName = false := by rw [hp]; exact h
    have hs := skipElement_param hn
    rw [hp] at hs
    refine ⟨quotedName_of_param hn, hs.trans ?_⟩
    exact (skipElement_cons (by decide) (by decide) p).symm
  | case3 q qSeen quotedName p p'' q' qSeen' quotedName' hp ih =>
    obtain ⟨hn', hs'⟩ := ih h
    have hn : (param p q qSeen quotedName).quotedName = false := by rw [hp]; exact hn'
    have hs := skipElement_param hn
    rw [hp] at hs
    refine ⟨quotedName_of_param hn, hs'.trans (hs.trans ?_)⟩
    exact (skipElement_cons (by decide) (by decide) p).symm
  | case4 => exact ⟨h, rfl⟩

theorem skipElement_evalQvalue (p : Bytes) : skipElement (evalQvalue p).2 = skipElement p := by
  unfold evalQvalue
  dsimp only
  split
  · rfl
  case isFalse h =>
    exact (skipElement_evalQvalueLoop p 1000 false false (by simpa using h)).2

theorem element_rest (coding p : Bytes) : (element coding p).rest = skipElement p := by
  have hs : PlainSuffix ((p.dropWhile isNameByte).dropWhile isOws) p :=
    (PlainSuffix.dropOws _).trans (.dropWhile rfl (quote_notMem_takeWhile rfl))
  simp only [element]
  split
  · rw [skipElement_evalQvalue]
    exact hs.skipElement_eq
  · exact hs.skipElement_eq

theorem element_fields (coding p : Bytes) :
    let after := (p.dropWhile isNameByte).dropWhile isOws
    let clean := atDelimiter (fun c => c == SEMICOLON || c == COMMA) after
    (element coding p).isCoding = (matchesName (p.takeWhile isNameByte) coding && clean) ∧
      (element coding p).isStar = (p.takeWhile isNameByte == [STAR] && clean) ∧
      (element coding p).q = (evalQvalueLoop after 1000 false false).1 := by
  refine ⟨rfl, rfl, ?_⟩
  simp only [element]
  split
  · rfl
  case isFalse h => rw [evalQvalueLoop_done h]

/-- What the walker makes of the element that starts at `s`; empty elements are skipped. -/
def startElement (coding s : Bytes) : Option Element :=
  match s.dropWhile isOws with
  | [] => none
  | c :: p => if c = COMMA then none else some (element coding (c :: p))

def Element.explicitQ (e : Element) : Option Int :=
  if e.isCoding && e.q ≥ 0 then some e.q else none

def Element.starQ (e : Element) : Option Int :=
  if !e.isCoding && e.isStar && e.q ≥ 0 then some e.q else none

/-- The latest weights along a list of elements, over those accumulated before. -/
def latest (es : List Element) (w : Int × Int) : Int × Int :=
  ((lastOf Element.explicitQ es).getD w.1, (lastOf Element.starQ es).getD w.2)

theorem latest_cons (e : Element) (es : List Element) (w : Int × Int) :
    latest (e :: es) w = latest es (e.explicitQ.getD w.1, e.starQ.getD w.2) := by
  simp only [latest, lastOf_cons]
  cases lastOf Element.explicitQ es <;> cases lastOf Element.starQ es <;> rfl

def elements (coding v : Bytes) : List Element := (topStarts v).filterMap (startElement coding)

theorem elements_comma (coding p : Bytes) : elements coding (COMMA :: p) = elements coding p := by
  rw [elements, topStarts, starts, laterStarts, if_pos ⟨rfl, rfl⟩, List.filterMap_cons]
  rfl

theorem elements_ows (coding : Bytes) {c : UInt8} (hc : isOws c = true) (p : Bytes) :
    elements coding (c :: p) = elements coding p := by
  have hne : c ≠ COMMA ∧ c ≠ DQUOTE := by
    constructor <;> (rintro rfl; exact absurd hc (by decide))
  have hs : startElement coding (c :: p) = startElement coding p := by
    rw [startElement, List.dropWhile_cons_of_pos hc]
    rfl
  rw [elements, topStarts, starts, laterStarts, if_neg (fun e => hne.1 e.2), next,
    if_neg hne.2, List.filterMap_cons, hs, elements, topStarts, starts, List.filterMap_cons]

theorem elements_skipEmpty (coding p : Bytes) :
    elements coding (skipEmpty p) = elements coding p := by
  induction p with
  | nil => rfl
  | cons c p ih =>
    rw [skipEmpty, List.dropWhile_cons]
    split
    case isTrue h =>
      rw [← skipEmpty, ih]
      rcases Bool.or_eq_true_iff.mp h with h | h
      · exact (elements_ows coding h p).symm
      · obtain rfl : c = COMMA := by simpa using h
        exact (elements_comma coding p).symm
    case isFalse => rfl

theorem elements_cons (coding : Bytes) {c : UInt8} (hc : c ≠ COMMA) (ho : isOws c = false)
    (p : Bytes) :
    elements coding (c :: p) = element coding (c :: p) ::
      elements coding (element coding (c :: p)).rest := by
  have hs : startElement coding (c :: p) = some (element coding (c :: p)) := by
    rw [startElement, List.dropWhile_cons_of_neg (by simp [ho])]
    exact if_neg hc
  rw [elements, topStarts, starts, List.filterMap_cons, hs, laterStarts_eq, element_rest,
    skipElement_eq_dropPiece]
  rcases dropPiece_eq_nil_or_sep DQUOTE BACKSLASH COMMA .outside (c :: p) with h | ⟨t, h⟩
  · rw [h]
    rfl
  · rw [h, elements_comma]
    rfl

/-- The walker's accumulators are the latest weights of the top-level elements. -/
theorem codingWeightLoop_eq (coding p : Bytes) (codingQ starQ : Int) :
    codingWeightLoop coding p codingQ starQ = latest (elements coding p) (codingQ, starQ) := by
  have hstep {p p' : Bytes} {c : UInt8} (h : skipEmpty p = c :: p') (w : Int × Int) :
      latest (elements coding p) w = latest (elements coding (element coding (c :: p')).rest)
        ((element coding (c :: p')).explicitQ.getD w.1,
          (element coding (c :: p')).starQ.getD w.2) := by
    obtain ⟨h1, h2⟩ := skipEmpty_cons h
    rw [← elements_skipEmpty coding p, h, elements_cons coding h1 h2, latest_cons]
  fun_induction codingWeightLoop coding p codingQ starQ with
  | case1 p codingQ starQ h =>
    rw [← elements_skipEmpty, h]
    rfl
  | case2 p codingQ starQ c p' h e hq hc ih =>
    rw [hstep h, ih]
    simp [Element.explicitQ, Element.starQ, e, hq, hc]
  | case3 p codingQ starQ c p' h e hq hc hs ih =>
    rw [hstep h, ih]
    simp [Element.explicitQ, Element.starQ, e, hq, hc, hs]
  | case4 p codingQ starQ c p' h e hq hc hs ih =>
    rw [hstep h, ih]
    simp [Element.explicitQ, Element.starQ, e, hc, hs]
  | case5 p codingQ starQ c p' h e hq ih =>
    rw [hstep h, ih]
    simp [Element.explicitQ, Element.starQ, e, hq]

theorem codingWeightEx_eq (v coding : Bytes) (allowWildcard : Bool) :
    codingWeightEx v coding allowWildcard =
      let w := latest (elements coding v) (-1, -1)
      ⟨fieldWeight w.1 w.2 allowWildcard, w.1, w.2⟩ := by
  rw [codingWeightEx, codingWeightLoop_eq]

end NgxBrotli
