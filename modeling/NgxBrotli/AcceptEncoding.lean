import NgxBrotli.Bytes

/-!
# The Accept-Encoding walker

`ngx_http_brotli_skip_quoted`, `ngx_http_brotli_eval_qvalue`, `ngx_http_brotli_coding_weight_ex`,
`ngx_http_brotli_coding_weight` and `ngx_http_brotli_accept_encoding` of the common header.
Weights are in milli-units, and `-1` is "absent" or "malformed" as in the source.
-/

namespace NgxBrotli

abbrev NGX_OK : Int := 0
abbrev NGX_ERROR : Int := -1
abbrev NGX_AGAIN : Int := -2
abbrev NGX_DECLINED : Int := -5

/-- The loop of `ngx_http_brotli_skip_quoted`, entered past the opening DQUOTE. -/
def skipQuotedLoop : Bytes → Bytes
  | [] => []
  | c :: p =>
    if c = DQUOTE then p
    else if c = BACKSLASH then
      match p with
      | [] => []  -- `p + 1 < end` fails: nothing to escape
      | _ :: p => skipQuotedLoop p
    else skipQuotedLoop p

/-- `ngx_http_brotli_skip_quoted` -/
def skipQuoted : Bytes → Bytes
  | [] => []
  | c :: p => if c = DQUOTE then skipQuotedLoop p else c :: p

theorem skipQuotedLoop_suffix (p : Bytes) : skipQuotedLoop p <:+ p := by
  fun_induction skipQuotedLoop p with
  | case1 => exact List.suffix_refl _
  | case2 p => exact List.suffix_cons _ p
  | case3 => exact List.nil_suffix
  | case4 c p _ ih => exact ih.trans ((List.suffix_cons c p).trans (List.suffix_cons _ _))
  | case5 c p _ _ ih => exact ih.trans (List.suffix_cons c p)

@[simp] theorem skipQuoted_quote (p : Bytes) : skipQuoted (DQUOTE :: p) = skipQuotedLoop p := rfl

/-- `while (p < end && !stop(*p)) { if (*p == '"') p = skip_quoted(p, end); else p++; }` -/
def skipTo (stop : UInt8 → Bool) : Bytes → Bytes
  | [] => []
  | c :: p =>
    if stop c then c :: p
    else if c = DQUOTE then skipTo stop (skipQuoted (c :: p))
    else skipTo stop p
termination_by p => p.length
decreasing_by
  · have hc : c = DQUOTE := by assumption
    rw [hc, skipQuoted_quote]
    exact Nat.lt_succ_of_le (skipQuotedLoop_suffix p).length_le
  · exact Nat.lt_succ_self _

theorem skipTo_suffix (stop : UInt8 → Bool) (p : Bytes) : skipTo stop p <:+ p := by
  fun_induction skipTo stop p with
  | case1 => exact List.suffix_refl _
  | case2 => exact List.suffix_refl _
  | case3 p _ ih => exact ih.trans ((skipQuotedLoop_suffix p).trans (List.suffix_cons _ p))
  | case4 c p _ _ ih => exact ih.trans (List.suffix_cons c p)

theorem skipTo_eq_nil_or_stop (stop : UInt8 → Bool) (p : Bytes) :
    skipTo stop p = [] ∨ ∃ c t, skipTo stop p = c :: t ∧ stop c = true := by
  fun_induction skipTo stop p with
  | case1 => exact .inl rfl
  | case2 c p h => exact .inr ⟨c, p, rfl, h⟩
  | case3 p _ ih => exact ih
  | case4 c p _ _ ih => exact ih

/-- The scan over the value of a non-q parameter. -/
def skipValue (p : Bytes) : Bytes := skipTo (fun c => c == SEMICOLON || c == COMMA) p

/-- The scan over the remainder of an element. -/
def skipElement (p : Bytes) : Bytes := skipTo (· == COMMA) p

def isParamNameByte (c : UInt8) : Bool :=
  c != EQUALS && c != SEMICOLON && c != COMMA && !isOws c

/-- `if (p < end && *p >= '0' && *p <= '9') { q += (*p++ - '0') * scale; }` -/
def takeDigit (scale : Int) (qp : Int × Bytes) : Int × Bytes :=
  match qp.2 with
  | [] => qp
  | c :: p => if isDigit c then (qp.1 + ((c.toNat : Int) - 0x30) * scale, p) else qp

/-- `while (p < end && *p == '0' && i < 3) { p++; i++; }`, with `3 - i` as the first argument. -/
def skipZeros : ℕ → Bytes → Bytes
  | n + 1, c :: p => if c = 0x30 then skipZeros n p else c :: p
  | _, p => p

/-- The qvalue grammar: the weight, `none` at `goto malformed`, and the cursor reached. -/
def qvalue : Bytes → Option Int × Bytes
  | [] => (none, [])  -- "q=" with no value
  | c :: p =>
    if c = 0x30 then
      match p with
      | [] => (some 0, [])
      | d :: p' =>
        if d = DOT then
          let qp := takeDigit 1 (takeDigit 10 (takeDigit 100 (0, p')))
          (some qp.1, qp.2)
        else (some 0, p)
    else if c = 0x31 then
      match p with
      | [] => (some 1000, [])
      | d :: p' => if d = DOT then (some 1000, skipZeros 3 p') else (some 1000, p)
    else (none, c :: p)  -- leading digit not 0 or 1

/-- Where one turn of the parameter loop leaves off. -/
inductive Param
  | malformed (p : Bytes) (quotedName : Bool)
  | next (p : Bytes) (q : Int) (qSeen quotedName : Bool)
  deriving DecidableEq, Repr

def atDelimiter (ok : UInt8 → Bool) : Bytes → Bool
  | [] => true
  | c :: _ => ok c

/-- The OWS after any parameter and the check for trailing junk. -/
def paramEnd (p : Bytes) (q : Int) (qSeen quotedName : Bool) : Param :=
  let p := p.dropWhile isOws
  if atDelimiter (fun c => c == SEMICOLON || c == COMMA) p then .next p q qSeen quotedName
  else .malformed p quotedName

/-- One turn of the parameter loop, with `p` past the ';'. -/
def param (p : Bytes) (q : Int) (qSeen quotedName : Bool) : Param :=
  let p := p.dropWhile isOws
  let name := p.takeWhile isParamNameByte
  let p := p.dropWhile isParamNameByte
  let quotedName := quotedName || name.contains DQUOTE
  if name = [] then .malformed p quotedName
  else
    let isQ := name == ascii "q" || name == ascii "Q"
    let p := p.dropWhile isOws
    if p.head? = some EQUALS then
      let p := p.tail.dropWhile isOws
      if isQ then
        if qSeen then .malformed p quotedName  -- repeated "q" parameter
        else
          match qvalue p with
          | (none, p) => .malformed p quotedName
          | (some q, p) =>
            if atDelimiter (fun c => isOws c || c == SEMICOLON || c == COMMA) p then
              paramEnd p q true quotedName
            else .malformed p quotedName
      else paramEnd (skipValue p) q qSeen quotedName
    else if isQ then .malformed p quotedName  -- "q" with no "=value"
    else paramEnd p q qSeen quotedName

def Param.cursor : Param → Bytes
  | .malformed p _ => p
  | .next p _ _ _ => p

theorem dropOws_suffix (p : Bytes) : p.dropWhile isOws <:+ p := List.dropWhile_suffix _

theorem takeDigit_suffix (scale : Int) (qp : Int × Bytes) : (takeDigit scale qp).2 <:+ qp.2 := by
  obtain ⟨q, p⟩ := qp
  cases p with
  | nil => exact List.suffix_refl _
  | cons c p =>
    simp only [takeDigit]
    split
    · exact List.suffix_cons c p
    · exact List.suffix_refl _

theorem skipZeros_suffix (n : ℕ) (p : Bytes) : skipZeros n p <:+ p := by
  fun_induction skipZeros n p with
  | case1 n p ih => exact ih.trans (List.suffix_cons _ p)
  | case2 => exact List.suffix_refl _
  | case3 => exact List.suffix_refl _

theorem qvalue_suffix (p : Bytes) : (qvalue p).2 <:+ p := by
  have hd (p' : Bytes) : (takeDigit 1 (takeDigit 10 (takeDigit 100 (0, p')))).2 <:+ p' :=
    (takeDigit_suffix _ _).trans ((takeDigit_suffix _ _).trans (takeDigit_suffix 100 (0, p')))
  have hz := skipZeros_suffix 3
  have hc (c : UInt8) (p' : Bytes) : p' <:+ c :: p' := List.suffix_cons c p'
  have ht {a b c : Bytes} : a <:+ b → b <:+ c → a <:+ c := List.IsSuffix.trans
  have hr := List.suffix_refl p
  fun_cases qvalue p <;> grind

theorem paramEnd_suffix (p : Bytes) (q : Int) (qSeen quotedName : Bool) :
    (paramEnd p q qSeen quotedName).cursor <:+ p := by
  rw [paramEnd]
  split <;> exact dropOws_suffix p

theorem param_cursors (p : Bytes) :
    let p₁ := (p.dropWhile isOws).dropWhile isParamNameByte
    p₁ <:+ p ∧ p₁.dropWhile isOws <:+ p ∧ (p₁.dropWhile isOws).tail.dropWhile isOws <:+ p := by
  intro p₁
  have h₁ : p₁ <:+ p := (List.dropWhile_suffix _).trans (dropOws_suffix p)
  have h₂ : p₁.dropWhile isOws <:+ p := (dropOws_suffix p₁).trans h₁
  exact ⟨h₁, h₂, (dropOws_suffix _).trans ((List.tail_suffix _).trans h₂)⟩

theorem param_suffix (p : Bytes) (q : Int) (qSeen quotedName : Bool) :
    (param p q qSeen quotedName).cursor <:+ p := by
  obtain ⟨h₁, h₂, h₃⟩ := param_cursors p
  simp only [param]
  split
  · exact h₁
  split
  · split
    · split
      · exact h₃
      · have hq := (qvalue_suffix _).trans h₃
        split
        case h_1 h => rw [h] at hq; exact hq
        case h_2 h =>
          rw [h] at hq
          split
          · exact (paramEnd_suffix _ _ _ _).trans hq
          · exact hq
    · exact (paramEnd_suffix _ _ _ _).trans ((skipTo_suffix _ _).trans h₃)
  · split
    · exact h₂
    · exact (paramEnd_suffix _ _ _ _).trans h₂

/-- The parameter loop `while (p < end && *p == ';')`: the weight, the cursor, `quoted_name`. -/
def evalQvalueLoop (p : Bytes) (q : Int) (qSeen quotedName : Bool) : Int × Bytes × Bool :=
  match p with
  | [] => (q, [], quotedName)
  | c :: p' =>
    if c = SEMICOLON then
      match h : param p' q qSeen quotedName with
      | .malformed p'' quotedName => (-1, p'', quotedName)
      | .next p'' q' qSeen' quotedName' => evalQvalueLoop p'' q' qSeen' quotedName'
    else (q, c :: p', quotedName)
termination_by p.length
decreasing_by
  have := (param_suffix p' q qSeen quotedName).length_le
  rw [h] at this
  exact Nat.lt_succ_of_le this

/-- `ngx_http_brotli_eval_qvalue`: the weight, and the cursor it hands back. -/
def evalQvalue (pp : Bytes) : Int × Bytes :=
  let r := evalQvalueLoop pp 1000 false false
  (r.1, if r.2.2 then pp else r.2.1)

theorem evalQvalueLoop_semicolon (p : Bytes) (q : Int) (qSeen quotedName : Bool) :
    evalQvalueLoop (SEMICOLON :: p) q qSeen quotedName =
      match param p q qSeen quotedName with
      | .malformed p' quotedName' => (-1, p', quotedName')
      | .next p' q' qSeen' quotedName' => evalQvalueLoop p' q' qSeen' quotedName' := by
  rw [evalQvalueLoop, if_pos rfl]
  cases h : param p q qSeen quotedName <;> grind

theorem evalQvalueLoop_done {p : Bytes} (hp : p.head? ≠ some SEMICOLON) (q : Int)
    (qSeen quotedName : Bool) :
    evalQvalueLoop p q qSeen quotedName = (q, p, quotedName) := by
  cases p with
  | nil => rw [evalQvalueLoop]
  | cons c p =>
    rw [List.head?_cons, ne_eq, Option.some.injEq] at hp
    rw [evalQvalueLoop, if_neg hp]

def isNameByte (c : UInt8) : Bool :=
  !isOws c && c != SEMICOLON && c != COMMA && c != DQUOTE

/-- What one turn of the walker finds, and the cursor it leaves. -/
structure Element where
  isCoding : Bool
  isStar : Bool
  q : Int
  rest : Bytes
  deriving DecidableEq, Repr

/-- One turn of the walker, with `p` at the first byte of an element. -/
def element (coding p : Bytes) : Element :=
  let tok := p.takeWhile isNameByte
  let isCoding := matchesName tok coding
  let isStar := tok == [STAR]
  let p := (p.dropWhile isNameByte).dropWhile isOws
  let clean := atDelimiter (fun c => c == SEMICOLON || c == COMMA) p
  let (q, p) := if p.head? = some SEMICOLON then evalQvalue p else (1000, p)
  { isCoding := isCoding && clean, isStar := isStar && clean, q := q, rest := skipElement p }

/-- `while (p < end && (*p == ' ' || *p == '\t' || *p == ',')) p++` -/
def skipEmpty (p : Bytes) : Bytes := p.dropWhile fun c => isOws c || c == COMMA

theorem evalQvalueLoop_suffix (p : Bytes) (q : Int) (qSeen quotedName : Bool) :
    (evalQvalueLoop p q qSeen quotedName).2.1 <:+ p := by
  fun_induction evalQvalueLoop p q qSeen quotedName with
  | case1 => exact List.suffix_refl _
  | case2 q qSeen quotedName p p'' n h =>
    have := param_suffix p q qSeen quotedName
    rw [h] at this
    exact this.trans (List.suffix_cons _ p)
  | case3 q qSeen quotedName p p'' q' qSeen' quotedName' h ih =>
    have := param_suffix p q qSeen quotedName
    rw [h] at this
    exact ih.trans (this.trans (List.suffix_cons _ p))
  | case4 => exact List.suffix_refl _

theorem evalQvalue_cursor (p : Bytes) :
    (evalQvalue (SEMICOLON :: p)).2 = SEMICOLON :: p ∨ (evalQvalue (SEMICOLON :: p)).2 <:+ p := by
  have hp := param_suffix p 1000 false false
  have hl : (evalQvalueLoop (SEMICOLON :: p) 1000 false false).2.1 <:+ p := by
    rw [evalQvalueLoop_semicolon]
    cases h : param p 1000 false false with
    | malformed p' n => rw [h] at hp; exact hp
    | next p' q s n => rw [h] at hp; exact (evalQvalueLoop_suffix p' q s n).trans hp
  unfold evalQvalue
  dsimp only
  split
  · exact .inl rfl
  · exact .inr hl

theorem evalQvalue_suffix (p : Bytes) : (evalQvalue (SEMICOLON :: p)).2 <:+ SEMICOLON :: p := by
  rcases evalQvalue_cursor p with h | h
  · rw [h]
  · exact h.trans (List.suffix_cons _ p)

theorem skipElement_cons_suffix {c : UInt8} (hc : c ≠ COMMA) (p : Bytes) :
    skipElement (c :: p) <:+ p := by
  rw [skipElement, skipTo, if_neg (by simpa using hc)]
  split
  case isTrue hq =>
    rw [hq, skipQuoted_quote]
    exact (skipTo_suffix _ _).trans (skipQuotedLoop_suffix p)
  case isFalse => exact skipTo_suffix _ _

theorem element_rest_suffix (coding : Bytes) {c : UInt8} (hc : c ≠ COMMA) (p : Bytes) :
    (element coding (c :: p)).rest <:+ p := by
  have hskip {l : Bytes} (h : l <:+ c :: p) : skipElement l <:+ p := by
    rcases List.suffix_cons_iff.mp h with rfl | h
    · exact skipElement_cons_suffix hc p
    · exact (skipTo_suffix _ _).trans h
  have hs : ((c :: p).dropWhile isNameByte).dropWhile isOws <:+ c :: p :=
    (dropOws_suffix _).trans (List.dropWhile_suffix _)
  simp only [element]
  split
  case isFalse => exact hskip hs
  case isTrue h =>
    obtain ⟨t, ht⟩ := List.head?_eq_some_iff.mp h
    rw [ht] at hs ⊢
    exact hskip ((evalQvalue_suffix t).trans hs)

theorem skipEmpty_cons {p p' : Bytes} {c : UInt8} (h : skipEmpty p = c :: p') :
    c ≠ COMMA ∧ isOws c = false := by
  have := List.head_dropWhile_not (fun c => isOws c || c == COMMA) (l := p)
    (by rw [skipEmpty] at h; simp [h])
  simp only [skipEmpty] at h
  simpa [h, and_comm] using this

/-- The walker's loop: `coding_q` and `star_q` at its end. -/
def codingWeightLoop (coding p : Bytes) (codingQ starQ : Int) : Int × Int :=
  match _h : skipEmpty p with
  | [] => (codingQ, starQ)
  | c :: p' =>
    let e := element coding (c :: p')
    if e.q ≥ 0 then
      if e.isCoding then codingWeightLoop coding e.rest e.q starQ
      else if e.isStar then codingWeightLoop coding e.rest codingQ e.q
      else codingWeightLoop coding e.rest codingQ starQ
    else codingWeightLoop coding e.rest codingQ starQ
termination_by p.length
decreasing_by
  all_goals
    have hc := (skipEmpty_cons _h).1
    have hr := (element_rest_suffix coding hc p').length_le
    have hp : (skipEmpty p).length ≤ p.length := (List.dropWhile_suffix _).length_le
    rw [_h, List.length_cons] at hp
    exact Nat.lt_of_le_of_lt hr hp

/-- What `ngx_http_brotli_coding_weight_ex` returns and writes through its out-parameters. -/
structure Weights where
  result : Int
  explicitQ : Int
  starQ : Int
  deriving DecidableEq, Repr

/-- The precedence rule that ends the walker, also `ngx_http_brotli_field_weight`. -/
def fieldWeight (codingQ starQ : Int) (allowWildcard : Bool) : Int :=
  if codingQ ≥ 0 then codingQ
  else if allowWildcard && starQ ≥ 0 then starQ
  else -1

/-- `ngx_http_brotli_coding_weight_ex` -/
def codingWeightEx (ae coding : Bytes) (allowWildcard : Bool) : Weights :=
  let (codingQ, starQ) := codingWeightLoop coding ae (-1) (-1)
  { result := fieldWeight codingQ starQ allowWildcard, explicitQ := codingQ, starQ := starQ }

/-- `ngx_http_brotli_coding_weight` -/
def codingWeight (ae coding : Bytes) (allowWildcard : Bool) : Int :=
  (codingWeightEx ae coding allowWildcard).result

/-- `ngx_http_brotli_accept_encoding` -/
def acceptEncoding (ae : Bytes) : Int :=
  if codingWeight ae (ascii "br") true > 0 then NGX_OK else NGX_DECLINED

example : acceptEncoding (ascii "gzip;x=\"a, br\", br;q=0.5") = NGX_OK := by decide +kernel

example : acceptEncoding (ascii "gzip;x=\"a, br\"") = NGX_DECLINED := by decide +kernel

end NgxBrotli
