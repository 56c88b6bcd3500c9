import NgxBrotli.GrammarAgreement

namespace NgxBrotli
open QuotedSplit LastWins

/-- `while (i < n && d[i] != ',') { if (d[i] == '"') return -1; i++; }` -/
def refSkipJunk : Bytes → Option Bytes
  | [] => some []
  | c :: p => if c = COMMA then some (c :: p) else if c = DQUOTE then none else refSkipJunk p

/-- From past an opening DQUOTE to past the closing one. -/
def refQuoted : Bytes → Option Bytes
  | [] => none  -- unterminated quote
  | c :: p => if c = DQUOTE then some p else if c = BACKSLASH then none else refQuoted p

theorem refSkipJunk_eq {p r : Bytes} (h : refSkipJunk p = some r) : skipElement p = r := by
  fun_induction refSkipJunk p with
  | case1 => simpa using h
  | case2 p => simpa using h
  | case3 => cases h
  | case4 c p hc hq ih => rw [skipElement_cons hc hq, ih h]

theorem refQuoted_eq {p r : Bytes} (h : refQuoted p = some r) : skipQuotedLoop p = r := by
  fun_induction refQuoted p with
  | case1 => cases h
  | case2 p =>
    rw [skipQuotedLoop.eq_def]
    simpa using h
  | case3 => cases h
  | case4 c p hq hb ih =>
    have : skipQuotedLoop (c :: p) = skipQuotedLoop p := by
      rw [skipQuotedLoop.eq_def]
      simp [hq, hb]
    rw [this, ih h]

theorem length_refQuoted_le {p r : Bytes} (h : refQuoted p = some r) : r.length ≤ p.length :=
  refQuoted_eq h ▸ (skipQuotedLoop_suffix p).length_le

/-- The rest of an element that starts with a quoted string. -/
def refSkipQuotedElement : Bytes → Option Bytes
  | [] => some []
  | c :: p =>
    if c = COMMA then some (c :: p)
    else if c = DQUOTE then
      match _h : refQuoted p with
      | none => none
      | some r => refSkipQuotedElement r
    else refSkipQuotedElement p
termination_by p => p.length
decreasing_by
  · exact Nat.lt_succ_of_le (length_refQuoted_le _h)
  · exact Nat.lt_succ_self _

theorem refSkipQuotedElement_eq {p r : Bytes} (h : refSkipQuotedElement p = some r) :
    skipElement p = r := by
  fun_induction refSkipQuotedElement p with
  | case1 => simpa using h
  | case2 p => simpa using h
  | case3 => cases h
  | case4 p r' hq _ ih => rw [skipElement_quote, refQuoted_eq hq, ih h]
  | case5 c p hc hq ih => rw [skipElement_cons hc hq, ih h]

/-- `while (i < n && d[i] >= '0' && d[i] <= '9' && scale > 0)` -/
def refDigits (q scale : Int) : Bytes → Int × Bytes
  | [] => (q, [])
  | c :: p =>
    if isDigit c ∧ scale > 0 then refDigits (q + ((c.toNat : Int) - 0x30) * scale) (scale / 10) p
    else (q, c :: p)

def refQvalue : Bytes → Option (Int × Bytes)
  | [] => none  -- "q=" with no value
  | c :: p =>
    if c = 0x30 then
      match p with
      | [] => some (0, [])
      | d :: p' => if d = DOT then some (refDigits 0 100 p') else some (0, p)
    else if c = 0x31 then
      match p with
      | [] => some (1000, [])
      | d :: p' => if d = DOT then some (1000, skipZeros 3 p') else some (1000, p)
    else none

theorem refDigits_zero (q : Int) (p : Bytes) : refDigits q 0 p = (q, p) := by
  cases p <;> simp [refDigits]

theorem refDigits_eq (p : Bytes) :
    refDigits 0 100 p = takeDigit 1 (takeDigit 10 (takeDigit 100 (0, p))) := by
  match p with
  | [] => rfl
  | [a] => by_cases ha : isDigit a <;> simp [refDigits, takeDigit, ha]
  | [a, b] =>
    by_cases ha : isDigit a <;> by_cases hb : isDigit b <;> simp [refDigits, takeDigit, ha, hb]
  | a :: b :: c :: p =>
    by_cases ha : isDigit a <;> by_cases hb : isDigit b <;> by_cases hc : isDigit c <;>
      simp [refDigits, takeDigit, ha, hb, hc, refDigits_zero]

theorem refQvalue_eq {p r : Bytes} {q : Int} (h : refQvalue p = some (q, r)) :
    qvalue p = (some q, r) := by
  match p with
  | [] => cases h
  | [c] =>
    rw [refQvalue.eq_def] at h
    rw [qvalue.eq_def]
    dsimp only at h ⊢
    split at h
    · simp_all
    · split at h <;> simp_all
  | c :: d :: p =>
    rw [refQvalue.eq_def] at h
    rw [qvalue.eq_def]
    dsimp only at h ⊢
    rw [refDigits_eq] at h
    split at h
    · split at h <;> simp_all
    · split at h
      · split at h <;> simp_all
      · cases h

def isRefParamByte (c : UInt8) : Bool := isParamNameByte c && c != DQUOTE

def isRefValueByte (c : UInt8) : Bool :=
  c != SEMICOLON && c != COMMA && !isOws c && c != DQUOTE

/-- Where one turn of the oracle's parameter loop leaves off. -/
inductive RefParam
  | unsure
  | empty (p : Bytes)
  | next (p : Bytes) (q : Int) (qSeen : Bool)

/-- The value after '=' and OWS, with the weight so far. -/
def refValue (isQ : Bool) (p : Bytes) (q : Int) (qSeen : Bool) : Option (Int × Bytes) :=
  if isQ then
    if qSeen then none  -- repeated "q"
    else refQvalue p
  else if p.head? = some DQUOTE then (refQuoted p.tail).map fun p => (q, p)
  else some (q, p.dropWhile isRefValueByte)

def refParam (p : Bytes) (q : Int) (qSeen : Bool) : RefParam :=
  let p := p.dropWhile isOws
  let name := p.takeWhile isRefParamByte
  let p := p.dropWhile isRefParamByte
  if name = [] then
    match refSkipJunk p with
    | none => .unsure
    | some p => .empty p
  else
    let isQ := name == ascii "q" || name == ascii "Q"
    let p := p.dropWhile isOws
    if p.head? = some EQUALS then
      match refValue isQ (p.tail.dropWhile isOws) q qSeen with
      | none => .unsure
      | some (q, p) =>
        let p := p.dropWhile isOws
        if atDelimiter (fun c => c == SEMICOLON || c == COMMA) p then .next p q (qSeen || isQ)
        else .unsure
    else if isQ then .unsure  -- bare "q" is malformed
    else .next p q qSeen  -- valueless non-q param

theorem takeWhile_eq_of_stop {f g : UInt8 → Bool} (hgf : ∀ c, g c = true → f c = true)
    {l : Bytes} (h : ∀ c ∈ (l.dropWhile g).head?, f c = false) :
    l.takeWhile f = l.takeWhile g ∧ l.dropWhile f = l.dropWhile g := by
  induction l with
  | nil => exact ⟨rfl, rfl⟩
  | cons c l ih =>
    by_cases hg : g c = true
    · rw [List.dropWhile_cons_of_pos hg] at h
      rw [List.takeWhile_cons_of_pos (hgf c hg), List.takeWhile_cons_of_pos hg,
        List.dropWhile_cons_of_pos (hgf c hg), List.dropWhile_cons_of_pos hg]
      exact ⟨congrArg _ (ih h).1, (ih h).2⟩
    · rw [List.dropWhile_cons_of_neg hg] at h
      have hf : ¬f c = true := by simp [h c rfl]
      rw [List.takeWhile_cons_of_neg hf, List.takeWhile_cons_of_neg hg,
        List.dropWhile_cons_of_neg hf, List.dropWhile_cons_of_neg hg]
      exact ⟨rfl, rfl⟩

theorem endsParam_of_atDelimiter {z : Bytes}
    (h : atDelimiter (fun c => c == SEMICOLON || c == COMMA) z = true) : EndsParam z := by
  intro c hc
  obtain ⟨t, rfl⟩ := List.head?_eq_some_iff.mp hc
  simpa [atDelimiter] using h

theorem plainSegment_takeWhile {f : UInt8 → Bool} (hs : f SEMICOLON = false) (hc : f COMMA = false)
    (hq : f DQUOTE = false) (p : Bytes) : PlainSegment (p.takeWhile f) := by
  have hnot {c : UInt8} (hf : f c = false) : c ∉ p.takeWhile f := fun h => by
    have := List.mem_takeWhile_imp h
    rw [hf] at this
    exact Bool.false_ne_true this
  exact ⟨hnot hs, hnot hc, hnot hq⟩

theorem skipValue_ows {p : Bytes}
    (h : atDelimiter (fun c => c == SEMICOLON || c == COMMA) (p.dropWhile isOws)) :
    skipValue p = p.dropWhile isOws := by
  conv_lhs => rw [← List.takeWhile_append_dropWhile (p := isOws) (l := p)]
  exact skipValue_append (plainSegment_takeWhile rfl rfl rfl _) (endsParam_of_atDelimiter h)

theorem skipValue_bare {p : Bytes}
    (h : atDelimiter (fun c => c == SEMICOLON || c == COMMA)
      ((p.dropWhile isRefValueByte).dropWhile isOws)) :
    skipValue p = (p.dropWhile isRefValueByte).dropWhile isOws := by
  have hp : p = (p.takeWhile isRefValueByte ++ (p.dropWhile isRefValueByte).takeWhile isOws) ++
      (p.dropWhile isRefValueByte).dropWhile isOws := by
    rw [List.append_assoc, List.takeWhile_append_dropWhile, List.takeWhile_append_dropWhile]
  obtain ⟨h₁, h₂, h₃⟩ := plainSegment_takeWhile (f := isRefValueByte) rfl rfl rfl p
  obtain ⟨k₁, k₂, k₃⟩ :=
    plainSegment_takeWhile (f := isOws) rfl rfl rfl (p.dropWhile isRefValueByte)
  conv_lhs => rw [hp]
  exact skipValue_append ⟨by simp [h₁, k₁], by simp [h₂, k₂], by simp [h₃, k₃]⟩
    (endsParam_of_atDelimiter h)

theorem atDelimiter_of_dropOws {p : Bytes}
    (h : atDelimiter (fun c => c == SEMICOLON || c == COMMA) (p.dropWhile isOws)) :
    atDelimiter (fun c => isOws c || c == SEMICOLON || c == COMMA) p = true := by
  cases p with
  | nil => rfl
  | cons c p =>
    rw [List.dropWhile_cons] at h
    split at h
    case isTrue ho => simp [atDelimiter, ho]
    case isFalse ho =>
      simp only [atDelimiter, Bool.or_assoc] at h ⊢
      rw [h, Bool.or_true]

theorem refValue_false {p r : Bytes} {q v : Int} {qSeen : Bool}
    (h : refValue false p q qSeen = some (v, r))
    (hd : atDelimiter (fun c => c == SEMICOLON || c == COMMA) (r.dropWhile isOws)) :
    v = q ∧ skipValue p = r.dropWhile isOws := by
  rw [refValue, if_neg Bool.false_ne_true] at h
  split at h
  case isTrue hq =>
    obtain ⟨t, rfl⟩ := List.head?_eq_some_iff.mp hq
    rw [List.tail_cons] at h
    cases ht : refQuoted t with
    | none => simp [ht] at h
    | some r' =>
      obtain ⟨rfl, rfl⟩ : q = v ∧ r' = r := by simpa [ht] using h
      refine ⟨rfl, ?_⟩
      rw [skipValue, skipTo, if_neg (by decide), if_pos rfl, skipQuoted_quote, refQuoted_eq ht]
      exact skipValue_ows hd
  case isFalse =>
    obtain ⟨rfl, rfl⟩ : q = v ∧ p.dropWhile isRefValueByte = r := by simpa using h
    exact ⟨rfl, skipValue_bare hd⟩

theorem refName_eq {s : Bytes} (h : (s.dropWhile isRefParamByte).head? ≠ some DQUOTE) :
    s.takeWhile isParamNameByte = s.takeWhile isRefParamByte ∧
      s.dropWhile isParamNameByte = s.dropWhile isRefParamByte ∧
      (s.takeWhile isRefParamByte).contains DQUOTE = false := by
  have hgf (c : UInt8) (hc : isRefParamByte c = true) : isParamNameByte c = true :=
    (Bool.and_eq_true_iff.mp hc).1
  have hstop : ∀ c ∈ (s.dropWhile isRefParamByte).head?, isParamNameByte c = false := by
    intro c hc
    have hne : c ≠ DQUOTE := fun e => h (e ▸ hc)
    obtain ⟨t, ht⟩ := List.head?_eq_some_iff.mp hc
    have := List.head_dropWhile_not isRefParamByte (l := s) (by simp [ht])
    simpa [ht, isRefParamByte, hne] using this
  obtain ⟨h₁, h₂⟩ := takeWhile_eq_of_stop hgf hstop
  refine ⟨h₁, h₂, ?_⟩
  simpa using (plainSegment_takeWhile (f := isRefParamByte) rfl rfl rfl s).2.2

theorem refParam_of_quote {p p' : Bytes} {q v : Int} {qSeen qSeen' : Bool}
    (hq : ((p.dropWhile isOws).dropWhile isRefParamByte).head? = some DQUOTE)
    (h : refParam p q qSeen = .next p' v qSeen') :
    atDelimiter (fun c => c == SEMICOLON || c == COMMA) p' = false := by
  simp only [refParam] at h
  obtain ⟨t, ht⟩ := List.head?_eq_some_iff.mp hq
  have ho : (DQUOTE :: t).dropWhile isOws = DQUOTE :: t := rfl
  rw [ht, ho] at h
  split at h
  · cases h
  · have he : (DQUOTE :: t).head? ≠ some EQUALS := fun h => absurd (Option.some.inj h) (by decide)
    rw [if_neg he] at h
    split at h
    · cases h
    · obtain ⟨rfl, -, -⟩ := RefParam.next.inj h
      rfl

theorem paramValue_of_refValue {isQ qSeen : Bool} {x r : Bytes} {q v : Int}
    (hv : refValue isQ x q qSeen = some (v, r))
    (hr : atDelimiter (fun c => c == SEMICOLON || c == COMMA) (r.dropWhile isOws))
    (quotedName : Bool) :
    (if isQ then
      if qSeen then Param.malformed x quotedName
      else
        match qvalue x with
        | (none, p) => .malformed p quotedName
        | (some q, p) =>
          if atDelimiter (fun c => isOws c || c == SEMICOLON || c == COMMA) p then
            paramEnd p q true quotedName
          else .malformed p quotedName
    else paramEnd (skipValue x) q qSeen quotedName) =
      .next (r.dropWhile isOws) v (qSeen || isQ) quotedName := by
  have hend (s : Bool) : paramEnd (r.dropWhile isOws) v s quotedName =
      .next (r.dropWhile isOws) v s quotedName := by
    rw [paramEnd_dropOws, paramEnd, if_pos hr]
  cases isQ with
  | true =>
    rw [refValue, if_pos rfl] at hv
    split at hv
    · cases hv
    · rw [if_pos rfl, if_neg ‹_›, refQvalue_eq hv]
      dsimp only
      rw [if_pos (atDelimiter_of_dropOws hr), ← paramEnd_dropOws, hend, Bool.or_true]
  | false =>
    obtain ⟨rfl, hskip⟩ := refValue_false hv hr
    rw [if_neg Bool.false_ne_true, hskip, hend, Bool.or_false]

theorem param_of_refParam_next {p p' : Bytes} {q v : Int} {qSeen qSeen' : Bool}
    (h : refParam p q qSeen = .next p' v qSeen')
    (hd : atDelimiter (fun c => c == SEMICOLON || c == COMMA) p') (quotedName : Bool) :
    param p q qSeen quotedName = .next p' v qSeen' quotedName := by
  by_cases hq : ((p.dropWhile isOws).dropWhile isRefParamByte).head? = some DQUOTE
  · rw [refParam_of_quote hq h] at hd
    cases hd
  obtain ⟨hname, hrest, hnq⟩ := refName_eq hq
  simp only [refParam] at h
  simp only [param, hname, hrest, hnq, Bool.or_false]
  generalize (p.dropWhile isOws).takeWhile isRefParamByte = name at h ⊢
  have ho := dropWhile_dropWhile_self isOws ((p.dropWhile isOws).dropWhile isRefParamByte)
  generalize ((p.dropWhile isOws).dropWhile isRefParamByte).dropWhile isOws = p₂ at h ho ⊢
  split at h
  · split at h <;> cases h
  rw [if_neg ‹_›]
  split at h
  case isTrue he =>
    rw [if_pos he]
    cases hv : refValue (name == ascii "q" || name == ascii "Q") (p₂.tail.dropWhile isOws) q
        qSeen with
    | none => simp [hv] at h
    | some vr =>
      obtain ⟨w, r⟩ := vr
      simp only [hv] at h
      split at h
      case isFalse => cases h
      case isTrue hr =>
        obtain ⟨rfl, rfl, rfl⟩ := RefParam.next.inj h
        exact paramValue_of_refValue hv hr quotedName
  case isFalse he =>
    rw [if_neg he]
    split at h
    · cases h
    · obtain ⟨rfl, rfl, rfl⟩ := RefParam.next.inj h
      rw [if_neg ‹_›, paramEnd, ho, if_pos hd]

theorem param_of_refParam_empty {p p' : Bytes} {q : Int} {qSeen : Bool}
    (h : refParam p q qSeen = .empty p') (quotedName : Bool) :
    (∃ p'', param p q qSeen quotedName = .malformed p'' quotedName) ∧ skipElement p = p' := by
  simp only [refParam] at h
  split at h
  case isTrue hname =>
    cases hj : refSkipJunk ((p.dropWhile isOws).dropWhile isRefParamByte) with
    | none => simp [hj] at h
    | some r =>
      obtain rfl : r = p' := by simpa [hj] using h
      have hq : ((p.dropWhile isOws).dropWhile isRefParamByte).head? ≠ some DQUOTE := by
        intro hq
        obtain ⟨t, ht⟩ := List.head?_eq_some_iff.mp hq
        rw [ht, refSkipJunk, if_neg (by decide), if_pos rfl] at hj
        cases hj
      obtain ⟨h₁, -, h₃⟩ := refName_eq hq
      have hs : (p.dropWhile isOws).dropWhile isRefParamByte = p.dropWhile isOws := by
        conv_rhs => rw [← List.takeWhile_append_dropWhile (p := isRefParamByte)
          (l := p.dropWhile isOws), hname]
        rfl
      refine ⟨⟨(p.dropWhile isOws).dropWhile isParamNameByte, ?_⟩, ?_⟩
      · simp only [param, h₁, h₃, Bool.or_false]
        rw [if_pos hname]
      · rw [← (PlainSuffix.dropOws p).skipElement_eq, ← hs]
        exact refSkipJunk_eq hj
  case isFalse =>
    split at h
    · split at h
      · cases h
      · split at h <;> cases h
    · split at h <;> cases h

theorem refValue_suffix {isQ : Bool} {p r : Bytes} {q v : Int} {qSeen : Bool}
    (h : refValue isQ p q qSeen = some (v, r)) : r <:+ p := by
  unfold refValue at h
  split at h
  · split at h
    · cases h
    · have := qvalue_suffix p
      rwa [refQvalue_eq h] at this
  · split at h
    · obtain ⟨r', hr', hv⟩ := Option.map_eq_some_iff.mp h
      obtain ⟨-, rfl⟩ := Prod.mk.inj hv
      rw [← refQuoted_eq hr']
      exact (skipQuotedLoop_suffix _).trans (List.tail_suffix p)
    · obtain ⟨-, rfl⟩ := Prod.mk.inj (Option.some.inj h)
      exact List.dropWhile_suffix _

theorem refParam_suffix {p p' : Bytes} {q v : Int} {qSeen qSeen' : Bool}
    (h : refParam p q qSeen = .next p' v qSeen') : p' <:+ p := by
  have h₁ : ((p.dropWhile isOws).dropWhile isRefParamByte).dropWhile isOws <:+ p :=
    (dropOws_suffix _).trans ((List.dropWhile_suffix _).trans (dropOws_suffix p))
  simp only [refParam] at h
  split at h
  · split at h <;> cases h
  split at h
  · split at h
    · cases h
    case h_2 v' r hv =>
      split at h
      · obtain ⟨rfl, -, -⟩ := RefParam.next.inj h
        exact (dropOws_suffix r).trans ((refValue_suffix hv).trans
          ((dropOws_suffix _).trans ((List.tail_suffix _).trans h₁)))
      · cases h
  · split at h
    · cases h
    · obtain ⟨rfl, -, -⟩ := RefParam.next.inj h
      exact h₁

/-- The oracle's parameter loop: whether the element may still match, its weight, the cursor. -/
def refParams (p : Bytes) (q : Int) (qSeen : Bool) : Option (Bool × Int × Bytes) :=
  match p with
  | [] => some (true, q, [])
  | c :: p' =>
    if c = SEMICOLON then
      match _h : refParam p' q qSeen with
      | .unsure => none
      | .empty p'' => some (false, q, p'')
      | .next p'' q' qSeen' => refParams p'' q' qSeen'
    else some (true, q, c :: p')
termination_by p.length
decreasing_by exact Nat.lt_succ_of_le (refParam_suffix _h).length_le

theorem evalQvalueLoop_of_refParams {p r : Bytes} {q v : Int} {qSeen ok : Bool}
    (h : refParams p q qSeen = some (ok, v, r)) (hr : r = [] ∨ ∃ t, r = COMMA :: t) :
    (evalQvalueLoop p q qSeen false).1 = (if ok then v else -1) ∧ skipElement p = r := by
  have hskip : skipElement r = r := by rcases hr with rfl | ⟨t, rfl⟩ <;> simp
  fun_induction refParams p q qSeen with
  | case1 q qSeen =>
    obtain ⟨rfl, rfl, rfl⟩ : true = ok ∧ q = v ∧ [] = r := by simpa using h
    rw [evalQvalueLoop_done (by simp)]
    exact ⟨rfl, hskip⟩
  | case2 => cases h
  | case3 q qSeen p p'' hp =>
    obtain ⟨rfl, rfl, rfl⟩ : false = ok ∧ q = v ∧ p'' = r := by simpa using h
    obtain ⟨⟨p₁, h₁⟩, h₂⟩ := param_of_refParam_empty hp false
    rw [evalQvalueLoop_semicolon, h₁, skipElement_cons (by decide) (by decide), h₂]
    exact ⟨rfl, rfl⟩
  | case4 q qSeen p p'' q' qSeen' hp ih =>
    have hd : atDelimiter (fun c => c == SEMICOLON || c == COMMA) p'' = true := by
      cases p'' with
      | nil => rfl
      | cons c t =>
        by_cases hc : c = SEMICOLON
        · simp [atDelimiter, hc]
        · rw [refParams, if_neg hc] at h
          obtain ⟨-, -, rfl⟩ : true = ok ∧ q' = v ∧ c :: t = r := by simpa using h
          rcases hr with hr | ⟨t', hr⟩
          · cases hr
          · obtain ⟨rfl, -⟩ := List.cons.inj hr
            rfl
    have hn := param_of_refParam_next hp hd false
    obtain ⟨h₁, h₂⟩ := ih h
    have hclean : (param p q qSeen false).quotedName = false := by rw [hn]; rfl
    have hs := skipElement_param hclean
    rw [hn, Param.cursor] at hs
    rw [evalQvalueLoop_semicolon, hn, skipElement_cons (by decide) (by decide), ← hs, h₂]
    exact ⟨h₁, rfl⟩
  | case5 q qSeen c p hc =>
    obtain ⟨rfl, rfl, rfl⟩ : true = ok ∧ q = v ∧ c :: p = r := by simpa using h
    have hne : (c :: p).head? ≠ some SEMICOLON := fun e => hc (Option.some.inj e)
    rw [evalQvalueLoop_done hne]
    exact ⟨rfl, hskip⟩

def isRefNameByte (c : UInt8) : Bool :=
  (0x41 ≤ c && c ≤ 0x5a) || (0x61 ≤ c && c ≤ 0x7a) || isDigit c || c == STAR || c == 0x2d ||
    c == 0x5f

/-- `te - ts == 2 && (d[ts] | 0x20) == 'b' && (d[ts + 1] | 0x20) == 'r'` -/
def refIsBr : Bytes → Bool
  | [a, b] => a ||| 0x20 == 0x62 && b ||| 0x20 == 0x72
  | _ => false

/-- `if (i < n) { if (d[i] != ',') return -1; i++; }` -/
def refEnd : Bytes → Option Bytes
  | [] => some []
  | c :: p => if c = COMMA then some p else none

/-- One turn of the oracle, with `p` at the first byte of an element. -/
def refElement (p : Bytes) : Option Element :=
  if p.head? = some DQUOTE then
    (refSkipQuotedElement p).map fun r =>
      { isCoding := false, isStar := false, q := 1000, rest := r.tail }
  else
    let name := p.takeWhile isRefNameByte
    if name = [] then none  -- unexpected leading byte
    else
      let p := (p.dropWhile isRefNameByte).dropWhile isOws
      let clean := atDelimiter (fun c => c == SEMICOLON || c == COMMA) p
      let p? := if clean then some p else refSkipJunk p
      p?.bind fun p => (refParams p 1000 false).bind fun (ok, q, p) => (refEnd p).map fun rest =>
        { isCoding := refIsBr name && clean && ok, isStar := name == [STAR] && clean && ok
          q := q, rest := rest }

structure SameElement (e e' : Element) : Prop where
  explicitQ : e'.explicitQ = if e.isCoding then some e.q else none
  starQ : e'.starQ = if !e.isCoding && e.isStar then some e.q else none
  rest : e'.rest = [] ∧ e.rest = [] ∨ e'.rest = COMMA :: e.rest

theorem refIsBr_eq (name : Bytes) (h : ∀ c ∈ name, isRefNameByte c = true) :
    refIsBr name = matchesName name (ascii "br") := by
  have hb : ∀ c, isRefNameByte c = true →
      (c ||| 0x20 == 0x62) = (ngxTolower c == ngxTolower 0x62) := by decide +kernel
  have hr : ∀ c, isRefNameByte c = true →
      (c ||| 0x20 == 0x72) = (ngxTolower c == ngxTolower 0x72) := by decide +kernel
  rw [Bool.eq_iff_iff, matchesName_iff (by decide)]
  match name with
  | [] => decide
  | [a] =>
    exact ⟨fun h => absurd h Bool.false_ne_true, fun h => absurd h.length_eq (by simp; decide)⟩
  | [a, b] =>
    rw [refIsBr, hb a (h a (by simp)), hr b (h b (by simp))]
    simp [EqNoCase, ascii]
  | a :: b :: c :: t =>
    refine ⟨fun h => absurd h Bool.false_ne_true, fun h => absurd h.length_eq ?_⟩
    simp [ascii]

theorem refValue_nonneg {isQ : Bool} {p r : Bytes} {q v : Int} {qSeen : Bool} (hq : 0 ≤ q)
    (h : refValue isQ p q qSeen = some (v, r)) : 0 ≤ v := by
  unfold refValue at h
  split at h
  · split at h
    · cases h
    · exact qvalue_nonneg (congrArg Prod.fst (refQvalue_eq h))
  · split at h
    · obtain ⟨r', -, hv⟩ := Option.map_eq_some_iff.mp h
      exact (Prod.mk.inj hv).1 ▸ hq
    · exact (Prod.mk.inj (Option.some.inj h)).1 ▸ hq

theorem refParam_nonneg {p p' : Bytes} {q v : Int} {qSeen qSeen' : Bool} (hq : 0 ≤ q)
    (h : refParam p q qSeen = .next p' v qSeen') : 0 ≤ v := by
  simp only [refParam] at h
  split at h
  · split at h <;> cases h
  split at h
  · split at h
    · cases h
    case h_2 hv =>
      split at h
      · obtain ⟨-, rfl, -⟩ := RefParam.next.inj h
        exact refValue_nonneg hq hv
      · cases h
  · split at h
    · cases h
    · obtain ⟨-, rfl, -⟩ := RefParam.next.inj h
      exact hq

theorem refParams_nonneg {p r : Bytes} {q v : Int} {qSeen ok : Bool} (hq : 0 ≤ q)
    (h : refParams p q qSeen = some (ok, v, r)) : 0 ≤ v := by
  fun_induction refParams p q qSeen with
  | case1 => exact (Prod.mk.inj (Prod.mk.inj (Option.some.inj h)).2).1 ▸ hq
  | case2 => cases h
  | case3 => exact (Prod.mk.inj (Prod.mk.inj (Option.some.inj h)).2).1 ▸ hq
  | case4 q qSeen p p'' q' qSeen' hp ih => exact ih (refParam_nonneg hq hp) h
  | case5 => exact (Prod.mk.inj (Prod.mk.inj (Option.some.inj h)).2).1 ▸ hq

theorem refEnd_eq {p rest : Bytes} (h : refEnd p = some rest) :
    p = [] ∧ rest = [] ∨ p = COMMA :: rest := by
  cases p with
  | nil => exact .inl ⟨rfl, (Option.some.inj h).symm⟩
  | cons c p =>
    rw [refEnd] at h
    split at h
    case isTrue hc => exact .inr (by rw [hc, Option.some.inj h])
    case isFalse => cases h

theorem isNameByte_of_isRefNameByte :
    ∀ c : UInt8, isRefNameByte c = true → isNameByte c = true := by
  decide +kernel

theorem lower_notMem_br : ∀ x : UInt8, isRefNameByte x = false →
    ngxTolower x ∉ (ascii "br").map ngxTolower := by
  decide +kernel

section OneElement

variable {p : Bytes}

theorem name_of_clean
    (h : atDelimiter (fun c => c == SEMICOLON || c == COMMA)
      ((p.dropWhile isRefNameByte).dropWhile isOws) = true) :
    p.takeWhile isNameByte = p.takeWhile isRefNameByte ∧
      p.dropWhile isNameByte = p.dropWhile isRefNameByte := by
  refine takeWhile_eq_of_stop isNameByte_of_isRefNameByte fun c hc => ?_
  obtain ⟨t, ht⟩ := List.head?_eq_some_iff.mp hc
  rw [ht] at h
  by_contra hn
  rw [Bool.not_eq_false] at hn
  have ho := not_isOws_of_isNameByte hn
  rw [List.dropWhile_cons_of_neg (by simp [ho])] at h
  rcases Bool.or_eq_true_iff.mp h with h | h
  · obtain rfl : c = SEMICOLON := by simpa using h
    exact absurd hn (by decide)
  · obtain rfl : c = COMMA := by simpa using h
    exact absurd hn (by decide)

theorem not_isCoding_of_junk
    (h : atDelimiter (fun c => c == SEMICOLON || c == COMMA)
      ((p.dropWhile isRefNameByte).dropWhile isOws) = false) :
    (element (ascii "br") p).isCoding = false ∧ (element (ascii "br") p).isStar = false := by
  obtain ⟨hc, hs, -⟩ := element_fields (ascii "br") p
  rw [hc, hs]
  by_cases hstop : ∀ c ∈ (p.dropWhile isRefNameByte).head?, isNameByte c = false
  case pos =>
    obtain ⟨-, hd⟩ := takeWhile_eq_of_stop isNameByte_of_isRefNameByte hstop
    rw [hd, h, Bool.and_false, Bool.and_false]
    exact ⟨rfl, rfl⟩
  case neg =>
    -- the walker's name goes on with a byte that is in neither name
    push Not at hstop
    obtain ⟨x, hx, hname⟩ := hstop
    rw [ne_eq, Bool.not_eq_false] at hname
    obtain ⟨t, ht⟩ := List.head?_eq_some_iff.mp hx
    have href : isRefNameByte x = false := by
      have := List.head_dropWhile_not isRefNameByte (l := p) (by simp [ht])
      simpa [ht] using this
    have hmem : x ∈ p.takeWhile isNameByte := by
      have hp : p = p.takeWhile isRefNameByte ++ x :: t := by
        rw [← ht, List.takeWhile_append_dropWhile]
      have hall : ∀ c ∈ p.takeWhile isRefNameByte, isNameByte c = true := fun c hc =>
        isNameByte_of_isRefNameByte c (List.mem_takeWhile_imp hc)
      rw [hp, List.takeWhile_append_of_pos hall, List.takeWhile_cons_of_pos hname]
      simp
    have hbr : matchesName (p.takeWhile isNameByte) (ascii "br") = false := by
      rw [← Bool.not_eq_true, matchesName_iff (by decide)]
      intro he
      have hm : ngxTolower x ∈ (ascii "br").map ngxTolower := he ▸ List.mem_map_of_mem hmem
      exact absurd hm (lower_notMem_br x href)
    have hstar : (p.takeWhile isNameByte == [STAR]) = false := by
      rw [← Bool.not_eq_true, beq_iff_eq]
      intro he
      rw [he, List.mem_singleton] at hmem
      rw [hmem] at href
      exact absurd href (by decide)
    rw [hbr, hstar]
    exact ⟨rfl, rfl⟩

theorem refElement_same_quoted {t r : Bytes} (hr : refSkipQuotedElement (DQUOTE :: t) = some r) :
    SameElement ⟨false, false, 1000, r.tail⟩ (element (ascii "br") (DQUOTE :: t)) := by
  have hs := refSkipQuotedElement_eq hr
  have hc : (element (ascii "br") (DQUOTE :: t)).isCoding = false := rfl
  have hst : (element (ascii "br") (DQUOTE :: t)).isStar = false := rfl
  refine ⟨by simp [Element.explicitQ, hc], by simp [Element.starQ, hst], ?_⟩
  have hend := skipElement_eq_nil_or_comma (DQUOTE :: t)
  rw [element_rest, hs]
  rw [hs] at hend
  rcases hend with rfl | ⟨u, rfl⟩
  · exact .inl ⟨rfl, rfl⟩
  · exact .inr rfl

theorem refElement_same {e : Element} (h : refElement p = some e) :
    SameElement e (element (ascii "br") p) := by
  unfold refElement at h
  split at h
  case isTrue hq =>
    obtain ⟨t, rfl⟩ := List.head?_eq_some_iff.mp hq
    obtain ⟨r, hr, rfl⟩ := Option.map_eq_some_iff.mp h
    exact refElement_same_quoted hr
  case isFalse =>
    dsimp only at h
    split at h
    · cases h
    obtain ⟨p', hp', h⟩ := Option.bind_eq_some_iff.mp h
    obtain ⟨⟨ok, q, r⟩, hparams, h⟩ := Option.bind_eq_some_iff.mp h
    obtain ⟨rest, hrest, rfl⟩ := Option.map_eq_some_iff.mp h
    have hend := refEnd_eq hrest
    have hr : r = [] ∨ ∃ t, r = COMMA :: t := hend.imp And.left fun h => ⟨rest, h⟩
    obtain ⟨hq, hskip⟩ := evalQvalueLoop_of_refParams hparams hr
    have hnonneg := refParams_nonneg (by decide) hparams
    -- the walker skips from the start of the element, the oracle from behind the name
    have hplain : skipElement ((p.dropWhile isRefNameByte).dropWhile isOws) = skipElement p :=
      ((PlainSuffix.dropOws _).trans
        (.dropWhile rfl (quote_notMem_takeWhile rfl))).skipElement_eq
    cases hclean : atDelimiter (fun c => c == SEMICOLON || c == COMMA)
        ((p.dropWhile isRefNameByte).dropWhile isOws) with
    | true =>
      obtain ⟨hname, hdrop⟩ := name_of_clean hclean
      obtain ⟨hc, hs, hw⟩ := element_fields (ascii "br") p
      rw [hclean, if_pos rfl] at hp'
      obtain rfl := Option.some.inj hp'
      rw [hname, hdrop, hclean, Bool.and_true] at hc hs
      rw [hdrop, hq] at hw
      rw [← refIsBr_eq _ fun c hc => List.mem_takeWhile_imp hc] at hc
      refine ⟨?_, ?_, ?_⟩
      · rw [Element.explicitQ, hc, hw]
        cases ok <;> simp [hnonneg]
      · rw [Element.starQ, hc, hs, hw]
        cases ok <;> simp [hnonneg]
      · rw [element_rest, ← hplain, hskip]
        exact hend
    | false =>
      obtain ⟨hc, hs⟩ := not_isCoding_of_junk hclean
      rw [hclean, if_neg Bool.false_ne_true] at hp'
      refine ⟨by simp [Element.explicitQ, hc], by simp [Element.starQ, hs], ?_⟩
      have hjunk := refSkipJunk_eq hp'
      have hself : skipElement p' = p' := by
        have hend := skipElement_eq_nil_or_comma ((p.dropWhile isRefNameByte).dropWhile isOws)
        rw [hjunk] at hend
        rcases hend with rfl | ⟨u, rfl⟩ <;> simp
      rw [element_rest, ← hplain, hjunk, ← hself, hskip]
      exact hend

end OneElement

theorem SameElement.length_rest_lt {e : Element} {p p' : Bytes} {c : UInt8}
    (h : skipEmpty p = c :: p') (hs : SameElement e (element (ascii "br") (c :: p'))) :
    e.rest.length < p.length := by
  have hr := (element_rest_suffix (ascii "br") (skipEmpty_cons h).1 p').length_le
  have hp : (skipEmpty p).length ≤ p.length := (List.dropWhile_suffix _).length_le
  rw [h, List.length_cons] at hp
  rcases hs.rest with ⟨-, hn⟩ | hn
  · rw [hn, List.length_nil]
    omega
  · rw [hn, List.length_cons] at hr
    omega

/-- The loop of `ref_accepts`: `br_q` and `star_q` at its end. -/
def refLoop (p : Bytes) (brQ starQ : Int) : Option (Int × Int) :=
  match _h : skipEmpty p with
  | [] => some (brQ, starQ)
  | c :: p' =>
    match _he : refElement (c :: p') with
    | none => none
    | some e =>
      if e.isCoding then refLoop e.rest e.q starQ
      else if e.isStar then refLoop e.rest brQ e.q
      else refLoop e.rest brQ starQ
termination_by p.length
decreasing_by all_goals exact (refElement_same _he).length_rest_lt _h

/-- `ref_accepts` -/
def refAccepts (d : Bytes) : Int :=
  match refLoop d (-1) (-1) with
  | none => -1
  | some (brQ, starQ) =>
    if brQ ≥ 0 then if brQ > 0 then 1 else 0
    else if starQ ≥ 0 then if starQ > 0 then 1 else 0
    else 0

theorem latest_of_same {e : Element} {p p' : Bytes} {c : UInt8} (h : skipEmpty p = c :: p')
    (hs : SameElement e (element (ascii "br") (c :: p'))) (w : Int × Int) :
    latest (elements (ascii "br") p) w =
      latest (elements (ascii "br") e.rest)
        (if e.isCoding then (e.q, w.2) else if e.isStar then (w.1, e.q) else w) := by
  obtain ⟨h₁, h₂⟩ := skipEmpty_cons h
  have hrest : elements (ascii "br") (element (ascii "br") (c :: p')).rest =
      elements (ascii "br") e.rest := by
    rcases hs.rest with ⟨hn, hn'⟩ | hn
    · rw [hn, hn']
    · rw [hn, elements_comma]
  rw [← elements_skipEmpty, h, elements_cons _ h₁ h₂, latest_cons, hrest, hs.explicitQ, hs.starQ]
  cases e.isCoding <;> cases e.isStar <;> rfl

/-- Run in lockstep, the oracle and the walker accumulate the same weights. -/
theorem refLoop_eq {p : Bytes} {brQ starQ : Int} {w : Int × Int}
    (h : refLoop p brQ starQ = some w) :
    codingWeightLoop (ascii "br") p brQ starQ = w := by
  rw [codingWeightLoop_eq]
  fun_induction refLoop p brQ starQ with
  | case1 p brQ starQ hp =>
    rw [← elements_skipEmpty, hp]
    exact Option.some.inj h
  | case2 => cases h
  | case3 p brQ starQ c p' hp e he hc ih =>
    rw [latest_of_same hp (refElement_same he), if_pos hc]
    exact ih h
  | case4 p brQ starQ c p' hp e he hc hs ih =>
    rw [latest_of_same hp (refElement_same he), if_neg hc, if_pos hs]
    exact ih h
  | case5 p brQ starQ c p' hp e he hc hs ih =>
    rw [latest_of_same hp (refElement_same he), if_neg hc, if_neg hs]
    exact ih h

/-- Wherever the oracle is sure, the shipped parser agrees with it. -/
theorem acceptEncoding_of_refAccepts {d : Bytes} (h : refAccepts d ≠ -1) :
    (acceptEncoding d = NGX_OK ↔ refAccepts d = 1) ∧
      (acceptEncoding d = NGX_DECLINED ↔ refAccepts d = 0) := by
  rw [refAccepts] at h ⊢
  rw [acceptEncoding, codingWeight, codingWeightEx]
  cases hl : refLoop d (-1) (-1) with
  | none => simp [hl] at h
  | some w =>
    rw [refLoop_eq hl]
    obtain ⟨brQ, starQ⟩ := w
    simp only [fieldWeight, Bool.true_and, decide_eq_true_eq]
    split
    · by_cases hb : brQ > 0 <;> simp [hb]
    · split
      · by_cases hs : starQ > 0 <;> simp [hs]
      · simp

theorem acceptEncoding_of_refAccepts_sample :
    (acceptEncoding (ascii "gzip;a=\"b,c\", BR;q=0.125, *;q=0") = NGX_OK ↔
        refAccepts (ascii "gzip;a=\"b,c\", BR;q=0.125, *;q=0") = 1) ∧
      (acceptEncoding (ascii "gzip;a=\"b,c\", BR;q=0.125, *;q=0") = NGX_DECLINED ↔
        refAccepts (ascii "gzip;a=\"b,c\", BR;q=0.125, *;q=0") = 0) :=
  acceptEncoding_of_refAccepts (by decide +kernel)

end NgxBrotli
