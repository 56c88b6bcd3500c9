import NgxBrotli.HeaderList
import NgxBrotli.WeightGrammar

namespace NgxBrotli
open QuotedSplit LastWins

section Comma

variable {p : Bytes} (hp : DQUOTE ∉ p) (b : Bytes)

theorem dropWhile_append_comma {f : UInt8 → Bool} (hf : f COMMA = false) (p : Bytes) :
    (p ++ COMMA :: b).dropWhile f = p.dropWhile f ++ COMMA :: b :=
  dropWhile_append_stop (List.dropWhile_cons_of_neg (by simp [hf]))

theorem takeWhile_append_comma {f : UInt8 → Bool} (hf : f COMMA = false) (p : Bytes) :
    (p ++ COMMA :: b).takeWhile f = p.takeWhile f :=
  takeWhile_append_stop (List.takeWhile_cons_of_neg (by simp [hf]))

theorem atDelimiter_append_comma {ok : UInt8 → Bool} (hok : ok COMMA = true) (p : Bytes) :
    atDelimiter ok (p ++ COMMA :: b) = atDelimiter ok p := by
  cases p with
  | nil => exact hok
  | cons c p => rfl

theorem head?_append_comma {c : UInt8} (hc : c ≠ COMMA) (p : Bytes) :
    (p ++ COMMA :: b).head? = some c ↔ p.head? = some c := by
  cases p with
  | nil => simp [hc.symm]
  | cons d p => rfl

include hp in
theorem skipTo_append_comma {stop : UInt8 → Bool} (hs : stop COMMA = true) :
    skipTo stop (p ++ COMMA :: b) = skipTo stop p ++ COMMA :: b := by
  induction p with
  | nil => rw [List.nil_append, skipTo, skipTo, if_pos hs, List.nil_append]
  | cons c p ih =>
    rw [List.mem_cons, not_or] at hp
    rw [List.cons_append, skipTo, skipTo]
    split
    · rfl
    · rw [if_neg (Ne.symm hp.1), if_neg (Ne.symm hp.1)]
      exact ih hp.2

theorem qvalue_append_comma (x : Bytes) :
    qvalue (x ++ COMMA :: b) = ((qvalue x).1, (qvalue x).2 ++ COMMA :: b) :=
  qvalue_append x fun c hc => by
    obtain rfl : COMMA = c := Option.some.inj hc
    decide

def Param.mapCursor (f : Bytes → Bytes) : Param → Param
  | .malformed p n => .malformed (f p) n
  | .next p q s n => .next (f p) q s n

theorem paramEnd_append_comma (p : Bytes) (q : Int) (qSeen quotedName : Bool) :
    paramEnd (p ++ COMMA :: b) q qSeen quotedName =
      (paramEnd p q qSeen quotedName).mapCursor (· ++ COMMA :: b) := by
  rw [paramEnd, paramEnd, dropWhile_append_comma b rfl, atDelimiter_append_comma b rfl]
  split <;> rfl

include hp in
theorem param_append_comma (q : Int) (qSeen quotedName : Bool) :
    param (p ++ COMMA :: b) q qSeen quotedName =
      (param p q qSeen quotedName).mapCursor (· ++ COMMA :: b) := by
  obtain ⟨h₁, h₂, h₃⟩ := param_cursors p
  have hname : ((p ++ COMMA :: b).dropWhile isOws).takeWhile isParamNameByte =
      (p.dropWhile isOws).takeWhile isParamNameByte := by
    rw [dropWhile_append_comma b rfl, takeWhile_append_comma b rfl]
  have hrest : ((p ++ COMMA :: b).dropWhile isOws).dropWhile isParamNameByte =
      (p.dropWhile isOws).dropWhile isParamNameByte ++ COMMA :: b := by
    rw [dropWhile_append_comma b rfl, dropWhile_append_comma b rfl]
  simp only [param, hname, hrest]
  generalize (p.dropWhile isOws).takeWhile isParamNameByte = name
  generalize (p.dropWhile isOws).dropWhile isParamNameByte = p₁ at *
  rw [dropWhile_append_comma b rfl]
  generalize p₁.dropWhile isOws = p₂ at *
  split
  · rfl
  simp only [head?_append_comma b (show EQUALS ≠ COMMA by decide)]
  split
  case isTrue he =>
    obtain ⟨t, rfl⟩ := List.head?_eq_some_iff.mp he
    rw [List.cons_append, List.tail_cons, dropWhile_append_comma b rfl, List.tail_cons]
    rw [List.tail_cons] at h₃
    split
    · split
      · rfl
      · rw [qvalue_append_comma]
        cases hq : qvalue (t.dropWhile isOws) with
        | mk w r =>
          cases w with
          | none => rfl
          | some w =>
            dsimp only
            rw [atDelimiter_append_comma b rfl, paramEnd_append_comma]
            split <;> rfl
    · rw [skipValue, skipTo_append_comma (fun h => hp (h₃.subset h)) b rfl,
        paramEnd_append_comma]
      rfl
  case isFalse =>
    split
    · rfl
    · exact paramEnd_append_comma b p₂ q qSeen _

include hp in
theorem evalQvalueLoop_append_comma (q : Int) (qSeen quotedName : Bool) :
    (evalQvalueLoop (p ++ COMMA :: b) q qSeen quotedName).1 =
      (evalQvalueLoop p q qSeen quotedName).1 := by
  fun_induction evalQvalueLoop p q qSeen quotedName with
  | case1 q qSeen quotedName =>
    have hc : ([] ++ COMMA :: b : Bytes).head? ≠ some SEMICOLON :=
      fun h => absurd (Option.some.inj h) (by decide)
    rw [evalQvalueLoop_done hc]
  | case2 q qSeen quotedName p p' n h =>
    rw [List.mem_cons, not_or] at hp
    rw [List.cons_append, evalQvalueLoop_semicolon, param_append_comma hp.2, h]
    rfl
  | case3 q qSeen quotedName p p' q' qSeen' quotedName' h ih =>
    rw [List.mem_cons, not_or] at hp
    have hs := param_suffix p q qSeen quotedName
    rw [h] at hs
    rw [List.cons_append, evalQvalueLoop_semicolon, param_append_comma hp.2, h]
    exact ih fun m => hp.2 (hs.subset m)
  | case4 q qSeen quotedName c p hc =>
    have hc' : (c :: p ++ COMMA :: b : Bytes).head? ≠ some SEMICOLON :=
      fun h => hc (Option.some.inj h)
    rw [evalQvalueLoop_done hc']

include hp in
theorem element_append_comma (coding : Bytes) :
    (element coding (p ++ COMMA :: b)).explicitQ = (element coding p).explicitQ ∧
      (element coding (p ++ COMMA :: b)).starQ = (element coding p).starQ := by
  have hs : (p.dropWhile isNameByte).dropWhile isOws <:+ p :=
    (dropOws_suffix _).trans (List.dropWhile_suffix _)
  have htok : (p ++ COMMA :: b).takeWhile isNameByte = p.takeWhile isNameByte :=
    takeWhile_append_comma b rfl p
  have hrest : ((p ++ COMMA :: b).dropWhile isNameByte).dropWhile isOws =
      (p.dropWhile isNameByte).dropWhile isOws ++ COMMA :: b := by
    rw [dropWhile_append_comma b rfl, dropWhile_append_comma b rfl]
  have hdelim := @atDelimiter_append_comma b (fun c => c == SEMICOLON || c == COMMA) rfl
    ((p.dropWhile isNameByte).dropWhile isOws)
  have hq {l : Bytes} (hl : l <:+ p) :
      (if (l ++ COMMA :: b).head? = some SEMICOLON then evalQvalue (l ++ COMMA :: b)
        else (1000, l ++ COMMA :: b)).1 =
      (if l.head? = some SEMICOLON then evalQvalue l else (1000, l)).1 := by
    simp only [head?_append_comma b (show SEMICOLON ≠ COMMA by decide)]
    split
    · exact evalQvalueLoop_append_comma (fun h => hp (hl.subset h)) b 1000 false false
    · rfl
  have h₁ : (element coding (p ++ COMMA :: b)).isCoding = (element coding p).isCoding := by
    simp only [element, htok, hrest, hdelim]
  have h₂ : (element coding (p ++ COMMA :: b)).isStar = (element coding p).isStar := by
    simp only [element, htok, hrest, hdelim]
  have h₃ : (element coding (p ++ COMMA :: b)).q = (element coding p).q := by
    simp only [element, hrest]
    exact hq hs
  simp only [Element.explicitQ, Element.starQ, h₁, h₂, h₃, and_self]

include hp in
theorem startElement_append_comma (coding : Bytes) :
    (startElement coding (p ++ COMMA :: b)).bind Element.explicitQ =
        (startElement coding p).bind Element.explicitQ ∧
      (startElement coding (p ++ COMMA :: b)).bind Element.starQ =
        (startElement coding p).bind Element.starQ := by
  have hs := dropOws_suffix p
  rw [startElement, startElement, dropWhile_append_comma b rfl]
  cases h : p.dropWhile isOws with
  | nil => exact ⟨rfl, rfl⟩
  | cons c t =>
    rw [List.cons_append]
    dsimp only
    split
    · exact ⟨rfl, rfl⟩
    · rw [h] at hs
      exact element_append_comma (fun m => hp (hs.subset m)) b coding

end Comma

theorem topStarts_append_comma {a : Bytes} (ha : DQUOTE ∉ a) (b : Bytes) :
    topStarts (a ++ COMMA :: b) = (topStarts a).map (· ++ COMMA :: b) ++ topStarts b := by
  rw [topStarts, starts, laterStarts_append _ _ _ (by decide), scan_outside_of_no_quote ha,
    laterStarts, if_pos ⟨rfl, rfl⟩]
  rfl

theorem lastOf_elements_append_comma {a : Bytes} (ha : DQUOTE ∉ a) (b coding : Bytes) :
    lastOf Element.explicitQ (elements coding (a ++ COMMA :: b)) =
        (lastOf Element.explicitQ (elements coding b)).or
          (lastOf Element.explicitQ (elements coding a)) ∧
      lastOf Element.starQ (elements coding (a ++ COMMA :: b)) =
        (lastOf Element.starQ (elements coding b)).or
          (lastOf Element.starQ (elements coding a)) := by
  have hstart (s : Bytes) (hs : s ∈ topStarts a) : DQUOTE ∉ s :=
    fun h => ha ((suffix_of_mem_starts hs).subset h)
  simp only [elements, lastOf_filterMap, topStarts_append_comma ha, lastOf_append, lastOf_map]
  refine ⟨congrArg _ ?_, congrArg _ ?_⟩
  · exact lastOf_congr fun s hs => (startElement_append_comma (hstart s hs) b coding).1
  · exact lastOf_congr fun s hs => (startElement_append_comma (hstart s hs) b coding).2

/-- The lines of a field joined with commas. -/
def joinLines (vs : List Bytes) : Bytes := [COMMA].intercalate vs

theorem joinLines_cons (v : Bytes) {vs : List Bytes} (h : vs ≠ []) :
    joinLines (v :: vs) = v ++ COMMA :: joinLines vs := by
  obtain ⟨w, ws, rfl⟩ := List.exists_cons_of_ne_nil h
  simp [joinLines, List.intercalate_cons_cons]

theorem joinLines_singleton (v : Bytes) : joinLines [v] = v := by simp [joinLines]

theorem lastOf_joinLines (coding : Bytes) {vs : List Bytes} (hv : ∀ v ∈ vs, DQUOTE ∉ v) :
    lastOf Element.explicitQ (elements coding (joinLines vs)) =
        lastOf (fun v => lastOf Element.explicitQ (elements coding v)) vs ∧
      lastOf Element.starQ (elements coding (joinLines vs)) =
        lastOf (fun v => lastOf Element.starQ (elements coding v)) vs := by
  induction vs with
  | nil => exact ⟨rfl, rfl⟩
  | cons v vs ih =>
    obtain ⟨ih₁, ih₂⟩ := ih fun w hw => hv w (List.mem_cons_of_mem v hw)
    rw [lastOf_cons, lastOf_cons]
    by_cases h : vs = []
    · subst h
      rw [joinLines_singleton]
      exact ⟨rfl, rfl⟩
    · have hj := lastOf_elements_append_comma (hv v List.mem_cons_self) (joinLines vs) coding
      rw [joinLines_cons v h, hj.1, hj.2, ih₁, ih₂]
      exact ⟨rfl, rfl⟩

theorem Element.explicitQ_nonneg {e : Element} {q : Int} (h : e.explicitQ = some q) : 0 ≤ q := by
  unfold Element.explicitQ at h
  split at h
  case isTrue hq =>
    obtain rfl := Option.some.inj h
    simpa using (Bool.and_eq_true_iff.mp hq).2
  case isFalse => cases h

theorem Element.starQ_nonneg {e : Element} {q : Int} (h : e.starQ = some q) : 0 ≤ q := by
  unfold Element.starQ at h
  split at h
  case isTrue hq =>
    obtain rfl := Option.some.inj h
    simpa using (Bool.and_eq_true_iff.mp hq).2
  case isFalse => cases h

section Fold

variable (coding : Bytes) (allowWildcard : Bool)

def lineExplicit (v : Bytes) : Option Int := lastOf Element.explicitQ (elements coding v)

def lineStar (v : Bytes) : Option Int := lastOf Element.starQ (elements coding v)

theorem lineExplicit_nonneg {v : Bytes} {q : Int} (h : lineExplicit coding v = some q) :
    0 ≤ q := by
  obtain ⟨e, -, he⟩ := lastOf_eq_some_imp h
  exact e.explicitQ_nonneg he

theorem lineStar_nonneg {v : Bytes} {q : Int} (h : lineStar coding v = some q) : 0 ≤ q := by
  obtain ⟨e, -, he⟩ := lastOf_eq_some_imp h
  exact e.starQ_nonneg he

theorem codingWeightEx_line (v : Bytes) :
    codingWeightEx v coding allowWildcard =
      ⟨fieldWeight ((lineExplicit coding v).getD (-1)) ((lineStar coding v).getD (-1))
        allowWildcard, (lineExplicit coding v).getD (-1), (lineStar coding v).getD (-1)⟩ :=
  codingWeightEx_eq v coding allowWildcard

theorem foldLineWeight_eq (w : Int × Int) (v : Bytes) :
    foldLineWeight coding allowWildcard w v =
      match lineExplicit coding v with
      | some q => (q, w.2)
      | none => (w.1, if allowWildcard then (lineStar coding v).getD w.2 else w.2) := by
  rw [foldLineWeight, codingWeightEx_line]
  cases he : lineExplicit coding v with
  | some q => simp [lineExplicit_nonneg coding he]
  | none =>
    cases hs : lineStar coding v with
    | some s => cases allowWildcard <;> simp [lineStar_nonneg coding hs]
    | none => cases allowWildcard <;> simp

theorem foldl_foldLineWeight_fst (vs : List Bytes) (w : Int × Int) :
    (vs.foldl (foldLineWeight coding allowWildcard) w).1 =
      (lastOf (lineExplicit coding) vs).getD w.1 := by
  induction vs generalizing w with
  | nil => rfl
  | cons v vs ih =>
    rw [List.foldl_cons, ih, lastOf_cons, foldLineWeight_eq]
    cases lastOf (lineExplicit coding) vs <;> cases lineExplicit coding v <;> rfl

theorem foldl_foldLineWeight_snd {vs : List Bytes} (h : lastOf (lineExplicit coding) vs = none)
    (w : Int × Int) :
    (vs.foldl (foldLineWeight coding allowWildcard) w).2 =
      if allowWildcard then (lastOf (lineStar coding) vs).getD w.2 else w.2 := by
  induction vs generalizing w with
  | nil => cases allowWildcard <;> rfl
  | cons v vs ih =>
    rw [lastOf_cons, Option.or_eq_none_iff] at h
    rw [List.foldl_cons, ih h.1, lastOf_cons, foldLineWeight_eq, h.2]
    cases allowWildcard <;> cases lastOf (lineStar coding) vs <;> rfl

/-- The weight of a joined field by the lines. -/
theorem codingWeight_joinLines {vs : List Bytes} (hv : ∀ v ∈ vs, DQUOTE ∉ v) :
    codingWeight (joinLines vs) coding allowWildcard =
      fieldWeight ((lastOf (lineExplicit coding) vs).getD (-1))
        ((lastOf (lineStar coding) vs).getD (-1)) allowWildcard := by
  obtain ⟨h₁, h₂⟩ := lastOf_joinLines coding hv
  rw [codingWeight, codingWeightEx_eq, latest, h₁, h₂]
  rfl

/-- On both builds the lines weigh what the joined value weighs. -/
theorem requestCodingWeight_joined (build : Build) (headersIn : HeadersIn)
    (hq : ∀ v ∈ headersIn.headers.lines (ascii "Accept-Encoding"), DQUOTE ∉ v) :
    requestCodingWeight build headersIn coding allowWildcard =
      if headersIn.headers.lines (ascii "Accept-Encoding") = [] then -1
      else codingWeight (joinLines (headersIn.headers.lines (ascii "Accept-Encoding"))) coding
        allowWildcard := by
  rw [requestCodingWeight_eq]
  generalize headersIn.headers.lines (ascii "Accept-Encoding") = vs at hq
  split
  case isTrue h => subst h; cases allowWildcard <;> rfl
  case isFalse =>
    dsimp only
    rw [codingWeight_joinLines coding allowWildcard hq, foldl_foldLineWeight_fst]
    cases he : lastOf (lineExplicit coding) vs with
    | some q =>
      obtain ⟨v, -, hv⟩ := lastOf_eq_some_imp he
      simp [fieldWeight, lineExplicit_nonneg coding hv]
    | none =>
      rw [foldl_foldLineWeight_snd coding allowWildcard he]
      cases allowWildcard <;> rfl

theorem requestCodingWeight_joined_br :
    requestCodingWeight .rawList (.of ⟨[⟨1, ascii "Host", []⟩],
        [[⟨1, ascii "Accept-Encoding", ascii "br;q=0"⟩, ⟨0, ascii "Accept-Encoding", ascii "br"⟩],
          [⟨7, ascii "ACCEPT-encoding", ascii "*;q=0.5, BR; q=0.25"⟩]], by decide⟩)
        (ascii "br") true =
      codingWeight (ascii "br;q=0,*;q=0.5, BR; q=0.25") (ascii "br") true :=
  requestCodingWeight_joined (ascii "br") true .rawList _ (by decide)

end Fold

end NgxBrotli
