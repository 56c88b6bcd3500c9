import NgxBrotli.Elements

namespace NgxBrotli
open QuotedSplit LastWins

/-- A name the walker can read whole. -/
structure NameToken (name : Bytes) : Prop where
  ne_nil : name ≠ []
  all_isNameByte : name.all isNameByte = true
  zero_notMem : 0 ∉ name

/-- A coding token other than the wildcard. -/
structure CodingToken (coding : Bytes) : Prop extends NameToken coding where
  ne_star : coding ≠ [STAR]

theorem nameToken_star : NameToken [STAR] := ⟨by decide, by decide, by decide⟩

def elementResult (name : Bytes) (e : Bytes × Bytes) : Option Int :=
  let t := e.1.dropWhile isOws
  if EqNoCase (t.take name.length) name then
    match (t.drop name.length).dropWhile isOws with
    | [] => some 1000
    | c :: p =>
      if c = SEMICOLON ∧ (evalQvalue (c :: p ++ e.2)).1 ≥ 0 then
        some (evalQvalue (c :: p ++ e.2)).1
      else none
  else none

/-- `explicit_q` and `star_q` by the text of the top-level elements. -/
def lastResult (name v : Bytes) : Int := (lastOf (elementResult name) (topElements v)).getD (-1)

theorem dropWhile_append_stop {f : UInt8 → Bool} {e r : Bytes} (h : r.dropWhile f = r) :
    (e ++ r).dropWhile f = e.dropWhile f ++ r := by
  rw [List.dropWhile_append]
  split
  case isTrue he => rw [h, List.isEmpty_iff.mp he, List.nil_append]
  case isFalse => rfl

theorem takeWhile_append_stop {f : UInt8 → Bool} {e r : Bytes} (h : r.takeWhile f = []) :
    (e ++ r).takeWhile f = e.takeWhile f := by
  rw [List.takeWhile_append, h, List.append_nil]
  split
  case isTrue he => exact ((List.takeWhile_prefix f).eq_of_length he).symm
  case isFalse => rfl

theorem stop_of_rest {f : UInt8 → Bool} (hf : f COMMA = false) {r : Bytes}
    (hr : r = [] ∨ ∃ t, r = COMMA :: t) : r.dropWhile f = r ∧ r.takeWhile f = [] := by
  rcases hr with rfl | ⟨t, rfl⟩
  · exact ⟨rfl, rfl⟩
  · exact ⟨List.dropWhile_cons_of_neg (by simp [hf]), List.takeWhile_cons_of_neg (by simp [hf])⟩

theorem isNameByte_ngxTolower (c : UInt8) : isNameByte (ngxTolower c) = isNameByte c := by
  revert c
  decide +kernel

theorem EqNoCase.isNameByte {s t : Bytes} (h : EqNoCase s t)
    (ht : t.all isNameByte = true) : ∀ c ∈ s, isNameByte c = true := by
  intro c hc
  have hm : ngxTolower c ∈ t.map ngxTolower := h ▸ List.mem_map_of_mem hc
  obtain ⟨d, hd, he⟩ := List.mem_map.mp hm
  rw [← isNameByte_ngxTolower, ← he, isNameByte_ngxTolower]
  exact List.all_eq_true.mp ht d hd

theorem not_isOws_of_isNameByte {c : UInt8} (h : isNameByte c = true) : isOws c = false := by
  unfold isNameByte at h
  simp at h
  exact h.1.1.1

theorem head_ne_comma_of_piece {s w t : Bytes} {c : UInt8}
    (h : takePiece DQUOTE BACKSLASH COMMA .outside s = w ++ c :: t) (hw : DQUOTE ∉ w) :
    c ≠ COMMA := by
  rintro rfl
  exact hw (quote_mem_of_takePiece DQUOTE BACKSLASH COMMA h)

theorem elementResult_of_not_eqNoCase {name : Bytes} {e : Bytes × Bytes}
    (h : ¬EqNoCase ((e.1.dropWhile isOws).take name.length) name) :
    elementResult name e = none := by
  unfold elementResult
  exact if_neg h

theorem explicitQ_of_not_isCoding {e : Element} (h : e.isCoding = false) : e.explicitQ = none := by
  simp [Element.explicitQ, h]

section Piece

variable {name r t : Bytes} (hn : NameToken name)

include hn in
theorem isCoding_of_not_eqNoCase (hr : r = [] ∨ ∃ u, r = COMMA :: u)
    (h : ¬EqNoCase (t.take name.length) name) : (element name (t ++ r)).isCoding = false := by
  have htok : (t ++ r).takeWhile isNameByte = t.takeWhile isNameByte :=
    takeWhile_append_stop (stop_of_rest rfl hr).2
  have hm : matchesName (t.takeWhile isNameByte) name = false := by
    rw [← Bool.not_eq_true, matchesName_iff hn.zero_notMem]
    intro hm
    have hp := List.takeWhile_prefix isNameByte (l := t)
    rw [← hm.length_eq, ← List.prefix_iff_eq_take.mp hp] at h
    exact h hm
  simp [element, htok, hm]

include hn in
theorem isCoding_of_longer {c : UInt8} (hw : EqNoCase t name) (hc : isNameByte c = true)
    (p : Bytes) : (element name (t ++ c :: p)).isCoding = false := by
  have htok : (t ++ c :: p).takeWhile isNameByte = t ++ c :: p.takeWhile isNameByte := by
    rw [List.takeWhile_append_of_pos (hw.isNameByte hn.all_isNameByte),
      List.takeWhile_cons_of_pos hc]
  have hm : matchesName (t ++ c :: p.takeWhile isNameByte) name = false := by
    rw [← Bool.not_eq_true, matchesName_iff hn.zero_notMem]
    intro hm
    have := hm.length_eq
    rw [List.length_append, hw.length_eq, List.length_cons] at this
    omega
  simp [element, htok, hm]

include hn in
theorem element_of_eqNoCase (hw : EqNoCase t name) {p : Bytes}
    (hp : p.takeWhile isNameByte = []) :
    element name (t ++ p) =
      let p' := p.dropWhile isOws
      let clean := atDelimiter (fun c => c == SEMICOLON || c == COMMA) p'
      { isCoding := clean, isStar := t == [STAR] && clean
        q := if p'.head? = some SEMICOLON then (evalQvalue p').1 else 1000
        rest := skipElement (t ++ p) } := by
  have hall := hw.isNameByte hn.all_isNameByte
  have htok : (t ++ p).takeWhile isNameByte = t := by
    rw [List.takeWhile_append_of_pos hall, hp, List.append_nil]
  have hdrop : (t ++ p).dropWhile isNameByte = p := by
    rw [List.dropWhile_append_of_pos hall]
    conv_rhs => rw [← List.takeWhile_append_dropWhile (p := isNameByte) (l := p), hp]
    rfl
  have hm : matchesName t name = true := (matchesName_iff hn.zero_notMem).mpr hw
  rw [← element_rest name (t ++ p)]
  simp only [element, htok, hdrop, hm, Bool.true_and]
  split <;> rfl

include hn in
theorem startElement_of_not_eqNoCase {s : Bytes} (hr : r = [] ∨ ∃ u, r = COMMA :: u)
    (hs : s.dropWhile isOws = t ++ r) (h : ¬EqNoCase (t.take name.length) name) :
    (startElement name s).bind Element.explicitQ = none := by
  rw [startElement, hs]
  cases htr : t ++ r with
  | nil => rfl
  | cons c p =>
    dsimp only
    split
    · rfl
    · rw [Option.bind_some, ← htr, explicitQ_of_not_isCoding (isCoding_of_not_eqNoCase hn hr h)]

include hn in
theorem startElement_of_eqNoCase {s p : Bytes} (hw : EqNoCase t name)
    (hs : s.dropWhile isOws = t ++ p) : startElement name s = some (element name (t ++ p)) := by
  have hall := hw.isNameByte hn.all_isNameByte
  obtain ⟨c, w', rfl⟩ : ∃ c w', t = c :: w' :=
    List.exists_cons_of_ne_nil fun h => hn.ne_nil (by simpa [h] using hw.length_eq.symm)
  have hc : c ≠ COMMA := by
    rintro rfl
    exact absurd (hall COMMA List.mem_cons_self) (by decide)
  rw [startElement, hs]
  exact if_neg hc

include hn in
theorem elementResult_of_ends {e u : Bytes} (hr : r = [] ∨ ∃ v, r = COMMA :: v)
    (hw : EqNoCase t name) (he : e.dropWhile isOws = t ++ u)
    (hu : (u ++ r).takeWhile isNameByte = [])
    (hcomma : ∀ d ∈ (u.dropWhile isOws).head?, d ≠ COMMA) :
    elementResult name (e, r) = (element name (t ++ (u ++ r))).explicitQ := by
  have htake : (t ++ u).take name.length = t := by rw [← hw.length_eq, List.take_left]
  have hdrop : (t ++ u).drop name.length = u := by rw [← hw.length_eq, List.drop_left]
  rw [element_of_eqNoCase hn hw hu, dropWhile_append_stop (stop_of_rest rfl hr).1]
  simp only [elementResult, he, htake, hdrop]
  rw [if_pos hw]
  cases hd : u.dropWhile isOws with
  | nil => rcases hr with rfl | ⟨v, rfl⟩ <;> rfl
  | cons d p =>
    have hne : d ≠ COMMA := hcomma d (by rw [hd]; rfl)
    by_cases hsemi : d = SEMICOLON
    · simp [Element.explicitQ, atDelimiter, hsemi]
    · simp [Element.explicitQ, atDelimiter, hsemi, hne]

include hn in
theorem elementResult_of_longer {e u : Bytes} (hr : r = [] ∨ ∃ v, r = COMMA :: v)
    (hw : EqNoCase t name) (he : e.dropWhile isOws = t ++ u)
    (hu : (u ++ r).takeWhile isNameByte ≠ []) :
    elementResult name (e, r) = (element name (t ++ (u ++ r))).explicitQ := by
  have htake : (t ++ u).take name.length = t := by rw [← hw.length_eq, List.take_left]
  have hdrop : (t ++ u).drop name.length = u := by rw [← hw.length_eq, List.drop_left]
  -- the byte is in `u`: a comma is no byte of a name
  obtain ⟨x, u', rfl, hx⟩ : ∃ x u', u = x :: u' ∧ isNameByte x = true := by
    cases u with
    | nil => exact absurd (stop_of_rest rfl hr).2 hu
    | cons x u' =>
      refine ⟨x, u', rfl, ?_⟩
      by_contra hx
      exact hu (List.takeWhile_cons_of_neg hx)
  have hows := not_isOws_of_isNameByte hx
  have hsemi : x ≠ SEMICOLON := by
    rintro rfl
    exact absurd hx (by decide)
  rw [List.cons_append, explicitQ_of_not_isCoding (isCoding_of_longer hn hw hx _)]
  simp only [elementResult, he, htake, hdrop]
  rw [if_pos hw, List.dropWhile_cons_of_neg (by simp [hows])]
  simp [hsemi]

include hn in
/-- The result of an element is what the walker makes of it. -/
theorem elementResult_eq (s : Bytes) :
    elementResult name (takePiece DQUOTE BACKSLASH COMMA .outside s,
        dropPiece DQUOTE BACKSLASH COMMA .outside s) =
      (startElement name s).bind Element.explicitQ := by
  have hs := takePiece_append_dropPiece DQUOTE BACKSLASH COMMA .outside s
  have hr := dropPiece_eq_nil_or_sep DQUOTE BACKSLASH COMMA .outside s
  have hcomma (w t : Bytes) (c : UInt8) :
      takePiece DQUOTE BACKSLASH COMMA .outside s = w ++ c :: t → DQUOTE ∉ w → c ≠ COMMA :=
    fun h hw => head_ne_comma_of_piece h hw
  generalize takePiece DQUOTE BACKSLASH COMMA .outside s = e at hs hcomma ⊢
  generalize dropPiece DQUOTE BACKSLASH COMMA .outside s = r at hs hr ⊢
  have hows : s.dropWhile isOws = e.dropWhile isOws ++ r := by
    rw [← hs, dropWhile_append_stop (stop_of_rest rfl hr).1]
  by_cases hw : EqNoCase ((e.dropWhile isOws).take name.length) name
  case neg =>
    rw [elementResult_of_not_eqNoCase hw, startElement_of_not_eqNoCase hn hr hows hw]
  case pos =>
    obtain ⟨t, u, ht, htu⟩ : ∃ t u, e.dropWhile isOws = t ++ u ∧
        t = (e.dropWhile isOws).take name.length :=
      ⟨_, _, (List.take_append_drop name.length _).symm, rfl⟩
    rw [← htu] at hw
    rw [ht, List.append_assoc] at hows
    rw [startElement_of_eqNoCase hn hw hows, Option.bind_some]
    by_cases hu : (u ++ r).takeWhile isNameByte = []
    case neg => exact elementResult_of_longer hn hr hw ht hu
    case pos =>
      refine elementResult_of_ends hn hr hw ht hu fun d hd => ?_
      obtain ⟨p, hp⟩ := List.head?_eq_some_iff.mp hd
      -- no quote stands before `d`, so a comma there would end the element
      refine hcomma (e.takeWhile isOws ++ (t ++ u.takeWhile isOws)) p d ?_ ?_
      · rw [List.append_assoc, List.append_assoc, ← hp, List.takeWhile_append_dropWhile, ← ht,
          List.takeWhile_append_dropWhile]
      · have hqe : DQUOTE ∉ e.takeWhile isOws := quote_notMem_takeWhile rfl
        have hqu : DQUOTE ∉ u.takeWhile isOws := quote_notMem_takeWhile rfl
        have hqt : DQUOTE ∉ t := fun h =>
          absurd (hw.isNameByte hn.all_isNameByte _ h) (by decide)
        simp [hqe, hqt, hqu]

end Piece

theorem eqNoCase_star {s : Bytes} : EqNoCase s [STAR] ↔ s = [STAR] := by
  have hstar (c : UInt8) : ngxTolower c = STAR → c = STAR := by
    revert c
    decide +kernel
  refine ⟨fun h => ?_, fun h => h ▸ .rfl⟩
  obtain ⟨c, rfl⟩ := List.length_eq_one_iff.mp h.length_eq
  exact congrArg (· :: []) (hstar c (List.cons.inj h).1)

theorem starQ_eq {coding : Bytes} (hc : CodingToken coding) (p : Bytes) :
    (element coding p).starQ = (element [STAR] p).explicitQ := by
  have hstar (tok : Bytes) : matchesName tok [STAR] = (tok == [STAR]) := by
    rw [Bool.eq_iff_iff, matchesName_iff (by decide), eqNoCase_star, beq_iff_eq]
  have hne : matchesName [STAR] coding = false := by
    rw [← Bool.not_eq_true, matchesName_iff hc.zero_notMem]
    exact fun h => hc.ne_star (eqNoCase_star.mp h.symm)
  simp only [Element.starQ, Element.explicitQ, element, hstar]
  by_cases ht : p.takeWhile isNameByte = [STAR]
  · simp [ht, hne]
  · simp [ht]

theorem lastOf_topElements {name : Bytes} (hn : NameToken name) (v : Bytes) :
    lastOf (elementResult name) (topElements v) = lastOf Element.explicitQ (elements name v) := by
  rw [topElements, pieces_eq_map_starts, lastOf_map, elements, lastOf_filterMap]
  exact lastOf_congr fun s _ => elementResult_eq hn s

theorem lastResult_eq {name : Bytes} (hn : NameToken name) (v : Bytes) :
    lastResult name v = (lastOf Element.explicitQ (elements name v)).getD (-1) := by
  rw [lastResult, lastOf_topElements hn]

theorem startElement_starQ {coding : Bytes} (hc : CodingToken coding) (s : Bytes) :
    (startElement coding s).bind Element.starQ =
      (startElement [STAR] s).bind Element.explicitQ := by
  rw [startElement, startElement]
  cases s.dropWhile isOws with
  | nil => rfl
  | cons c p =>
    dsimp only
    split
    · rfl
    · exact starQ_eq hc (c :: p)

theorem lastOf_starQ {coding : Bytes} (hc : CodingToken coding) (v : Bytes) :
    lastOf Element.starQ (elements coding v) = lastOf Element.explicitQ (elements [STAR] v) := by
  rw [elements, elements, lastOf_filterMap, lastOf_filterMap]
  exact lastOf_congr fun s _ => startElement_starQ hc s

theorem explicitQ_eq_lastResult {coding : Bytes} (hc : CodingToken coding) (v : Bytes)
    (allowWildcard : Bool) :
    (codingWeightEx v coding allowWildcard).explicitQ = lastResult coding v := by
  rw [codingWeightEx_eq, lastResult_eq hc.toNameToken]
  rfl

theorem starQ_eq_lastResult {coding : Bytes} (hc : CodingToken coding) (v : Bytes)
    (allowWildcard : Bool) :
    (codingWeightEx v coding allowWildcard).starQ = lastResult [STAR] v := by
  rw [codingWeightEx_eq, lastResult_eq nameToken_star, ← lastOf_starQ hc]
  rfl

/-- On every byte string the accumulated weights are the last results of the top-level elements
for the coding and for the wildcard. -/
theorem codingWeightEx_topElements {coding : Bytes} (hc : CodingToken coding) (v : Bytes)
    (allowWildcard : Bool) :
    (codingWeightEx v coding allowWildcard).explicitQ = lastResult coding v ∧
      (codingWeightEx v coding allowWildcard).starQ = lastResult [STAR] v :=
  ⟨explicitQ_eq_lastResult hc v allowWildcard, starQ_eq_lastResult hc v allowWildcard⟩

theorem codingToken_br : CodingToken (ascii "br") := ⟨⟨by decide, by decide, by decide⟩, by decide⟩

theorem codingWeightEx_topElements_br :
    (codingWeightEx (ascii "gzip;x=\"a, br\", br;q=0.5, *;q=\"") (ascii "br") true).explicitQ =
        lastResult (ascii "br") (ascii "gzip;x=\"a, br\", br;q=0.5, *;q=\"") ∧
      (codingWeightEx (ascii "gzip;x=\"a, br\", br;q=0.5, *;q=\"") (ascii "br") true).starQ =
        lastResult [STAR] (ascii "gzip;x=\"a, br\", br;q=0.5, *;q=\"") :=
  codingWeightEx_topElements codingToken_br _ true

end NgxBrotli
