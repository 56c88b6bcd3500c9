import NgxBrotli.HeaderFilter
import NgxBrotli.QuotedText

namespace NgxBrotli
open QuotedSplit

/-- The text of a segment before its first ';' or '=', OWS trimmed on both sides. -/
def directiveName (seg : Bytes) : Bytes :=
  trimEnd ((seg.takeWhile fun c => c != SEMICOLON && c != EQUALS).dropWhile isOws)

def ForbidsTransform (seg : Bytes) : Prop := EqNoCase (directiveName seg) (ascii "no-transform")

theorem scanSegment_eq_dropPiece (p : Bytes) :
    scanSegment p = dropPiece DQUOTE BACKSLASH COMMA .outside p ∧
      scanSegmentQuoted p = dropPiece DQUOTE BACKSLASH COMMA .inside p := by
  induction hn : p.length using Nat.strong_induction_on generalizing p with
  | _ n ih =>
    cases p with
    | nil => exact ⟨rfl, rfl⟩
    | cons c p =>
      rw [List.length_cons] at hn
      obtain ⟨hout, hin⟩ := ih p.length (by omega) p rfl
      constructor
      · rw [scanSegment, dropPiece, next]
        by_cases hc : c = COMMA
        · rw [if_pos hc, if_pos ⟨rfl, hc⟩]
        · have hno : ¬(Mode.outside = .outside ∧ c = COMMA) := fun h => hc h.2
          rw [if_neg hc, if_neg hno, hout, hin]
          split_ifs <;> rfl
      · rw [scanSegmentQuoted.eq_def, dropPiece, if_neg (by simp), next]
        dsimp only
        by_cases hq : c = DQUOTE
        · rw [if_pos hq, if_pos hq, hout]
        · rw [if_neg hq, if_neg hq]
          by_cases hb : c = BACKSLASH
          · rw [if_pos hb, if_pos hb]
            cases p with
            | nil => rfl
            | cons d p =>
              rw [List.length_cons] at hn
              rw [dropPiece, if_neg (by simp)]
              exact (ih p.length (by omega) p rfl).2
          · rw [if_neg hb, if_neg hb, hin]

theorem scanSegment_eq_skipElement (p : Bytes) : scanSegment p = skipElement p :=
  (scanSegment_eq_dropPiece p).1.trans (skipElement_eq_dropPiece p).symm

theorem takePiece_dropOws (p : Bytes) :
    takePiece DQUOTE BACKSLASH COMMA .outside (p.dropWhile isOws) =
      (takePiece DQUOTE BACKSLASH COMMA .outside p).dropWhile isOws := by
  induction p with
  | nil => rfl
  | cons c p ih =>
    by_cases ho : isOws c = true
    · have hne : c ≠ COMMA ∧ c ≠ DQUOTE := by
        constructor <;> (rintro rfl; exact absurd ho (by decide))
      rw [List.dropWhile_cons_of_pos ho, ih, takePiece, if_neg (fun h => hne.1 h.2), next,
        if_neg hne.2, List.dropWhile_cons_of_pos ho]
    · rw [List.dropWhile_cons_of_neg ho, takePiece]
      by_cases hc : c = COMMA
      · rw [if_pos ⟨rfl, hc⟩]
        rfl
      · rw [if_neg (fun h => hc h.2), List.dropWhile_cons_of_neg ho]

theorem takeWhile_dropOws {f : UInt8 → Bool} (hf : ∀ c, isOws c = true → f c = true) (seg : Bytes) :
    (seg.dropWhile isOws).takeWhile f = (seg.takeWhile f).dropWhile isOws := by
  induction seg with
  | nil => rfl
  | cons c seg ih =>
    by_cases ho : isOws c = true
    · rw [List.dropWhile_cons_of_pos ho, ih, List.takeWhile_cons_of_pos (hf c ho),
        List.dropWhile_cons_of_pos ho]
    · rw [List.dropWhile_cons_of_neg ho, List.takeWhile_cons]
      split
      · rw [List.dropWhile_cons_of_neg ho]
      · rfl

theorem walker_turn (p : Bytes) :
    let start := p.dropWhile isOws
    let segEnd := scanSegment start
    let seg := start.take (start.length - segEnd.length)
    trimEnd (seg.takeWhile fun c => c != SEMICOLON && c != EQUALS) =
        directiveName (takePiece DQUOTE BACKSLASH COMMA .outside p) ∧
      segEnd = dropPiece DQUOTE BACKSLASH COMMA .outside p := by
  dsimp only
  have hend : scanSegment (p.dropWhile isOws) = dropPiece DQUOTE BACKSLASH COMMA .outside p := by
    rw [scanSegment_eq_skipElement, (PlainSuffix.dropOws p).skipElement_eq,
      skipElement_eq_dropPiece]
  refine ⟨?_, hend⟩
  have hsplit := takePiece_append_dropPiece DQUOTE BACKSLASH COMMA .outside (p.dropWhile isOws)
  have hseg : (p.dropWhile isOws).take
        ((p.dropWhile isOws).length - (scanSegment (p.dropWhile isOws)).length) =
      takePiece DQUOTE BACKSLASH COMMA .outside (p.dropWhile isOws) := by
    rw [(scanSegment_eq_dropPiece _).1]
    exact take_of_append hsplit
  have hcut (c : UInt8) (ho : isOws c = true) : (c != SEMICOLON && c != EQUALS) = true := by
    rw [Bool.and_eq_true, bne_iff_ne, bne_iff_ne]
    constructor <;> (rintro rfl; exact absurd ho (by decide))
  rw [hseg, takePiece_dropOws, takeWhile_dropOws hcut, directiveName]

/-- The walker finds the directive if and only if a top-level segment names it. -/
theorem ccValueNoTransform_iff (v : Bytes) :
    ccValueNoTransform v = true ↔ ∃ e ∈ topElements v, ForbidsTransform e.1 := by
  have hempty : ¬ForbidsTransform [] := by
    intro h
    exact absurd (EqNoCase.length_eq h) (by decide)
  have hiff (name : Bytes) :
      matchesName name (ascii "no-transform") = true ↔ EqNoCase name (ascii "no-transform") :=
    matchesName_iff (by decide)
  fun_induction ccValueNoTransform v with
  | case1 =>
    refine iff_of_false (by decide) ?_
    rintro ⟨e, he, hf⟩
    obtain rfl := List.mem_singleton.mp he
    exact hempty hf
  | case2 c p start segEnd seg name hm =>
    refine iff_of_true rfl ?_
    rw [topElements, pieces_eq_cons]
    refine ⟨_, List.mem_cons_self, ?_⟩
    rw [ForbidsTransform, ← (walker_turn (c :: p)).1]
    exact (hiff _).mp hm
  | case3 c p start segEnd seg name hm ih =>
    have hturn := walker_turn (c :: p)
    have hno : ¬ForbidsTransform (takePiece DQUOTE BACKSLASH COMMA .outside (c :: p)) := by
      rw [ForbidsTransform, ← hturn.1]
      exact fun h => hm ((hiff _).mpr h)
    apply ih.trans
    rw [topElements, topElements, pieces_eq_cons _ _ _ _ (c :: p)]
    have hd : segEnd = dropPiece DQUOTE BACKSLASH COMMA .outside (c :: p) := hturn.2
    rw [← hd]
    cases segEnd with
    | nil => simp [hno, pieces, hempty]
    | cons d t => simp [hno]

theorem quote_mem_dropOws {l : Bytes} (h : DQUOTE ∈ l) : DQUOTE ∈ l.dropWhile isOws := by
  rw [← List.takeWhile_append_dropWhile (p := isOws) (l := l), List.mem_append] at h
  exact h.resolve_left (quote_notMem_takeWhile rfl)

theorem quote_mem_trimEnd {l : Bytes} (h : DQUOTE ∈ l) : DQUOTE ∈ trimEnd l := by
  rw [trimEnd, List.rdropWhile, List.mem_reverse]
  exact quote_mem_dropOws (List.mem_reverse.mpr h)

theorem forbidsTransform_append_quote (w y : Bytes) :
    ForbidsTransform (w ++ DQUOTE :: y) ↔
      ForbidsTransform w ∧ w.takeWhile (fun c => c != SEMICOLON && c != EQUALS) ≠ w := by
  have htake :=
    @List.takeWhile_append UInt8 (fun c => c != SEMICOLON && c != EQUALS) w (DQUOTE :: y)
  by_cases hw : w.takeWhile (fun c => c != SEMICOLON && c != EQUALS) = w
  · refine iff_of_false (fun h => ?_) (fun h => h.2 hw)
    rw [if_pos (congrArg List.length hw), List.takeWhile_cons_of_pos (by decide)] at htake
    have hmem : DQUOTE ∈ directiveName (w ++ DQUOTE :: y) := by
      rw [directiveName, htake]
      apply quote_mem_trimEnd
      apply quote_mem_dropOws
      exact List.mem_append_right w List.mem_cons_self
    have hlower : ngxTolower DQUOTE ∈ (ascii "no-transform").map ngxTolower := by
      rw [← show _ = _ from h]
      exact List.mem_map_of_mem hmem
    exact absurd hlower (by decide)
  · have hlen : ¬(w.takeWhile fun c => c != SEMICOLON && c != EQUALS).length = w.length := by
      intro h
      exact hw ((List.takeWhile_prefix _).eq_of_length h)
    rw [if_neg hlen] at htake
    rw [ForbidsTransform, directiveName, htake]
    exact (and_iff_left hw).symm

theorem ccValueNoTransform_starts (v : Bytes) :
    ccValueNoTransform v = true ↔
      ∃ s ∈ topStarts v, ForbidsTransform (takePiece DQUOTE BACKSLASH COMMA .outside s) := by
  rw [ccValueNoTransform_iff, topElements, pieces_eq_map_starts]
  simp

theorem forbidsTransform_of_start (s x : Bytes) :
    ForbidsTransform (takePiece DQUOTE BACKSLASH COMMA .outside (s ++ DQUOTE :: x)) ↔
      ForbidsTransform (takePiece DQUOTE BACKSLASH COMMA .outside s) ∧
        (takePiece DQUOTE BACKSLASH COMMA .outside s = s →
          s.takeWhile (fun c => c != SEMICOLON && c != EQUALS) ≠ s) := by
  rw [takePiece_append]
  by_cases hs : takePiece DQUOTE BACKSLASH COMMA .outside s = s
  · have hquote : DQUOTE ≠ COMMA := by decide
    rw [if_pos hs, takePiece, if_neg (fun h => hquote h.2), forbidsTransform_append_quote, hs]
    simp
  · rw [if_neg hs]
    simp [hs]

theorem ccValueNoTransform_quoted {a i c : Bytes} (ha : scan DQUOTE BACKSLASH .outside a = .outside)
    (hi : skipQuoted (DQUOTE :: (i ++ DQUOTE :: c)) = c) :
    ccValueNoTransform (a ++ DQUOTE :: (i ++ DQUOTE :: c)) = true ↔
      (∃ s ∈ topStarts a, ForbidsTransform (takePiece DQUOTE BACKSLASH COMMA .outside s) ∧
        (takePiece DQUOTE BACKSLASH COMMA .outside s = s →
          s.takeWhile (fun c => c != SEMICOLON && c != EQUALS) ≠ s)) ∨
      ∃ s ∈ laterStarts DQUOTE BACKSLASH COMMA .outside c,
        ForbidsTransform (takePiece DQUOTE BACKSLASH COMMA .outside s) := by
  have hsep : COMMA ≠ DQUOTE := by decide
  have hlater : laterStarts DQUOTE BACKSLASH COMMA .outside (DQUOTE :: (i ++ DQUOTE :: c)) =
      laterStarts DQUOTE BACKSLASH COMMA .outside c := by
    rw [skipQuoted_quote, skipQuotedLoop_eq_afterRun] at hi
    rw [laterStarts, if_neg (fun h => hsep h.2.symm), next, if_pos rfl,
      laterStarts_inside _ _ _ _ (by decide), hi]
  have hstarts : topStarts (a ++ DQUOTE :: (i ++ DQUOTE :: c)) =
      (topStarts a).map (· ++ DQUOTE :: (i ++ DQUOTE :: c)) ++
        laterStarts DQUOTE BACKSLASH COMMA .outside c := by
    rw [topStarts, starts, laterStarts_append _ _ _ hsep, ha, hlater, topStarts, starts,
      List.map_cons, List.cons_append]
  rw [ccValueNoTransform_starts, hstarts]
  simp only [List.mem_append, List.mem_map, or_and_right, exists_or, exists_exists_and_eq_and,
    forbidsTransform_of_start]

theorem skipQuoted_plainText {b : Bytes} (hb : PlainText b) (c : Bytes) :
    skipQuoted (DQUOTE :: (b ++ DQUOTE :: c)) = c := by
  obtain ⟨hq, he⟩ := hb
  rw [skipQuoted_quote]
  induction b with
  | nil =>
    rw [List.nil_append, skipQuotedLoop.eq_def]
    exact if_pos rfl
  | cons d b ih =>
    rw [List.mem_cons, not_or] at hq he
    rw [List.cons_append, skipQuotedLoop.eq_def]
    dsimp only
    rw [if_neg (Ne.symm hq.1), if_neg (Ne.symm he.1)]
    exact ih hq.2 he.2

theorem noTransform_iff (headers : HeaderList) :
    noTransform headers = true ↔
      ∃ h ∈ headers.toList, (h.hash ≠ 0 ∧ EqNoCase h.key (ascii "Cache-Control")) ∧
        ccValueNoTransform h.value = true := by
  have hname (key : Bytes) :
      matchesName key (ascii "Cache-Control") = true ↔ EqNoCase key (ascii "Cache-Control") :=
    matchesName_iff (by decide)
  -- an empty value has no directive, so the length check of the loop only saves the call
  have hne {v : Bytes} (h : ccValueNoTransform v = true) : v ≠ [] := by
    rintro rfl
    rw [ccValueNoTransform] at h
    cases h
  rw [noTransform, PartList.find?_eq, List.find?_isSome]
  simp only [Bool.and_eq_true, bne_iff_ne, hname, Bool.not_eq_true', List.isEmpty_eq_false_iff]
  constructor
  · rintro ⟨h, hmem, ⟨hlive, -⟩, hv⟩
    exact ⟨h, hmem, hlive, hv⟩
  · rintro ⟨h, hmem, hlive, hv⟩
    exact ⟨h, hmem, ⟨hlive, hne hv⟩, hv⟩

/-- The scan inlined in the walker delimits quoted strings as `ngx_http_brotli_skip_quoted` does;
the answer is whether a top-level segment of a live line names the directive, in any parts the list
is kept; and what a closed quoted string of any line holds does not change it. -/
theorem no_transform_exact :
    (∀ p, scanSegment p = skipElement p) ∧
    (∀ headers : HeaderList, noTransform headers = true ↔
      ∃ h ∈ headers.toList, (h.hash ≠ 0 ∧ EqNoCase h.key (ascii "Cache-Control")) ∧
        ∃ e ∈ topElements h.value, EqNoCase (directiveName e.1) (ascii "no-transform")) ∧
    ∀ (headers headers' : HeaderList) (before after : List TableElt) (h : TableElt)
        (a i b c : Bytes),
      headers.toList = before ++ { h with value := a ++ DQUOTE :: (i ++ DQUOTE :: c) } :: after →
      headers'.toList = before ++ { h with value := a ++ quotedText b ++ c } :: after →
      scan DQUOTE BACKSLASH .outside a = .outside →
      skipQuoted (DQUOTE :: (i ++ DQUOTE :: c)) = c → PlainText b →
      noTransform headers = noTransform headers' := by
  refine ⟨scanSegment_eq_skipElement, fun headers => ?_, ?_⟩
  · rw [noTransform_iff]
    simp only [ccValueNoTransform_iff, ForbidsTransform]
  · intro headers headers' before after h a i b c hl hl' ha hi hb
    have hvalue : ccValueNoTransform (a ++ DQUOTE :: (i ++ DQUOTE :: c)) = true ↔
        ccValueNoTransform (a ++ quotedText b ++ c) = true := by
      have hb' := ccValueNoTransform_quoted ha (skipQuoted_plainText hb c)
      rw [ccValueNoTransform_quoted ha hi, ← hb', quotedText]
      simp
    rw [Bool.eq_iff_iff, noTransform_iff, noTransform_iff, hl, hl']
    simp only [List.mem_append, List.mem_cons, or_and_right, exists_or, exists_eq_left, hvalue]

theorem no_transform_exact_quoted_comma :
    noTransform (.ofList [⟨1, ascii "Cache-Control", ascii "x=\",no-transform\\\"\" ,y"⟩]) =
      noTransform (.ofList [⟨1, ascii "Cache-Control", ascii "x=\"a\" ,y"⟩]) :=
  no_transform_exact.2.2 _ _ [] [] ⟨1, ascii "Cache-Control", []⟩ (ascii "x=")
    (ascii ",no-transform\\\"") (ascii "a") (ascii " ,y") (by decide +kernel) (by decide +kernel)
    (by decide) (by decide +kernel) (by decide)

end NgxBrotli
