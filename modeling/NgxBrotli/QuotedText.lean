import NgxBrotli.ElementResult
import NgxBrotli.ParamMachine

namespace NgxBrotli
open QuotedSplit LastWins

/-- A text that a quoted string can hold as it stands. -/
def PlainText (b : Bytes) : Prop := DQUOTE ∉ b ∧ BACKSLASH ∉ b

instance (b : Bytes) : Decidable (PlainText b) := inferInstanceAs (Decidable (_ ∧ _))

def quotedText (b : Bytes) : Bytes := DQUOTE :: (b ++ [DQUOTE])

def Element.reading (e : Element) : Bool × Bool × Int := (e.isCoding, e.isStar, e.q)

/-- What the walker reads in each top-level element, `none` in an empty one. -/
def readings (coding v : Bytes) : List (Option (Bool × Bool × Int)) :=
  (topStarts v).map fun s => (startElement coding s).map Element.reading

/-- The states in which a quoted string is read as text of a name, or from its close on. -/
def Eval.isLive : Eval → Bool
  | .start _ _ => true
  | .name _ _ _ => true
  | .quoted _ _ => true
  | _ => false

def paramText (s : Bytes) : Bytes := ((s.dropWhile isOws).dropWhile isNameByte).dropWhile isOws

/-- The state in which the parameters of the element are at the end of the text. -/
def paramState (s : Bytes) : Eval := (Eval.head 1000 false).run (paramText s)

theorem codingWeightEx_of_readings {coding v v' : Bytes}
    (h : readings coding v = readings coding v') (allowWildcard : Bool) :
    codingWeightEx v coding allowWildcard = codingWeightEx v' coding allowWildcard := by
  have hex (v : Bytes) : lastOf Element.explicitQ (elements coding v) =
      lastOf (fun r : Option (Bool × Bool × Int) =>
        r.bind fun r => if r.1 && r.2.2 ≥ 0 then some r.2.2 else none) (readings coding v) := by
    rw [readings, lastOf_map, elements, lastOf_filterMap]
    refine lastOf_congr fun s _ => ?_
    rw [Option.bind_map]
    rfl
  have hst (v : Bytes) : lastOf Element.starQ (elements coding v) =
      lastOf (fun r : Option (Bool × Bool × Int) =>
        r.bind fun r => if !r.1 && r.2.1 && r.2.2 ≥ 0 then some r.2.2 else none)
        (readings coding v) := by
    rw [readings, lastOf_map, elements, lastOf_filterMap]
    refine lastOf_congr fun s _ => ?_
    rw [Option.bind_map]
    rfl
  rw [codingWeightEx_eq, codingWeightEx_eq, latest, latest, hex, hex, hst, hst, h]

namespace Eval

def Nonneg : Eval → Prop
  | head q _ | start q _ | name q _ _ | afterName q _ _ | value q _ | quoted q _ | escaped q _
  | leading q | digits q _ | after q | done q => 0 ≤ q
  | valueQ | zeros _ | malformed => True

theorem Nonneg.endStep {q : Int} (hq : 0 ≤ q) (seen : Bool) (c : UInt8) :
    (endStep q seen c).Nonneg := by
  rw [Eval.endStep]
  split_ifs <;> first | exact hq | trivial

theorem Nonneg.stopStep {q : Int} (hq : 0 ≤ q) (c : UInt8) : (stopStep q c).Nonneg := by
  rw [Eval.stopStep]
  split_ifs
  · exact hq
  · exact .endStep hq true c

theorem Nonneg.afterNameStep {q : Int} (hq : 0 ≤ q) (seen isQ : Bool) (c : UInt8) :
    (afterNameStep q seen isQ c).Nonneg := by
  rw [Eval.afterNameStep]
  split_ifs <;> first | exact hq | trivial | exact .endStep hq seen c

theorem Nonneg.step {s : Eval} (h : s.Nonneg) (c : UInt8) : (s.step c).Nonneg := by
  cases s with
  | head q seen => rw [Eval.step]; split_ifs <;> exact h
  | start q seen => rw [Eval.step]; split_ifs <;> first | exact h | trivial
  | name q seen isQ =>
    rw [Eval.step]
    split_ifs
    · exact h
    · exact .afterNameStep h seen isQ c
  | afterName q seen isQ => exact .afterNameStep h seen isQ c
  | value q seen => rw [Eval.step]; split_ifs <;> exact h
  | quoted q seen => rw [Eval.step]; split_ifs <;> exact h
  | escaped q seen => exact h
  | valueQ => rw [Eval.step]; split_ifs <;> simp [Nonneg]
  | leading q =>
    rw [Eval.step]
    split_ifs <;> first | exact .stopStep h c | simp [Nonneg]
  | digits q scale =>
    rw [Eval.step]
    split_ifs with hd
    · have hc : (0x30 : ℕ) ≤ c.toNat := by
        have := hd.1
        simp only [isDigit, Bool.and_eq_true, decide_eq_true_eq] at this
        exact UInt8.le_iff_toNat_le.mp this.1
      have : 0 ≤ ((c.toNat : Int) - 0x30) * scale := mul_nonneg (by omega) (by omega)
      exact add_nonneg h this
    · exact .stopStep h c
  | zeros n =>
    rw [Eval.step]
    split_ifs
    · trivial
    · exact .stopStep (by decide) c
  | after q =>
    rw [Eval.step]
    split_ifs
    · exact h
    · exact .endStep h true c
  | done q => exact h
  | malformed => trivial

theorem Nonneg.run {s : Eval} (h : s.Nonneg) (p : Bytes) : (s.run p).Nonneg := by
  induction p generalizing s with
  | nil => exact h
  | cons c p ih => exact ih (h.step c)

theorem run_quotedText {s : Eval} (hs : s.isLive = false) {b : Bytes} (hb : PlainText b) :
    s.run (quotedText b) = s.run (quotedText []) := by
  have hquoted (q : Int) (seen : Bool) : (quoted q seen).run b = quoted q seen := by
    refine run_stay (f := fun c => c != DQUOTE && c != BACKSLASH) (fun c hc => ?_) fun c hc => ?_
    · simp only [Bool.and_eq_true, bne_iff_ne] at hc
      rw [step, if_neg hc.1, if_neg hc.2]
    · simp only [Bool.and_eq_true, bne_iff_ne]
      exact ⟨fun e => hb.1 (e ▸ hc), fun e => hb.2 (e ▸ hc)⟩
  have habs {t : Eval} (ht : ∀ p, t.run p = t) (h : s.step DQUOTE = t) :
      s.run (quotedText b) = s.run (quotedText []) := by
    rw [quotedText, run_cons, quotedText, run_cons, h, ht, ht]
  cases s with
  | start | name | quoted => cases hs
  | value q seen =>
    rw [quotedText, run_cons, run_append]
    exact congrArg (run · [DQUOTE]) (hquoted q seen)
  | escaped q seen =>
    rw [quotedText, run_cons, run_append]
    exact congrArg (run · [DQUOTE]) (hquoted q seen)
  | head q seen => exact habs (run_done q) rfl
  | done q => exact habs (run_done q) rfl
  | afterName q seen isQ => exact habs run_malformed (by cases isQ <;> rfl)
  | digits q scale =>
    have hd : ¬(isDigit DQUOTE = true ∧ scale > 0) := fun h => absurd h.1 (by decide)
    exact habs run_malformed (by rw [step, if_neg hd]; rfl)
  | zeros n =>
    have hz : ¬(DQUOTE = 0x30 ∧ n > 0) := fun h => absurd h.1 (by decide)
    exact habs run_malformed (by rw [step, if_neg hz]; rfl)
  | valueQ | leading | after | malformed => exact habs run_malformed rfl

theorem weight_run_live {s : Eval} (hs : s.isLive = true) (h : s.Nonneg) :
    (s.run (quotedText [COMMA])).weight ≠ (s.run (quotedText [SEMICOLON, SEMICOLON])).weight := by
  have hne {q : Int} (hq : 0 ≤ q) : q ≠ -1 := by omega
  cases s with
  | start q seen => exact hne h
  | name q seen isQ => exact hne h
  | quoted q seen => exact hne h
  | _ => cases hs

end Eval

theorem paramText_append (s x : Bytes) :
    ((((s ++ DQUOTE :: x).dropWhile isOws).dropWhile isNameByte).dropWhile isOws) =
      paramText s ++ DQUOTE :: x := by
  have hstop {f : UInt8 → Bool} (hf : f DQUOTE = false) (p : Bytes) :
      (p ++ DQUOTE :: x).dropWhile f = p.dropWhile f ++ DQUOTE :: x :=
    dropWhile_append_stop (List.dropWhile_cons_of_neg (by simp [hf]))
  rw [hstop rfl, hstop rfl, hstop rfl, paramText]

theorem reading_append (coding s x : Bytes) :
    (startElement coding (s ++ DQUOTE :: x)).map Element.reading =
      if (s.dropWhile isOws).head? = some COMMA then none
      else
        let tok := (s.dropWhile isOws).takeWhile isNameByte
        let clean := paramText s != [] &&
          atDelimiter (fun c => c == SEMICOLON || c == COMMA) (paramText s)
        some (matchesName tok coding && clean, tok == [STAR] && clean,
          ((paramState s).run (DQUOTE :: x)).weight) := by
  have hows : (s ++ DQUOTE :: x).dropWhile isOws = s.dropWhile isOws ++ DQUOTE :: x :=
    dropWhile_append_stop (List.dropWhile_cons_of_neg (by decide))
  have htext := paramText_append s x
  rw [hows] at htext
  have htok : (s.dropWhile isOws ++ DQUOTE :: x).takeWhile isNameByte =
      (s.dropWhile isOws).takeWhile isNameByte :=
    takeWhile_append_stop (List.takeWhile_cons_of_neg (by decide))
  have hclean : atDelimiter (fun c => c == SEMICOLON || c == COMMA) (paramText s ++ DQUOTE :: x) =
      (paramText s != [] && atDelimiter (fun c => c == SEMICOLON || c == COMMA) (paramText s)) := by
    cases paramText s <;> rfl
  have hread : (element coding (s.dropWhile isOws ++ DQUOTE :: x)).reading =
      (let tok := (s.dropWhile isOws).takeWhile isNameByte
      let clean := paramText s != [] &&
        atDelimiter (fun c => c == SEMICOLON || c == COMMA) (paramText s)
      (matchesName tok coding && clean, tok == [STAR] && clean,
        ((paramState s).run (DQUOTE :: x)).weight)) := by
    obtain ⟨h₁, h₂, h₃⟩ := element_fields coding (s.dropWhile isOws ++ DQUOTE :: x)
    rw [Element.reading, h₁, h₂, h₃, htext, htok, hclean, ← Eval.weight_run_head, Eval.run_append]
    rfl
  rw [startElement, hows]
  cases h : s.dropWhile isOws with
  | nil =>
    rw [h] at hread
    simp only [List.nil_append] at hread ⊢
    rw [if_neg (by decide), if_neg (by decide), Option.map_some, hread]
  | cons c t =>
    rw [h] at hread
    simp only [List.cons_append] at hread ⊢
    by_cases hc : c = COMMA
    · rw [if_pos hc, if_pos (by simp [hc])]
      rfl
    · rw [if_neg hc, if_neg (by simpa using hc), Option.map_some, hread]

theorem readings_append {a b : Bytes} (ha : scan DQUOTE BACKSLASH .outside a = .outside)
    (hb : PlainText b) (coding c : Bytes) :
    readings coding (a ++ quotedText b ++ c) =
      (topStarts a).map (fun s => (startElement coding (s ++ (quotedText b ++ c))).map
        Element.reading) ++
      (laterStarts DQUOTE BACKSLASH COMMA .outside c).map fun s =>
        (startElement coding s).map Element.reading := by
  have hsep : COMMA ≠ DQUOTE := by decide
  rw [readings, topStarts, starts, List.append_assoc, laterStarts_append _ _ _ hsep, ha, quotedText,
    laterStarts_closed_run DQUOTE BACKSLASH COMMA hb.1 hb.2 c hsep, List.map_cons, List.map_append,
    List.map_map, topStarts, starts, List.map_cons, List.cons_append]
  rfl

theorem reading_eq_of_not_live {s b b' : Bytes} (hs : (paramState s).isLive = false)
    (hb : PlainText b) (hb' : PlainText b') (coding c : Bytes) :
    (startElement coding (s ++ (quotedText b ++ c))).map Element.reading =
      (startElement coding (s ++ (quotedText b' ++ c))).map Element.reading := by
  have hw : ((paramState s).run (DQUOTE :: (b ++ [DQUOTE] ++ c))).weight =
      ((paramState s).run (DQUOTE :: (b' ++ [DQUOTE] ++ c))).weight := by
    rw [show DQUOTE :: (b ++ [DQUOTE] ++ c) = quotedText b ++ c from rfl, Eval.run_append,
      Eval.run_quotedText hs hb, ← Eval.run_quotedText hs hb', ← Eval.run_append]
    rfl
  rw [quotedText, quotedText, List.cons_append, List.cons_append, reading_append,
    reading_append, hw]

theorem startElement_of_live {s : Bytes} (hs : (paramState s).isLive = true) :
    (s.dropWhile isOws).head? ≠ some COMMA := by
  intro h
  obtain ⟨t, ht⟩ := List.head?_eq_some_iff.mp h
  rw [paramState, paramText, ht, List.dropWhile_cons_of_neg (by decide),
    List.dropWhile_cons_of_neg (by decide), Eval.run_cons, Eval.step, if_neg (by decide),
    Eval.run_done] at hs
  cases hs

/-- After any text that ends outside quoted strings: what a quoted string holds neither changes a
weight nor ends a parameter or an element anywhere, if and only if no element of the text is live
at its end. -/
theorem quotedText_inert_iff {a : Bytes} (ha : scan DQUOTE BACKSLASH .outside a = .outside) :
    (∀ b b' c coding, PlainText b → PlainText b' →
      readings coding (a ++ quotedText b ++ c) = readings coding (a ++ quotedText b' ++ c) ∧
      ∀ allowWildcard, codingWeightEx (a ++ quotedText b ++ c) coding allowWildcard =
        codingWeightEx (a ++ quotedText b' ++ c) coding allowWildcard) ↔
    ∀ s ∈ topStarts a, (paramState s).isLive = false := by
  constructor
  · intro h s hs
    by_contra hlive
    rw [Bool.not_eq_false] at hlive
    have hb : PlainText [COMMA] := by decide
    have hb' : PlainText [SEMICOLON, SEMICOLON] := by decide
    have hr := (h _ _ [] [] hb hb').1
    rw [readings_append ha hb, readings_append ha hb'] at hr
    have hs' := List.map_inj_left.mp (List.append_cancel_right hr) s hs
    simp only [List.append_nil] at hs'
    rw [quotedText, quotedText, reading_append, reading_append, if_neg (startElement_of_live hlive),
      if_neg (startElement_of_live hlive)] at hs'
    have hstart : (Eval.head 1000 false).Nonneg := Int.natCast_nonneg 1000
    have hnonneg : (paramState s).Nonneg := hstart.run (paramText s)
    apply Eval.weight_run_live hlive hnonneg
    exact congrArg (fun r => r.2.2) (Option.some.inj hs')
  · intro h b b' c coding hb hb'
    have hr : readings coding (a ++ quotedText b ++ c) =
        readings coding (a ++ quotedText b' ++ c) := by
      rw [readings_append ha hb, readings_append ha hb']
      refine congrArg (· ++ _) (List.map_congr_left fun s hs => ?_)
      exact reading_eq_of_not_live (h s hs) hb hb' coding c
    exact ⟨hr, codingWeightEx_of_readings hr⟩

theorem quotedText_inert_iff_sample :
    (∀ b b' c coding, PlainText b → PlainText b' →
      readings coding (ascii "gzip;a=\";\", br;x" ++ quotedText b ++ c) =
        readings coding (ascii "gzip;a=\";\", br;x" ++ quotedText b' ++ c) ∧
      ∀ allowWildcard,
        codingWeightEx (ascii "gzip;a=\";\", br;x" ++ quotedText b ++ c) coding allowWildcard =
          codingWeightEx (ascii "gzip;a=\";\", br;x" ++ quotedText b' ++ c) coding allowWildcard) ↔
    ∀ s ∈ topStarts (ascii "gzip;a=\";\", br;x"), (paramState s).isLive = false :=
  quotedText_inert_iff (by decide)

/-- In a parameter name a quoted `;q=0;` is read as a parameter and refuses the coding. -/
theorem quotedText_not_inert :
    ¬∀ a b b' c coding : Bytes, ∀ allowWildcard : Bool,
      scan DQUOTE BACKSLASH .outside a = .outside → PlainText b → PlainText b' →
        codingWeightEx (a ++ quotedText b ++ c) coding allowWildcard =
          codingWeightEx (a ++ quotedText b' ++ c) coding allowWildcard := by
  intro h
  have := h (ascii "br;x") (ascii ";q=0;") (ascii "a") [] (ascii "br") true (by decide) (by decide)
    (by decide)
  exact absurd this (by decide +kernel)

end NgxBrotli
