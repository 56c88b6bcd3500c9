import NgxBrotli.WeightGrammar

namespace NgxBrotli
open QuotedSplit LastWins

theorem takeDigit_nonneg {scale : Int} (hs : 0 ≤ scale) {qp : Int × Bytes} (hq : 0 ≤ qp.1) :
    0 ≤ (takeDigit scale qp).1 := by
  obtain ⟨q, p⟩ := qp
  cases p with
  | nil => exact hq
  | cons c p =>
    simp only [takeDigit]
    split
    case isFalse => exact hq
    case isTrue hd =>
      have hc : (0x30 : ℕ) ≤ c.toNat := by
        simp only [isDigit, Bool.and_eq_true, decide_eq_true_eq] at hd
        exact UInt8.le_iff_toNat_le.mp hd.1
      have : 0 ≤ ((c.toNat : Int) - 0x30) * scale := mul_nonneg (by omega) hs
      exact add_nonneg hq this

theorem qvalue_nonneg {x : Bytes} {w : Int} (h : (qvalue x).1 = some w) : 0 ≤ w := by
  have hd (p : Bytes) : 0 ≤ (takeDigit 1 (takeDigit 10 (takeDigit 100 (0, p)))).1 :=
    takeDigit_nonneg (by decide)
      (takeDigit_nonneg (by decide) (takeDigit_nonneg (by decide) le_rfl))
  revert h
  fun_cases qvalue x <;> grind

theorem milliUnits_nonneg {x : Bytes} {w : Int} (h : milliUnits x = some w) : 0 ≤ w := by
  rw [milliUnits_eq] at h
  split at h
  · exact qvalue_nonneg h
  · cases h

theorem paramsWeight_nonneg {segs : List Bytes} {w : Int} (h : paramsWeight segs = some w) :
    0 ≤ w := by
  rw [paramsWeight] at h
  split at h
  · split at h
    · obtain rfl : 1000 = w := Option.some.inj h
      decide
    · obtain ⟨x, -, hx⟩ := Option.bind_eq_some_iff.mp h
      exact milliUnits_nonneg hx
    · cases h
  · cases h

theorem laxSteps_nonneg {segs : List Bytes} {w w' : Int × Bool} (h : laxSteps segs w = some w')
    (hw : 0 ≤ w.1) : 0 ≤ w'.1 := by
  induction segs generalizing w with
  | nil => exact Option.some.inj h ▸ hw
  | cons seg segs ih =>
    rw [laxSteps_cons] at h
    obtain ⟨u, hu, h⟩ := Option.bind_eq_some_iff.mp h
    refine ih h ?_
    unfold laxStep at hu
    dsimp only at hu
    split at hu
    · split at hu
      · split at hu
        · cases hu
        · obtain ⟨q, hq, rfl⟩ := Option.map_eq_some_iff.mp hu
          obtain ⟨x, -, hx⟩ := Option.bind_eq_some_iff.mp hq
          exact milliUnits_nonneg hx
      · exact Option.some.inj hu ▸ hw
    · cases hu

theorem isPieceNameByte_of_isNameByte {c : UInt8} (h : isNameByte c = true) :
    isPieceNameByte c = true := by
  revert c
  decide +kernel

/-- The weight of a piece in the source, `none` where it matches nothing. -/
def laxWeight (piece : Bytes) : Option Int :=
  match afterName piece with
  | [] => some 1000
  | c :: s =>
    if c = SEMICOLON then (laxSteps (s.splitOn SEMICOLON) (1000, false)).map Prod.fst else none

theorem laxWeight_eq {piece : Bytes} (hv : ∀ seg ∈ paramSegments piece, (readParam seg).Plain) :
    laxWeight piece = pieceWeight piece := by
  unfold paramSegments at hv
  rw [laxWeight, pieceWeight]
  cases ha : afterName piece with
  | nil => rfl
  | cons c s =>
    dsimp only
    split
    case isTrue hsemi =>
      rw [ha] at hv
      rw [paramsWeight_eq, laxSteps_eq (by simpa [hsemi] using hv)]
    case isFalse => rfl

section Piece

variable {name piece rest : Bytes} (hn : NameToken name)

theorem evalQvalue_piece {s : Bytes} (hc : COMMA ∉ s) (hq : DQUOTE ∉ s)
    (hr : rest = [] ∨ ∃ t, rest = COMMA :: t) :
    (evalQvalue (SEMICOLON :: s ++ rest)).1 =
      ((laxSteps (s.splitOn SEMICOLON) (1000, false)).map Prod.fst).getD (-1) := by
  rw [← evalQvalueLoop_segments hc hq hr 1000 false false]
  rfl

include hn in
theorem elementResult_of_pieceName_ne (h : ¬EqNoCase (pieceName piece) name) :
    elementResult name (piece, rest) = none := by
  by_cases hw : EqNoCase ((piece.dropWhile isOws).take name.length) name
  case neg => exact elementResult_of_not_eqNoCase hw
  obtain ⟨w, u, hwu, hwt⟩ : ∃ w u, piece.dropWhile isOws = w ++ u ∧
      w = (piece.dropWhile isOws).take name.length :=
    ⟨_, _, (List.take_append_drop name.length _).symm, rfl⟩
  rw [← hwt] at hw
  have hall : ∀ c ∈ w, isPieceNameByte c = true := fun c hc =>
    isPieceNameByte_of_isNameByte (hw.isNameByte hn.all_isNameByte c hc)
  rw [pieceName, hwu, List.takeWhile_append_of_pos hall] at h
  cases hu : u.takeWhile isPieceNameByte with
  | nil =>
    rw [hu, List.append_nil] at h
    exact absurd hw h
  | cons x u' =>
    obtain ⟨t, ht⟩ : ∃ t, u = x :: t := by
      have := List.takeWhile_append_dropWhile (p := isPieceNameByte) (l := u)
      rw [hu] at this
      exact ⟨_, this.symm⟩
    have hx : isPieceNameByte x = true :=
      List.mem_takeWhile_imp (hu ▸ List.mem_cons_self (a := x))
    simp only [isPieceNameByte, Bool.and_eq_true, Bool.not_eq_eq_eq_not, Bool.not_true,
      bne_iff_ne, ne_eq] at hx
    have hdrop : (piece.dropWhile isOws).drop name.length = x :: t := by
      rw [hwu, ← hw.length_eq, List.drop_left, ht]
    simp [elementResult, hdrop, hx.1, hx.2]

include hn in
/-- The result of a piece without quotes is its weight in the source. -/
theorem elementResult_piece (hc : COMMA ∉ piece) (hq : DQUOTE ∉ piece)
    (hr : rest = [] ∨ ∃ t, rest = COMMA :: t) :
    elementResult name (piece, rest) =
      if EqNoCase (pieceName piece) name then laxWeight piece else none := by
  by_cases hw : EqNoCase (pieceName piece) name
  case neg => rw [if_neg hw, elementResult_of_pieceName_ne hn hw]
  have hpre : pieceName piece = (piece.dropWhile isOws).take name.length := by
    rw [← hw.length_eq]
    exact List.prefix_iff_eq_take.mp (List.takeWhile_prefix isPieceNameByte)
  have hdrop : (piece.dropWhile isOws).drop name.length =
      (piece.dropWhile isOws).dropWhile isPieceNameByte := by
    conv_lhs => rw [← List.takeWhile_append_dropWhile (p := isPieceNameByte)
      (l := piece.dropWhile isOws)]
    rw [← hw.length_eq, pieceName, List.drop_left]
  rw [if_pos hw, elementResult]
  simp only [← hpre, hdrop]
  rw [if_pos hw, laxWeight, ← afterName]
  have hsuf : afterName piece <:+ piece :=
    (List.dropWhile_suffix _).trans ((List.dropWhile_suffix _).trans (List.dropWhile_suffix _))
  cases ha : afterName piece with
  | nil => rfl
  | cons c s =>
    dsimp only
    by_cases hsemi : c = SEMICOLON
    case neg => simp [hsemi]
    subst hsemi
    have hs : s <:+ piece := (List.suffix_cons _ _).trans (ha ▸ hsuf)
    rw [evalQvalue_piece (fun h => hc (hs.subset h)) (fun h => hq (hs.subset h)) hr]
    cases hp : laxSteps (s.splitOn SEMICOLON) (1000, false) with
    | none => simp
    | some w => simp [laxSteps_nonneg hp (by decide)]

end Piece

theorem takePiece_of_mem_starts {v s : Bytes} (hq : DQUOTE ∉ v) (hs : s ∈ topStarts v) :
    let piece := takePiece DQUOTE BACKSLASH COMMA .outside s
    DQUOTE ∉ piece ∧ COMMA ∉ piece := by
  have hsq : DQUOTE ∉ takePiece DQUOTE BACKSLASH COMMA .outside s := by
    intro h
    refine hq ((suffix_of_mem_starts hs).subset ?_)
    rw [← takePiece_append_dropPiece DQUOTE BACKSLASH COMMA .outside s]
    exact List.mem_append_left _ h
  refine ⟨hsq, fun h => ?_⟩
  obtain ⟨w, u, hwu⟩ := List.append_of_mem h
  exact hsq (hwu ▸ List.mem_append_left _ (quote_mem_of_takePiece DQUOTE BACKSLASH COMMA hwu))

theorem map_takePiece_starts {v : Bytes} (hq : DQUOTE ∉ v) :
    (topStarts v).map (takePiece DQUOTE BACKSLASH COMMA .outside) = v.splitOn COMMA := by
  have hpieces : (pieces DQUOTE BACKSLASH COMMA .outside v).map Prod.fst = v.splitOn COMMA :=
    pieces_fst_of_no_quote hq
  rw [← hpieces, pieces_eq_map_starts, List.map_map]
  rfl

theorem lastOf_elementResult {name v : Bytes} (hn : NameToken name) (hq : DQUOTE ∉ v)
    (hv : PlainValues v) :
    lastOf (elementResult name) (topElements v) = grammarWeight name v := by
  rw [grammarWeight, ← map_takePiece_starts hq, lastOf_map, topElements, pieces_eq_map_starts,
    lastOf_map]
  refine lastOf_congr fun s hs => ?_
  have hmem : takePiece DQUOTE BACKSLASH COMMA .outside s ∈ v.splitOn COMMA := by
    rw [← map_takePiece_starts hq]
    exact List.mem_map_of_mem hs
  obtain ⟨hsq, hsc⟩ := takePiece_of_mem_starts hq hs
  rw [elementResult_piece hn hsc hsq (dropPiece_eq_nil_or_sep DQUOTE BACKSLASH COMMA .outside s),
    laxWeight_eq (hv _ hmem)]

theorem grammarWeight_nonneg {name v : Bytes} {w : Int} (h : grammarWeight name v = some w) :
    0 ≤ w := by
  obtain ⟨piece, -, hp⟩ := lastOf_eq_some_imp h
  split at hp
  · unfold pieceWeight at hp
    split at hp
    · obtain rfl : 1000 = w := Option.some.inj hp
      decide
    · split at hp
      · exact paramsWeight_nonneg hp
      · cases hp
  · cases hp

/-- On values without quotes the walker is the reference. -/
theorem codingWeightEx_grammar {coding v : Bytes} (hc : CodingToken coding) (hq : DQUOTE ∉ v)
    (hv : PlainValues v) (allowWildcard : Bool) :
    codingWeightEx v coding allowWildcard =
        { result := referenceWeight v coding allowWildcard
          explicitQ := (grammarWeight coding v).getD (-1)
          starQ := (grammarWeight [STAR] v).getD (-1) } ∧
      codingWeight v coding allowWildcard = referenceWeight v coding allowWildcard := by
  have hex : (codingWeightEx v coding allowWildcard).explicitQ =
      (grammarWeight coding v).getD (-1) := by
    rw [explicitQ_eq_lastResult hc, lastResult, lastOf_elementResult hc.toNameToken hq hv]
  have hst : (codingWeightEx v coding allowWildcard).starQ =
      (grammarWeight [STAR] v).getD (-1) := by
    rw [starQ_eq_lastResult hc, lastResult, lastOf_elementResult nameToken_star hq hv]
  have hres : (codingWeightEx v coding allowWildcard).result =
      referenceWeight v coding allowWildcard := by
    have : (codingWeightEx v coding allowWildcard).result =
        fieldWeight (codingWeightEx v coding allowWildcard).explicitQ
          (codingWeightEx v coding allowWildcard).starQ allowWildcard := rfl
    rw [this, hex, hst, referenceWeight, fieldWeight]
    cases hg : grammarWeight coding v with
    | some w => simp [grammarWeight_nonneg hg]
    | none =>
      cases hs : grammarWeight [STAR] v with
      | some w => cases allowWildcard <;> simp [grammarWeight_nonneg hs]
      | none => cases allowWildcard <;> simp
  refine ⟨?_, hres⟩
  rw [← hex, ← hst, ← hres]

theorem codingWeightEx_grammar_br :
    codingWeightEx (ascii "gzip, BR ; Q=0.050 ; x= ,, br;q=2, *;q=1.0") (ascii "br") true =
        ⟨50, 50, 1000⟩ ∧
      codingWeight (ascii "gzip, BR ; Q=0.050 ; x= ,, br;q=2, *;q=1.0") (ascii "br") true = 50 :=
  codingWeightEx_grammar codingToken_br (by decide) (by decide) true

end NgxBrotli
