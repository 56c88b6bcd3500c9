import NgxBrotli.GrammarAgreement

namespace NgxBrotli
open QuotedSplit

/-- Some parameter has a value behind which OWS and another byte follow. -/
def HasJunk (piece : Bytes) : Prop :=
  ∃ seg ∈ (piece.splitOn SEMICOLON).tail, (readParam seg).value ≠ none ∧ (readParam seg).junk ≠ []

instance (piece : Bytes) : Decidable (HasJunk piece) :=
  inferInstanceAs (Decidable (∃ seg ∈ (piece.splitOn SEMICOLON).tail, _))

/-- The walker's turn at `s` changes neither weight. -/
def NoMatch (coding s : Bytes) : Prop :=
  ∀ e, startElement coding s = some e → e.explicitQ = none ∧ e.starQ = none

def Parts.malformed (r : Parts) : Bool :=
  r.name == [] || (r.value.isNone && (r.isQ || r.junk != [])) ||
    (r.isQ && (r.junk != [] || (r.value.bind milliUnits).isNone))

def malformedParams (segs : List Bytes) : Bool :=
  (segs.map readParam).any Parts.malformed || 2 ≤ (segs.map readParam).countP Parts.isQ

/-- The element has the name of the coding or of the wildcard, parameters follow at once, and they
are not malformed. -/
structure Forgiven (coding piece : Bytes) : Prop where
  name : EqNoCase (pieceName piece) coding ∨ pieceName piece = [STAR]
  params : (afterName piece).head? = some SEMICOLON
  formed : malformedParams (paramSegments piece) = false

theorem laxStep_eq_none {seg : Bytes} {q : Int} {qSeen : Bool} :
    laxStep seg q qSeen = none ↔
      (readParam seg).malformed = true ∨ (readParam seg).isQ = true ∧ qSeen = true := by
  rw [laxStep, Parts.malformed, Parts.accepted]
  generalize readParam seg = r
  by_cases hn : r.name = []
  · simp [hn]
  cases hq : r.isQ with
  | false => cases r.value <;> by_cases hj : r.junk = [] <;> simp [hn, hj]
  | true =>
    by_cases hj : r.junk = []
    · cases hm : r.value.bind milliUnits with
      | none => simp [hn, hj]
      | some w =>
        obtain ⟨v, hv, -⟩ := Option.bind_eq_some_iff.mp hm
        simp [hn, hj, hv]
    · simp [hn, hj]

theorem laxStep_seen {seg : Bytes} {w w' : Int × Bool} (h : laxStep seg w.1 w.2 = some w') :
    w'.2 = (w.2 || (readParam seg).isQ) := by
  unfold laxStep at h
  dsimp only at h
  split at h
  · split at h
    case isTrue hq =>
      split at h
      · cases h
      · obtain ⟨q, -, rfl⟩ := Option.map_eq_some_iff.mp h
        rw [hq, Bool.or_true]
    case isFalse hq =>
      obtain rfl := Option.some.inj h
      rw [Bool.not_eq_true] at hq
      rw [hq, Bool.or_false]
  · cases h

theorem laxSteps_eq_none {segs : List Bytes} {w : Int × Bool} :
    laxSteps segs w = none ↔ (segs.map readParam).any Parts.malformed = true ∨
      2 ≤ (segs.map readParam).countP Parts.isQ + w.2.toNat := by
  induction segs generalizing w with
  | nil =>
    have hseen := Bool.toNat_le w.2
    refine iff_of_false nofun ?_
    rintro (h | h)
    · cases h
    · rw [List.map_nil, List.countP_nil] at h
      omega
  | cons seg segs ih =>
    rw [laxSteps_cons, List.map_cons, List.any_cons, List.countP_cons, Bool.or_eq_true]
    cases hstep : laxStep seg w.1 w.2 with
    | none =>
      refine iff_of_true rfl ?_
      obtain hbad | ⟨hq, hseen⟩ := laxStep_eq_none.mp hstep
      · exact .inl (.inl hbad)
      · right
        rw [hq, hseen, if_pos rfl, Bool.toNat_true]
        omega
    | some w' =>
      have hgood :
          ¬((readParam seg).malformed = true ∨ (readParam seg).isQ = true ∧ w.2 = true) := by
        rw [← laxStep_eq_none (q := w.1), hstep]
        exact Option.some_ne_none _
      push Not at hgood
      rw [Option.bind_some, ih, laxStep_seen hstep, or_assoc, or_iff_right hgood.1]
      refine or_congr_right (iff_of_eq (congrArg (2 ≤ ·) ?_))
      cases hq : (readParam seg).isQ with
      | false => simp
      | true =>
        have hseen : w.2 = false := by simpa using hgood.2 hq
        simp [hseen]

theorem mem_dropWhile_of_stop {f : UInt8 → Bool} {c : UInt8} {l : Bytes} (hf : f c = false)
    (hc : c ∈ l) : c ∈ l.dropWhile f := by
  rw [← List.takeWhile_append_dropWhile (p := f) (l := l), List.mem_append] at hc
  refine hc.resolve_left fun h => ?_
  rw [List.mem_takeWhile_imp h] at hf
  cases hf

theorem laxWeight_ne_none {piece : Bytes} (hsemi : SEMICOLON ∈ piece) :
    laxWeight piece ≠ none ↔ (afterName piece).head? = some SEMICOLON ∧
      malformedParams (paramSegments piece) = false := by
  have hafter : SEMICOLON ∈ afterName piece :=
    mem_dropWhile_of_stop rfl (mem_dropWhile_of_stop rfl (mem_dropWhile_of_stop rfl hsemi))
  rw [laxWeight, paramSegments]
  cases ha : afterName piece with
  | nil => simp [ha] at hafter
  | cons c s =>
    dsimp only
    rw [List.head?_cons, Option.some.injEq]
    by_cases hc : c = SEMICOLON
    · rw [if_pos hc, if_pos hc, ne_eq, Option.map_eq_none_iff, laxSteps_eq_none, Bool.toNat_false,
        Nat.add_zero, malformedParams, Bool.or_eq_false_iff, decide_eq_false_iff_not, not_or,
        Bool.not_eq_true]
      exact (and_iff_right hc).symm
    · rw [if_neg hc]
      exact iff_of_false (fun h => h rfl) fun h => hc h.1

theorem HasJunk.semicolon {piece : Bytes} (h : HasJunk piece) : SEMICOLON ∈ piece := by
  obtain ⟨seg, hseg, -⟩ := h
  by_contra hno
  rw [List.splitOn_eq_singleton hno] at hseg
  cases hseg

theorem noMatch_iff {coding : Bytes} (hc : CodingToken coding) (s : Bytes) :
    NoMatch coding s ↔
      elementResult coding (takePiece DQUOTE BACKSLASH COMMA .outside s,
        dropPiece DQUOTE BACKSLASH COMMA .outside s) = none ∧
      elementResult [STAR] (takePiece DQUOTE BACKSLASH COMMA .outside s,
        dropPiece DQUOTE BACKSLASH COMMA .outside s) = none := by
  rw [elementResult_eq hc.toNameToken, elementResult_eq nameToken_star, ← startElement_starQ hc]
  unfold NoMatch
  cases startElement coding s <;> simp

theorem noMatch_iff_not_forgiven {coding v s : Bytes} (hc : CodingToken coding) (hq : DQUOTE ∉ v)
    (hs : s ∈ topStarts v)
    (hjunk : HasJunk (takePiece DQUOTE BACKSLASH COMMA .outside s)) :
    NoMatch coding s ↔ ¬Forgiven coding (takePiece DQUOTE BACKSLASH COMMA .outside s) := by
  obtain ⟨hsq, hsc⟩ := takePiece_of_mem_starts hq hs
  have hrest := dropPiece_eq_nil_or_sep DQUOTE BACKSLASH COMMA .outside s
  have hweight := laxWeight_ne_none hjunk.semicolon
  rw [noMatch_iff hc, elementResult_piece hc.toNameToken hsc hsq hrest,
    elementResult_piece nameToken_star hsc hsq hrest]
  have hresult (p : Prop) [Decidable p] {w : Option Int} :
      (if p then w else none) = none ↔ ¬(p ∧ w ≠ none) := by
    by_cases hp : p <;> simp [hp]
  rw [hresult, hresult, eqNoCase_star, hweight, ← not_or, ← or_and_right, not_iff_not]
  exact ⟨fun h => ⟨h.1, h.2.1, h.2.2⟩, fun h => ⟨h.name, h.params, h.formed⟩⟩

/-- In a value without quotes junk behind a parameter's value rejects every element it is in if and
only if no element with junk is forgiven: one that has the name of the coding or of the wildcard,
whose parameters are not malformed. -/
theorem junk_rejected_iff {coding v : Bytes} (hc : CodingToken coding) (hq : DQUOTE ∉ v) :
    (∀ s ∈ topStarts v, HasJunk (takePiece DQUOTE BACKSLASH COMMA .outside s) → NoMatch coding s) ↔
      ∀ piece ∈ v.splitOn COMMA, HasJunk piece → ¬Forgiven coding piece := by
  rw [← map_takePiece_starts hq, List.forall_mem_map]
  exact forall₂_congr fun s hs => forall_congr' fun hjunk => noMatch_iff_not_forgiven hc hq hs hjunk

/-- Junk behind a weight, and junk in an element of another name. -/
theorem junk_rejected_sample :
    let v := ascii "br;q=1 x, gzip;foo=bar baz"
    (∃ piece ∈ v.splitOn COMMA, HasJunk piece) ∧
      ∀ s ∈ topStarts v, HasJunk (takePiece DQUOTE BACKSLASH COMMA .outside s) →
        NoMatch (ascii "br") s := by
  intro v
  have hpieces : v.splitOn COMMA = [ascii "br;q=1 x", ascii " gzip;foo=bar baz"] := by
    decide +kernel
  refine ⟨by rw [hpieces]; decide +kernel, (junk_rejected_iff codingToken_br (by decide)).mpr ?_⟩
  rw [hpieces]
  intro piece hpiece _ hforgiven
  rcases List.mem_pair.mp hpiece with rfl | rfl
  · exact absurd hforgiven.formed (by decide +kernel)
  · exact absurd hforgiven.name (by decide +kernel)

/-- `foo=bar baz` does not reject its element. -/
theorem junk_accepted :
    ¬∀ (coding v : Bytes), CodingToken coding → DQUOTE ∉ v → ∀ s ∈ topStarts v,
      HasJunk (takePiece DQUOTE BACKSLASH COMMA .outside s) → NoMatch coding s := by
  intro h
  let v := ascii "br;foo=bar baz"
  have hmatch :=
    h (ascii "br") v codingToken_br (by decide) v List.mem_cons_self (by decide +kernel)
  have hstart : startElement (ascii "br") v = some (element (ascii "br") v) := by decide +kernel
  exact absurd (hmatch _ hstart).1 (by decide +kernel)

end NgxBrotli
