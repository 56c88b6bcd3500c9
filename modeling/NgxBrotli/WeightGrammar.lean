import NgxBrotli.ElementResult

namespace NgxBrotli
open QuotedSplit LastWins

/-- A parameter by its parts: `OWS name [OWS '=' OWS value] OWS`, and the bytes left over. -/
structure Parts where
  name : Bytes
  value : Option Bytes
  junk : Bytes
  deriving DecidableEq, Repr

/-- The name is the longest prefix free of '=', SP, HTAB, the value the longest free of SP, HTAB. -/
def readParam (seg : Bytes) : Parts :=
  let s := seg.dropWhile isOws
  let name := s.takeWhile fun c => c != EQUALS && !isOws c
  let s := (s.dropWhile fun c => c != EQUALS && !isOws c).dropWhile isOws
  if s.head? = some EQUALS then
    let s := s.tail.dropWhile isOws
    { name := name, value := some (s.takeWhile (!isOws ·))
      junk := (s.dropWhile (!isOws ·)).dropWhile isOws }
  else { name := name, value := none, junk := s }

def Parts.isQ (r : Parts) : Bool := r.name == ascii "q" || r.name == ascii "Q"

def Parts.wellFormed (r : Parts) : Bool := r.name != [] && r.junk == []

/-- `0[.ddd]` or `1[.000]` in milli-units. -/
def milliUnits : Bytes → Option Int
  | [] => none
  | [c] => if c = 0x30 then some 0 else if c = 0x31 then some 1000 else none
  | c :: d :: ds =>
    if d = DOT ∧ ds.length ≤ 3 then
      if c = 0x30 ∧ ds.all isDigit then some (decimal ds * 10 ^ (3 - ds.length))
      else if c = 0x31 ∧ ds.all (· == 0x30) then some 1000
      else none
    else none

def paramsWeight (segs : List Bytes) : Option Int :=
  let ps := segs.map readParam
  if ps.all Parts.wellFormed then
    match ps.filter Parts.isQ with
    | [] => some 1000
    | [r] => r.value.bind milliUnits
    | _ => none
  else none

def isPieceNameByte (c : UInt8) : Bool := !isOws c && c != SEMICOLON

def afterName (piece : Bytes) : Bytes :=
  ((piece.dropWhile isOws).dropWhile isPieceNameByte).dropWhile isOws

def paramSegments (piece : Bytes) : List Bytes :=
  match afterName piece with
  | [] => []
  | c :: s => if c = SEMICOLON then s.splitOn SEMICOLON else []

def pieceWeight (piece : Bytes) : Option Int :=
  match afterName piece with
  | [] => some 1000
  | c :: s => if c = SEMICOLON then paramsWeight (s.splitOn SEMICOLON) else none

def pieceName (piece : Bytes) : Bytes := (piece.dropWhile isOws).takeWhile isPieceNameByte

/-- The weight of the last piece with this name that has one. -/
def grammarWeight (name v : Bytes) : Option Int :=
  lastOf (fun piece => if EqNoCase (pieceName piece) name then pieceWeight piece else none)
    (v.splitOn COMMA)

def Parts.Plain (r : Parts) : Prop :=
  r.name ≠ [] → r.isQ = false → r.value ≠ none → r.junk = []

instance (r : Parts) : Decidable r.Plain :=
  inferInstanceAs (Decidable (r.name ≠ [] → r.isQ = false → r.value ≠ none → r.junk = []))

/-- No parameter of the value has a value that white space divides. -/
def PlainValues (v : Bytes) : Prop :=
  ∀ piece ∈ v.splitOn COMMA, ∀ seg ∈ paramSegments piece, (readParam seg).Plain

instance (v : Bytes) : Decidable (PlainValues v) :=
  inferInstanceAs (Decidable (∀ piece ∈ v.splitOn COMMA, ∀ seg ∈ paramSegments piece, _))

/-- The weight of a coding in a whole field value: its own, else that of the wildcard. -/
def referenceWeight (v coding : Bytes) (allowWildcard : Bool) : Int :=
  match grammarWeight coding v with
  | some w => w
  | none => if allowWildcard then (grammarWeight [STAR] v).getD (-1) else -1

def StopsValue (p : Bytes) : Prop := ∀ c ∈ p.head?, isDigit c = false ∧ c ≠ DOT

theorem takeDigit_append {scale q : Int} {p z : Bytes} (hz : StopsValue z) :
    takeDigit scale (q, p ++ z) =
      ((takeDigit scale (q, p)).1, (takeDigit scale (q, p)).2 ++ z) := by
  cases p with
  | nil =>
    cases z with
    | nil => rfl
    | cons c z => simp [takeDigit, (hz c rfl).1]
  | cons c p =>
    simp only [takeDigit, List.cons_append]
    split <;> rfl

theorem skipZeros_append {n : ℕ} {p z : Bytes} (hz : StopsValue z) :
    skipZeros n (p ++ z) = skipZeros n p ++ z := by
  fun_induction skipZeros n p with
  | case1 n p ih => rw [List.cons_append, skipZeros, if_pos rfl, ih]
  | case2 n c p hc => rw [List.cons_append, skipZeros, if_neg hc]
  | case3 n p h =>
    cases n with
    | zero => rw [skipZeros]; simp
    | succ n =>
      cases p with
      | cons c p => exact absurd rfl (h n c p rfl)
      | nil =>
        cases z with
        | nil => rfl
        | cons c z =>
          have hc : c ≠ 0x30 := by
            rintro rfl
            exact absurd (hz 0x30 rfl).1 (by decide)
          rw [List.nil_append, skipZeros, if_neg hc]

theorem StopsValue.head_ne {c : UInt8} {z : Bytes} (hz : StopsValue (c :: z)) :
    c ≠ 0x30 ∧ c ≠ 0x31 ∧ c ≠ DOT := by
  obtain ⟨hd, hdot⟩ := hz c rfl
  refine ⟨?_, ?_, hdot⟩ <;> (rintro rfl; exact absurd hd (by decide))

theorem qvalue_append (x : Bytes) {z : Bytes} (hz : StopsValue z) :
    qvalue (x ++ z) = ((qvalue x).1, (qvalue x).2 ++ z) := by
  match x with
  | [] =>
    cases z with
    | nil => rfl
    | cons c z => simp [qvalue, hz.head_ne.1, hz.head_ne.2.1]
  | [c] =>
    cases z with
    | nil => rw [List.append_nil, List.append_nil]
    | cons d z =>
      simp only [qvalue, List.singleton_append, hz.head_ne.2.2, if_false]
      split
      · rfl
      · split <;> rfl
  | c :: d :: ds =>
    simp only [qvalue, List.cons_append]
    split
    · split
      · rw [takeDigit_append hz, takeDigit_append hz, takeDigit_append hz]
      · rfl
    · split
      · split
        · rw [skipZeros_append hz]
        · rfl
      · rfl

theorem takeDigits_eq (ds : Bytes) :
    (if (takeDigit 1 (takeDigit 10 (takeDigit 100 (0, ds)))).2 = [] then
      some (takeDigit 1 (takeDigit 10 (takeDigit 100 (0, ds)))).1 else none) =
      if ds.length ≤ 3 ∧ ds.all isDigit then some (decimal ds * 10 ^ (3 - ds.length))
      else none := by
  match ds with
  | [] => rfl
  | [a] =>
    by_cases ha : isDigit a
    · simp [takeDigit, ha, decimal]
    · simp [takeDigit, ha]
  | [a, b] =>
    by_cases ha : isDigit a <;> by_cases hb : isDigit b <;> simp [takeDigit, ha, hb, decimal]
    ring
  | [a, b, c] =>
    by_cases ha : isDigit a <;> by_cases hb : isDigit b <;> by_cases hc : isDigit c <;>
      simp [takeDigit, ha, hb, hc, decimal]
    ring
  | a :: b :: c :: d :: ds =>
    have hl : ¬((a :: b :: c :: d :: ds).length ≤ 3 ∧
        (a :: b :: c :: d :: ds).all isDigit = true) := fun h => by simp at h; omega
    rw [if_neg hl]
    by_cases ha : isDigit a <;> by_cases hb : isDigit b <;> by_cases hc : isDigit c <;>
      simp [takeDigit, ha, hb, hc]

theorem skipZeros_eq_nil (n : ℕ) (p : Bytes) :
    skipZeros n p = [] ↔ p.length ≤ n ∧ p.all (· == 0x30) = true := by
  fun_induction skipZeros n p with
  | case1 n p ih => simp [ih]
  | case2 n c p hc => simp [hc]
  | case3 n p h =>
    cases n with
    | zero => cases p <;> simp
    | succ n =>
      cases p with
      | cons c p => exact absurd rfl (h n c p rfl)
      | nil => simp

theorem milliUnits_eq (x : Bytes) :
    milliUnits x = if (qvalue x).2 = [] then (qvalue x).1 else none := by
  match x with
  | [] => rfl
  | [c] =>
    simp only [milliUnits, qvalue]
    split
    · rfl
    · split
      · rfl
      · simp
  | c :: d :: ds =>
    simp only [milliUnits, qvalue]
    by_cases h0 : c = 0x30
    · by_cases hd : d = DOT
      · simp only [h0, hd, if_true, true_and]
        rw [takeDigits_eq]
        by_cases hl : ds.length ≤ 3 <;> simp [hl]
      · simp [h0, hd]
    · by_cases h1 : c = 0x31
      · by_cases hd : d = DOT
        · have h10 : (0x31 : UInt8) ≠ 0x30 := by decide
          simp only [h1, hd, h10, if_true, if_false, true_and, false_and, skipZeros_eq_nil]
          by_cases hl : ds.length ≤ 3 <;> simp [hl]
        · simp [h1, hd]
      · simp [h0, h1]

def PlainSegment (seg : Bytes) : Prop := SEMICOLON ∉ seg ∧ COMMA ∉ seg ∧ DQUOTE ∉ seg

def EndsParam (z : Bytes) : Prop := ∀ c ∈ z.head?, c = SEMICOLON ∨ c = COMMA

theorem EndsParam.stop {z : Bytes} (hz : EndsParam z) {f : UInt8 → Bool}
    (hs : f SEMICOLON = false) (hc : f COMMA = false) :
    z.dropWhile f = z ∧ z.takeWhile f = [] := by
  cases z with
  | nil => exact ⟨rfl, rfl⟩
  | cons c z =>
    have hf : ¬f c = true := by
      rcases hz c rfl with rfl | rfl
      · simp [hs]
      · simp [hc]
    exact ⟨List.dropWhile_cons_of_neg hf, List.takeWhile_cons_of_neg hf⟩

theorem EndsParam.dropWhile_append {z : Bytes} (hz : EndsParam z) {f : UInt8 → Bool}
    (hs : f SEMICOLON = false) (hc : f COMMA = false) (x : Bytes) :
    (x ++ z).dropWhile f = x.dropWhile f ++ z :=
  dropWhile_append_stop (hz.stop hs hc).1

theorem EndsParam.atDelimiter {z : Bytes} (hz : EndsParam z) {ok : UInt8 → Bool}
    (hs : ok SEMICOLON = true) (hc : ok COMMA = true) : atDelimiter ok z = true := by
  cases z with
  | nil => rfl
  | cons c z =>
    rcases hz c rfl with rfl | rfl
    · exact hs
    · exact hc

theorem PlainSegment.suffix {p seg : Bytes} (h : PlainSegment seg) (hp : p <:+ seg) :
    PlainSegment p :=
  ⟨fun m => h.1 (hp.subset m), fun m => h.2.1 (hp.subset m), fun m => h.2.2 (hp.subset m)⟩

theorem takeWhile_congr_on {f g : UInt8 → Bool} {l : Bytes} (h : ∀ c ∈ l, f c = g c) :
    l.takeWhile f = l.takeWhile g ∧ l.dropWhile f = l.dropWhile g := by
  induction l with
  | nil => exact ⟨rfl, rfl⟩
  | cons c l ih =>
    have hc := h c List.mem_cons_self
    obtain ⟨ht, hd⟩ := ih fun d hd => h d (List.mem_cons_of_mem c hd)
    rw [List.takeWhile_cons, List.takeWhile_cons, List.dropWhile_cons, List.dropWhile_cons, hc,
      ht, hd]
    exact ⟨rfl, rfl⟩

theorem PlainSegment.isParamNameByte_eq {seg : Bytes} (h : PlainSegment seg) {c : UInt8}
    (hc : c ∈ seg) : isParamNameByte c = (c != EQUALS && !isOws c) := by
  have h1 : (c != SEMICOLON) = true := bne_iff_ne.mpr fun e => h.1 (e ▸ hc)
  have h2 : (c != COMMA) = true := bne_iff_ne.mpr fun e => h.2.1 (e ▸ hc)
  rw [isParamNameByte, h1, h2, Bool.and_true, Bool.and_true]

/-- What one parameter does to the weight so far and to `q_seen`; `none` where it is malformed. -/
def segStep (seg : Bytes) (q : Int) (qSeen : Bool) : Option (Int × Bool) :=
  let r := readParam seg
  if r.wellFormed then
    if r.isQ then
      if qSeen then none else (r.value.bind milliUnits).map fun q => (q, true)
    else some (q, qSeen)
  else none

/-- Well formed as the source reads it: it skips all of a value that is not that of `q`, white space
and what follows included. -/
def Parts.accepted (r : Parts) : Bool :=
  r.name != [] && (r.junk == [] || !r.isQ && r.value.isSome)

/-- What one parameter does in the source. -/
def laxStep (seg : Bytes) (q : Int) (qSeen : Bool) : Option (Int × Bool) :=
  let r := readParam seg
  if r.accepted then
    if r.isQ then
      if qSeen then none else (r.value.bind milliUnits).map fun q => (q, true)
    else some (q, qSeen)
  else none

theorem laxStep_eq {seg : Bytes} (hv : (readParam seg).Plain) (q : Int) (qSeen : Bool) :
    laxStep seg q qSeen = segStep seg q qSeen := by
  have haccepted : (readParam seg).accepted = (readParam seg).wellFormed := by
    rw [Parts.accepted, Parts.wellFormed]
    by_cases hn : (readParam seg).name = []
    · simp [hn]
    cases hq : (readParam seg).isQ with
    | true => simp
    | false =>
      cases hval : (readParam seg).value with
      | none => simp
      | some v => simp [hv hn hq (by simp [hval])]
  rw [laxStep, segStep, haccepted]

theorem skipValue_append {x z : Bytes} (hx : PlainSegment x) (hz : EndsParam z) :
    skipValue (x ++ z) = z := by
  induction x with
  | nil =>
    cases z with
    | nil => rw [skipValue, List.nil_append, skipTo]
    | cons c z =>
      rw [skipValue, List.nil_append, skipTo, if_pos]
      rcases hz c rfl with rfl | rfl <;> rfl
  | cons c x ih =>
    have h1 : c ≠ SEMICOLON := fun e => hx.1 (e ▸ List.mem_cons_self)
    have h2 : c ≠ COMMA := fun e => hx.2.1 (e ▸ List.mem_cons_self)
    have h3 : c ≠ DQUOTE := fun e => hx.2.2 (e ▸ List.mem_cons_self)
    rw [skipValue, List.cons_append, skipTo, if_neg (by simp [h1, h2]), if_neg h3]
    exact ih (hx.suffix (List.suffix_cons c x))

theorem paramEnd_append {x z : Bytes} (hx : PlainSegment x) (ho : x.dropWhile isOws = x)
    (hz : EndsParam z) (q : Int) (qSeen quotedName : Bool) :
    paramEnd (x ++ z) q qSeen quotedName =
      if x = [] then .next z q qSeen quotedName else .malformed (x ++ z) quotedName := by
  have hd : (x ++ z).dropWhile isOws = x ++ z := by
    rw [hz.dropWhile_append rfl rfl, ho]
  rw [paramEnd, hd]
  cases x with
  | nil => rw [List.nil_append, hz.atDelimiter rfl rfl]; rfl
  | cons c x =>
    have h1 : c ≠ SEMICOLON := fun e => hx.1 (e ▸ List.mem_cons_self)
    have h2 : c ≠ COMMA := fun e => hx.2.1 (e ▸ List.mem_cons_self)
    simp [atDelimiter, h1, h2]

theorem paramEnd_dropOws (p : Bytes) (q : Int) (qSeen quotedName : Bool) :
    paramEnd (p.dropWhile isOws) q qSeen quotedName = paramEnd p q qSeen quotedName := by
  rw [paramEnd, paramEnd, dropWhile_dropWhile_self]

theorem isDigit_of_isOws : ∀ c : UInt8, isOws c = true → isDigit c = false := by
  decide +kernel

/-- The source's reading of a q value, from its first byte to the end of the parameter. -/
def qParam (p : Bytes) (quotedName : Bool) : Param :=
  match qvalue p with
  | (none, p) => .malformed p quotedName
  | (some q, p) =>
    if atDelimiter (fun c => isOws c || c == SEMICOLON || c == COMMA) p then
      paramEnd p q true quotedName
    else .malformed p quotedName

theorem EndsParam.head_afterWord {z : Bytes} (hz : EndsParam z) (x : Bytes) :
    ∀ c ∈ (x.dropWhile (!isOws ·) ++ z).head?, isOws c = true ∨ c = SEMICOLON ∨ c = COMMA := by
  intro c hc
  cases hw : x.dropWhile (!isOws ·) with
  | nil =>
    rw [hw] at hc
    exact .inr (hz c hc)
  | cons d w =>
    rw [hw] at hc
    obtain rfl : d = c := by simpa using hc
    have := List.head_dropWhile_not (!isOws ·) (l := x) (by simp [hw])
    exact .inl (by simpa [hw] using this)

theorem EndsParam.stopsValue {z : Bytes} (hz : EndsParam z) (x : Bytes) :
    StopsValue (x.dropWhile (!isOws ·) ++ z) := by
  intro c hc
  rcases hz.head_afterWord x c hc with h | rfl | rfl
  · refine ⟨isDigit_of_isOws c h, ?_⟩
    rintro rfl
    exact absurd h (by decide)
  · decide
  · decide

theorem paramEnd_afterWord {x z : Bytes} (hx : PlainSegment x) (hz : EndsParam z) (q : Int)
    (quotedName : Bool) :
    paramEnd (x.dropWhile (!isOws ·) ++ z) q true quotedName =
      if (x.dropWhile (!isOws ·)).dropWhile isOws = [] then .next z q true quotedName
      else .malformed ((x.dropWhile (!isOws ·)).dropWhile isOws ++ z) quotedName := by
  rw [← paramEnd_dropOws, hz.dropWhile_append rfl rfl]
  refine paramEnd_append (hx.suffix ?_) (dropWhile_dropWhile_self _ _) hz q true _
  exact (List.dropWhile_suffix _).trans (List.dropWhile_suffix _)

theorem qParam_append {x z : Bytes} (hx : PlainSegment x) (hz : EndsParam z)
    (quotedName : Bool) :
    let value := x.takeWhile (!isOws ·)
    let junk := (x.dropWhile (!isOws ·)).dropWhile isOws
    match (if junk = [] then milliUnits value else none) with
    | some q => qParam (x ++ z) quotedName = .next z q true quotedName
    | none => ∃ p, qParam (x ++ z) quotedName = .malformed p quotedName := by
  intro value junk
  have hxw : x = value ++ x.dropWhile (!isOws ·) := List.takeWhile_append_dropWhile.symm
  have hq : qvalue (x ++ z) =
      ((qvalue value).1, (qvalue value).2 ++ (x.dropWhile (!isOws ·) ++ z)) := by
    conv_lhs => rw [hxw, List.append_assoc]
    exact qvalue_append value (hz.stopsValue x)
  rw [qParam, hq, milliUnits_eq]
  cases h1 : (qvalue value).1 with
  | none => simp
  | some q =>
    cases h2 : (qvalue value).2 with
    | nil =>
      have hd : atDelimiter (fun c => isOws c || c == SEMICOLON || c == COMMA)
          (x.dropWhile (!isOws ·) ++ z) = true := by
        have hstop := hz.head_afterWord x
        cases hwz : x.dropWhile (!isOws ·) ++ z with
        | nil => rfl
        | cons c t =>
          rw [hwz] at hstop
          simpa [atDelimiter, or_assoc] using hstop c rfl
      simp only [List.nil_append, hd, if_true, paramEnd_afterWord hx hz q quotedName]
      by_cases hj : junk = []
      · simp only [junk] at hj ⊢
        simp only [hj, if_true]
      · simp only [junk] at hj ⊢
        simp only [hj, if_false]
        exact ⟨_, rfl⟩
    | cons d t =>
      -- a byte of the value is left over, and it is no delimiter
      have hdv : d ∈ value := by
        obtain ⟨u, hu, -⟩ := plainSuffix_qvalue value
        rw [hu, h2]
        simp
      have hdx : d ∈ x := hxw ▸ List.mem_append_left _ hdv
      have ho : isOws d = false := by simpa using List.mem_takeWhile_imp hdv
      have hs : d ≠ SEMICOLON := fun e => hx.1 (e ▸ hdx)
      have hc : d ≠ COMMA := fun e => hx.2.1 (e ▸ hdx)
      simp [atDelimiter, ho, hs, hc]

section Param

variable {seg z : Bytes} (hs : PlainSegment seg) (hz : EndsParam z)

theorem readParam_of_noValue (he : (((seg.dropWhile isOws).dropWhile fun c =>
      c != EQUALS && !isOws c).dropWhile isOws).head? ≠ some EQUALS) :
    readParam seg = ⟨(seg.dropWhile isOws).takeWhile fun c => c != EQUALS && !isOws c, none,
      ((seg.dropWhile isOws).dropWhile fun c => c != EQUALS && !isOws c).dropWhile isOws⟩ :=
  if_neg he

theorem readParam_of_value {t : Bytes} (ht : ((seg.dropWhile isOws).dropWhile fun c =>
      c != EQUALS && !isOws c).dropWhile isOws = EQUALS :: t) :
    readParam seg = ⟨(seg.dropWhile isOws).takeWhile fun c => c != EQUALS && !isOws c,
      some ((t.dropWhile isOws).takeWhile (!isOws ·)),
      ((t.dropWhile isOws).dropWhile (!isOws ·)).dropWhile isOws⟩ := by
  simp only [readParam, ht, List.head?_cons, List.tail_cons, if_true]

include hs hz in
theorem paramName_append :
    ((seg ++ z).dropWhile isOws).takeWhile isParamNameByte =
        (seg.dropWhile isOws).takeWhile (fun c => c != EQUALS && !isOws c) ∧
      (((seg ++ z).dropWhile isOws).dropWhile isParamNameByte).dropWhile isOws =
        ((seg.dropWhile isOws).dropWhile fun c => c != EQUALS && !isOws c).dropWhile
          isOws ++ z := by
  have hp : PlainSegment (seg.dropWhile isOws) := hs.suffix (List.dropWhile_suffix _)
  obtain ⟨htake, hdrop⟩ := takeWhile_congr_on (f := isParamNameByte)
    (g := fun c => c != EQUALS && !isOws c) fun c hc => hp.isParamNameByte_eq hc
  rw [hz.dropWhile_append rfl rfl]
  constructor
  · rw [takeWhile_append_stop (hz.stop rfl rfl).2, htake]
  · rw [hz.dropWhile_append rfl rfl, hdrop, hz.dropWhile_append rfl rfl]

include hs hz in
theorem param_append_noValue (hv : (readParam seg).value = none) (q : Int)
    (qSeen quotedName : Bool) :
    PlainSegment (readParam seg).junk ∧
      (readParam seg).junk.dropWhile isOws = (readParam seg).junk ∧
      ∃ p n, param (seg ++ z) q qSeen quotedName =
        if (readParam seg).name = [] then .malformed p n
        else if (readParam seg).isQ then .malformed ((readParam seg).junk ++ z) n
        else paramEnd ((readParam seg).junk ++ z) q qSeen n := by
  obtain ⟨hname, hrest⟩ := paramName_append hs hz
  have he : (((seg.dropWhile isOws).dropWhile fun c =>
      c != EQUALS && !isOws c).dropWhile isOws).head? ≠ some EQUALS := by
    intro he
    obtain ⟨t, ht⟩ := List.head?_eq_some_iff.mp he
    rw [readParam_of_value ht] at hv
    cases hv
  have he' : (((seg.dropWhile isOws).dropWhile fun c =>
      c != EQUALS && !isOws c).dropWhile isOws ++ z).head? ≠ some EQUALS := by
    cases hc : ((seg.dropWhile isOws).dropWhile fun c =>
        c != EQUALS && !isOws c).dropWhile isOws with
    | nil => exact fun h => absurd (hz EQUALS h) (by decide)
    | cons c t => simpa [hc] using he
  rw [readParam_of_noValue he]
  refine ⟨hs.suffix ?_, dropWhile_dropWhile_self _ _,
    ((seg ++ z).dropWhile isOws).dropWhile isParamNameByte, quotedName || ((seg.dropWhile
      isOws).takeWhile fun c => c != EQUALS && !isOws c).contains DQUOTE, ?_⟩
  · exact (List.dropWhile_suffix _).trans
      ((List.dropWhile_suffix _).trans (List.dropWhile_suffix _))
  · simp only [param, hname, hrest, he', if_false]
    rfl

include hs hz in
theorem param_append_value {v : Bytes} (hv : (readParam seg).value = some v) (q : Int)
    (qSeen quotedName : Bool) :
    ∃ x p n, PlainSegment x ∧ v = x.takeWhile (!isOws ·) ∧
      (readParam seg).junk = (x.dropWhile (!isOws ·)).dropWhile isOws ∧
      param (seg ++ z) q qSeen quotedName =
        if (readParam seg).name = [] then .malformed p n
        else if (readParam seg).isQ then
          if qSeen then .malformed (x ++ z) n else qParam (x ++ z) n
        else paramEnd (skipValue (x ++ z)) q qSeen n := by
  obtain ⟨hname, hrest⟩ := paramName_append hs hz
  have he : (((seg.dropWhile isOws).dropWhile fun c =>
      c != EQUALS && !isOws c).dropWhile isOws).head? = some EQUALS := by
    by_contra he
    rw [readParam_of_noValue he] at hv
    cases hv
  obtain ⟨t, ht⟩ := List.head?_eq_some_iff.mp he
  rw [readParam_of_value ht] at hv ⊢
  obtain rfl := Option.some.inj hv
  have hsuffix : t.dropWhile isOws <:+ seg :=
    (List.dropWhile_suffix _).trans <| (List.suffix_cons EQUALS t).trans <| ht ▸
      (List.dropWhile_suffix _).trans ((List.dropWhile_suffix _).trans (List.dropWhile_suffix _))
  refine ⟨t.dropWhile isOws, ((seg ++ z).dropWhile isOws).dropWhile isParamNameByte,
    quotedName || ((seg.dropWhile isOws).takeWhile fun c =>
      c != EQUALS && !isOws c).contains DQUOTE, hs.suffix hsuffix, rfl, rfl, ?_⟩
  have hvalue : (t ++ z).dropWhile isOws = t.dropWhile isOws ++ z := hz.dropWhile_append rfl rfl t
  simp only [param, hname, hrest, ht, List.cons_append, List.head?_cons, List.tail_cons, hvalue,
    if_true]
  rfl

include hs hz in
/-- One turn of the parameter loop reads one segment, as `laxStep` says. -/
theorem param_append (q : Int) (qSeen quotedName : Bool) :
    match laxStep seg q qSeen with
    | some (q', qSeen') =>
      ∃ n, param (seg ++ z) q qSeen quotedName = .next z q' qSeen' n
    | none => ∃ p n, param (seg ++ z) q qSeen quotedName = .malformed p n := by
  cases hval : (readParam seg).value with
  | none =>
    obtain ⟨hj, ho, p, n, hparam⟩ := param_append_noValue hs hz hval q qSeen quotedName
    rw [hparam, laxStep]
    simp only [Parts.accepted, hval]
    by_cases hn : (readParam seg).name = []
    · simp [hn]
    by_cases hq : (readParam seg).isQ = true
    · simp [hn, hq]
    rw [paramEnd_append hj ho hz]
    by_cases hjunk : (readParam seg).junk = [] <;> simp [hn, hq, hjunk]
  | some v =>
    obtain ⟨x, p, n, hx, rfl, hjunk, hparam⟩ :=
      param_append_value hs hz hval q qSeen quotedName
    have hqv := qParam_append hx hz n
    dsimp only at hqv
    rw [hparam, laxStep]
    simp only [Parts.accepted, hval, Option.bind_some]
    by_cases hn : (readParam seg).name = []
    · simp [hn]
    by_cases hq : (readParam seg).isQ = true
    · cases qSeen with
      | true => simp [hn, hq]
      | false =>
        rw [← hjunk] at hqv
        by_cases hj : (readParam seg).junk = []
        · rw [if_pos hj] at hqv
          cases hm : milliUnits (x.takeWhile (!isOws ·)) with
          | none =>
            obtain ⟨p, h⟩ : ∃ p, qParam (x ++ z) n = .malformed p n := by rw [hm] at hqv; exact hqv
            simp [hn, hq, hj, h]
          | some w =>
            rw [hm] at hqv
            simp [hn, hq, hj, hqv]
        · rw [if_neg hj] at hqv
          obtain ⟨p, h⟩ := hqv
          simp [hn, hq, hj, h]
    · -- the source skips all of the value, whatever divides it
      have hend := paramEnd_append (x := []) ⟨by simp, by simp, by simp⟩ rfl hz q qSeen n
      rw [List.nil_append, if_pos rfl] at hend
      rw [skipValue_append hx hz, hend]
      simp [hn, hq]

end Param

def segsStep (segs : List Bytes) (w : Int × Bool) : Option (Int × Bool) :=
  segs.foldlM (fun w seg => segStep seg w.1 w.2) w

def laxSteps (segs : List Bytes) (w : Int × Bool) : Option (Int × Bool) :=
  segs.foldlM (fun w seg => laxStep seg w.1 w.2) w

theorem laxSteps_cons (seg : Bytes) (segs : List Bytes) (w : Int × Bool) :
    laxSteps (seg :: segs) w = (laxStep seg w.1 w.2).bind (laxSteps segs) := by
  rw [laxSteps, List.foldlM_cons]
  rfl

theorem laxSteps_eq {segs : List Bytes} (hv : ∀ seg ∈ segs, (readParam seg).Plain)
    (w : Int × Bool) : laxSteps segs w = segsStep segs w := by
  induction segs generalizing w with
  | nil => rfl
  | cons seg segs ih =>
    rw [laxSteps, segsStep, List.foldlM_cons, List.foldlM_cons,
      laxStep_eq (hv seg List.mem_cons_self)]
    exact bind_congr fun w' => ih (fun s hs => hv s (List.mem_cons_of_mem seg hs)) w'

theorem segsStep_cons (seg : Bytes) (segs : List Bytes) (w : Int × Bool) :
    segsStep (seg :: segs) w = (segStep seg w.1 w.2).bind (segsStep segs) := by
  rw [segsStep, List.foldlM_cons]
  rfl

theorem segsStep_eq (segs : List Bytes) (q : Int) (qSeen : Bool) :
    segsStep segs (q, qSeen) =
      let ps := segs.map readParam
      if ps.all Parts.wellFormed then
        match ps.filter Parts.isQ with
        | [] => some (q, qSeen)
        | [r] => if qSeen then none else (r.value.bind milliUnits).map fun q => (q, true)
        | _ => none
      else none := by
  induction segs generalizing q qSeen with
  | nil => rfl
  | cons seg segs ih =>
    rw [segsStep_cons, segStep]
    dsimp only
    rw [List.map_cons, List.all_cons]
    by_cases hw : (readParam seg).wellFormed = true
    case neg => simp [hw]
    by_cases hq : (readParam seg).isQ = true
    case neg =>
      rw [List.filter_cons_of_neg hq, if_pos hw, if_neg hq, hw, Bool.true_and]
      exact ih q qSeen
    rw [List.filter_cons_of_pos hq, if_pos hw, if_pos hq, hw, Bool.true_and]
    cases qSeen with
    | true => cases (segs.map readParam).filter Parts.isQ <;> simp
    | false =>
      cases hm : (readParam seg).value.bind milliUnits with
      | none => cases (segs.map readParam).filter Parts.isQ <;> simp [hm]
      | some w =>
        simp only [Bool.false_eq_true, if_false, Option.map_some, Option.bind_some, ih]
        rcases (segs.map readParam).filter Parts.isQ with - | ⟨r, - | ⟨r', rs⟩⟩ <;> simp [hm]

theorem paramsWeight_eq (segs : List Bytes) :
    paramsWeight segs = (segsStep segs (1000, false)).map Prod.fst := by
  rw [segsStep_eq, paramsWeight]
  dsimp only
  split
  · rcases (segs.map readParam).filter Parts.isQ with - | ⟨r, - | ⟨r', rs⟩⟩
    · rfl
    · cases h : r.value.bind milliUnits <;> simp [h]
    · rfl
  · rfl

theorem evalQvalueLoop_segment {seg z : Bytes} (hs : PlainSegment seg) (hz : EndsParam z)
    (q : Int) (qSeen quotedName : Bool) :
    (laxStep seg q qSeen = none ∧
      (evalQvalueLoop (SEMICOLON :: (seg ++ z)) q qSeen quotedName).1 = -1) ∨
    ∃ w n, laxStep seg q qSeen = some w ∧
      evalQvalueLoop (SEMICOLON :: (seg ++ z)) q qSeen quotedName = evalQvalueLoop z w.1 w.2 n := by
  have hstep := param_append hs hz q qSeen quotedName
  rw [evalQvalueLoop_semicolon]
  cases h : laxStep seg q qSeen with
  | none =>
    rw [h] at hstep
    obtain ⟨p, n, hp⟩ := hstep
    rw [hp]
    exact .inl ⟨rfl, rfl⟩
  | some w =>
    rw [h] at hstep
    obtain ⟨n, hp⟩ := hstep
    rw [hp]
    exact .inr ⟨w, n, rfl, rfl⟩

/-- The parameter loop reads the parameters between the semicolons. -/
theorem evalQvalueLoop_segments {y z : Bytes} (hc : COMMA ∉ y) (hq : DQUOTE ∉ y)
    (hz : z = [] ∨ ∃ t, z = COMMA :: t) (q : Int) (qSeen quotedName : Bool) :
    (evalQvalueLoop (SEMICOLON :: (y ++ z)) q qSeen quotedName).1 =
      ((laxSteps (y.splitOn SEMICOLON) (q, qSeen)).map Prod.fst).getD (-1) := by
  by_cases hs : SEMICOLON ∈ y
  case pos =>
    obtain ⟨a, b, hy, ha⟩ := List.eq_append_cons_of_mem hs
    have hlen : b.length < y.length := by rw [hy, List.length_append, List.length_cons]; omega
    subst hy
    rw [List.splitOn_append_cons_self_of_not_mem ha]
    have hpa : PlainSegment a :=
      ⟨ha, fun h => hc (List.mem_append_left _ h), fun h => hq (List.mem_append_left _ h)⟩
    have hend : EndsParam (SEMICOLON :: (b ++ z)) := fun c h => .inl (by simpa using h.symm)
    rw [List.append_assoc, List.cons_append, laxSteps_cons]
    rcases evalQvalueLoop_segment hpa hend q qSeen quotedName with
      ⟨h, hp⟩ | ⟨w, n, h, hp⟩
    · rw [h, hp]
      rfl
    · rw [h, hp]
      exact evalQvalueLoop_segments (fun h => hc (by simp [h]))
        (fun h => hq (by simp [h])) hz w.1 w.2 n
  case neg =>
    rw [List.splitOn_eq_singleton hs]
    have hend : EndsParam z := by
      rcases hz with rfl | ⟨t, rfl⟩
      · exact fun c h => absurd h (by simp)
      · exact fun c h => .inr (by simpa using h.symm)
    have hz' : z.head? ≠ some SEMICOLON := by
      rcases hz with rfl | ⟨t, rfl⟩
      · simp
      · exact fun h => absurd (Option.some.inj h) (by decide)
    rw [laxSteps_cons]
    rcases evalQvalueLoop_segment ⟨hs, hc, hq⟩ hend q qSeen quotedName with ⟨h, hp⟩ | ⟨w, n, h, hp⟩
    · rw [h, hp]
      rfl
    · rw [h, hp]
      exact congrArg Prod.fst (evalQvalueLoop_done hz' w.1 w.2 n)
termination_by y.length

end NgxBrotli
