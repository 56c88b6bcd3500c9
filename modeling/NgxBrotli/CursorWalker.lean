import NgxBrotli.AcceptEncoding
import NgxBrotli.Cursors

/-!
# The Accept-Encoding walker by its cursors

`ngx_http_brotli_skip_quoted`, `ngx_http_brotli_eval_qvalue` and `ngx_http_brotli_coding_weight_ex`
with every pointer: a cursor is an address, `e` is the `end` of the source, and what lies behind it
is whatever memory holds.  Each function ends, stays inside the value, and has the result of the
function on the text from its cursor on.
-/

namespace NgxBrotli
open Scan

structure NgxStr where
  data : ℕ
  len : ℕ
  deriving DecidableEq, Repr

def NgxStr.last (s : NgxStr) : ℕ := s.data + s.len

/-- `if (*p == '\\' && p + 1 < end) { p++; }` -/
def skipEscapeAt (e p : ℕ) : Scan UInt8 ℕ := do
  let c ← read p
  if c = BACKSLASH ∧ p + 1 < e then move (p + 1) else return p

/-- `while (p < end && *p != '"')`, with an escape and `p++` in each turn. -/
def quotedLoopAt (fuel e : ℕ) : ℕ → Scan UInt8 ℕ :=
  loop (fun p => do
    if ← peek e (· != DQUOTE) p then
      let p ← skipEscapeAt e p
      return .inl (← move (p + 1))
    else return .inr p) fuel

/-- The loop above with the steps over both quotes. -/
def quotedAt (fuel e p : ℕ) : Scan UInt8 ℕ := do
  let p ← move (p + 1)
  let p ← quotedLoopAt fuel e p
  if p < e then move (p + 1) else pure p

/-- `ngx_http_brotli_skip_quoted` -/
def skipQuotedAt (fuel e p : ℕ) : Scan UInt8 ℕ := do
  if ← peek e (· == DQUOTE) p then quotedAt fuel e p
  else return p

/-- `while (p < end && !stop(*p)) { if (*p == '"') p = skip_quoted(p, end); else p++; }` -/
def skipToAt (stop : UInt8 → Bool) (fuel e : ℕ) : ℕ → Scan UInt8 ℕ :=
  loop (fun p => do
    if ← peek e (!stop ·) p then
      if (← read p) = DQUOTE then return .inl (← skipQuotedAt fuel e p)
      else return .inl (← move (p + 1))
    else return .inr p) fuel

section

variable {m : ℕ → UInt8} {lo hi p e fuel : ℕ} {c : UInt8} {l t : Bytes}

theorem wp_skipEscapeAt (h : Piece m lo hi p e (c :: t)) :
    Wp m (Touch.Within lo hi)
      (fun q => ∃ d, Piece m lo hi q e (d :: if c = BACKSLASH then t.tail else t))
      (skipEscapeAt e p) := by
  obtain ⟨rfl, ht⟩ := h.of_cons
  rw [skipEscapeAt, wp_bind, wp_read]
  refine ⟨h.read_within, ?_⟩
  by_cases hb : m p = BACKSLASH
  · rw [if_pos hb]
    obtain ⟨rfl, rfl⟩ | ⟨t', rfl, hlt, -⟩ := ht.cases
    · rw [if_neg (fun h => Nat.lt_irrefl _ h.2), wp_pure]
      exact ⟨_, h⟩
    · rw [if_pos ⟨hb, hlt⟩, wp_move]
      exact ⟨ht.move_within, _, ht⟩
  · rw [if_neg hb, if_neg (fun h => hb h.1), wp_pure]
    exact ⟨_, h⟩

theorem skipQuotedLoop_cons (hc : c ≠ DQUOTE) :
    skipQuotedLoop (c :: t) = skipQuotedLoop (if c = BACKSLASH then t.tail else t) := by
  rw [skipQuotedLoop.eq_def]
  dsimp only
  rw [if_neg hc]
  split
  · cases t with
    | nil => rw [List.tail_nil, skipQuotedLoop]
    | cons d t => rfl
  · rfl

theorem wp_quotedLoopAt (h : Piece m lo hi p e l) (hfuel : hi - lo < fuel) :
    Wp m (Touch.Within lo hi) (fun q => ∃ r, Piece m lo hi q e r ∧ r.tail = skipQuotedLoop l)
      (quotedLoopAt fuel e p) := by
  refine wp_scan id (fun _ r => skipQuotedLoop r = skipQuotedLoop l) ?_ h rfl hfuel
  intro q r hr hloop
  rw [id] at hr
  rw [← hloop]
  cases r with
  | nil =>
    rw [wp_if_peek_nil hr, wp_pure]
    exact ⟨[], hr, by rw [skipQuotedLoop, List.tail_nil]⟩
  | cons c t =>
    by_cases hq : c = DQUOTE
    · rw [wp_if_peek_neg hr (by simpa using hq), wp_pure]
      exact ⟨_, hr, by rw [skipQuotedLoop.eq_def, List.tail_cons]; exact (if_pos hq).symm⟩
    · rw [wp_if_peek_pos hr (by simpa using hq), wp_bind]
      apply (wp_skipEscapeAt hr).mono
      rintro q' ⟨d, hd⟩
      obtain ⟨-, hrest⟩ := hd.of_cons
      rw [wp_bind, wp_move, wp_pure]
      refine ⟨hrest.move_within, _, hrest, (skipQuotedLoop_cons hq).symm, ?_⟩
      split
      · rw [List.length_tail, List.length_cons]
        omega
      · exact Nat.lt_succ_self _

theorem wp_quotedAt (h : Piece m lo hi p e (c :: t)) (hfuel : hi - lo < fuel) :
    Wp m (Touch.Within lo hi) (fun q => Piece m lo hi q e (skipQuotedLoop t))
      (quotedAt fuel e p) := by
  obtain ⟨-, ht⟩ := h.of_cons
  rw [quotedAt, wp_bind, wp_move, wp_bind]
  refine ⟨ht.move_within, (wp_quotedLoopAt ht hfuel).mono ?_⟩
  rintro q ⟨r, hr, htail⟩
  rw [← htail]
  obtain ⟨rfl, rfl⟩ | ⟨t', rfl, hlt, ht'⟩ := hr.cases
  · rw [if_neg (Nat.lt_irrefl q), wp_pure]
    exact hr
  · rw [if_pos hlt, wp_move]
    exact ⟨ht'.move_within, ht'⟩

theorem wp_skipQuotedAt (h : Piece m lo hi p e l) (hfuel : hi - lo < fuel) :
    Wp m (Touch.Within lo hi) (fun q => Piece m lo hi q e (skipQuoted l))
      (skipQuotedAt fuel e p) := by
  rw [skipQuotedAt]
  cases l with
  | nil => rwa [wp_if_peek_nil h, wp_pure]
  | cons c t =>
    rw [skipQuoted]
    by_cases hq : c = DQUOTE
    · rw [wp_if_peek_pos h (by simpa using hq), if_pos hq]
      exact wp_quotedAt h hfuel
    · rwa [wp_if_peek_neg h (by simpa using hq), if_neg hq, wp_pure]

theorem wp_skipToAt {stop : UInt8 → Bool} (h : Piece m lo hi p e l) (hfuel : hi - lo < fuel) :
    Wp m (Touch.Within lo hi) (fun q => Piece m lo hi q e (skipTo stop l))
      (skipToAt stop fuel e p) := by
  refine wp_scan id (fun _ r => skipTo stop r = skipTo stop l) ?_ h rfl hfuel
  intro q r hr hskip
  rw [id] at hr
  rw [← hskip]
  obtain ⟨rfl, rfl⟩ | ⟨t, rfl, -, ht⟩ := hr.cases
  · rw [skipTo, wp_if_peek_nil hr, wp_pure]
    exact hr
  rw [skipTo]
  by_cases hs : stop (m q) = true
  · rw [wp_if_peek_neg hr (by simpa using hs), if_pos hs, wp_pure]
    exact hr
  rw [wp_if_peek_pos hr (by simpa using hs), if_neg hs, wp_bind, wp_read]
  refine ⟨hr.read_within, ?_⟩
  by_cases hq : m q = DQUOTE
  · rw [if_pos hq, if_pos hq, wp_bind]
    apply (wp_skipQuotedAt hr hfuel).mono
    intro q' hq'
    rw [hq, skipQuoted_quote] at *
    rw [wp_pure]
    -- the helper has left the opening DQUOTE behind at least
    exact ⟨_, hq', rfl, Nat.lt_succ_of_le (skipQuotedLoop_suffix t).length_le⟩
  · rw [if_neg hq, if_neg hq, wp_bind, wp_move, wp_pure]
    exact ⟨ht.move_within, _, ht, rfl, Nat.lt_succ_self _⟩

end

/-- `ngx_strncasecmp(p, lit, sizeof(lit) - 1)` -/
def ngxStrncasecmpAt : ℕ → Bytes → Scan UInt8 Int
  | _, [] => return 0
  | p, d :: lit => do
    let c ← read p
    let p ← move (p + 1)
    if ngxTolower c = ngxTolower d then
      if ngxTolower c ≠ 0 then ngxStrncasecmpAt p lit else return 0
    else return (ngxTolower c).toNat - (ngxTolower d).toNat

/-- `e - p == sizeof(lit) - 1 && ngx_strncasecmp(p, lit, sizeof(lit) - 1) == 0` -/
def matchesNameAt (p e : ℕ) (lit : Bytes) : Scan UInt8 Bool :=
  if e - p = lit.length then (· == 0) <$> ngxStrncasecmpAt p lit else return false

section

variable {m : ℕ → UInt8} {lo hi p e : ℕ} {l lit : Bytes}

theorem wp_ngxStrncasecmpAt (h : Piece m lo hi p e l) (hlen : l.length = lit.length) :
    Wp m (Touch.Within lo hi) (· = ngxStrncasecmp l lit lit.length) (ngxStrncasecmpAt p lit) := by
  induction lit generalizing p l with
  | nil =>
    obtain rfl := List.length_eq_zero_iff.mp hlen
    exact wp_pure.mpr rfl
  | cons d lit ih =>
    obtain ⟨c, t, rfl⟩ := List.exists_cons_of_length_eq_add_one hlen
    obtain ⟨rfl, ht⟩ := h.of_cons
    rw [ngxStrncasecmpAt, wp_bind, wp_read, wp_bind, wp_move, List.length_cons, ngxStrncasecmp]
    refine ⟨h.read_within, ht.move_within, ?_⟩
    split
    · split
      · exact ih ht (Nat.succ.inj hlen)
      · exact wp_pure.mpr rfl
    · exact wp_pure.mpr rfl

theorem wp_matchesNameAt (h : Piece m lo hi p e l) (lit : Bytes) :
    Wp m (Touch.Within lo hi) (· = matchesName l lit) (matchesNameAt p e lit) := by
  rw [matchesNameAt, matchesName, h.sub_eq]
  by_cases hlen : l.length = lit.length
  · rw [if_pos hlen, wp_map]
    apply (wp_ngxStrncasecmpAt h hlen).mono
    rintro _ rfl
    simp [hlen]
  · rw [if_neg hlen, wp_pure]
    simp [hlen]

/-- The result of a scan that hands its cursor back, and that of the function on the text. -/
def AtRest {α : Type} (m : ℕ → UInt8) (lo hi e : ℕ) (r : α × ℕ) (s : α × Bytes) : Prop :=
  r.1 = s.1 ∧ Piece m lo hi r.2 e s.2

end

/-- `if (p < end && *p >= '0' && *p <= '9') { q += (*p++ - '0') * scale; }` -/
def takeDigitAt (e : ℕ) (scale : Int) (qp : Int × ℕ) : Scan UInt8 (Int × ℕ) := do
  if ← peek e isDigit qp.2 then
    let c ← read qp.2
    let p ← move (qp.2 + 1)
    return (qp.1 + ((c.toNat : Int) - 0x30) * scale, p)
  else return qp

/-- `while (p < end && *p == '0' && i < 3) { p++; i++; }` on `(p, i)` -/
def skipZerosAt (fuel e : ℕ) : ℕ × ℕ → Scan UInt8 ℕ :=
  loop (fun (p, i) => do
    if (← peek e (· == 0x30) p) && i < 3 then return .inl (← move (p + 1), i + 1)
    else return .inr p) fuel

/-- The qvalue grammar: the weight, `none` at `goto malformed`, and the cursor. -/
def qvalueAt (fuel e p : ℕ) : Scan UInt8 (Option Int × ℕ) := do
  if p < e then
    let c ← read p
    if c = 0x30 then
      let p ← move (p + 1)
      if ← peek e (· == DOT) p then
        let p ← move (p + 1)
        let qp ← takeDigitAt e 100 (0, p)
        let qp ← takeDigitAt e 10 qp
        let qp ← takeDigitAt e 1 qp
        return (some qp.1, qp.2)
      else return (some 0, p)
    else if c = 0x31 then
      let p ← move (p + 1)
      if ← peek e (· == DOT) p then
        let p ← move (p + 1)
        let p ← skipZerosAt fuel e (p, 0)
        return (some 1000, p)
      else return (some 1000, p)
    else return (none, p)  -- leading digit not 0 or 1
  else return (none, p)  -- "q=" with no value

section

variable {m : ℕ → UInt8} {lo hi p e fuel : ℕ} {l : Bytes}

theorem wp_takeDigitAt {qp : Int × ℕ} {ql : Int × Bytes} (h : AtRest m lo hi e qp ql)
    (scale : Int) :
    Wp m (Touch.Within lo hi) (AtRest m lo hi e · (takeDigit scale ql))
      (takeDigitAt e scale qp) := by
  obtain ⟨q, p⟩ := qp
  obtain ⟨_, l⟩ := ql
  obtain ⟨rfl, h⟩ := h
  rw [takeDigitAt]
  cases l with
  | nil =>
    rw [wp_if_peek_nil h, wp_pure]
    exact ⟨rfl, h⟩
  | cons c t =>
    obtain ⟨hc, ht⟩ := h.of_cons
    simp only [takeDigit]
    by_cases hd : isDigit c = true
    · rw [wp_if_peek_pos h hd, if_pos hd, wp_bind, wp_read, wp_bind, wp_move, wp_pure, ← hc]
      exact ⟨h.read_within, ht.move_within, rfl, ht⟩
    · rw [wp_if_peek_neg h hd, if_neg hd, wp_pure]
      exact ⟨rfl, h⟩

theorem wp_takeDigitsAt (h : Piece m lo hi p e l) :
    Wp m (Touch.Within lo hi)
      (AtRest m lo hi e ·
        (some (takeDigit 1 (takeDigit 10 (takeDigit 100 (0, l)))).1,
          (takeDigit 1 (takeDigit 10 (takeDigit 100 (0, l)))).2))
      (do
        let qp ← takeDigitAt e 100 (0, p)
        let qp ← takeDigitAt e 10 qp
        let qp ← takeDigitAt e 1 qp
        return (some qp.1, qp.2)) := by
  have hzero : AtRest m lo hi e ((0 : Int), p) (0, l) := ⟨rfl, h⟩
  rw [wp_bind]
  apply (wp_takeDigitAt hzero 100).mono
  intro qp hqp
  rw [wp_bind]
  apply (wp_takeDigitAt hqp 10).mono
  intro qp hqp
  rw [wp_bind]
  apply (wp_takeDigitAt hqp 1).mono
  intro qp hqp
  exact wp_pure.mpr ⟨congrArg some hqp.1, hqp.2⟩

theorem wp_skipZerosAt (h : Piece m lo hi p e l) (hfuel : hi - lo < fuel) :
    Wp m (Touch.Within lo hi) (fun q => Piece m lo hi q e (skipZeros 3 l))
      (skipZerosAt fuel e (p, 0)) := by
  refine wp_scan Prod.fst (fun s r => skipZeros (3 - s.2) r = skipZeros 3 l) ?_ h rfl hfuel
  rintro ⟨q, i⟩ r hr hskip
  dsimp only at hr hskip ⊢
  rw [wp_bind, wp_peek hr]
  by_cases hi3 : i < 3
  · obtain ⟨n, hn⟩ : ∃ n, 3 - i = n + 1 := ⟨2 - i, by omega⟩
    rw [hn] at hskip
    cases r with
    | nil => simpa [← hskip, skipZeros] using hr
    | cons c t =>
      obtain ⟨-, ht⟩ := hr.of_cons
      rw [skipZeros] at hskip
      by_cases hc : c = 0x30
      · rw [if_pos hc] at hskip
        have hnext : 3 - (i + 1) = n := by omega
        simpa [hc, hi3, hnext, ht.move_within] using ⟨t, ht, hskip, Nat.le_refl _⟩
      · rw [if_neg hc] at hskip
        simpa [hc, ← hskip] using hr
  · have hdone : 3 - i = 0 := by omega
    have hstop : skipZeros 0 r = r := by cases r <;> rfl
    rw [hdone, hstop] at hskip
    simpa [hi3, ← hskip] using hr

theorem wp_qvalueAt (h : Piece m lo hi p e l) (hfuel : hi - lo < fuel) :
    Wp m (Touch.Within lo hi) (AtRest m lo hi e · (qvalue l)) (qvalueAt fuel e p) := by
  rw [qvalueAt]
  obtain ⟨rfl, rfl⟩ | ⟨t, rfl, hlt, ht⟩ := h.cases
  · rw [if_neg (Nat.lt_irrefl p), wp_pure]
    exact ⟨rfl, h⟩
  rw [if_pos hlt, wp_bind, wp_read]
  refine ⟨h.read_within, ?_⟩
  by_cases h0 : m p = 0x30
  · rw [if_pos h0, wp_bind, wp_move]
    refine ⟨ht.move_within, ?_⟩
    cases t with
    | nil =>
      rw [wp_if_peek_nil ht, wp_pure, qvalue, if_pos h0]
      exact ⟨rfl, ht⟩
    | cons d t =>
      obtain ⟨-, ht'⟩ := ht.of_cons
      rw [qvalue, if_pos h0]
      dsimp only
      by_cases hd : d = DOT
      · rw [wp_if_peek_pos ht (by simpa using hd), if_pos hd, wp_bind, wp_move]
        exact ⟨ht'.move_within, wp_takeDigitsAt ht'⟩
      · rw [wp_if_peek_neg ht (by simpa using hd), if_neg hd, wp_pure]
        exact ⟨rfl, ht⟩
  rw [if_neg h0]
  by_cases h1 : m p = 0x31
  · rw [if_pos h1, wp_bind, wp_move]
    refine ⟨ht.move_within, ?_⟩
    cases t with
    | nil =>
      rw [wp_if_peek_nil ht, wp_pure, qvalue, if_neg h0, if_pos h1]
      exact ⟨rfl, ht⟩
    | cons d t =>
      obtain ⟨-, ht'⟩ := ht.of_cons
      rw [qvalue, if_neg h0, if_pos h1]
      by_cases hd : d = DOT
      · rw [wp_if_peek_pos ht (by simpa using hd), if_pos hd, wp_bind, wp_move, wp_bind]
        refine ⟨ht'.move_within, (wp_skipZerosAt ht' hfuel).mono fun q hq => ?_⟩
        exact wp_pure.mpr ⟨rfl, hq⟩
      · rw [wp_if_peek_neg ht (by simpa using hd), if_neg hd, wp_pure]
        exact ⟨rfl, ht⟩
  · rw [if_neg h1, wp_pure, qvalue.eq_def]
    dsimp only
    rw [if_neg h0, if_neg h1]
    exact ⟨rfl, h⟩

end

/-- Where one turn of the parameter loop leaves off. -/
inductive ParamAt
  | malformed (p : ℕ) (quotedName : Bool)
  | next (p : ℕ) (q : Int) (qSeen quotedName : Bool)
  deriving DecidableEq, Repr

/-- The OWS after any parameter and the check for trailing junk. -/
def paramEndAt (fuel e p : ℕ) (q : Int) (qSeen quotedName : Bool) : Scan UInt8 ParamAt := do
  let p ← skipWhile fuel e isOws p
  if ← peek e (fun c => c != SEMICOLON && c != COMMA) p then return .malformed p quotedName
  else return .next p q qSeen quotedName

/-- The scan over a parameter's name, on `(p, quoted_name)` -/
def paramNameAt (fuel e : ℕ) : ℕ × Bool → Scan UInt8 (ℕ × Bool) :=
  loop (fun (p, quotedName) => do
    if ← peek e isParamNameByte p then
      let c ← read p
      return .inl (← move (p + 1), quotedName || c == DQUOTE)
    else return .inr (p, quotedName)) fuel

/-- `nend - nstart == 1 && (nstart[0] == 'q' || nstart[0] == 'Q')` -/
def isQAt (nstart nend : ℕ) : Scan UInt8 Bool :=
  if nend - nstart = 1 then (fun c => c == 0x71 || c == 0x51) <$> read nstart else return false

/-- The value of a parameter, from past the '=' and the OWS behind it. -/
def paramValueAt (fuel e p : ℕ) (isQ : Bool) (q : Int) (qSeen quotedName : Bool) :
    Scan UInt8 ParamAt := do
  if isQ then
    if qSeen then return .malformed p quotedName  -- repeated "q" parameter
    else
      match ← qvalueAt fuel e p with
      | (none, p) => return .malformed p quotedName
      | (some q, p) =>
        if ← peek e (fun c => !isOws c && c != SEMICOLON && c != COMMA) p then
          return .malformed p quotedName
        else paramEndAt fuel e p q true quotedName
  else
    let p ← skipToAt (fun c => c == SEMICOLON || c == COMMA) fuel e p
    paramEndAt fuel e p q qSeen quotedName

/-- One turn of the parameter loop, from past the ';'. -/
def paramAt (fuel e p : ℕ) (q : Int) (qSeen quotedName : Bool) : Scan UInt8 ParamAt := do
  let nstart ← skipWhile fuel e isOws p
  let (nend, quotedName) ← paramNameAt fuel e (nstart, quotedName)
  if nend = nstart then return .malformed nend quotedName
  else
    let isQ ← isQAt nstart nend
    let p ← skipWhile fuel e isOws nend
    if ← peek e (· == EQUALS) p then
      let p ← move (p + 1)
      let p ← skipWhile fuel e isOws p
      paramValueAt fuel e p isQ q qSeen quotedName
    else if isQ then return .malformed p quotedName  -- "q" with no "=value"
    else paramEndAt fuel e p q qSeen quotedName

section

variable {m : ℕ → UInt8} {lo hi p q e fuel : ℕ} {l name : Bytes}

inductive ParamAt.Reads (m : ℕ → UInt8) (lo hi e : ℕ) : ParamAt → Param → Prop
  | malformed {p : ℕ} {l : Bytes} {n : Bool} (h : Piece m lo hi p e l) :
      Reads m lo hi e (.malformed p n) (.malformed l n)
  | next {p : ℕ} {l : Bytes} {q : Int} {s n : Bool} (h : Piece m lo hi p e l) :
      Reads m lo hi e (.next p q s n) (.next l q s n)

theorem any_head?_eq {bad ok : UInt8 → Bool} (hbad : ∀ c, bad c = !ok c) (l : Bytes) :
    l.head?.any bad = !atDelimiter ok l := by
  cases l with
  | nil => rfl
  | cons c t => exact hbad c

theorem head?_cons_eq {c d : UInt8} {t : Bytes} : (c :: t).head? = some d ↔ c = d := Option.some_inj

theorem notDelimiter_eq (c : UInt8) :
    (c != SEMICOLON && c != COMMA) = !(c == SEMICOLON || c == COMMA) := by
  rw [Bool.not_or]
  rfl

theorem wp_if_junk {α : Type} {Q : α → Prop} {x y : Scan UInt8 α} {bad ok : UInt8 → Bool}
    (h : Piece m lo hi p e l) (hbad : ∀ c, bad c = !ok c) :
    Wp m (Touch.Within lo hi) Q (do if ← peek e bad p then x else y) ↔
      if atDelimiter ok l then Wp m (Touch.Within lo hi) Q y
        else Wp m (Touch.Within lo hi) Q x := by
  rw [wp_bind, wp_peek h, any_head?_eq hbad]
  cases atDelimiter ok l <;> exact Iff.rfl

theorem wp_paramEndAt (h : Piece m lo hi p e l) (hfuel : hi - lo < fuel) (w : Int)
    (qSeen quotedName : Bool) :
    Wp m (Touch.Within lo hi) (ParamAt.Reads m lo hi e · (paramEnd l w qSeen quotedName))
      (paramEndAt fuel e p w qSeen quotedName) := by
  rw [paramEndAt, wp_bind]
  apply (wp_skipWhile h hfuel).mono
  rintro r ⟨-, hr⟩
  rw [wp_if_junk hr notDelimiter_eq, paramEnd]
  split
  · exact wp_pure.mpr (.next hr)
  · exact wp_pure.mpr (.malformed hr)

theorem wp_paramNameAt (h : Piece m lo hi p e l) (hfuel : hi - lo < fuel) (quotedName : Bool) :
    Wp m (Touch.Within lo hi) (fun s => Piece m lo hi p s.1 (l.takeWhile isParamNameByte) ∧
        Piece m lo hi s.1 e (l.dropWhile isParamNameByte) ∧
        s.2 = (quotedName || (l.takeWhile isParamNameByte).contains DQUOTE))
      (paramNameAt fuel e (p, quotedName)) := by
  refine wp_scan Prod.fst (fun s r => ∃ a, Piece m lo hi p s.1 a ∧
    a ++ r.takeWhile isParamNameByte = l.takeWhile isParamNameByte ∧
    r.dropWhile isParamNameByte = l.dropWhile isParamNameByte ∧
    s.2 = (quotedName || a.contains DQUOTE)) ?_ h ⟨[], h.nil_left, rfl, rfl, by simp⟩ hfuel
  rintro ⟨q, quoted⟩ r hr ⟨a, ha, htake, hdrop, hquoted⟩
  dsimp only at hr ha hquoted ⊢
  obtain ⟨rfl, rfl⟩ | ⟨t, rfl, hlt, ht⟩ := hr.cases
  · rw [List.takeWhile_nil, List.append_nil] at htake
    rw [wp_if_peek_nil hr, wp_pure, Sum.elim_inr, ← htake, ← hdrop]
    exact ⟨ha, hr, hquoted⟩
  · by_cases hn : isParamNameByte (m q) = true
    · rw [List.takeWhile_cons_of_pos hn, List.append_cons] at htake
      rw [List.dropWhile_cons_of_pos hn] at hdrop
      rw [wp_if_peek_pos hr hn, wp_bind, wp_read, wp_bind, wp_move, wp_pure, Sum.elim_inl]
      refine ⟨hr.read_within, ht.move_within, t, ht, ⟨_, ha.concat ?_, htake, hdrop, ?_⟩,
        Nat.lt_succ_self _⟩
      · exact Nat.lt_of_lt_of_le hlt hr.high
      · have hcell : [m q].contains DQUOTE = (m q == DQUOTE) := by
          rw [List.contains_cons, List.contains_nil, Bool.or_false, BEq.comm]
        rw [hquoted, Bool.or_assoc, List.contains_append, hcell]
    · rw [List.takeWhile_cons_of_neg hn, List.append_nil] at htake
      rw [List.dropWhile_cons_of_neg hn] at hdrop
      rw [wp_if_peek_neg hr hn, wp_pure, Sum.elim_inr, ← htake, ← hdrop]
      exact ⟨ha, hr, hquoted⟩

theorem wp_if_single {f : UInt8 → Bool} (h : Piece m lo hi p q name) :
    Wp m (Touch.Within lo hi) (· = (name.length == 1 && name.all f))
      (if q - p = 1 then f <$> read p else return false) := by
  rw [h.sub_eq]
  by_cases hone : name.length = 1
  · obtain ⟨c, rfl⟩ := List.length_eq_one_iff.mp hone
    obtain ⟨rfl, -⟩ := h.of_cons
    rw [if_pos hone, wp_map, wp_read]
    exact ⟨h.read_within, by simp⟩
  · rw [if_neg hone, wp_pure, beq_eq_false_iff_ne.mpr hone, Bool.false_and]

theorem wp_isQAt (h : Piece m lo hi p q name) :
    Wp m (Touch.Within lo hi) (· = (name == ascii "q" || name == ascii "Q")) (isQAt p q) := by
  have hlower : ascii "q" = [0x71] := by decide
  have hupper : ascii "Q" = [0x51] := by decide
  apply (wp_if_single h).mono
  rintro _ rfl
  rw [hlower, hupper]
  rcases name with - | ⟨c, - | ⟨d, t⟩⟩ <;> simp

def paramValue (isQ : Bool) (p : Bytes) (q : Int) (qSeen quotedName : Bool) : Param :=
  if isQ then
    if qSeen then .malformed p quotedName
    else
      match qvalue p with
      | (none, p) => .malformed p quotedName
      | (some q, p) =>
        if atDelimiter (fun c => isOws c || c == SEMICOLON || c == COMMA) p then
          paramEnd p q true quotedName
        else .malformed p quotedName
  else paramEnd (skipValue p) q qSeen quotedName

theorem wp_paramValueAt (h : Piece m lo hi p e l) (hfuel : hi - lo < fuel) (isQ : Bool) (w : Int)
    (qSeen quotedName : Bool) :
    Wp m (Touch.Within lo hi) (ParamAt.Reads m lo hi e · (paramValue isQ l w qSeen quotedName))
      (paramValueAt fuel e p isQ w qSeen quotedName) := by
  rw [paramValueAt, paramValue]
  cases isQ with
  | false =>
    rw [if_neg Bool.false_ne_true, if_neg Bool.false_ne_true, wp_bind]
    exact (wp_skipToAt h hfuel).mono fun q hq => wp_paramEndAt hq hfuel w qSeen quotedName
  | true =>
    rw [if_pos rfl, if_pos rfl]
    cases qSeen with
    | true => exact wp_pure.mpr (.malformed h)
    | false =>
      rw [if_neg Bool.false_ne_true, if_neg Bool.false_ne_true, wp_bind]
      apply (wp_qvalueAt h hfuel).mono
      rintro ⟨w', q⟩ ⟨hw, hq⟩
      generalize qvalue l = r at hw hq
      obtain ⟨_, l'⟩ := r
      obtain rfl : w' = _ := hw
      cases w' with
      | none => exact wp_pure.mpr (.malformed hq)
      | some w' =>
        have hbad (c : UInt8) : (!isOws c && c != SEMICOLON && c != COMMA) =
            !(isOws c || c == SEMICOLON || c == COMMA) := by
          rw [Bool.or_assoc, Bool.not_or, ← notDelimiter_eq, Bool.and_assoc]
        dsimp only
        rw [wp_if_junk hq hbad]
        split
        · exact wp_paramEndAt hq hfuel w' true quotedName
        · exact wp_pure.mpr (.malformed hq)

theorem wp_paramAt (h : Piece m lo hi p e l) (hfuel : hi - lo < fuel) (w : Int)
    (qSeen quotedName : Bool) :
    Wp m (Touch.Within lo hi) (ParamAt.Reads m lo hi e · (param l w qSeen quotedName))
      (paramAt fuel e p w qSeen quotedName) := by
  rw [paramAt, param, wp_bind]
  apply (wp_skipWhile h hfuel).mono
  rintro nstart ⟨-, hstart⟩
  rw [wp_bind]
  apply (wp_paramNameAt hstart hfuel quotedName).mono
  rintro ⟨nend, quoted⟩ ⟨hname, hend, hquoted⟩
  dsimp only at hname hend hquoted ⊢
  rw [← hquoted]
  -- the two cursors meet where there is no name
  have hempty : nend = nstart ↔ (l.dropWhile isOws).takeWhile isParamNameByte = [] := by
    rw [← List.length_eq_zero_iff]
    have hlen := hname.length_eq
    omega
  by_cases hno : nend = nstart
  · rw [if_pos hno, if_pos (hempty.mp hno), wp_pure]
    exact .malformed hend
  rw [if_neg hno, if_neg (mt hempty.mpr hno), wp_bind]
  apply (wp_isQAt hname).mono
  rintro _ rfl
  rw [wp_bind]
  apply (wp_skipWhile hend hfuel).mono
  rintro p₂ ⟨-, h₂⟩
  obtain ⟨rfl, heq⟩ | ⟨t, heq, -, ht⟩ := h₂.cases
  · rw [heq] at h₂ ⊢
    rw [wp_if_peek_nil h₂, if_neg (by simp)]
    split
    · exact wp_pure.mpr (.malformed h₂)
    · exact wp_paramEndAt h₂ hfuel w qSeen quoted
  rw [heq] at h₂ ⊢
  by_cases hc : m p₂ = EQUALS
  · rw [wp_if_peek_pos h₂ (by simpa using hc), if_pos (head?_cons_eq.mpr hc), wp_bind, wp_move,
      wp_bind]
    refine ⟨ht.move_within, (wp_skipWhile ht hfuel).mono ?_⟩
    rintro p₃ ⟨-, h₃⟩
    exact wp_paramValueAt h₃ hfuel _ w qSeen quoted
  · rw [wp_if_peek_neg h₂ (by simpa using hc), if_neg (mt head?_cons_eq.mp hc)]
    split
    · exact wp_pure.mpr (.malformed h₂)
    · exact wp_paramEndAt h₂ hfuel w qSeen quoted

end

/-- The variables of `ngx_http_brotli_eval_qvalue` that its loop changes. -/
structure EvalVars where
  p : ℕ
  q : Int
  qSeen : Bool
  quotedName : Bool
  deriving DecidableEq, Repr

/-- The parameter loop `while (p < end && *p == ';')`, and `q = -1` behind it at `malformed`. -/
def evalQvalueLoopAt (fuel e : ℕ) : EvalVars → Scan UInt8 EvalVars :=
  loop (fun s => do
    if ← peek e (· == SEMICOLON) s.p then
      let p ← move (s.p + 1)
      match ← paramAt fuel e p s.q s.qSeen s.quotedName with
      | .malformed p quotedName => return .inr ⟨p, -1, s.qSeen, quotedName⟩
      | .next p q qSeen quotedName => return .inl ⟨p, q, qSeen, quotedName⟩
    else return .inr s) fuel

/-- `ngx_http_brotli_eval_qvalue`: the weight, and the cursor it hands back. -/
def evalQvalueAt (fuel : ℕ) (ae : NgxStr) (pp : ℕ) : Scan UInt8 (Int × ℕ) := do
  let s ← evalQvalueLoopAt fuel ae.last ⟨pp, 1000, false, false⟩
  return (s.q, if s.quotedName then pp else s.p)

section

variable {m : ℕ → UInt8} {lo hi fuel : ℕ} {ae : NgxStr} {l : Bytes}

theorem wp_evalQvalueLoopAt {e : ℕ} {s : EvalVars} (h : Piece m lo hi s.p e l)
    (hfuel : hi - lo < fuel) :
    Wp m (Touch.Within lo hi) (fun s' => ∃ r, Piece m lo hi s'.p e r ∧
        evalQvalueLoop l s.q s.qSeen s.quotedName = (s'.q, r, s'.quotedName))
      (evalQvalueLoopAt fuel e s) := by
  refine wp_scan EvalVars.p (fun s' r => evalQvalueLoop l s.q s.qSeen s.quotedName =
    evalQvalueLoop r s'.q s'.qSeen s'.quotedName) ?_ h rfl hfuel
  intro s' r hr hloop
  rw [hloop]
  cases r with
  | nil =>
    rw [wp_if_peek_nil hr, wp_pure]
    exact ⟨[], hr, evalQvalueLoop_done (by simp) _ _ _⟩
  | cons c t =>
    obtain ⟨-, ht⟩ := hr.of_cons
    by_cases hc : c = SEMICOLON
    · rw [wp_if_peek_pos hr (by simpa using hc), wp_bind, wp_move, wp_bind, hc,
        evalQvalueLoop_semicolon]
      refine ⟨ht.move_within, (wp_paramAt ht hfuel s'.q s'.qSeen s'.quotedName).mono ?_⟩
      intro turn hturn
      -- the turn on the text does not go back
      have hshort := (param_suffix t s'.q s'.qSeen s'.quotedName).length_le
      generalize param t s'.q s'.qSeen s'.quotedName = turn' at hturn hshort
      cases hturn with
      | malformed hp => exact wp_pure.mpr ⟨_, hp, rfl⟩
      | next hp => exact wp_pure.mpr ⟨_, hp, rfl, Nat.lt_succ_of_le hshort⟩
    · rw [wp_if_peek_neg hr (by simpa using hc), wp_pure]
      exact ⟨_, hr, evalQvalueLoop_done (mt head?_cons_eq.mp hc) _ _ _⟩

theorem wp_evalQvalueAt {pp : ℕ} (h : Piece m lo hi pp ae.last l) (hfuel : hi - lo < fuel) :
    Wp m (Touch.Within lo hi) (AtRest m lo hi ae.last · (evalQvalue l))
      (evalQvalueAt fuel ae pp) := by
  rw [evalQvalueAt, wp_bind]
  apply (wp_evalQvalueLoopAt (s := ⟨pp, 1000, false, false⟩) h hfuel).mono
  rintro s ⟨r, hr, hloop⟩
  rw [wp_pure, evalQvalue, hloop]
  refine ⟨rfl, ?_⟩
  dsimp only
  split
  · exact h
  · exact hr

end

/-- What one turn of the walker finds, and the cursor it leaves. -/
structure ElementAt where
  isCoding : Bool
  isStar : Bool
  q : Int
  p : ℕ
  deriving DecidableEq, Repr

/-- `name_end - tok == 1 && tok[0] == '*'` -/
def isStarAt (tok nameEnd : ℕ) : Scan UInt8 Bool :=
  if nameEnd - tok = 1 then (· == STAR) <$> read tok else return false

/-- `q = 1000; if (p < end && *p == ';') { q = ngx_http_brotli_eval_qvalue(ae, &p); }` -/
def paramsAt (fuel : ℕ) (ae : NgxStr) (p : ℕ) : Scan UInt8 (Int × ℕ) := do
  if ← peek ae.last (· == SEMICOLON) p then evalQvalueAt fuel ae p else return (1000, p)

/-- One turn of the walker, from the first byte of an element. -/
def elementAt (fuel : ℕ) (ae : NgxStr) (coding : Bytes) (tok : ℕ) : Scan UInt8 ElementAt := do
  let e := ae.last
  let nameEnd ← skipWhile fuel e isNameByte tok
  let isCoding ← matchesNameAt tok nameEnd coding
  let isStar ← isStarAt tok nameEnd
  let p ← skipWhile fuel e isOws nameEnd
  let junk ← peek e (fun c => c != SEMICOLON && c != COMMA) p
  let qp ← paramsAt fuel ae p
  let p ← skipToAt (· == COMMA) fuel e qp.2
  return ⟨isCoding && !junk, isStar && !junk, qp.1, p⟩

/-- The variables of `ngx_http_brotli_coding_weight_ex` that its loop changes. -/
structure WalkVars where
  p : ℕ
  codingQ : Int
  starQ : Int
  deriving DecidableEq, Repr

def WalkVars.weigh (s : WalkVars) (el : ElementAt) : WalkVars :=
  if el.q ≥ 0 then
    if el.isCoding then { s with p := el.p, codingQ := el.q }
    else if el.isStar then { s with p := el.p, starQ := el.q }
    else { s with p := el.p }
  else { s with p := el.p }

/-- The walker's loop: `coding_q` and `star_q` at its end. -/
def codingWeightLoopAt (fuel : ℕ) (ae : NgxStr) (coding : Bytes) :
    WalkVars → Scan UInt8 (Int × Int) :=
  loop (fun s => do
    if s.p < ae.last then
      let p ← skipWhile fuel ae.last (fun c => isOws c || c == COMMA) s.p
      if p < ae.last then
        let el ← elementAt fuel ae coding p
        return .inl (s.weigh el)
      else return .inr (s.codingQ, s.starQ)
    else return .inr (s.codingQ, s.starQ)) fuel

/-- `ngx_http_brotli_coding_weight_ex` -/
def codingWeightExAt (fuel : ℕ) (ae : NgxStr) (coding : Bytes) (allowWildcard : Bool) :
    Scan UInt8 Weights := do
  let w ← codingWeightLoopAt fuel ae coding ⟨ae.data, -1, -1⟩
  return ⟨fieldWeight w.1 w.2 allowWildcard, w.1, w.2⟩

section

variable {m : ℕ → UInt8} {lo hi p q fuel : ℕ} {ae : NgxStr} {coding l name : Bytes}

theorem wp_isStarAt (h : Piece m lo hi p q name) :
    Wp m (Touch.Within lo hi) (· = (name == [STAR])) (isStarAt p q) := by
  apply (wp_if_single h).mono
  rintro _ rfl
  rcases name with - | ⟨c, - | ⟨d, t⟩⟩ <;> simp

theorem wp_paramsAt (h : Piece m lo hi p ae.last l) (hfuel : hi - lo < fuel) :
    Wp m (Touch.Within lo hi) (AtRest m lo hi ae.last ·
        (if l.head? = some SEMICOLON then evalQvalue l else (1000, l)))
      (paramsAt fuel ae p) := by
  rw [paramsAt]
  cases l with
  | nil =>
    rw [wp_if_peek_nil h, wp_pure]
    exact ⟨rfl, h⟩
  | cons c t =>
    by_cases hc : c = SEMICOLON
    · rw [wp_if_peek_pos h (by simpa using hc), if_pos (head?_cons_eq.mpr hc)]
      exact wp_evalQvalueAt h hfuel
    · rw [wp_if_peek_neg h (by simpa using hc), if_neg (mt head?_cons_eq.mp hc), wp_pure]
      exact ⟨rfl, h⟩

structure ElementAt.Reads (m : ℕ → UInt8) (lo hi e : ℕ) (r : ElementAt) (el : Element) : Prop where
  isCoding : r.isCoding = el.isCoding
  isStar : r.isStar = el.isStar
  q : r.q = el.q
  rest : Piece m lo hi r.p e el.rest

theorem wp_elementAt (h : Piece m lo hi p ae.last l) (hfuel : hi - lo < fuel) (coding : Bytes) :
    Wp m (Touch.Within lo hi) (ElementAt.Reads m lo hi ae.last · (element coding l))
      (elementAt fuel ae coding p) := by
  rw [elementAt, wp_bind]
  apply (wp_skipWhile h hfuel).mono
  rintro nameEnd ⟨hname, hend⟩
  rw [wp_bind]
  apply (wp_matchesNameAt hname coding).mono
  rintro _ rfl
  rw [wp_bind]
  apply (wp_isStarAt hname).mono
  rintro _ rfl
  rw [wp_bind]
  apply (wp_skipWhile hend hfuel).mono
  rintro p₂ ⟨-, h₂⟩
  rw [wp_bind, wp_peek h₂, wp_bind]
  apply (wp_paramsAt h₂ hfuel).mono
  rintro qp hqp
  rw [wp_bind]
  apply (wp_skipToAt hqp.2 hfuel).mono
  intro q hq
  rw [wp_pure, any_head?_eq notDelimiter_eq, Bool.not_not]
  exact ⟨rfl, rfl, hqp.1, hq⟩

theorem codingWeightLoop_done {l : Bytes} (h : skipEmpty l = []) (codingQ starQ : Int) :
    codingWeightLoop coding l codingQ starQ = (codingQ, starQ) := by
  rw [codingWeightLoop]
  split
  · rfl
  case h_2 heq => cases h.symm.trans heq

theorem codingWeightLoop_step {l t : Bytes} {c : UInt8} (h : skipEmpty l = c :: t) {el : ElementAt}
    {e : ℕ} (hel : el.Reads m lo hi e (element coding (c :: t))) (s : WalkVars) :
    codingWeightLoop coding l s.codingQ s.starQ =
      codingWeightLoop coding (element coding (c :: t)).rest (s.weigh el).codingQ
        (s.weigh el).starQ := by
  rw [codingWeightLoop]
  split
  case h_1 heq => cases h.symm.trans heq
  case h_2 heq =>
    obtain ⟨rfl, rfl⟩ := List.cons.inj (h.symm.trans heq)
    dsimp only
    rw [WalkVars.weigh, ← hel.q, ← hel.isCoding, ← hel.isStar]
    split_ifs <;> rfl

theorem WalkVars.weigh_p (s : WalkVars) (el : ElementAt) : (s.weigh el).p = el.p := by
  rw [WalkVars.weigh]
  split_ifs <;> rfl

theorem wp_codingWeightLoopAt {s : WalkVars} (h : Piece m lo hi s.p ae.last l)
    (hfuel : hi - lo < fuel) (coding : Bytes) :
    Wp m (Touch.Within lo hi) (· = codingWeightLoop coding l s.codingQ s.starQ)
      (codingWeightLoopAt fuel ae coding s) := by
  refine wp_scan WalkVars.p (fun s' r => codingWeightLoop coding l s.codingQ s.starQ =
    codingWeightLoop coding r s'.codingQ s'.starQ) ?_ h rfl hfuel
  intro s' r hr hloop
  rw [hloop]
  obtain ⟨heq, rfl⟩ | ⟨t, rfl, hlt, -⟩ := hr.cases
  · rw [if_neg (by omega), wp_pure]
    exact (codingWeightLoop_done rfl _ _).symm
  rw [if_pos hlt, wp_bind]
  apply (wp_skipWhile hr hfuel).mono
  rintro tok ⟨-, htok⟩
  obtain ⟨heq, hnil⟩ | ⟨t', hcons, hlt', ht'⟩ := htok.cases
  · rw [if_neg (by omega), wp_pure]
    exact (codingWeightLoop_done hnil _ _).symm
  rw [if_pos hlt', wp_bind]
  rw [hcons] at htok
  apply (wp_elementAt htok hfuel coding).mono
  intro el hel
  rw [wp_pure]
  -- the walker moves on, by the empty elements it skips and by the element itself
  have hmoves := (element_rest_suffix coding (skipEmpty_cons hcons).1 t').length_le
  have hskip : (skipEmpty (m s'.p :: t)).length ≤ (m s'.p :: t).length :=
    (List.dropWhile_suffix _).length_le
  have hshort : t'.length + 1 = (skipEmpty (m s'.p :: t)).length := by
    rw [skipEmpty, hcons, List.length_cons]
  refine ⟨_, (s'.weigh_p el).symm ▸ hel.rest, codingWeightLoop_step hcons hel s', by omega⟩

theorem wp_codingWeightExAt (h : Piece m lo hi ae.data ae.last l) (hfuel : hi - lo < fuel)
    (coding : Bytes) (allowWildcard : Bool) :
    Wp m (Touch.Within lo hi) (· = codingWeightEx l coding allowWildcard)
      (codingWeightExAt fuel ae coding allowWildcard) := by
  rw [codingWeightExAt, wp_bind]
  apply (wp_codingWeightLoopAt (s := ⟨ae.data, -1, -1⟩) h hfuel coding).mono
  rintro _ rfl
  exact wp_pure.mpr rfl

example : (codingWeightExAt 15 ⟨0, 14⟩ (ascii "br") true
    fun p => (ascii "*;q=1,br;q=0.5").getD p 0).val = some ⟨500, 500, 1000⟩ := by decide +kernel

end

end NgxBrotli
