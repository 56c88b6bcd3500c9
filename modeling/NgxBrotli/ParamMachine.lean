import NgxBrotli.AcceptEncoding

namespace NgxBrotli

/-- Where the parameter loop stands; `q` is the weight so far, `seen` is `q_seen`. -/
inductive Eval
  | head (q : Int) (seen : Bool)
  | start (q : Int) (seen : Bool)
  | name (q : Int) (seen isQ : Bool)
  | afterName (q : Int) (seen isQ : Bool)
  | value (q : Int) (seen : Bool)
  | quoted (q : Int) (seen : Bool)
  | escaped (q : Int) (seen : Bool)
  | valueQ
  | leading (q : Int)
  /-- past "0." and some digits; `scale` is that of the next one -/
  | digits (q scale : Int)
  /-- past "1." and zeros, of which `n` more may follow -/
  | zeros (n : ℕ)
  | after (q : Int)
  | done (q : Int)
  | malformed

namespace Eval

def endStep (q : Int) (seen : Bool) (c : UInt8) : Eval :=
  if c = SEMICOLON then .start q seen else if c = COMMA then .done q else .malformed

def stopStep (q : Int) (c : UInt8) : Eval := if isOws c then .after q else endStep q true c

def afterNameStep (q : Int) (seen isQ : Bool) (c : UInt8) : Eval :=
  if isOws c then .afterName q seen isQ
  else if c = EQUALS then
    if isQ then if seen then .malformed else .valueQ else .value q seen
  else if isQ then .malformed
  else endStep q seen c

def step : Eval → UInt8 → Eval
  | head q seen, c => if c = SEMICOLON then .start q seen else .done q
  | start q seen, c =>
    if isOws c then .start q seen
    else if isParamNameByte c then .name q seen (c == 0x71 || c == 0x51)
    else .malformed
  | name q seen isQ, c =>
    if isParamNameByte c then .name q seen false else afterNameStep q seen isQ c
  | afterName q seen isQ, c => afterNameStep q seen isQ c
  | value q seen, c =>
    if c = SEMICOLON then .start q seen
    else if c = COMMA then .done q
    else if c = DQUOTE then .quoted q seen
    else .value q seen
  | quoted q seen, c =>
    if c = DQUOTE then .value q seen
    else if c = BACKSLASH then .escaped q seen
    else .quoted q seen
  | escaped q seen, _ => .quoted q seen
  | valueQ, c =>
    if isOws c then .valueQ
    else if c = 0x30 then .leading 0
    else if c = 0x31 then .leading 1000
    else .malformed
  | leading q, c =>
    if c = DOT then if q = 0 then .digits 0 100 else .zeros 3 else stopStep q c
  | digits q scale, c =>
    if isDigit c ∧ scale > 0 then .digits (q + ((c.toNat : Int) - 0x30) * scale) (scale / 10)
    else stopStep q c
  | zeros n, c => if c = 0x30 ∧ n > 0 then .zeros (n - 1) else stopStep 1000 c
  | after q, c => if isOws c then .after q else endStep q true c
  | done q, _ => .done q
  | malformed, _ => .malformed

def weight : Eval → Int
  | head q _ => q
  | start _ _ => -1
  | name q _ isQ => if isQ then -1 else q
  | afterName q _ isQ => if isQ then -1 else q
  | value q _ => q
  | quoted q _ => q
  | escaped q _ => q
  | valueQ => -1
  | leading q => q
  | digits q _ => q
  | zeros _ => 1000
  | after q => q
  | done q => q
  | malformed => -1

def run (s : Eval) (p : Bytes) : Eval := p.foldl step s

@[simp] theorem run_nil (s : Eval) : s.run [] = s := rfl

@[simp] theorem run_cons (s : Eval) (c : UInt8) (p : Bytes) :
    s.run (c :: p) = (s.step c).run p := rfl

theorem run_append (s : Eval) (a b : Bytes) : s.run (a ++ b) = (s.run a).run b := List.foldl_append

theorem run_stay {s : Eval} {f : UInt8 → Bool} (h : ∀ c, f c = true → s.step c = s) {p : Bytes}
    (hp : ∀ c ∈ p, f c = true) : s.run p = s := by
  induction p with
  | nil => rfl
  | cons c p ih =>
    rw [run_cons, h c (hp c List.mem_cons_self)]
    exact ih fun d hd => hp d (List.mem_cons_of_mem c hd)

theorem run_dropWhile {s : Eval} {f : UInt8 → Bool} (h : ∀ c, f c = true → s.step c = s)
    (p : Bytes) : s.run (p.dropWhile f) = s.run p := by
  conv_rhs => rw [← List.takeWhile_append_dropWhile (p := f) (l := p), run_append]
  rw [run_stay h fun c hc => List.mem_takeWhile_imp hc]

@[simp] theorem run_done (q : Int) (p : Bytes) : (done q).run p = .done q :=
  run_stay (f := fun _ => true) (fun _ _ => rfl) fun _ _ => rfl

@[simp] theorem run_malformed (p : Bytes) : malformed.run p = .malformed :=
  run_stay (f := fun _ => true) (fun _ _ => rfl) fun _ _ => rfl

theorem weight_run_quoted (q : Int) (seen : Bool) (p : Bytes) :
    ((quoted q seen).run p).weight = ((value q seen).run (skipQuotedLoop p)).weight := by
  fun_induction skipQuotedLoop p with
  | case1 => rfl
  | case2 p => rw [run_cons, step, if_pos rfl]
  | case3 => rfl
  | case4 c p _ ih => exact ih
  | case5 c p hq hb ih =>
    rw [run_cons, step, if_neg hq, if_neg hb]
    exact ih

theorem weight_run_value (q : Int) (seen : Bool) (p : Bytes) :
    ((value q seen).run p).weight = ((head q seen).run (skipValue p)).weight := by
  unfold skipValue
  fun_induction skipTo (fun c => c == SEMICOLON || c == COMMA) p with
  | case1 => rfl
  | case2 c p h =>
    rcases Bool.or_eq_true_iff.mp h with h | h
    · obtain rfl : c = SEMICOLON := by simpa using h
      rfl
    · obtain rfl : c = COMMA := by simpa using h
      rfl
  | case3 p h ih =>
    rw [run_cons, ← ih]
    exact weight_run_quoted q seen p
  | case4 c p h hq ih =>
    have hs : c ≠ SEMICOLON := fun e => h (by simp [e])
    have hc : c ≠ COMMA := fun e => h (by simp [e])
    rw [run_cons, step, if_neg hs, if_neg hc, if_neg hq]
    exact ih

theorem weight_run_stop {s : Eval} {q : Int} {p : Bytes} (hw : s.weight = q)
    (hs : ∀ c ∈ p.head?, s.step c = stopStep q c) :
    (s.run p).weight = ((after q).run p).weight := by
  cases p with
  | nil => exact hw
  | cons c p => rw [run_cons, run_cons, hs c rfl]; rfl

theorem takeDigit_stop {p : Bytes} (hp : ∀ c ∈ p.head?, isDigit c = false) (scale q : Int) :
    takeDigit scale (q, p) = (q, p) := by
  cases p with
  | nil => rfl
  | cons c p => simp [takeDigit, hp c rfl]

theorem run_takeDigit (q : Int) {scale : Int} (hs : scale > 0) (p : Bytes) :
    (digits q scale).run p = (digits (takeDigit scale (q, p)).1 (scale / 10)).run
        (takeDigit scale (q, p)).2 ∨
      ∀ c ∈ p.head?, isDigit c = false := by
  cases p with
  | nil => exact .inr (by simp)
  | cons c p =>
    by_cases hc : isDigit c = true
    · simp [takeDigit, step, hc, hs]
    · refine .inr fun d hd => ?_
      obtain rfl : c = d := Option.some.inj hd
      simpa using hc

theorem run_digits (q : Int) (p : Bytes) :
    ∃ scale, (digits q 100).run p =
        (digits (takeDigit 1 (takeDigit 10 (takeDigit 100 (q, p)))).1 scale).run
          (takeDigit 1 (takeDigit 10 (takeDigit 100 (q, p)))).2 ∧
      ∀ c ∈ (takeDigit 1 (takeDigit 10 (takeDigit 100 (q, p)))).2.head?,
        isDigit c = true → scale = 0 := by
  have hstop {p : Bytes} {scale : Int} (hp : ∀ c ∈ p.head?, isDigit c = false) :
      ∀ c ∈ p.head?, isDigit c = true → scale = 0 :=
    fun c hc hd => absurd hd (by simp [hp c hc])
  rcases run_takeDigit q (show (100 : Int) > 0 by decide) p with h₁ | h₁
  case inr =>
    rw [takeDigit_stop h₁, takeDigit_stop h₁, takeDigit_stop h₁]
    exact ⟨100, rfl, hstop h₁⟩
  generalize takeDigit 100 (q, p) = r₁ at h₁ ⊢
  obtain ⟨q₁, p₁⟩ := r₁
  rw [h₁]
  rcases run_takeDigit q₁ (show (10 : Int) > 0 by decide) p₁ with h₂ | h₂
  case inr =>
    rw [takeDigit_stop h₂, takeDigit_stop h₂]
    exact ⟨10, rfl, hstop h₂⟩
  generalize takeDigit 10 (q₁, p₁) = r₂ at h₂ ⊢
  obtain ⟨q₂, p₂⟩ := r₂
  rw [show (100 : Int) / 10 = 10 from rfl, h₂]
  rcases run_takeDigit q₂ (show (1 : Int) > 0 by decide) p₂ with h₃ | h₃
  case inr =>
    rw [takeDigit_stop h₃]
    exact ⟨1, rfl, hstop h₃⟩
  exact ⟨0, h₃, fun _ _ _ => rfl⟩

theorem run_zeros (n : ℕ) (p : Bytes) :
    ∃ m, (zeros n).run p = (zeros m).run (skipZeros n p) ∧
      ∀ c ∈ (skipZeros n p).head?, c = 0x30 → m = 0 := by
  fun_induction skipZeros n p with
  | case1 n p ih =>
    obtain ⟨m, hm, hstop⟩ := ih
    exact ⟨m, by rw [run_cons, step, if_pos ⟨rfl, Nat.succ_pos n⟩]; exact hm, hstop⟩
  | case2 n c p hc => exact ⟨n + 1, rfl, fun d hd he => absurd ((Option.some.inj hd).trans he) hc⟩
  | case3 n p h =>
    refine ⟨n, rfl, fun d hd he => ?_⟩
    obtain ⟨t, rfl⟩ := List.head?_eq_some_iff.mp hd
    cases n with
    | zero => rfl
    | succ n => exact absurd rfl (h n d t rfl)

theorem weight_run_valueQ {p : Bytes} (ho : ∀ c ∈ p.head?, isOws c = false) :
    (valueQ.run p).weight =
      match qvalue p with
      | (none, _) => -1
      | (some q, r) => ((after q).run r).weight := by
  match p with
  | [] => rfl
  | [c] =>
    rw [run_cons, step, if_neg (by simp [ho c rfl]), qvalue]
    split
    · rfl
    · split <;> rfl
  | c :: d :: p =>
    rw [run_cons, step, if_neg (by simp [ho c rfl]), run_cons, qvalue]
    dsimp only
    by_cases h0 : c = 0x30
    · rw [if_pos h0, if_pos h0]
      by_cases hd : d = DOT
      · rw [step, if_pos hd, if_pos rfl, if_pos hd]
        obtain ⟨scale, hrun, hstop⟩ := run_digits 0 p
        rw [hrun]
        refine weight_run_stop rfl fun c hc => ?_
        rw [step, if_neg]
        rintro ⟨hdig, hscale⟩
        rw [hstop c hc hdig] at hscale
        exact absurd hscale (by decide)
      · rw [step, if_neg hd, if_neg hd]
        rfl
    · rw [if_neg h0, if_neg h0]
      by_cases h1 : c = 0x31
      · rw [if_pos h1, if_pos h1]
        by_cases hd : d = DOT
        · rw [step, if_pos hd, if_neg (by decide), if_pos hd]
          obtain ⟨m, hrun, hstop⟩ := run_zeros 3 p
          rw [hrun]
          refine weight_run_stop rfl fun c hc => ?_
          rw [step, if_neg]
          rintro ⟨he, hm⟩
          rw [hstop c hc he] at hm
          exact absurd hm (by decide)
        · rw [step, if_neg hd, if_neg hd]
          rfl
      · rw [if_neg h1, if_neg h1]
        exact congrArg weight (run_malformed p)

def ofParam : Param → Int
  | .malformed _ _ => -1
  | .next p q seen _ => ((head q seen).run p).weight

theorem weight_run_endStep (q : Int) (seen : Bool) (c : UInt8) (p : Bytes) (n : Bool) :
    ((endStep q seen c).run p).weight =
      ofParam (if atDelimiter (fun c => c == SEMICOLON || c == COMMA) (c :: p) then
        .next (c :: p) q seen n else .malformed (c :: p) n) := by
  unfold endStep
  by_cases hs : c = SEMICOLON
  · subst hs; rfl
  · by_cases hc : c = COMMA
    · subst hc
      rw [if_neg hs, if_pos rfl, run_done]
      exact congrArg weight (run_done q p).symm
    · simp [hs, hc, atDelimiter, ofParam, weight]

theorem weight_run_end {s : Eval} {q : Int} {seen : Bool} (hw : s.weight = q)
    (ho : ∀ c, isOws c = true → s.step c = s) {p : Bytes}
    (he : ∀ c ∈ (p.dropWhile isOws).head?, s.step c = endStep q seen c) (n : Bool) :
    (s.run p).weight = ofParam (paramEnd p q seen n) := by
  rw [← run_dropWhile ho, paramEnd]
  cases h : p.dropWhile isOws with
  | nil => exact hw
  | cons c t =>
    rw [run_cons, he c (by simp [h])]
    exact weight_run_endStep q seen c t n

theorem isOws_head_dropWhile {p : Bytes} {c : UInt8} (h : c ∈ (p.dropWhile isOws).head?) :
    isOws c = false := by
  obtain ⟨t, ht⟩ := List.head?_eq_some_iff.mp h
  have := List.head_dropWhile_not isOws (l := p) (by simp [ht])
  simpa [ht] using this

theorem weight_run_after (q : Int) (p : Bytes) (n : Bool) :
    ((after q).run p).weight = ofParam (paramEnd p q true n) := by
  refine weight_run_end rfl (fun c hc => ?_) (fun c hc => ?_) n
  · rw [step, if_pos hc]
  · rw [step, if_neg (by simp [isOws_head_dropWhile hc])]
    rfl

theorem paramEnd_of_not_delimiter {p : Bytes}
    (h : atDelimiter (fun c => isOws c || c == SEMICOLON || c == COMMA) p = false) (q : Int)
    (seen n : Bool) : ofParam (paramEnd p q seen n) = -1 := by
  cases p with
  | nil => exact absurd h (by simp [atDelimiter])
  | cons c p =>
    simp only [atDelimiter, Bool.or_eq_false_iff] at h
    rw [paramEnd, List.dropWhile_cons_of_neg (by simp [h.1.1])]
    simp [atDelimiter, h.1.2, h.2, ofParam]

theorem weight_run_skipValue (q : Int) (seen : Bool) (p : Bytes) (n : Bool) :
    ((value q seen).run p).weight = ofParam (paramEnd (skipValue p) q seen n) := by
  rw [weight_run_value]
  rcases skipTo_eq_nil_or_stop (fun c => c == SEMICOLON || c == COMMA) p with h | ⟨c, t, h, hc⟩
  · rw [skipValue, h]
    rfl
  · rw [skipValue, h]
    rcases Bool.or_eq_true_iff.mp hc with hc | hc
    · obtain rfl : c = SEMICOLON := by simpa using hc
      rfl
    · obtain rfl : c = COMMA := by simpa using hc
      rfl

theorem run_name (q : Int) (seen : Bool) {s : Bytes} (ho : ∀ c ∈ s.head?, isOws c = false)
    (hn : s.takeWhile isParamNameByte ≠ []) :
    (start q seen).run s =
      (name q seen (s.takeWhile isParamNameByte == ascii "q" ||
        s.takeWhile isParamNameByte == ascii "Q")).run (s.dropWhile isParamNameByte) := by
  obtain ⟨c, t, rfl⟩ : ∃ c t, s = c :: t := List.exists_cons_of_ne_nil fun e => hn (by rw [e]; rfl)
  have hc : isParamNameByte c = true := by
    by_contra h
    exact hn (List.takeWhile_cons_of_neg h)
  have hstay (q : Int) (seen : Bool) (c : UInt8) (h : isParamNameByte c = true) :
      (name q seen false).step c = name q seen false := by rw [step, if_pos h]
  rw [run_cons, step, if_neg (by simp [ho c rfl]), if_pos hc, List.takeWhile_cons_of_pos hc,
    List.dropWhile_cons_of_pos hc]
  cases t with
  | nil => simp [ascii]
  | cons d t =>
    by_cases hd : isParamNameByte d = true
    · rw [run_cons, step, if_pos hd, List.takeWhile_cons_of_pos hd, List.dropWhile_cons_of_pos hd,
        ← run_dropWhile (hstay q seen)]
      simp [ascii]
    · rw [List.takeWhile_cons_of_neg hd, List.dropWhile_cons_of_neg hd]
      simp [ascii]

theorem weight_run_name (q : Int) (seen isQ : Bool) {p : Bytes}
    (hp : ∀ c ∈ p.head?, isParamNameByte c = false) :
    ((name q seen isQ).run p).weight =
      ((afterName q seen isQ).run (p.dropWhile isOws)).weight := by
  have hows (c : UInt8) (hc : isOws c = true) :
      (afterName q seen isQ).step c = afterName q seen isQ := by
    rw [step, afterNameStep, if_pos hc]
  rw [run_dropWhile hows]
  cases p with
  | nil => rfl
  | cons c p => rw [run_cons, run_cons, step, if_neg (by simp [hp c rfl]), step]

theorem weight_run_qParam (t : Bytes) (n : Bool) :
    (valueQ.run t).weight = ofParam (match qvalue (t.dropWhile isOws) with
      | (none, r) => .malformed r n
      | (some w, r) =>
        if atDelimiter (fun c => isOws c || c == SEMICOLON || c == COMMA) r then
          paramEnd r w true n
        else .malformed r n) := by
  have hstay (c : UInt8) (hc : isOws c = true) : valueQ.step c = valueQ := by
    rw [step, if_pos hc]
  rw [← run_dropWhile hstay, weight_run_valueQ fun c hc => isOws_head_dropWhile hc]
  obtain ⟨o, r⟩ := qvalue (t.dropWhile isOws)
  cases o with
  | none => rfl
  | some w =>
    dsimp only
    rw [weight_run_after w r n]
    cases hd : atDelimiter (fun c => isOws c || c == SEMICOLON || c == COMMA) r with
    | true => rw [if_pos rfl]
    | false => rw [if_neg Bool.false_ne_true, paramEnd_of_not_delimiter hd]; rfl

theorem weight_run_otherParam (q : Int) (seen : Bool) (t : Bytes) (n : Bool) :
    ((value q seen).run t).weight =
      ofParam (paramEnd (skipValue (t.dropWhile isOws)) q seen n) := by
  have hstay (c : UInt8) (hc : isOws c = true) : (value q seen).step c = value q seen := by
    have hne : c ≠ SEMICOLON ∧ c ≠ COMMA ∧ c ≠ DQUOTE := by
      refine ⟨?_, ?_, ?_⟩ <;> (rintro rfl; exact absurd hc (by decide))
    rw [step, if_neg hne.1, if_neg hne.2.1, if_neg hne.2.2]
  rw [← weight_run_skipValue, run_dropWhile hstay]

theorem weight_run_noValue (q : Int) (seen isQ : Bool) {p : Bytes} (hp : p.dropWhile isOws = p)
    (he : p.head? ≠ some EQUALS) (n : Bool) :
    ((afterName q seen isQ).run p).weight =
      ofParam (if isQ then .malformed p n else paramEnd p q seen n) := by
  have ho (c : UInt8) (hc : c ∈ p.head?) : isOws c = false := isOws_head_dropWhile (hp.symm ▸ hc)
  cases isQ with
  | true =>
    rw [if_pos rfl]
    cases p with
    | nil => rfl
    | cons c t =>
      have hc : c ≠ EQUALS := fun e => he (by rw [e]; rfl)
      rw [run_cons, step, afterNameStep, if_neg (by simp [ho c rfl]), if_neg hc, if_pos rfl,
        run_malformed]
      rfl
  | false =>
    rw [if_neg Bool.false_ne_true]
    have hstay (c : UInt8) (hc : isOws c = true) :
        (afterName q seen false).step c = afterName q seen false := by
      rw [step, afterNameStep, if_pos hc]
    refine weight_run_end rfl hstay (fun c hc => ?_) n
    rw [hp] at hc
    have hne : c ≠ EQUALS := fun e => he (e ▸ hc)
    rw [step, afterNameStep, if_neg (by simp [ho c hc]), if_neg hne, if_neg Bool.false_ne_true]
    rfl

theorem weight_run_start (q : Int) (seen n : Bool) (p : Bytes) :
    ((start q seen).run p).weight = ofParam (param p q seen n) := by
  have hows (c : UInt8) (hc : isOws c = true) : (start q seen).step c = start q seen := by
    rw [step, if_pos hc]
  rw [← run_dropWhile hows]
  have ho : ∀ c ∈ (p.dropWhile isOws).head?, isOws c = false := fun c hc => isOws_head_dropWhile hc
  have hrest : ∀ c ∈ ((p.dropWhile isOws).dropWhile isParamNameByte).head?,
      isParamNameByte c = false := by
    intro c hc
    obtain ⟨t, ht⟩ := List.head?_eq_some_iff.mp hc
    have := List.head_dropWhile_not isParamNameByte (l := p.dropWhile isOws) (by simp [ht])
    simpa [ht] using this
  simp only [param]
  by_cases hname : (p.dropWhile isOws).takeWhile isParamNameByte = []
  · rw [if_pos hname]
    cases hs : p.dropWhile isOws with
    | nil => rfl
    | cons c t =>
      rw [hs] at hname ho
      have hc : ¬isParamNameByte c = true := fun h => by
        rw [List.takeWhile_cons_of_pos h] at hname
        cases hname
      rw [run_cons, step, if_neg (by simp [ho c rfl]), if_neg hc, run_malformed]
      rfl
  rw [if_neg hname, run_name q seen ho hname, weight_run_name _ _ _ hrest]
  have hself := dropWhile_dropWhile_self isOws ((p.dropWhile isOws).dropWhile isParamNameByte)
  -- only the rest, whether the name is "q", and the diagnostic flag matter from here on
  generalize ((p.dropWhile isOws).dropWhile isParamNameByte).dropWhile isOws = p₂ at hself ⊢
  generalize ((p.dropWhile isOws).takeWhile isParamNameByte == ascii "q" ||
    (p.dropWhile isOws).takeWhile isParamNameByte == ascii "Q") = isQ
  generalize (n || ((p.dropWhile isOws).takeWhile isParamNameByte).contains DQUOTE) = n'
  by_cases he : p₂.head? = some EQUALS
  · obtain ⟨t, rfl⟩ := List.head?_eq_some_iff.mp he
    rw [if_pos he, run_cons, step, afterNameStep, if_neg (by decide), if_pos rfl, List.tail_cons]
    cases isQ with
    | true =>
      rw [if_pos rfl, if_pos rfl]
      cases seen with
      | true => rw [if_pos rfl, if_pos rfl, run_malformed]; rfl
      | false => exact weight_run_qParam t n'
    | false => exact weight_run_otherParam q seen t n'
  · rw [if_neg he]
    exact weight_run_noValue q seen isQ hself he n'

/-- The weight `ngx_http_brotli_eval_qvalue` returns is that of the state it ends in. -/
theorem weight_run_head (q : Int) (seen n : Bool) (p : Bytes) :
    ((head q seen).run p).weight = (evalQvalueLoop p q seen n).1 := by
  fun_induction evalQvalueLoop p q seen n with
  | case1 => rfl
  | case2 q seen n p p' n' h =>
    rw [run_cons, step, if_pos rfl, weight_run_start q seen n p, h]
    rfl
  | case3 q seen n p p' q' seen' n' h ih =>
    rw [run_cons, step, if_pos rfl, weight_run_start q seen n p, h]
    exact ih
  | case4 q seen n c p hc =>
    rw [run_cons, step, if_neg hc, run_done]
    rfl

end Eval

end NgxBrotli
