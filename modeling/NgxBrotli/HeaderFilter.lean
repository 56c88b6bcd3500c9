import NgxBrotli.Negotiate
import NgxBrotli.Vary

/-!
# The header filter

`ngx_http_brotli_no_transform` and `ngx_http_brotli_header_filter`.  Functions of the core that the
filter calls are the fields of `Core`, and each allocation it makes may fail.
-/

namespace NgxBrotli

mutual

/-- The scan for `seg_end`, which does not go through `ngx_http_brotli_skip_quoted`. -/
def scanSegment : Bytes → Bytes
  | [] => []
  | c :: p =>
    if c = COMMA then c :: p
    else if c = DQUOTE then scanSegmentQuoted p
    else scanSegment p

/-- Its inner loop, from past the opening DQUOTE, and the step over the closing one. -/
def scanSegmentQuoted : Bytes → Bytes
  | [] => []
  | c :: p =>
    if c = DQUOTE then scanSegment p
    else if c = BACKSLASH then
      match p with
      | [] => []  -- `seg_end + 1 < last` fails
      | _ :: p => scanSegmentQuoted p
    else scanSegmentQuoted p

end

theorem scanSegment_suffix (p : Bytes) : scanSegment p <:+ p ∧ scanSegmentQuoted p <:+ p := by
  induction hn : p.length using Nat.strong_induction_on generalizing p with
  | _ n ih =>
    cases p with
    | nil => exact ⟨List.suffix_refl _, List.suffix_refl _⟩
    | cons c p =>
      rw [List.length_cons] at hn
      obtain ⟨hout, hin⟩ := ih p.length (by omega) p rfl
      have hp : p <:+ c :: p := List.suffix_cons c p
      constructor
      · rw [scanSegment]
        split_ifs
        · exact List.suffix_refl _
        · exact hin.trans hp
        · exact hout.trans hp
      · rw [scanSegmentQuoted.eq_def]
        dsimp only
        split_ifs
        · exact hout.trans hp
        · cases p with
          | nil => exact List.nil_suffix
          | cons d p =>
            rw [List.length_cons] at hn
            have hd : p <:+ d :: p := List.suffix_cons d p
            exact ((ih p.length (by omega) p rfl).2.trans hd).trans hp
        · exact hin.trans hp

theorem take_of_append {a b l : Bytes} (h : a ++ b = l) : l.take (l.length - b.length) = a := by
  rw [← h, List.length_append, Nat.add_sub_cancel, List.take_left]

/-- `ngx_http_brotli_cc_value_no_transform` -/
def ccValueNoTransform : Bytes → Bool
  | [] => false
  | c :: p =>
    let start := (c :: p).dropWhile isOws
    let segEnd := scanSegment start
    let seg := start.take (start.length - segEnd.length)
    let name := trimEnd (seg.takeWhile fun c => c != SEMICOLON && c != EQUALS)
    if matchesName name (ascii "no-transform") then true else ccValueNoTransform segEnd.tail
termination_by p => p.length
decreasing_by
  have h₁ := (dropOws_suffix (c :: p)).length_le
  have h₂ := (scanSegment_suffix ((c :: p).dropWhile isOws)).1.length_le
  rw [List.length_cons] at h₁
  rw [List.length_tail, List.length_cons]
  omega

/-- `ngx_http_brotli_no_transform` -/
def noTransform (headers : HeaderList) : Bool :=
  (headers.find? fun h => h.hash != 0 && matchesName h.key (ascii "Cache-Control") &&
    !h.value.isEmpty && ccValueNoTransform h.value).isSome

example :
    noTransform (.ofList [⟨1, ascii "Cache-Control", ascii "x=\",no-transform,y\""⟩]) = false ∧
    noTransform (.ofList [⟨1, ascii "cache-control", ascii "x=\"a,b\", No-Transform ;y"⟩]) =
      true := by
  decide +kernel

/-- Functions of the core: `ngx_http_test_content_type`, the macros that clear Content-Length and
Accept-Ranges, and `ngx_http_weak_etag`. -/
structure Core where
  testContentType : Response → Bool
  clearContentLength : Response → Response
  clearAcceptRanges : Response → Response
  weakEtag : Response → Response

def Core.plain : Core where
  testContentType _ := true
  clearContentLength r := { r with contentLengthN := -1 }
  clearAcceptRanges r := { r with allowRanges := false, acceptRanges := none }
  weakEtag := id

/-- The allocations of the filter, in order. -/
inductive AllocSite
  | bypassVary
  | dcbVary
  | vary
  | ctx
  | contentEncoding
  deriving DecidableEq, Repr

/-- What the filter fixes in `ngx_http_brotli_ctx_t` for the body filter. -/
structure FilterCtx where
  contentLength : Int
  dcbDict : Option DcbDict
  deriving DecidableEq

/-- How the filter returns: with an error, or by handing the response on, with its context. -/
inductive HeaderOutcome
  | error
  | next (r : Response) (ctx : Option FilterCtx)
  deriving DecidableEq

abbrev NGX_HTTP_OK : ℕ := 200
abbrev NGX_HTTP_FORBIDDEN : ℕ := 403
abbrev NGX_HTTP_NOT_FOUND : ℕ := 404
abbrev NGX_HTTP_GONE : ℕ := 410

/-- The gates before the first Vary line. -/
def headerFilterSkips (core : Core) (conf : Conf) (r : Response) : Bool :=
  !conf.enable ||
  (r.status != NGX_HTTP_OK && r.status != NGX_HTTP_FORBIDDEN && r.status != NGX_HTTP_NOT_FOUND &&
    r.status != NGX_HTTP_GONE) ||
  r.headerOnly ||
  r.contentEncoding.any (!·.isEmpty) ||
  (r.contentLengthN != -1 && r.contentLengthN < conf.minLength) ||
  (conf.maxLength != NGX_CONF_UNSET && r.contentLengthN != -1 &&
    r.contentLengthN > conf.maxLength) ||
  !core.testContentType r ||
  noTransform r.headers

section

variable (core : Core) (build : Build) (decodeBase64 : Bytes → Option Bytes) (conf : Conf)
  (gzipVaryOn : Bool) (allocOk : AllocSite → Bool)

/-- The line that names the header a bypass predicate reads. -/
def pushBypassVary (r : Response) : Option Response :=
  if conf.bypassVary ≠ [] then r.push (allocOk .bypassVary) (ascii "Vary") conf.bypassVary
  else some r

def dcbVaryValue : Bytes := ascii "Accept-Encoding, Available-Dictionary, Sec-Fetch-Site"

/-- The Vary emission: one combined line where dictionaries are configured. -/
def emitVary (r : Response) : Option Response :=
  if conf.dcbDicts ≠ [] then r.push (allocOk .dcbVary) (ascii "Vary") dcbVaryValue
  else varyAcceptEncoding gzipVaryOn (allocOk .vary) r

/-- The commitment to `dcb` or `br`, with gzip latched off. -/
def commitEncoding (dcb : Option DcbDict) (r : Response) : HeaderOutcome :=
  if !allocOk .ctx then .error
  else
    let ctx : FilterCtx := { contentLength := r.contentLengthN, dcbDict := dcb }
    let coding := if dcb.isSome then ascii "dcb" else ascii "br"
    match r.push (allocOk .contentEncoding) (ascii "Content-Encoding") coding with
    | none => .error
    | some r =>
      let r := { r with contentEncoding := some coding, filterNeedInMemory := true }
      .next (core.weakEtag (core.clearAcceptRanges (core.clearContentLength r))) (some ctx)

/-- `ngx_http_brotli_ok`: the response with gzip latched off, or `none` for `NGX_DECLINED`. -/
def brotliOk (req : Request) (r : Response) : Option Response :=
  if accepts build req.isMain req.headersIn ≠ NGX_OK then none
  else some { r with gzipTested := true, gzipOk := false }

/-- `ngx_http_brotli_check_request` -/
def checkRequest (req : Request) (r : Response) : Option Response := brotliOk build req r

/-- What follows the Vary emission: dcb first, then br. -/
def negotiateEncoding (req : Request) (r : Response) : HeaderOutcome :=
  match dcbNegotiate build decodeBase64 conf req with
  | some d => commitEncoding core allocOk (some d) { r with gzipTested := true, gzipOk := false }
  | none =>
    match checkRequest build req r with
    | none => .next r none
    | some r => commitEncoding core allocOk none r

/-- `ngx_http_brotli_header_filter`; `bypassed` is `ngx_http_test_predicates() != NGX_OK`. -/
def headerFilter (bypassed : Bool) (req : Request) (r : Response) : HeaderOutcome :=
  if headerFilterSkips core conf r then .next r none
  else
    match pushBypassVary conf allocOk r with
    | none => .error
    | some r =>
      if conf.bypass && bypassed then .next r none
      else
        match emitVary conf gzipVaryOn allocOk r with
        | none => .error
        | some r => negotiateEncoding core build decodeBase64 conf allocOk req r

end

section

variable {core : Core} {build : Build} {decodeBase64 : Bytes → Option Bytes} {conf : Conf}
  {gzipVaryOn : Bool} {allocOk : AllocSite → Bool} {req : Request} {r r' : Response}
  {ctx : Option FilterCtx}

theorem commitEncoding_cases {dcb : Option DcbDict}
    (h : commitEncoding core allocOk dcb r = .next r' ctx) :
    let coding := if dcb.isSome then ascii "dcb" else ascii "br"
    ctx = some ⟨r.contentLengthN, dcb⟩ ∧
      ∃ p, r.push (allocOk .contentEncoding) (ascii "Content-Encoding") coding = some p ∧
        r' = core.weakEtag (core.clearAcceptRanges (core.clearContentLength
          { p with contentEncoding := some coding, filterNeedInMemory := true })) := by
  unfold commitEncoding at h
  split at h
  · cases h
  dsimp only at h
  split at h
  · cases h
  case h_2 p hp =>
    obtain ⟨rfl, rfl⟩ := HeaderOutcome.next.inj h
    exact ⟨rfl, p, hp, rfl⟩

/-- The ways through the negotiation. -/
theorem negotiateEncoding_cases
    (h : negotiateEncoding core build decodeBase64 conf allocOk req r = .next r' ctx) :
    let latched : Response := { r with gzipTested := true, gzipOk := false }
    (∃ d, dcbNegotiate build decodeBase64 conf req = some d ∧
      commitEncoding core allocOk (some d) latched = .next r' ctx) ∨
    dcbNegotiate build decodeBase64 conf req = none ∧
      (accepts build req.isMain req.headersIn = NGX_OK ∧
          commitEncoding core allocOk none latched = .next r' ctx ∨
        accepts build req.isMain req.headersIn ≠ NGX_OK ∧ r' = r ∧ ctx = none) := by
  unfold negotiateEncoding at h
  cases hd : dcbNegotiate build decodeBase64 conf req with
  | some d =>
    rw [hd] at h
    exact .inl ⟨d, rfl, h⟩
  | none =>
    rw [hd] at h
    dsimp only [checkRequest, brotliOk] at h
    by_cases ha : accepts build req.isMain req.headersIn = NGX_OK
    · rw [if_neg (not_not.mpr ha)] at h
      exact .inr ⟨rfl, .inl ⟨ha, h⟩⟩
    · rw [if_pos ha] at h
      obtain ⟨rfl, rfl⟩ := HeaderOutcome.next.inj h
      exact .inr ⟨rfl, .inr ⟨ha, rfl, rfl⟩⟩

/-- The ways through the filter. -/
theorem headerFilter_cases {bypassed : Bool}
    (h : headerFilter core build decodeBase64 conf gzipVaryOn allocOk bypassed req r =
      .next r' ctx) :
    headerFilterSkips core conf r = true ∧ r' = r ∧ ctx = none ∨
    headerFilterSkips core conf r = false ∧ ∃ r₁, pushBypassVary conf allocOk r = some r₁ ∧
      ((conf.bypass && bypassed) = true ∧ r' = r₁ ∧ ctx = none ∨
        (conf.bypass && bypassed) = false ∧
          ∃ r₂, emitVary conf gzipVaryOn allocOk r₁ = some r₂ ∧
            negotiateEncoding core build decodeBase64 conf allocOk req r₂ = .next r' ctx) := by
  unfold headerFilter at h
  cases hskip : headerFilterSkips core conf r with
  | true =>
    rw [hskip, if_pos rfl] at h
    obtain ⟨rfl, rfl⟩ := HeaderOutcome.next.inj h
    exact .inl ⟨rfl, rfl, rfl⟩
  | false =>
    rw [hskip, if_neg Bool.false_ne_true] at h
    refine .inr ⟨rfl, ?_⟩
    split at h
    · cases h
    case h_2 r₁ hbypass =>
      refine ⟨r₁, hbypass, ?_⟩
      cases hby : conf.bypass && bypassed with
      | true =>
        rw [hby, if_pos rfl] at h
        obtain ⟨rfl, rfl⟩ := HeaderOutcome.next.inj h
        exact .inl ⟨rfl, rfl, rfl⟩
      | false =>
        rw [hby, if_neg Bool.false_ne_true] at h
        split at h
        · cases h
        case h_2 r₂ hemit => exact .inr ⟨rfl, r₂, hemit, h⟩

theorem headerFilter_negotiated {bypassed : Bool} {c : FilterCtx}
    (h : headerFilter core build decodeBase64 conf gzipVaryOn allocOk bypassed req r =
      .next r' (some c)) :
    ∃ r₁ r₂, pushBypassVary conf allocOk r = some r₁ ∧
      emitVary conf gzipVaryOn allocOk r₁ = some r₂ ∧
      negotiateEncoding core build decodeBase64 conf allocOk req r₂ = .next r' (some c) := by
  obtain ⟨-, -, hctx⟩ | ⟨-, r₁, hbypass, ⟨-, -, hctx⟩ | ⟨-, r₂, hemit, h⟩⟩ := headerFilter_cases h
  · cases hctx
  · cases hctx
  · exact ⟨r₁, r₂, hbypass, hemit, h⟩

end

end NgxBrotli
