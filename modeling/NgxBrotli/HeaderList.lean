import NgxBrotli.AcceptEncoding
import NgxBrotli.PartList

namespace NgxBrotli

structure TableElt where
  hash : ℕ
  key : Bytes
  value : Bytes
  deriving DecidableEq, Repr

abbrev HeaderList := PartList TableElt

def TableElt.isLive (name : Bytes) (h : TableElt) : Bool := h.hash != 0 && matchesName h.key name

/-- The values of the live lines of this name, in order. -/
def HeaderList.lines (name : Bytes) (headers : HeaderList) : List Bytes :=
  (headers.toList.filter (·.isLive name)).map TableElt.value

theorem TableElt.isLive_iff {name : Bytes} (h0 : 0 ∉ name) (h : TableElt) :
    h.isLive name = true ↔ h.hash ≠ 0 ∧ EqNoCase h.key name := by
  rw [TableElt.isLive, Bool.and_eq_true, bne_iff_ne, matchesName_iff h0]

theorem HeaderList.mem_lines {name v : Bytes} {headers : HeaderList} :
    v ∈ headers.lines name ↔ ∃ h ∈ headers.toList, h.isLive name = true ∧ h.value = v := by
  simp only [HeaderList.lines, List.mem_map, List.mem_filter, and_assoc]

/-- Which of the two shapes `nginx_version >= 1023000` selects. -/
inductive Build
  | chained
  | rawList
  deriving DecidableEq, Repr

/-- `r->headers_in` as far as the modules read it.  The core links the Accept-Encoding lines it
receives, and `accept_encoding` is the first of them. -/
structure HeadersIn where
  headers : HeaderList
  acceptEncoding : List Bytes
  acceptEncoding_eq : acceptEncoding = headers.lines (ascii "Accept-Encoding")

def HeadersIn.of (headers : HeaderList) : HeadersIn := ⟨headers, _, rfl⟩

/-- `ngx_http_brotli_fold_line_weight` on `(coding_q, star_q)` -/
def foldLineWeight (coding : Bytes) (allowWildcard : Bool) (w : Int × Int) (value : Bytes) :
    Int × Int :=
  let line := codingWeightEx value coding allowWildcard
  if line.explicitQ ≥ 0 then (line.explicitQ, w.2)
  else if allowWildcard && line.starQ ≥ 0 then (w.1, line.starQ)
  else w

/-- `ngx_http_brotli_request_coding_weight` -/
def requestCodingWeight (build : Build) (headersIn : HeadersIn) (coding : Bytes)
    (allowWildcard : Bool) : Int :=
  let fold := foldLineWeight coding allowWildcard
  let w := match build with
    | .chained => headersIn.acceptEncoding.foldl fold (-1, -1)
    | .rawList =>
      PartList.foldIf (TableElt.isLive (ascii "Accept-Encoding")) (fun w h => fold w h.value)
        (-1, -1) headersIn.headers
  fieldWeight w.1 w.2 allowWildcard

/-- `ngx_http_brotli_accepts`; `isMain` is `r == r->main`. -/
def accepts (build : Build) (isMain : Bool) (headersIn : HeadersIn) : Int :=
  if !isMain then NGX_DECLINED
  else if requestCodingWeight build headersIn (ascii "br") true > 0 then NGX_OK
  else NGX_DECLINED

/-- Both builds fold the same lines. -/
theorem requestCodingWeight_eq (build : Build) (headersIn : HeadersIn) (coding : Bytes)
    (allowWildcard : Bool) :
    requestCodingWeight build headersIn coding allowWildcard =
      let w := (headersIn.headers.lines (ascii "Accept-Encoding")).foldl
        (foldLineWeight coding allowWildcard) (-1, -1)
      fieldWeight w.1 w.2 allowWildcard := by
  cases build with
  | chained => rw [requestCodingWeight, ← headersIn.acceptEncoding_eq]
  | rawList =>
    rw [requestCodingWeight, HeaderList.lines, List.foldl_map]
    dsimp only
    rw [PartList.foldIf_eq]

end NgxBrotli
