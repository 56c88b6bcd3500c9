import NgxBrotli.Base64
import NgxBrotli.DistinctKeys
import NgxBrotli.ElementResult
import NgxBrotli.RequestWeight

namespace NgxBrotli
open LastWins QuotedSplit

abbrev NGX_HTTP_BROTLI_SHA256_DIGEST_LEN : ℕ := 32

abbrev NGX_CONF_UNSET : Int := -1

/-- `ngx_http_brotli_dcb_dict_t`: a dictionary and the key that selects it. -/
structure DcbDict where
  file : Bytes
  bytes : Bytes
  hash : Bytes
  hash_length : hash.length = NGX_HTTP_BROTLI_SHA256_DIGEST_LEN
  deriving DecidableEq, Repr

/-- `ngx_http_brotli_conf_t` but for the MIME types.  `bypass` says that predicates are configured,
and `dcbDicts` is empty also where the source has `NULL`. -/
structure Conf where
  enable : Bool
  minLength : Int
  maxLength : Int
  bypass : Bool
  bypassVary : Bytes
  dcbDicts : List DcbDict
  dcbAssumeSecure : Bool
  quality : Int
  lgWin : ℕ

/-- What a negotiation reads: `r == r->main`, `r->connection->ssl != NULL`, the headers. -/
structure Request where
  isMain : Bool
  ssl : Bool
  headersIn : HeadersIn

/-- `ngx_http_brotli_find_request_header` -/
def findRequestHeader (headers : HeaderList) (name : Bytes) : Option TableElt :=
  headers.find? fun h => matchesName h.key name

section

variable (build : Build) (decodeBase64 : Bytes → Option Bytes)

/-- The key an Available-Dictionary value carries: `:base64:`, at most 44 symbols. -/
def availableDictionary (value : Bytes) : Option Bytes :=
  if value.length < 2 ∨ value.head? ≠ some COLON ∨ value.getLast? ≠ some COLON ∨
      value.length - 2 > 44 then none
  else
    match decodeBase64 (value.tail.take (value.length - 2)) with
    | none => none
    | some decoded =>
      if decoded.length ≠ NGX_HTTP_BROTLI_SHA256_DIGEST_LEN then none else some decoded

/-- `same-origin` or `none` -/
def fetchSiteAllowed (value : Bytes) : Bool :=
  matchesName value (ascii "same-origin") || matchesName value (ascii "none")

/-- `ngx_http_brotli_dcb_negotiate` -/
def dcbNegotiate (conf : Conf) (r : Request) : Option DcbDict :=
  if conf.dcbDicts = [] then none
  else if !r.isMain then none
  else if !conf.dcbAssumeSecure && !r.ssl then none
  else if r.headersIn.acceptEncoding = [] then none
  else
    match findRequestHeader r.headersIn.headers (ascii "available-dictionary") with
    | none => none
    | some h =>
      match availableDictionary decodeBase64 h.value with
      | none => none
      | some decoded =>
        if (findRequestHeader r.headersIn.headers (ascii "sec-fetch-site")).any
            fun h => !fetchSiteAllowed h.value then none
        else if requestCodingWeight build r.headersIn (ascii "dcb") false ≤ 0 then none
        else conf.dcbDicts.find? fun d => d.hash == decoded

theorem availableDictionary_eq_some_iff {value key : Bytes} :
    availableDictionary decodeBase64 value = some key ↔
      ∃ b, value = COLON :: (b ++ [COLON]) ∧ b.length ≤ 44 ∧ decodeBase64 b = some key ∧
        key.length = NGX_HTTP_BROTLI_SHA256_DIGEST_LEN := by
  have hdecode (b : Bytes) : (COLON :: (b ++ [COLON])).tail.take
      ((COLON :: (b ++ [COLON])).length - 2) = b := by simp
  constructor
  · intro h
    unfold availableDictionary at h
    split at h
    · cases h
    case isFalse hshape =>
      simp only [not_or, not_lt, not_not] at hshape
      obtain ⟨hlen, hhead, hlast, hle⟩ := hshape
      obtain ⟨t, rfl⟩ := List.head?_eq_some_iff.mp hhead
      have htne : t ≠ [] := by rintro rfl; simp at hlen
      have hlast' : t.getLast htne = COLON := by
        rw [List.getLast?_cons, List.getLast?_eq_some_getLast htne] at hlast
        simpa using hlast
      obtain ⟨b, rfl⟩ : ∃ b, t = b ++ [COLON] := by
        refine ⟨t.dropLast, ?_⟩
        conv_lhs => rw [← List.dropLast_append_getLast htne, hlast']
      rw [hdecode] at h
      refine ⟨b, rfl, by simpa using hle, ?_⟩
      split at h
      · cases h
      case h_2 decoded hd =>
        split at h
        · cases h
        case isFalse hlen =>
          obtain rfl := Option.some.inj h
          exact ⟨hd, by simpa using hlen⟩
  · rintro ⟨b, rfl, hle, hd, hlen⟩
    have hshape : ¬((COLON :: (b ++ [COLON])).length < 2 ∨
        (COLON :: (b ++ [COLON])).head? ≠ some COLON ∨
        (COLON :: (b ++ [COLON])).getLast? ≠ some COLON ∨
        (COLON :: (b ++ [COLON])).length - 2 > 44) := by
      have hlast : (COLON :: (b ++ [COLON])).getLast? = some COLON := by
        rw [← List.cons_append, List.getLast?_append]
        rfl
      simp only [hlast, List.head?_cons, List.length_cons, List.length_append, List.length_nil,
        ne_eq, not_true, false_or, not_or]
      omega
    rw [availableDictionary, if_neg hshape, hdecode, hd]
    simp [hlen]

theorem fetchSiteAllowed_iff {value : Bytes} :
    fetchSiteAllowed value = true ↔
      EqNoCase value (ascii "same-origin") ∨ EqNoCase value (ascii "none") := by
  rw [fetchSiteAllowed, Bool.or_eq_true, matchesName_iff (by decide), matchesName_iff (by decide)]

theorem findRequestHeader_value {headers : HeaderList}
    (hlive : ∀ h ∈ headers.toList, h.hash ≠ 0) (name : Bytes) :
    (findRequestHeader headers name).map TableElt.value = (headers.lines name).head? := by
  rw [findRequestHeader, PartList.find?_eq, HeaderList.lines, List.head?_map, List.head?_filter]
  apply congrArg (Option.map TableElt.value)
  generalize headers.toList = l at hlive
  induction l with
  | nil => rfl
  | cons h l ih =>
    have hh : h.isLive name = matchesName h.key name := by
      simp [TableElt.isLive, hlive h List.mem_cons_self]
    rw [List.find?_cons, List.find?_cons, hh, ih fun g hg => hlive g (List.mem_cons_of_mem h hg)]

def explicitWeight (headersIn : HeadersIn) (coding : Bytes) : Option Int :=
  lastOf (fun v => lastOf (elementResult coding) (topElements v))
    (headersIn.headers.lines (ascii "Accept-Encoding"))

theorem requestCodingWeight_pos_iff {coding : Bytes} (hc : NameToken coding)
    (headersIn : HeadersIn) :
    requestCodingWeight build headersIn coding false > 0 ↔
      ∃ w, explicitWeight headersIn coding = some w ∧ 0 < w := by
  rw [requestCodingWeight_eq]
  dsimp only
  have hline : (fun v => lastOf (elementResult coding) (topElements v)) = lineExplicit coding :=
    funext fun v => lastOf_topElements hc v
  rw [foldl_foldLineWeight_fst, explicitWeight, hline, fieldWeight]
  cases lastOf (lineExplicit coding) (headersIn.headers.lines (ascii "Accept-Encoding")) with
  | none => simp
  | some w =>
    simp only [Option.getD_some, Option.some.injEq, exists_eq_left']
    split
    · simp
    · simp
      omega

/-- The gates other than the dictionary's key. -/
structure DcbGates (conf : Conf) (r : Request) : Prop where
  isMain : r.isMain = true
  secure : r.ssl = true ∨ conf.dcbAssumeSecure = true
  weight : ∃ w, explicitWeight r.headersIn (ascii "dcb") = some w ∧ 0 < w
  site : ∀ v ∈ r.headersIn.headers.lines (ascii "sec-fetch-site"),
    EqNoCase v (ascii "same-origin") ∨ EqNoCase v (ascii "none")

theorem nameToken_dcb : NameToken (ascii "dcb") := ⟨by decide, by decide, by decide⟩

section Iff

variable {conf : Conf} {r : Request} (hlive : ∀ h ∈ r.headersIn.headers.toList, h.hash ≠ 0)
  (hkeys : (r.headersIn.headers.lines (ascii "available-dictionary")).length ≤ 1)
  (hsites : (r.headersIn.headers.lines (ascii "sec-fetch-site")).length ≤ 1)

theorem dcbNegotiate_eq_bind :
    dcbNegotiate build decodeBase64 conf r =
      if r.isMain ∧ (r.ssl ∨ conf.dcbAssumeSecure) ∧
          (findRequestHeader r.headersIn.headers (ascii "sec-fetch-site")).all
            (fun h => fetchSiteAllowed h.value) ∧
          requestCodingWeight build r.headersIn (ascii "dcb") false > 0 then
        (findRequestHeader r.headersIn.headers (ascii "available-dictionary")).bind fun h =>
          (availableDictionary decodeBase64 h.value).bind fun key =>
            conf.dcbDicts.find? fun d => d.hash == key
      else none := by
  have hnone : r.headersIn.acceptEncoding = [] →
      ¬requestCodingWeight build r.headersIn (ascii "dcb") false > 0 := by
    intro h
    rw [requestCodingWeight_eq, ← r.headersIn.acceptEncoding_eq, h]
    decide
  unfold dcbNegotiate
  by_cases hd : conf.dcbDicts = []
  · simp [hd]
  rw [if_neg hd]
  by_cases hmain : r.isMain = true
  case neg => simp [hmain]
  by_cases hsec : r.ssl = true ∨ conf.dcbAssumeSecure = true
  case neg =>
    rw [not_or] at hsec
    simp [hsec]
  have hsec' : (!conf.dcbAssumeSecure && !r.ssl) = false := by
    rcases hsec with h | h <;> simp [h]
  rw [if_neg (by simp [hmain]), if_neg (by simp [hsec'])]
  by_cases hae : r.headersIn.acceptEncoding = []
  · rw [if_pos hae, if_neg (fun h => hnone hae h.2.2.2)]
  rw [if_neg hae]
  generalize findRequestHeader r.headersIn.headers (ascii "sec-fetch-site") = site
  have hsite : (site.any fun h => !fetchSiteAllowed h.value) =
      !(site.all fun h => fetchSiteAllowed h.value) := by cases site <;> simp
  rw [hsite]
  cases findRequestHeader r.headersIn.headers (ascii "available-dictionary") with
  | none => simp
  | some h =>
    dsimp only
    rw [Option.bind_some]
    cases availableDictionary decodeBase64 h.value with
    | none => simp
    | some key =>
      cases site.all fun h => fetchSiteAllowed h.value with
      | false => simp
      | true =>
        by_cases hw : requestCodingWeight build r.headersIn (ascii "dcb") false > 0
        · have : ¬requestCodingWeight build r.headersIn (ascii "dcb") false ≤ 0 := by omega
          simp [hmain, hsec, this]
        · simp only [not_lt, gt_iff_lt] at hw
          simp [hw]

include hlive hkeys hsites in
theorem dcbNegotiate_eq_some (hnodup : (conf.dcbDicts.map DcbDict.hash).Nodup) (d : DcbDict) :
    dcbNegotiate build decodeBase64 conf r = some d ↔
      d ∈ conf.dcbDicts ∧ DcbGates conf r ∧
        ∃ b, r.headersIn.headers.lines (ascii "available-dictionary") = [COLON :: (b ++ [COLON])] ∧
          b.length ≤ 44 ∧ decodeBase64 b = some d.hash := by
  have hkey := findRequestHeader_value hlive (ascii "available-dictionary")
  have hsite : (findRequestHeader r.headersIn.headers (ascii "sec-fetch-site")).all
        (fun h => fetchSiteAllowed h.value) = true ↔
      ∀ v ∈ r.headersIn.headers.lines (ascii "sec-fetch-site"),
        EqNoCase v (ascii "same-origin") ∨ EqNoCase v (ascii "none") := by
    have h := findRequestHeader_value hlive (ascii "sec-fetch-site")
    rcases hl : r.headersIn.headers.lines (ascii "sec-fetch-site") with - | ⟨v, - | ⟨w, vs⟩⟩
    · rw [hl, List.head?_nil, Option.map_eq_none_iff] at h
      simp [h]
    · rw [hl, List.head?_cons] at h
      obtain ⟨e, he, rfl⟩ := Option.map_eq_some_iff.mp h
      simp [he, fetchSiteAllowed_iff]
    · rw [hl] at hsites
      simp at hsites
  rw [dcbNegotiate_eq_bind, Option.ite_none_right_eq_some, hsite,
    requestCodingWeight_pos_iff build nameToken_dcb]
  constructor
  · rintro ⟨⟨h₁, h₂, h₃, h₄⟩, h⟩
    obtain ⟨e, he, h⟩ := Option.bind_eq_some_iff.mp h
    obtain ⟨key, hk, h⟩ := Option.bind_eq_some_iff.mp h
    obtain ⟨hmem, rfl⟩ := (DistinctKeys.find?_key_iff hnodup key d).mp h
    obtain ⟨b, hb, hle, hdec, -⟩ := (availableDictionary_eq_some_iff decodeBase64).mp hk
    refine ⟨hmem, ⟨h₁, h₂, h₄, h₃⟩, b, ?_, hle, hdec⟩
    rw [he, Option.map_some, hb] at hkey
    obtain ⟨t, ht⟩ := List.head?_eq_some_iff.mp hkey.symm
    rw [ht] at hkeys ⊢
    simpa using hkeys
  · rintro ⟨hmem, ⟨h₁, h₂, h₄, h₃⟩, b, hb, hle, hdec⟩
    refine ⟨⟨h₁, h₂, h₃, h₄⟩, ?_⟩
    rw [hb, List.head?_cons] at hkey
    obtain ⟨e, he, hv⟩ := Option.map_eq_some_iff.mp hkey
    have hk : availableDictionary decodeBase64 e.value = some d.hash :=
      (availableDictionary_eq_some_iff decodeBase64).mpr ⟨b, hv, hle, hdec, d.hash_length⟩
    rw [he, Option.bind_some, hk, Option.bind_some]
    exact (DistinctKeys.find?_key_iff hnodup d.hash d).mpr ⟨hmem, rfl⟩

include hlive hkeys hsites in
/-- Exactly the dictionary whose key the client names, behind all gates; and the standard encoding
of a configured key names its dictionary. -/
theorem dcbNegotiate_iff (hnodup : (conf.dcbDicts.map DcbDict.hash).Nodup)
    (hdecode : ∀ b, decodeBase64 (Base64.encode b) = some b) :
    (∀ d, dcbNegotiate build decodeBase64 conf r = some d ↔
      d ∈ conf.dcbDicts ∧ DcbGates conf r ∧
        ∃ b, r.headersIn.headers.lines (ascii "available-dictionary") = [COLON :: (b ++ [COLON])] ∧
          b.length ≤ 44 ∧ decodeBase64 b = some d.hash) ∧
    ∀ d ∈ conf.dcbDicts, DcbGates conf r →
      r.headersIn.headers.lines (ascii "available-dictionary") =
          [COLON :: (Base64.encode d.hash ++ [COLON])] →
        dcbNegotiate build decodeBase64 conf r = some d := by
  have hiff := dcbNegotiate_eq_some build decodeBase64 hlive hkeys hsites hnodup
  refine ⟨hiff, fun d hd hgates hline => (hiff d).mpr ⟨hd, hgates, _, hline, ?_, hdecode d.hash⟩⟩
  rw [Base64.length_encode, d.hash_length]
  decide

end Iff

end

/-- A request line list and a configuration in which the second dictionary is selected. -/
theorem dcbNegotiate_iff_sample :
    let dict (c : UInt8) : DcbDict := ⟨[c], [c], List.replicate 32 c, List.length_replicate⟩
    let headers : HeaderList := .ofList
      [⟨1, ascii "Accept-Encoding", ascii "br, dcb;q=0.5"⟩,
        ⟨1, ascii "Sec-Fetch-Site", ascii "Same-Origin"⟩,
        ⟨1, ascii "Available-Dictionary",
          COLON :: (Base64.encode (List.replicate 32 0x62) ++ [COLON])⟩]
    dcbNegotiate .chained Base64.decode
      ⟨true, 20, -1, false, [], [dict 0x61, dict 0x62], false, 6, 0⟩
      ⟨true, true, .of headers⟩ = some (dict 0x62) := by
  intro dict headers
  refine (dcbNegotiate_iff .chained Base64.decode (by decide) (by decide) (by decide) (by decide)
    Base64.decode_encode).2 (dict 0x62) (by simp)
      ⟨rfl, .inl rfl, ⟨500, by decide +kernel, by decide⟩, ?_⟩
    (by decide +kernel)
  decide

end NgxBrotli
