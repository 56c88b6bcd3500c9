import NgxBrotli.HeaderList

namespace NgxBrotli

/-- What the modules read and write of `r->headers_out` and of the flags of `r`.  The values of
`headers_out.content_encoding`, `accept_ranges` and `etag` are `none` where the pointer is `NULL`,
and `nalloc` is the capacity of a part of the header list. -/
structure Response where
  status : ℕ
  headerOnly : Bool
  contentEncoding : Option Bytes
  contentLengthN : Int
  allowRanges : Bool
  acceptRanges : Option Bytes
  etag : Option Bytes
  headers : HeaderList
  nalloc : ℕ
  gzipVary : Bool
  gzipTested : Bool
  gzipOk : Bool
  filterNeedInMemory : Bool
  deriving DecidableEq

/-- A header line pushed by a module: `hash = 1`, key and value. -/
def Response.push (r : Response) (allocOk : Bool) (key value : Bytes) : Option Response :=
  (r.headers.push r.nalloc allocOk ⟨1, key, value⟩).map fun headers => { r with headers := headers }

theorem Response.push_ne_none {r : Response} {key value : Bytes} :
    r.push true key value ≠ none := by
  rw [Response.push, ne_eq, Option.map_eq_none_iff]
  exact PartList.push_ne_none

/-- OWS trimmed at the end. -/
def trimEnd (p : Bytes) : Bytes := p.rdropWhile isOws

/-- The walk over the comma-separated tokens of a Vary value, up to the first that is `name`. -/
def varyHasToken (name p : Bytes) : Bool :=
  match _h : p.dropWhile isOws with
  | [] => false
  | c :: t =>
    let tok := trimEnd ((c :: t).takeWhile (· != COMMA))
    if matchesName tok name then true
    else varyHasToken name (((c :: t).dropWhile (· != COMMA)).tail)
termination_by p.length
decreasing_by
  have h₁ := (List.dropWhile_suffix isOws (l := p)).length_le
  have h₂ := (List.dropWhile_suffix (· != COMMA) (l := c :: t)).length_le
  rw [_h, List.length_cons] at h₁
  rw [List.length_cons] at h₂
  rw [List.length_tail]
  omega

/-- `ngx_http_brotli_vary_accept_encoding`; `gzipVaryOn` is `clcf != NULL && clcf->gzip_vary`. -/
def varyAcceptEncoding (gzipVaryOn allocOk : Bool) (r : Response) : Option Response :=
  let r := { r with gzipVary := true }
  if gzipVaryOn then some r  -- nginx's header filter emits the line from `r->gzip_vary`
  else if (r.headers.find? fun h => h.hash != 0 && matchesName h.key (ascii "Vary") &&
      varyHasToken (ascii "Accept-Encoding") h.value).isSome then some r
  else r.push allocOk (ascii "Vary") (ascii "Accept-Encoding")

/-- The comma-separated tokens of a value, OWS trimmed on both sides. -/
def tokens (v : Bytes) : List Bytes := (v.splitOn COMMA).map fun t => trimEnd (t.dropWhile isOws)

def varyTokens (headers : HeaderList) : List Bytes := (headers.lines (ascii "Vary")).flatMap tokens

/-- How often a name is among the tokens of the live Vary lines. -/
def varyCount (name : Bytes) (headers : HeaderList) : ℕ :=
  (varyTokens headers).countP fun t => EqNoCase t name

theorem splitOn_dropOws (p : Bytes) :
    ∃ t ts, p.splitOn COMMA = t :: ts ∧
      (p.dropWhile isOws).splitOn COMMA = t.dropWhile isOws :: ts := by
  induction p with
  | nil => exact ⟨[], [], rfl, rfl⟩
  | cons c p ih =>
    obtain ⟨t, ts, h, h'⟩ := ih
    rw [List.splitOn_cons_eq_if_modifyHead, List.dropWhile_cons]
    by_cases ho : isOws c = true
    · have hc : ¬(c == COMMA) = true := by
        rw [beq_iff_eq]
        rintro rfl
        exact absurd ho (by decide)
      refine ⟨c :: t, ts, by rw [if_neg hc, h]; rfl, ?_⟩
      rw [if_pos ho, h', List.dropWhile_cons_of_pos ho]
    · rw [if_neg ho, List.splitOn_cons_eq_if_modifyHead, h]
      by_cases hc : (c == COMMA) = true
      · exact ⟨[], t :: ts, by rw [if_pos hc], by rw [if_pos hc]; rfl⟩
      · refine ⟨c :: t, ts, by rw [if_neg hc]; rfl, ?_⟩
        rw [if_neg hc, List.dropWhile_cons_of_neg ho]
        rfl

theorem splitOn_eq_takeWhile (p : Bytes) :
    p.splitOn COMMA = p.takeWhile (· != COMMA) ::
      match p.dropWhile (· != COMMA) with
      | [] => []
      | _ :: t => t.splitOn COMMA := by
  induction p with
  | nil => rfl
  | cons c p ih =>
    rw [List.splitOn_cons_eq_if_modifyHead, List.takeWhile_cons, List.dropWhile_cons]
    by_cases hc : c = COMMA
    · simp [hc]
    · have hb : (c != COMMA) = true := bne_iff_ne.mpr hc
      rw [if_neg (by simpa using hc), if_pos hb, if_pos hb, ih]
      rfl

/-- The tokenizer finds a name if and only if it is one of the tokens. -/
theorem varyHasToken_iff {name : Bytes} (h0 : 0 ∉ name) (hne : name ≠ []) (p : Bytes) :
    varyHasToken name p = true ↔ ∃ t ∈ tokens p, EqNoCase t name := by
  have hnil : ¬EqNoCase [] name := fun h => hne (List.length_eq_zero_iff.mp h.length_eq.symm)
  fun_induction varyHasToken name p with
  | case1 p hp =>
    obtain ⟨t, ts, h₁, h₂⟩ := splitOn_dropOws p
    rw [hp, List.splitOn_nil, List.cons.injEq] at h₂
    rw [tokens, h₁, ← h₂.2, List.map_singleton, ← h₂.1]
    simpa [trimEnd] using hnil
  | case2 p c t hp tok hm =>
    obtain ⟨u, us, h₁, h₂⟩ := splitOn_dropOws p
    rw [hp, splitOn_eq_takeWhile, List.cons.injEq] at h₂
    refine iff_of_true rfl ⟨tok, ?_, (matchesName_iff h0).mp hm⟩
    rw [tokens, h₁, List.map_cons, ← h₂.1]
    exact List.mem_cons_self
  | case3 p c t hp tok hm ih =>
    obtain ⟨u, us, h₁, h₂⟩ := splitOn_dropOws p
    rw [hp, splitOn_eq_takeWhile, List.cons.injEq] at h₂
    have htok : ¬EqNoCase tok name := fun h => hm ((matchesName_iff h0).mpr h)
    apply ih.trans
    rw [tokens, tokens, h₁, List.map_cons, ← h₂.1, ← h₂.2]
    cases hd : (c :: t).dropWhile (· != COMMA) with
    | nil =>
      refine iff_of_false ?_ ?_
      · simpa [trimEnd] using hnil
      · rintro ⟨t, ht, he⟩
        obtain rfl := List.mem_singleton.mp ht
        exact htok he
    | cons d s =>
      refine ⟨fun ⟨t, ht, he⟩ => ⟨t, List.mem_cons_of_mem _ ht, he⟩, fun ⟨t, ht, he⟩ => ?_⟩
      rcases List.mem_cons.mp ht with rfl | ht
      · exact absurd he htok
      · exact ⟨t, ht, he⟩

/-- A name is a token of a live Vary line, or the core emits it for `r->gzip_vary`. -/
def Announced (gzipVaryOn : Bool) (r : Response) (name : Bytes) : Prop :=
  (∃ t ∈ varyTokens r.headers, EqNoCase t name) ∨
    gzipVaryOn = true ∧ r.gzipVary = true ∧ EqNoCase (ascii "Accept-Encoding") name

theorem lines_push {r r' : Response} {allocOk : Bool} {key value : Bytes}
    (h : r.push allocOk key value = some r') (name : Bytes) :
    r'.headers.lines name =
      r.headers.lines name ++ if matchesName key name then [value] else [] := by
  unfold Response.push at h
  obtain ⟨headers, hp, rfl⟩ := Option.map_eq_some_iff.mp h
  rw [HeaderList.lines, HeaderList.lines, PartList.toList_push hp, List.filter_append,
    List.map_append]
  apply congrArg _
  cases hm : matchesName key name <;> simp [TableElt.isLive, hm]

theorem varyTokens_push {r r' : Response} {allocOk : Bool} {value : Bytes}
    (h : r.push allocOk (ascii "Vary") value = some r') :
    varyTokens r'.headers = varyTokens r.headers ++ tokens value := by
  have hm : matchesName (ascii "Vary") (ascii "Vary") = true := by decide
  rw [varyTokens, lines_push h, hm, if_pos rfl, List.flatMap_append]
  simp [varyTokens]

theorem exists_varyTokens {p : Bytes → Prop} (headers : HeaderList) :
    (∃ t ∈ varyTokens headers, p t) ↔
      ∃ h ∈ headers.toList, h.isLive (ascii "Vary") = true ∧ ∃ t ∈ tokens h.value, p t := by
  simp only [varyTokens, List.mem_flatMap, HeaderList.mem_lines]
  constructor
  · rintro ⟨t, ⟨_, ⟨h, hmem, hlive, rfl⟩, ht⟩, hp⟩
    exact ⟨h, hmem, hlive, t, ht, hp⟩
  · rintro ⟨h, hmem, hlive, t, ht, hp⟩
    exact ⟨t, ⟨h.value, ⟨h, hmem, hlive, rfl⟩, ht⟩, hp⟩

theorem find?_vary_isSome (headers : HeaderList) :
    (headers.find? fun h => h.hash != 0 && matchesName h.key (ascii "Vary") &&
        varyHasToken (ascii "Accept-Encoding") h.value).isSome = true ↔
      ∃ t ∈ varyTokens headers, EqNoCase t (ascii "Accept-Encoding") := by
  have hiff (v : Bytes) : varyHasToken (ascii "Accept-Encoding") v = true ↔
      ∃ t ∈ tokens v, EqNoCase t (ascii "Accept-Encoding") :=
    varyHasToken_iff (by decide) (by decide) v
  rw [PartList.find?_eq, List.find?_isSome, exists_varyTokens]
  simp only [TableElt.isLive, Bool.and_eq_true, hiff]

theorem varyCount_eq_zero_iff (name : Bytes) (headers : HeaderList) :
    varyCount name headers = 0 ↔ ¬∃ t ∈ varyTokens headers, EqNoCase t name := by
  rw [varyCount, List.countP_eq_zero]
  simp

theorem varyAcceptEncoding_off {allocOk : Bool} {r r' : Response}
    (h : varyAcceptEncoding false allocOk r = some r') :
    varyTokens r'.headers = varyTokens r.headers ++
      if varyCount (ascii "Accept-Encoding") r.headers = 0 then [ascii "Accept-Encoding"]
      else [] := by
  have hiff := find?_vary_isSome r.headers
  simp only [varyAcceptEncoding, Bool.false_eq_true, if_false] at h
  split at h
  case isTrue hs =>
    obtain rfl := Option.some.inj h
    have : varyCount (ascii "Accept-Encoding") r.headers ≠ 0 := by
      rw [ne_eq, varyCount_eq_zero_iff, not_not]
      exact hiff.mp hs
    rw [if_neg this, List.append_nil]
  case isFalse hs =>
    have : varyCount (ascii "Accept-Encoding") r.headers = 0 := by
      rw [varyCount_eq_zero_iff, ← hiff]
      exact hs
    rw [if_pos this, varyTokens_push h]
    rfl

theorem announced_varyAcceptEncoding {gzipVaryOn allocOk : Bool} {r r' : Response}
    (h : varyAcceptEncoding gzipVaryOn allocOk r = some r') :
    Announced gzipVaryOn r' (ascii "Accept-Encoding") := by
  cases gzipVaryOn with
  | true =>
    obtain rfl := Option.some.inj h
    exact .inr ⟨rfl, rfl, .rfl⟩
  | false =>
    left
    rw [varyAcceptEncoding_off h]
    by_cases hc : varyCount (ascii "Accept-Encoding") r.headers = 0
    · rw [if_pos hc]
      exact ⟨_, List.mem_append_right _ (List.mem_singleton_self _), .rfl⟩
    · rw [varyCount_eq_zero_iff, not_not] at hc
      obtain ⟨t, ht, he⟩ := hc
      exact ⟨t, List.mem_append_left _ ht, he⟩

end NgxBrotli
