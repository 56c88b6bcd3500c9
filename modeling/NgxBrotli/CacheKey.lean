import NgxBrotli.StaticHandler

namespace NgxBrotli

/-- The lines of a request header of this name, each with whether it is live. -/
def HeaderList.field (name : Bytes) (headers : HeaderList) : List (Bool × Bytes) :=
  (headers.toList.filter fun h => matchesName h.key name).map fun h => (h.hash != 0, h.value)

theorem lines_eq_field (name : Bytes) (headers : HeaderList) :
    headers.lines name = ((headers.field name).filter Prod.fst).map Prod.snd := by
  rw [HeaderList.lines, HeaderList.field, List.filter_map, List.map_map, List.filter_filter]
  rfl

theorem findRequestHeader_eq_field (name : Bytes) (headers : HeaderList) :
    (findRequestHeader headers name).map TableElt.value =
      (headers.field name).head?.map Prod.snd := by
  rw [findRequestHeader, PartList.find?_eq, HeaderList.field, List.head?_map, List.head?_filter,
    Option.map_map]
  rfl

section Decisions

variable {build : Build} {h₁ h₂ : HeadersIn}

theorem requestCodingWeight_congr
    (h : h₁.headers.field (ascii "Accept-Encoding") = h₂.headers.field (ascii "Accept-Encoding"))
    (coding : Bytes) (allowWildcard : Bool) :
    requestCodingWeight build h₁ coding allowWildcard =
      requestCodingWeight build h₂ coding allowWildcard := by
  rw [requestCodingWeight_eq, requestCodingWeight_eq, lines_eq_field, lines_eq_field, h]

theorem accepts_congr
    (h : h₁.headers.field (ascii "Accept-Encoding") = h₂.headers.field (ascii "Accept-Encoding"))
    (isMain : Bool) : accepts build isMain h₁ = accepts build isMain h₂ := by
  rw [accepts, accepts, requestCodingWeight_congr h]

/-- The request headers by which a location selects the variant. -/
def keyHeaders (conf : Conf) : List Bytes :=
  if conf.dcbDicts ≠ [] then
    [ascii "Accept-Encoding", ascii "Available-Dictionary", ascii "Sec-Fetch-Site"]
  else [ascii "Accept-Encoding"]

theorem field_lower (headers : HeaderList) :
    headers.field (ascii "available-dictionary") = headers.field (ascii "Available-Dictionary") ∧
      headers.field (ascii "sec-fetch-site") = headers.field (ascii "Sec-Fetch-Site") := by
  have hcase {a b : Bytes} (ha : 0 ∉ a) (hb : 0 ∉ b) (h : EqNoCase a b) (key : Bytes) :
      matchesName key a = matchesName key b := by
    rw [Bool.eq_iff_iff, matchesName_iff ha, matchesName_iff hb, EqNoCase, EqNoCase, h]
  constructor
  · simp only [HeaderList.field, hcase (a := ascii "available-dictionary")
      (b := ascii "Available-Dictionary") (by decide) (by decide) (by decide)]
  · simp only [HeaderList.field, hcase (a := ascii "sec-fetch-site")
      (b := ascii "Sec-Fetch-Site") (by decide) (by decide) (by decide)]

theorem dcbNegotiate_congr {decodeBase64 : Bytes → Option Bytes} {conf : Conf}
    (h : ∀ name ∈ keyHeaders conf, h₁.headers.field name = h₂.headers.field name)
    (isMain ssl : Bool) :
    dcbNegotiate build decodeBase64 conf ⟨isMain, ssl, h₁⟩ =
      dcbNegotiate build decodeBase64 conf ⟨isMain, ssl, h₂⟩ := by
  by_cases hd : conf.dcbDicts = []
  · rw [dcbNegotiate, dcbNegotiate, if_pos hd, if_pos hd]
  rw [keyHeaders, if_pos hd] at h
  have hae := h _ List.mem_cons_self
  have hkey := h (ascii "Available-Dictionary") (by simp)
  have hsite := h (ascii "Sec-Fetch-Site") (by simp)
  rw [← (field_lower _).1, ← (field_lower _).1] at hkey
  rw [← (field_lower _).2, ← (field_lower _).2] at hsite
  have hfind {name : Bytes} (hf : h₁.headers.field name = h₂.headers.field name) :
      (findRequestHeader h₁.headers name).map TableElt.value =
        (findRequestHeader h₂.headers name).map TableElt.value := by
    rw [findRequestHeader_eq_field, findRequestHeader_eq_field, hf]
  have hall (o : Option TableElt) : (o.all fun h => fetchSiteAllowed h.value) =
      (o.map TableElt.value).all fetchSiteAllowed := by cases o <;> rfl
  have hbind (o : Option TableElt) (f : Bytes → Option DcbDict) :
      (o.bind fun h => f h.value) = (o.map TableElt.value).bind f := by cases o <;> rfl
  rw [dcbNegotiate_eq_bind, dcbNegotiate_eq_bind, hall, hall, hfind hsite,
    requestCodingWeight_congr hae,
    hbind _ fun v => (availableDictionary decodeBase64 v).bind fun key =>
      conf.dcbDicts.find? fun d => d.hash == key,
    hbind _ fun v => (availableDictionary decodeBase64 v).bind fun key =>
      conf.dcbDicts.find? fun d => d.hash == key, hfind hkey]

end Decisions

structure SameVary (r r' : Response) : Prop where
  lines : r'.headers.lines (ascii "Vary") = r.headers.lines (ascii "Vary")
  gzipVary : r'.gzipVary = r.gzipVary

theorem SameVary.refl (r : Response) : SameVary r r := ⟨rfl, rfl⟩

theorem SameVary.trans {r r' r'' : Response} (h : SameVary r r') (h' : SameVary r' r'') :
    SameVary r r'' :=
  ⟨h'.lines.trans h.lines, h'.gzipVary.trans h.gzipVary⟩

theorem SameVary.announced {r r' : Response} (h : SameVary r r') {gzipVaryOn : Bool}
    {name : Bytes} (ha : Announced gzipVaryOn r name) : Announced gzipVaryOn r' name := by
  rw [Announced, varyTokens, h.lines, h.gzipVary]
  exact ha

theorem SameVary.varyCount_eq {r r' : Response} (h : SameVary r r') (name : Bytes) :
    varyCount name r'.headers = varyCount name r.headers := by
  rw [varyCount, varyCount, varyTokens, varyTokens, h.lines]

theorem SameVary.push {r r' : Response} {allocOk : Bool} {key value : Bytes}
    (h : r.push allocOk key value = some r') (hk : matchesName key (ascii "Vary") = false) :
    SameVary r r' := by
  refine ⟨by rw [lines_push h, hk]; simp, ?_⟩
  unfold Response.push at h
  obtain ⟨headers, -, rfl⟩ := Option.map_eq_some_iff.mp h
  rfl

/-- The functions of the core edit or delete other lines than Vary. -/
structure Core.KeepsVary (core : Core) : Prop where
  clearContentLength : ∀ r, SameVary r (core.clearContentLength r)
  clearAcceptRanges : ∀ r, SameVary r (core.clearAcceptRanges r)
  weakEtag : ∀ r, SameVary r (core.weakEtag r)

structure StaticCore.KeepsVary (core : StaticCore) : Prop where
  setEtag : ∀ r, SameVary r (core.setEtag r).2
  setContentType : ∀ r, SameVary r (core.setContentType r).2

/-- The variant a response is. -/
inductive Variant
  | identity
  | br
  | dcb (d : DcbDict)
  deriving DecidableEq, Repr

def variantOf : Option FilterCtx → Variant
  | none => .identity
  | some ctx =>
    match ctx.dcbDict with
    | none => .br
    | some d => .dcb d

section HeaderFilter

variable {core : Core} {build : Build} {decodeBase64 : Bytes → Option Bytes} {conf : Conf}
  {gzipVaryOn : Bool} {allocOk : AllocSite → Bool} {req : Request} {r r' : Response}
  {ctx : Option FilterCtx}

theorem commitEncoding_next {dcb : Option DcbDict} (hkeep : core.KeepsVary)
    (h : commitEncoding core allocOk dcb r = .next r' ctx) :
    SameVary r r' ∧ ctx = some ⟨r.contentLengthN, dcb⟩ := by
  obtain ⟨hctx, p, hp, rfl⟩ := commitEncoding_cases h
  have hpush : SameVary r p := .push hp (by decide)
  have hfields (coding : Bytes) :
      SameVary p { p with contentEncoding := some coding, filterNeedInMemory := true } := ⟨rfl, rfl⟩
  exact ⟨hpush.trans ((hfields _).trans ((hkeep.clearContentLength _).trans
    ((hkeep.clearAcceptRanges _).trans (hkeep.weakEtag _)))), hctx⟩

def selected (build : Build) (decodeBase64 : Bytes → Option Bytes) (conf : Conf) (req : Request) :
    Variant :=
  match dcbNegotiate build decodeBase64 conf req with
  | some d => .dcb d
  | none => if accepts build req.isMain req.headersIn = NGX_OK then .br else .identity

theorem negotiateEncoding_next (hkeep : core.KeepsVary)
    (h : negotiateEncoding core build decodeBase64 conf allocOk req r = .next r' ctx) :
    SameVary r r' ∧ variantOf ctx = selected build decodeBase64 conf req := by
  have hlatch : SameVary r { r with gzipTested := true, gzipOk := false } := ⟨rfl, rfl⟩
  unfold selected
  obtain ⟨d, hd, h⟩ | ⟨hd, ⟨ha, h⟩ | ⟨ha, rfl, rfl⟩⟩ := negotiateEncoding_cases h
  · obtain ⟨hs, rfl⟩ := commitEncoding_next hkeep h
    rw [hd]
    exact ⟨hlatch.trans hs, rfl⟩
  · obtain ⟨hs, rfl⟩ := commitEncoding_next hkeep h
    rw [hd]
    exact ⟨hlatch.trans hs, (if_pos ha).symm⟩
  · rw [hd]
    exact ⟨.refl _, (if_neg ha).symm⟩

theorem headerFilter_next (hkeep : core.KeepsVary) {bypassed : Bool}
    (h : headerFilter core build decodeBase64 conf gzipVaryOn allocOk bypassed req r =
      .next r' ctx) :
    (headerFilterSkips core conf r = true ∨ (conf.bypass && bypassed) = true) ∧ ctx = none ∨
    (headerFilterSkips core conf r = false ∧ (conf.bypass && bypassed) = false) ∧
      variantOf ctx = selected build decodeBase64 conf req ∧
      ∃ r₁ r₂, pushBypassVary conf allocOk r = some r₁ ∧
        emitVary conf gzipVaryOn allocOk r₁ = some r₂ ∧ SameVary r₂ r' := by
  obtain ⟨hskip, -, hctx⟩ | ⟨hskip, r₁, hbypass, ⟨hby, -, hctx⟩ | ⟨hby, r₂, hemit, h⟩⟩ :=
    headerFilter_cases h
  · exact .inl ⟨.inl hskip, hctx⟩
  · exact .inl ⟨.inr hby, hctx⟩
  · obtain ⟨hs, hv⟩ := negotiateEncoding_next hkeep h
    exact .inr ⟨⟨hskip, hby⟩, hv, r₁, r₂, hbypass, hemit, hs⟩

theorem tokens_dcbVaryValue :
    tokens dcbVaryValue =
      [ascii "Accept-Encoding", ascii "Available-Dictionary", ascii "Sec-Fetch-Site"] := by
  decide

/-- The emission announces every header the location selects the variant by. -/
theorem announced_emitVary (h : emitVary conf gzipVaryOn allocOk r = some r') :
    ∀ name ∈ keyHeaders conf, Announced gzipVaryOn r' name := by
  intro name hname
  unfold emitVary at h
  unfold keyHeaders at hname
  split at h
  case isTrue hd =>
    rw [if_pos hd] at hname
    refine .inl ⟨name, ?_, .rfl⟩
    rw [varyTokens_push h, tokens_dcbVaryValue]
    exact List.mem_append_right _ hname
  case isFalse hd =>
    rw [if_neg hd] at hname
    obtain rfl := List.mem_singleton.mp hname
    exact announced_varyAcceptEncoding h

end HeaderFilter

section Static

variable {core : StaticCore} {build : Build} {gzipVaryOn : Bool} {allocOk : StaticAlloc → Bool}
  {method : Method} {r r' : Response}

theorem serveFile_served (hkeep : core.KeepsVary) {info : FileInfo}
    (h : serveFile core allocOk method info r = .served r') : SameVary r r' := by
  obtain ⟨p, hp, rfl⟩ := serveFile_cases h
  have hstatus : SameVary r { r with status := NGX_HTTP_OK, contentLengthN := info.size } :=
    ⟨rfl, rfl⟩
  have hpush : SameVary r p :=
    (hstatus.trans ((hkeep.setEtag _).trans (hkeep.setContentType _))).trans
      (.push hp (by decide))
  exact hpush.trans ⟨rfl, rfl⟩

theorem staticHandler_served {uri : Bytes} {req : Request}
    (h : staticHandler core build gzipVaryOn allocOk .on method uri req r = .served r') :
    ∃ info s, Probes .on method uri ∧ core.probe uri = some (.ok info) ∧ info.isDir = false ∧
      varyAcceptEncoding gzipVaryOn (allocOk .vary) r = some s ∧
      accepts build req.isMain req.headersIn = NGX_OK ∧
      serveFile core allocOk method info { s with gzipTested := true, gzipOk := false } =
        .served r' := by
  have hcase : StaticCase core build gzipVaryOn allocOk .on method uri req r _ :=
    staticHandler_cases
  generalize staticHandler core build gzipVaryOn allocOk .on method uri req r = o at h hcase
  cases hcase with
  | negotiated hgo hprobe hfile hon hvary ha =>
    exact ⟨_, _, hgo, hprobe, hfile.1, hvary, ha, h⟩
  | always hgo hprobe hfile hon => exact absurd rfl hon
  | _ => cases h

theorem staticHandler_refused {uri : Bytes} {req : Request} {info : FileInfo}
    (hgo : Probes .on method uri) (hprobe : core.probe uri = some (.ok info))
    (hdir : info.isDir = false)
    (h : staticHandler core build gzipVaryOn allocOk .on method uri req r = .declined r') :
    varyAcceptEncoding gzipVaryOn (allocOk .vary) r = some r' ∧
      accepts build req.isMain req.headersIn ≠ NGX_OK := by
  have hcase : StaticCase core build gzipVaryOn allocOk .on method uri req r _ :=
    staticHandler_cases
  generalize staticHandler core build gzipVaryOn allocOk .on method uri req r = o at h hcase
  cases hcase with
  | skipped hno => exact absurd hgo hno
  | missing _ hprobe' => cases hprobe.symm.trans hprobe'
  | directory _ hprobe' hdir' =>
    cases hprobe.symm.trans hprobe'
    cases hdir.symm.trans hdir'
  | refused _ _ _ _ hvary ha =>
    obtain rfl := StaticOutcome.declined.inj h
    exact ⟨hvary, ha⟩
  | negotiated => exact absurd h (serveFile_ne_declined _ _)
  | always => exact absurd h (serveFile_ne_declined _ _)
  | _ => cases h

theorem staticHandler_differ (hkeep : core.KeepsVary) {allocOk₁ allocOk₂ : StaticAlloc → Bool}
    {isMain ssl : Bool} {uri : Bytes} {h₁ h₂ : HeadersIn} {r₁ r₂ : Response}
    (hs : staticHandler core build gzipVaryOn allocOk₁ .on method uri ⟨isMain, ssl, h₁⟩ r =
      .served r₁)
    (hd : staticHandler core build gzipVaryOn allocOk₂ .on method uri ⟨isMain, ssl, h₂⟩ r =
      .declined r₂) :
    h₁.headers.field (ascii "Accept-Encoding") ≠ h₂.headers.field (ascii "Accept-Encoding") ∧
      Announced gzipVaryOn r₁ (ascii "Accept-Encoding") ∧
      Announced gzipVaryOn r₂ (ascii "Accept-Encoding") := by
  obtain ⟨info, s₁, hgo, hprobe, hdir, hv₁, ha₁, hserve⟩ := staticHandler_served hs
  obtain ⟨hv₂, ha₂⟩ := staticHandler_refused hgo hprobe hdir hd
  have hlatch : SameVary s₁ { s₁ with gzipTested := true, gzipOk := false } := ⟨rfl, rfl⟩
  refine ⟨fun h => ha₂ (accepts_congr h isMain ▸ ha₁), ?_, announced_varyAcceptEncoding hv₂⟩
  exact (hlatch.trans (serveFile_served hkeep hserve)).announced (announced_varyAcceptEncoding hv₁)

end Static

theorem selected_congr {build : Build} {decodeBase64 : Bytes → Option Bytes} {conf : Conf}
    {h₁ h₂ : HeadersIn}
    (h : ∀ name ∈ keyHeaders conf, h₁.headers.field name = h₂.headers.field name)
    (isMain ssl : Bool) : selected build decodeBase64 conf ⟨isMain, ssl, h₁⟩ =
      selected build decodeBase64 conf ⟨isMain, ssl, h₂⟩ := by
  have hae : ascii "Accept-Encoding" ∈ keyHeaders conf := by rw [keyHeaders]; split <;> simp
  rw [selected, selected, dcbNegotiate_congr h, accepts_congr (h _ hae)]

/-- Where the header filter selects two variants, or the static handler serves one request and
declines the other, the two requests differ in a header that both responses announce. -/
theorem variants_announced {core : Core} {staticCore : StaticCore} (hcore : core.KeepsVary)
    (hstatic : staticCore.KeepsVary) (build : Build) (decodeBase64 : Bytes → Option Bytes)
    (conf : Conf) (gzipVaryOn isMain ssl : Bool) (h₁ h₂ : HeadersIn) (r : Response) :
    (∀ allocOk₁ allocOk₂ bypassed r₁ r₂ ctx₁ ctx₂,
      headerFilter core build decodeBase64 conf gzipVaryOn allocOk₁ bypassed ⟨isMain, ssl, h₁⟩ r =
        .next r₁ ctx₁ →
      headerFilter core build decodeBase64 conf gzipVaryOn allocOk₂ bypassed ⟨isMain, ssl, h₂⟩ r =
        .next r₂ ctx₂ →
      variantOf ctx₁ ≠ variantOf ctx₂ →
      ∃ name ∈ keyHeaders conf, h₁.headers.field name ≠ h₂.headers.field name ∧
        Announced gzipVaryOn r₁ name ∧ Announced gzipVaryOn r₂ name) ∧
    ∀ allocOk₁ allocOk₂ method uri r₁ r₂,
      staticHandler staticCore build gzipVaryOn allocOk₁ .on method uri ⟨isMain, ssl, h₁⟩ r =
        .served r₁ →
      staticHandler staticCore build gzipVaryOn allocOk₂ .on method uri ⟨isMain, ssl, h₂⟩ r =
        .declined r₂ →
      h₁.headers.field (ascii "Accept-Encoding") ≠ h₂.headers.field (ascii "Accept-Encoding") ∧
        Announced gzipVaryOn r₁ (ascii "Accept-Encoding") ∧
        Announced gzipVaryOn r₂ (ascii "Accept-Encoding") := by
  refine ⟨?_, fun _ _ _ _ _ _ => staticHandler_differ hstatic⟩
  intro allocOk₁ allocOk₂ bypassed r₁ r₂ ctx₁ ctx₂ hrun₁ hrun₂ hne
  obtain ⟨hgate, rfl⟩ | ⟨⟨hskip, hby⟩, hv₁, p₁, s₁, -, he₁, hs₁⟩ := headerFilter_next hcore hrun₁
  · obtain ⟨-, rfl⟩ | ⟨⟨hskip, hby⟩, -⟩ := headerFilter_next hcore hrun₂
    · exact absurd rfl hne
    · simp [hskip, hby] at hgate
  · obtain ⟨hgate, -⟩ | ⟨-, hv₂, p₂, s₂, -, he₂, hs₂⟩ := headerFilter_next hcore hrun₂
    · simp [hskip, hby] at hgate
    by_contra hnone
    push Not at hnone
    refine hne (hv₁.trans ((selected_congr (fun name hname => ?_) isMain ssl).trans hv₂.symm))
    by_contra hf
    exact hnone name hname hf (hs₁.announced (announced_emitVary he₁ name hname))
      (hs₂.announced (announced_emitVary he₂ name hname))

theorem Core.plain_keepsVary : Core.plain.KeepsVary :=
  ⟨fun _ => ⟨rfl, rfl⟩, fun _ => ⟨rfl, rfl⟩, .refl⟩

def StaticCore.sidecar : StaticCore where
  mapUriToPath := some
  setDisableSymlinks _ := NGX_OK
  openCachedFile path := if path = ascii "/a.br" then .ok ⟨false, true, 40⟩ else .error 2
  discardRequestBody := NGX_OK
  setEtag r := (NGX_OK, r)
  setContentType r := (NGX_OK, r)

theorem StaticCore.sidecar_keepsVary : StaticCore.sidecar.KeepsVary := ⟨.refl, .refl⟩

/-- A request for `br` and one for `gzip` at a location without dictionaries. -/
theorem variants_announced_sample :
    let conf : Conf := ⟨true, 20, -1, false, [], [], false, 6, 0⟩
    let accept (v : String) : HeadersIn := .of (.ofList [⟨1, ascii "Accept-Encoding", ascii v⟩])
    let r : Response :=
      ⟨200, false, none, 100, true, none, none, .ofList [], 20, false, false, false, false⟩
    let r₁ : Response := ⟨200, false, some (ascii "br"), -1, false, none, none,
      .ofList
        [⟨1, ascii "Vary", ascii "Accept-Encoding"⟩, ⟨1, ascii "Content-Encoding", ascii "br"⟩],
      20, true, true, false, true⟩
    let r₂ : Response := { r with
      headers := .ofList [⟨1, ascii "Vary", ascii "Accept-Encoding"⟩], gzipVary := true }
    let s₁ : Response :=
      { r₁ with contentLengthN := 40, allowRanges := true, filterNeedInMemory := false }
    (∃ name ∈ keyHeaders conf,
      (accept "br").headers.field name ≠ (accept "gzip").headers.field name ∧
        Announced false r₁ name ∧ Announced false r₂ name) ∧
    Announced false s₁ (ascii "Accept-Encoding") := by
  intro conf accept r r₁ r₂ s₁
  have h := variants_announced Core.plain_keepsVary StaticCore.sidecar_keepsVary .chained
    Base64.decode conf false true false (accept "br") (accept "gzip") r
  refine ⟨h.1 (fun _ => true) (fun _ => true) false r₁ r₂ (some ⟨100, none⟩) none
    (by decide +kernel) (by decide +kernel) (by decide), ?_⟩
  exact (h.2 (fun _ => true) (fun _ => true) .get (ascii "/a") s₁ r₂
    (by decide +kernel) (by decide +kernel)).2.1

/-- With the core directive off the filter leaves one Accept-Encoding token if and only if it does
not add the combined line of a location with dictionaries to one that is there. -/
theorem varyCount_headerFilter {core : Core} {build : Build} {decodeBase64 : Bytes → Option Bytes}
    {conf : Conf} {allocOk : AllocSite → Bool} {bypassed : Bool} {req : Request}
    {r r' : Response} {ctx : Option FilterCtx} (hcore : core.KeepsVary)
    (hone : varyCount (ascii "Accept-Encoding") r.headers ≤ 1)
    (hvary : ∀ t ∈ tokens conf.bypassVary, ¬EqNoCase t (ascii "Accept-Encoding"))
    (hskip : headerFilterSkips core conf r = false) (hbypass : (conf.bypass && bypassed) = false)
    (h : headerFilter core build decodeBase64 conf false allocOk bypassed req r = .next r' ctx) :
    varyCount (ascii "Accept-Encoding") r'.headers = 1 ↔
      conf.dcbDicts = [] ∨ varyCount (ascii "Accept-Encoding") r.headers = 0 := by
  obtain ⟨hgate, -⟩ | ⟨-, -, r₁, r₂, hp, he, hs⟩ := headerFilter_next hcore h
  · simp [hskip, hbypass] at hgate
  have hcount : varyCount (ascii "Accept-Encoding") r₁.headers =
      varyCount (ascii "Accept-Encoding") r.headers := by
    unfold pushBypassVary at hp
    split at hp
    · rw [varyCount, varyTokens_push hp, List.countP_append, varyCount, Nat.add_eq_left,
        List.countP_eq_zero]
      simpa using hvary
    · rw [Option.some.inj hp]
  rw [hs.varyCount_eq, ← hcount]
  rw [← hcount] at hone
  unfold emitVary at he
  split at he
  case isTrue hd =>
    have hline :
        (tokens dcbVaryValue).countP (fun t => EqNoCase t (ascii "Accept-Encoding")) = 1 := by
      decide
    rw [varyCount, varyTokens_push he, List.countP_append, hline, ← varyCount]
    simp [hd]
  case isFalse hd =>
    rw [ne_eq, not_not] at hd
    refine iff_of_true ?_ (.inl hd)
    rw [varyCount, varyAcceptEncoding_off he, List.countP_append, ← varyCount]
    by_cases hz : varyCount (ascii "Accept-Encoding") r₁.headers = 0
    · rw [if_pos hz, hz]
      decide
    · rw [if_neg hz, List.countP_nil]
      omega

/-- A location with one dictionary, and what it leaves of a response without Vary. -/
theorem varyCount_headerFilter_sample :
    let r' : Response := ⟨200, false, none, 100, true, none, none,
      .ofList [⟨1, ascii "Vary", dcbVaryValue⟩], 20, false, false, false, false⟩
    varyCount (ascii "Accept-Encoding") r'.headers = 1 := by
  intro r'
  let dict : DcbDict := ⟨[], [], List.replicate 32 0, List.length_replicate⟩
  exact (@varyCount_headerFilter Core.plain .chained Base64.decode
    ⟨true, 20, -1, false, [], [dict], false, 6, 0⟩ (fun _ => true) false
    ⟨true, true, .of (.ofList [])⟩ { r' with headers := .ofList [] } r' none Core.plain_keepsVary
    (by decide) (by decide) (by decide +kernel) (by decide) (by decide +kernel)).mpr
    (.inr (by decide))

/-- With a dictionary the line that the origin or the static handler left is doubled. -/
theorem varyCount_headerFilter_doubled :
    ¬∀ (core : Core) (build : Build) (decodeBase64 : Bytes → Option Bytes) (conf : Conf)
      (allocOk : AllocSite → Bool) (bypassed : Bool) (req : Request) (r r' : Response)
      (ctx : Option FilterCtx), core.KeepsVary →
      varyCount (ascii "Accept-Encoding") r.headers ≤ 1 →
      (∀ t ∈ tokens conf.bypassVary, ¬EqNoCase t (ascii "Accept-Encoding")) →
      headerFilterSkips core conf r = false → (conf.bypass && bypassed) = false →
      headerFilter core build decodeBase64 conf false allocOk bypassed req r = .next r' ctx →
      varyCount (ascii "Accept-Encoding") r'.headers = 1 := by
  intro h
  let dict : DcbDict := ⟨[], [], List.replicate 32 0, List.length_replicate⟩
  let r : Response := ⟨200, false, none, 100, true, none, none,
    .ofList [⟨1, ascii "Vary", ascii "Accept-Encoding"⟩], 20, true, false, false, false⟩
  let doubled : List TableElt :=
    [⟨1, ascii "Vary", ascii "Accept-Encoding"⟩, ⟨1, ascii "Vary", dcbVaryValue⟩]
  let r' : Response := { r with headers := .ofList doubled }
  have hdouble := h Core.plain .chained Base64.decode ⟨true, 20, -1, false, [], [dict], false, 6, 0⟩
    (fun _ => true) false ⟨true, true, .of (.ofList [])⟩ r r' none Core.plain_keepsVary
    (by decide) (by decide) (by decide +kernel) (by decide) (by decide +kernel)
  exact absurd hdouble (by decide)

end NgxBrotli
