import NgxBrotli.Delivery

namespace NgxBrotli
open Runs

/-- The codings of the live Content-Encoding lines; an empty line names none. -/
def codings (r : Response) : List Bytes :=
  (r.headers.lines (ascii "Content-Encoding")).filter fun v => !v.isEmpty

/-- The functions of the core edit what they are named for, and no line of Content-Encoding. -/
structure Core.Announces (core : Core) : Prop where
  clearContentLength (r : Response) : codings (core.clearContentLength r) = codings r ∧
    (core.clearContentLength r).contentLengthN = -1
  clearAcceptRanges (r : Response) : codings (core.clearAcceptRanges r) = codings r ∧
    (core.clearAcceptRanges r).contentLengthN = r.contentLengthN ∧
    (core.clearAcceptRanges r).allowRanges = false
  weakEtag (r : Response) : codings (core.weakEtag r) = codings r ∧
    (core.weakEtag r).contentLengthN = r.contentLengthN ∧
    (core.weakEtag r).allowRanges = r.allowRanges

structure StaticCore.Announces (core : StaticCore) : Prop where
  setEtag (r : Response) : codings (core.setEtag r).2 = codings r ∧
    (core.setEtag r).2.contentLengthN = r.contentLengthN
  setContentType (r : Response) : codings (core.setContentType r).2 = codings r ∧
    (core.setContentType r).2.contentLengthN = r.contentLengthN

section

variable {r r' : Response}

theorem codings_push {allocOk : Bool} {coding : Bytes} (hne : coding ≠ [])
    (h : r.push allocOk (ascii "Content-Encoding") coding = some r') :
    codings r' = codings r ++ [coding] := by
  have hm : matchesName (ascii "Content-Encoding") (ascii "Content-Encoding") = true := by decide
  rw [codings, lines_push h, if_pos hm, List.filter_append, codings]
  simp [hne]

theorem contentLengthN_push {allocOk : Bool} {key value : Bytes}
    (h : r.push allocOk key value = some r') : r'.contentLengthN = r.contentLengthN := by
  unfold Response.push at h
  obtain ⟨headers, -, rfl⟩ := Option.map_eq_some_iff.mp h
  rfl

theorem VaryAdded.codings (h : VaryAdded r r') : codings r' = codings r := by
  obtain ⟨added, hadded, hlines⟩ := h.headers
  have hnone : added.filter (·.isLive (ascii "Content-Encoding")) = [] := by
    rw [List.filter_eq_nil_iff]
    intro e he
    have hm : matchesName (ascii "Vary") (ascii "Content-Encoding") = false := by decide
    rw [TableElt.isLive, (hlines e he).2, hm, Bool.and_false]
    exact Bool.false_ne_true
  rw [NgxBrotli.codings, HeaderList.lines, hadded, List.filter_append, hnone, List.append_nil]
  rfl

end

section

variable {core : Core} {build : Build} {decodeBase64 : Bytes → Option Bytes} {conf : Conf}
  {gzipVaryOn : Bool} {allocOk : AllocSite → Bool} {bypassed : Bool} {req : Request}
  {r r' : Response} {ctx : FilterCtx}

theorem headerFilter_committed
    (h : headerFilter core build decodeBase64 conf gzipVaryOn allocOk bypassed req r =
      .next r' (some ctx)) :
    ∃ q dcb, VaryAdded r q ∧
      commitEncoding core allocOk dcb { q with gzipTested := true, gzipOk := false } =
        .next r' (some ctx) := by
  obtain ⟨r₁, r₂, hbypass, hemit, h⟩ := headerFilter_negotiated h
  have hvary := (varyAdded_pushBypassVary hbypass).trans (varyAdded_emitVary hemit)
  obtain ⟨d, -, h⟩ | ⟨-, ⟨-, h⟩ | ⟨-, -, hctx⟩⟩ := negotiateEncoding_cases h
  · exact ⟨r₂, some d, hvary, h⟩
  · exact ⟨r₂, none, hvary, h⟩
  · cases hctx

theorem headerFilter_announces (hkeep : core.KeepsEncoding) (hcore : core.Announces)
    (h : headerFilter core build decodeBase64 conf gzipVaryOn allocOk bypassed req r =
      .next r' (some ctx)) :
    codings r' = codings r ++ r'.contentEncoding.toList ∧ r'.contentLengthN = -1 ∧
      r'.allowRanges = false := by
  obtain ⟨q, dcb, hvary, hcommit⟩ := headerFilter_committed h
  have hcoding := (commitEncoding_encoding hkeep hcommit).2
  obtain ⟨-, p, hp, rfl⟩ := commitEncoding_cases hcommit
  have hne : (if dcb.isSome then ascii "dcb" else ascii "br") ≠ [] := by
    split <;> decide
  have hpush := codings_push hne hp
  refine ⟨?_, ?_, ?_⟩
  · rw [(hcore.weakEtag _).1, (hcore.clearAcceptRanges _).1,
      (hcore.clearContentLength _).1, hcoding]
    exact hpush.trans (congrArg (· ++ _) hvary.codings)
  · rw [(hcore.weakEtag _).2.1, (hcore.clearAcceptRanges _).2.1, (hcore.clearContentLength _).2]
  · rw [(hcore.weakEtag _).2.2, (hcore.clearAcceptRanges _).2.2]

theorem headerFilter_coded {coding : Bytes} (hcoding : r.contentEncoding = some coding)
    (hne : coding ≠ []) :
    headerFilter core build decodeBase64 conf gzipVaryOn allocOk bypassed req r = .next r none := by
  rw [headerFilter, if_pos]
  simp [headerFilterSkips, hcoding, hne]

end

section

variable {core : StaticCore} {build : Build} {gzipVaryOn : Bool} {allocOk : StaticAlloc → Bool}
  {enable : StaticEnable} {method : Method} {uri : Bytes} {req : Request} {r r' : Response}

theorem serveFile_announces (hcore : core.Announces) {info : FileInfo}
    (h : serveFile core allocOk method info r = .served r') :
    codings r' = codings r ++ [ascii "br"] ∧ r'.contentEncoding = some (ascii "br") ∧
      r'.contentLengthN = info.size := by
  obtain ⟨p, hp, rfl⟩ := serveFile_cases h
  refine ⟨?_, rfl, ?_⟩
  · refine (codings_push (by decide) hp).trans ?_
    rw [(hcore.setContentType _).1, (hcore.setEtag _).1]
    rfl
  · show p.contentLengthN = _
    rw [contentLengthN_push hp, (hcore.setContentType _).2, (hcore.setEtag _).2]

theorem staticHandler_announces (hcore : core.Announces)
    (h : staticHandler core build gzipVaryOn allocOk enable method uri req r = .served r') :
    ∃ info, core.probe uri = some (.ok info) ∧ codings r' = codings r ++ [ascii "br"] ∧
      r'.contentEncoding = some (ascii "br") ∧ r'.contentLengthN = info.size := by
  have hcase : StaticCase core build gzipVaryOn allocOk enable method uri req r _ :=
    staticHandler_cases
  generalize staticHandler core build gzipVaryOn allocOk enable method uri req r = o at h hcase
  cases hcase with
  | negotiated _ hprobe _ _ hvary =>
    obtain ⟨hcodings, hcoding, hlength⟩ := serveFile_announces hcore h
    have hsame := (varyAdded_varyAcceptEncoding hvary).codings
    exact ⟨_, hprobe, hcodings.trans (congrArg (· ++ _) hsame), hcoding, hlength⟩
  | always _ hprobe => exact ⟨_, hprobe, serveFile_announces hcore h⟩
  | skipped => cases h
  | broken => cases h
  | missing => cases h
  | directory => cases h
  | special => cases h
  | varyFailed => cases h
  | refused => cases h

end

/-- What the content phase makes of a request for a file: the response and its body, the sidecar
where the handler serves it; the handlers behind it send the file. -/
def contentPhase (handler : Response → StaticOutcome) (rest : Response → Response)
    (file sidecar : Bytes) (r : Response) : Option (Response × Bytes) :=
  match handler r with
  | .declined r => some (rest r, file)
  | .status .. => none
  | .served r => some (r, sidecar)

/-- The handlers behind the static one send the file without a coding, with its length or none. -/
structure SendsFile (rest : Response → Response) (file : Bytes) : Prop where
  identity (r : Response) (h : r.contentEncoding = none) : (rest r).contentEncoding = none
  codings (r : Response) : codings (rest r) = codings r
  length (r : Response) : (rest r).contentLengthN = -1 ∨ (rest r).contentLengthN = file.length

/-- Whoever sends it, a client gets the file: what is sent is coded once at most, as it is
announced, a length that is announced is the one that is sent, and ranges are those of what the
content phase made. -/
theorem resource_delivered {σ : Type} {enc : Encoder σ} (spec : enc.Contract)
    {dec : Option Bytes → Bytes → Option Bytes} (hdec : enc.DecodedBy dec) {core : Core}
    (hkeep : core.KeepsEncoding) (hlatch : core.KeepsLatch) (hcore : core.Announces)
    {staticCore : StaticCore} (hstatic : staticCore.Announces) {build : Build}
    {decodeBase64 : Bytes → Option Bytes} {conf : Conf} {gzipVaryOn : Bool}
    {allocOk : AllocSite → Bool} {staticAllocOk : StaticAlloc → Bool} {enable : StaticEnable}
    {method : Method} {uri : Bytes} {req : Request} {bypassed buffered : Bool}
    {rest : Response → Response} {file sidecar content : Bytes} {dictionary : Option Bytes}
    (hkeys : ∀ d ∈ conf.dcbDicts, d.hash = Sha2.digest d.bytes)
    (hclient : ∀ key, advertisedKey decodeBase64 req.headersIn.headers = some key →
      ∃ d, dictionary = some d ∧ key = Sha2.digest d)
    (hcollision : ∀ d ∈ conf.dcbDicts, ∀ d', dictionary = some d' →
      Sha2.digest d.bytes = Sha2.digest d' → d.bytes = d')
    (hrest : SendsFile rest file) (hsidecar : dec none sidecar = some file)
    (hsize : ∀ info, staticCore.probe uri = some (.ok info) → info.size = sidecar.length)
    {r r₁ r' : Response} {ctx : Option FilterCtx} (hidentity : r.contentEncoding = none)
    (hcodings : codings r = [])
    (hcontent : contentPhase
      (staticHandler staticCore build gzipVaryOn staticAllocOk enable method uri req) rest
        file sidecar
      r = some (r₁, content))
    (hheader : headerFilter core build decodeBase64 conf gzipVaryOn allocOk bypassed req r₁ =
      .next r' ctx)
    {st : Stream σ} (h : Reachable (streamStep enc conf false) (Stream.start ctx buffered) st)
    (hdone : st.completed = true) (hbody : bodyBytes (suppliedBufs st.trace) = content)
    (hfinal : FinalOnly (suppliedBufs st.trace)) :
    let sent := bodyBytes (sentBufs st.trace)
    receive dec dictionary r'.contentEncoding sent = some file ∧
      codings r' = r'.contentEncoding.toList ∧
      (r'.contentLengthN = -1 ∨ r'.contentLengthN = sent.length) ∧
      (r'.allowRanges = true → sent = content) := by
  intro sent
  have hforward (hctx : ctx = none) : sent = content := by
    subst hctx
    exact (sent_of_forwards (forwards_of_reach h)).trans hbody
  unfold contentPhase at hcontent
  split at hcontent
  case h_1 r₂ hdeclined =>
    obtain ⟨rfl, rfl⟩ := Prod.mk.inj (Option.some.inj hcontent)
    have hvary := staticHandler_declined hdeclined
    have hcoding : (rest r₂).contentEncoding = none :=
      hrest.identity r₂ (by rw [hvary.rest, hidentity])
    have hnone : codings (rest r₂) = [] := by rw [hrest.codings, hvary.codings, hcodings]
    cases ctx with
    | none =>
      -- no module takes it on
      obtain ⟨-, hpassed⟩ :=
        (headerFilter_latch hlatch hheader).resolve_right fun hctx => hctx.1 rfl
      have hcoding' : r'.contentEncoding = none := by rw [hpassed.rest, hcoding]
      have hlength : r'.contentLengthN = (rest r₂).contentLengthN := by rw [hpassed.rest]
      rw [hcoding', hforward rfl, hlength, hpassed.codings, hnone]
      exact ⟨if_pos rfl, rfl, hrest.length r₂, fun _ => rfl⟩
    | some ctx =>
      obtain ⟨w, rfl, hw⟩ := filtered_of_reach h
      obtain ⟨hcodings', hlength, hranges⟩ := headerFilter_announces hkeep hcore hheader
      refine ⟨?_, by rw [hcodings', hnone, List.nil_append], .inl hlength, fun hr => ?_⟩
      · rw [← hbody]
        exact received_of_success spec hdec hkeep hkeys hclient hcollision hheader hw hdone hfinal
      · cases hranges.symm.trans hr
  case h_2 => cases hcontent
  case h_3 r₂ hserved =>
    -- the filters let a sidecar pass
    obtain ⟨rfl, rfl⟩ := Prod.mk.inj (Option.some.inj hcontent)
    obtain ⟨info, hprobe, hcodings', hcoding, hlength⟩ := staticHandler_announces hstatic hserved
    rw [headerFilter_coded hcoding (by decide)] at hheader
    obtain ⟨rfl, rfl⟩ := HeaderOutcome.next.inj hheader
    rw [hforward rfl, hcodings', hcodings, hcoding, hlength, hsize info hprobe]
    exact ⟨(receive_br dec dictionary sidecar).trans hsidecar, rfl, .inr rfl, fun _ => rfl⟩

theorem Core.plain_announces : Core.plain.Announces :=
  ⟨fun _ => ⟨rfl, rfl⟩, fun _ => ⟨rfl, rfl, rfl⟩, fun _ => ⟨rfl, rfl, rfl⟩⟩

theorem StaticCore.sidecar_announces : StaticCore.sidecar.Announces :=
  ⟨fun _ => ⟨rfl, rfl⟩, fun _ => ⟨rfl, rfl⟩⟩

/-- A file of 39 bytes, and a sidecar of one stored block for a client that takes br. -/
theorem resource_delivered_sidecar :
    let file : Bytes := List.replicate 39 0x61
    let sidecar : Bytes := file ++ [0x03]
    let r : Response :=
      ⟨200, false, none, -1, false, none, none, .ofList [], 20, false, false, false, false⟩
    let req : Request := ⟨true, false, .of (.ofList [⟨1, ascii "Accept-Encoding", ascii "br"⟩])⟩
    let rest (r : Response) : Response := { r with contentLengthN := 39, allowRanges := true }
    let labels : List Label := [.call .fine [⟨sidecar, false, true⟩]]
    ∃ r₁ st, contentPhase (staticHandler StaticCore.sidecar .chained false (fun _ => true) .on .get
        (ascii "/a") req) rest file sidecar r = some (r₁, sidecar) ∧
      headerFilter Core.plain .chained Base64.decode .plain false (fun _ => true) false req r₁ =
        .next r₁ none ∧
      run (streamStep blockEncoder .plain false) labels (Stream.start none false) = some st ∧
      receive blockDecode none r₁.contentEncoding (bodyBytes (sentBufs st.trace)) = some file ∧
      codings r₁ = [ascii "br"] ∧ r₁.contentLengthN = 40 := by
  intro file sidecar r req rest labels
  have hcontent :
      ∃ r₁, contentPhase (staticHandler StaticCore.sidecar .chained false (fun _ => true)
          .on .get (ascii "/a") req) rest file sidecar r = some (r₁, sidecar) ∧
        r₁.contentEncoding = some (ascii "br") ∧ r₁.contentLengthN = 40 := by
    refine ⟨⟨200, false, some (ascii "br"), 40, true, none, none,
      .ofList
        [⟨1, ascii "Vary", ascii "Accept-Encoding"⟩, ⟨1, ascii "Content-Encoding", ascii "br"⟩],
      20, true, true, false, false⟩, ?_, rfl, rfl⟩
    decide +kernel
  obtain ⟨r₁, hcontent, hcoding, hlength⟩ := hcontent
  have hprobe (info : FileInfo) (h : StaticCore.sidecar.probe (ascii "/a") = some (.ok info)) :
      info.size = sidecar.length := by
    have hfound : StaticCore.sidecar.probe (ascii "/a") = some (.ok ⟨false, true, 40⟩) := by
      decide +kernel
    rw [hfound] at h
    cases h
    rfl
  have hclient (key : Bytes) (h : advertisedKey Base64.decode req.headersIn.headers = some key) :
      ∃ d, (none : Option Bytes) = some d ∧ key = Sha2.digest d := by
    have hkey : advertisedKey Base64.decode req.headersIn.headers = none := by decide +kernel
    rw [hkey] at h
    cases h
  have hrest : SendsFile rest file := ⟨fun _ h => h, fun _ => rfl, fun _ => .inr rfl⟩
  have hheader :
      headerFilter Core.plain .chained Base64.decode .plain false (fun _ => true) false req
      r₁ = .next r₁ none := headerFilter_coded hcoding (by decide)
  have hrun : run (streamStep blockEncoder .plain false) labels (Stream.start none false) =
      some (.untouched false (.returned NGX_OK) [.call [⟨sidecar, false, true⟩],
        .forward [⟨sidecar, false, true⟩]]) := rfl
  obtain ⟨hreceived, hcodings, -, -⟩ := resource_delivered blockContract blockEncoder_decodedBy
    Core.plain_keepsEncoding Core.plain_keepsLatch Core.plain_announces StaticCore.sidecar_announces
    (by simp [Conf.plain]) hclient (by simp [Conf.plain]) hrest rfl hprobe rfl rfl hcontent
    hheader (Reachable.run .init hrun) rfl rfl (by decide)
  exact ⟨r₁, _, hcontent, hheader, hrun, hreceived, by rw [hcodings, hcoding]; rfl, hlength⟩

end NgxBrotli
