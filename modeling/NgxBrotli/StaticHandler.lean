import NgxBrotli.HeaderFilter

namespace NgxBrotli

inductive StaticEnable
  | off
  | on
  | always
  deriving DecidableEq, Repr

inductive Method
  | get
  | head
  | other
  deriving DecidableEq, Repr

/-- `ngx_open_file_info_t` after the file was opened. -/
structure FileInfo where
  isDir : Bool
  isFile : Bool
  size : ℕ
  deriving DecidableEq, Repr

/-- Functions of the core: `ngx_http_map_uri_to_path`, `ngx_http_set_disable_symlinks`,
`ngx_open_cached_file` with the errno it leaves, `ngx_http_discard_request_body`,
`ngx_http_set_etag` and `ngx_http_set_content_type`. -/
structure StaticCore where
  mapUriToPath : Bytes → Option Bytes
  setDisableSymlinks : Bytes → Int
  openCachedFile : Bytes → Except ℕ FileInfo
  discardRequestBody : Int
  setEtag : Response → Int × Response
  setContentType : Response → Int × Response

/-- The allocations of the handler, in order. -/
inductive StaticAlloc
  | vary
  | contentEncoding
  | buf
  | file
  deriving DecidableEq, Repr

/-- How the handler returns: declined, with a status, or past `ngx_http_send_header`. -/
inductive StaticOutcome
  | declined (r : Response)
  | status (rc : Int) (r : Response)
  | served (r : Response)
  deriving DecidableEq

abbrev NGX_HTTP_INTERNAL_SERVER_ERROR : Int := 500

section

variable (core : StaticCore) (build : Build) (gzipVaryOn : Bool) (allocOk : StaticAlloc → Bool)

/-- The response of a sidecar of `info.size` bytes. -/
def serveFile (method : Method) (info : FileInfo) (r : Response) : StaticOutcome :=
  if core.discardRequestBody ≠ NGX_OK then .status core.discardRequestBody r
  else
    let r := { r with status := NGX_HTTP_OK, contentLengthN := info.size }
    let (rc, r) := core.setEtag r
    if rc ≠ NGX_OK then .status NGX_HTTP_INTERNAL_SERVER_ERROR r
    else
      let (rc, r) := core.setContentType r
      if rc ≠ NGX_OK then .status NGX_HTTP_INTERNAL_SERVER_ERROR r
      else
        match r.push (allocOk .contentEncoding) (ascii "Content-Encoding") (ascii "br") with
        | none => .status NGX_HTTP_INTERNAL_SERVER_ERROR r
        | some r =>
          let r := { r with contentEncoding := some (ascii "br"), allowRanges := true }
          if method = .head then .served r
          else if !allocOk .buf || !allocOk .file then .status NGX_HTTP_INTERNAL_SERVER_ERROR r
          else .served r

/-- `check_eligility` -/
def checkEligility (req : Request) : Int := accepts build req.isMain req.headersIn

/-- `handler` -/
def staticHandler (enable : StaticEnable) (method : Method) (uri : Bytes) (req : Request)
    (r : Response) : StaticOutcome :=
  if method = .other then .declined r
  else if uri.getLast? = some SLASH then .declined r
  else if enable = .off then .declined r
  else
    match core.mapUriToPath uri with
    | none => .status NGX_HTTP_INTERNAL_SERVER_ERROR r
    | some path =>
      let path := path ++ ascii ".br"
      if core.setDisableSymlinks path ≠ NGX_OK then .status NGX_HTTP_INTERNAL_SERVER_ERROR r
      else
        match core.openCachedFile path with
        | .error err =>
          -- every errno declines; the source only logs them at different levels
          if err = 0 then .status NGX_HTTP_INTERNAL_SERVER_ERROR r else .declined r
        | .ok info =>
          if info.isDir then .declined r
          else if !info.isFile then .status NGX_HTTP_NOT_FOUND r
          else if enable = .on then
            match varyAcceptEncoding gzipVaryOn (allocOk .vary) r with
            | none => .status NGX_HTTP_INTERNAL_SERVER_ERROR r
            | some r =>
              if checkEligility build req ≠ NGX_OK then .declined r
              else serveFile core allocOk method info { r with gzipTested := true, gzipOk := false }
          else serveFile core allocOk method info r

end

/-- The handler looks for a sidecar. -/
structure Probes (enable : StaticEnable) (method : Method) (uri : Bytes) : Prop where
  method : method ≠ .other
  file : uri.getLast? ≠ some SLASH
  enabled : enable ≠ .off

/-- What it finds; `none` where there is no path to open. -/
def StaticCore.probe (core : StaticCore) (uri : Bytes) : Option (Except ℕ FileInfo) :=
  (core.mapUriToPath uri).bind fun path =>
    if core.setDisableSymlinks (path ++ ascii ".br") = NGX_OK then
      some (core.openCachedFile (path ++ ascii ".br"))
    else none

variable {core : StaticCore} {build : Build} {gzipVaryOn : Bool} {allocOk : StaticAlloc → Bool}
  {enable : StaticEnable} {method : Method} {uri : Bytes} {req : Request} {r r' : Response}

/-- One case for each way through the handler. -/
inductive StaticCase (core : StaticCore) (build : Build) (gzipVaryOn : Bool)
    (allocOk : StaticAlloc → Bool) (enable : StaticEnable) (method : Method) (uri : Bytes)
    (req : Request) (r : Response) : StaticOutcome → Prop
  | skipped (h : ¬Probes enable method uri) :
      StaticCase core build gzipVaryOn allocOk enable method uri req r (.declined r)
  | broken (h : Probes enable method uri)
      (hprobe : core.probe uri = none ∨ core.probe uri = some (.error 0)) :
      StaticCase core build gzipVaryOn allocOk enable method uri req r
        (.status NGX_HTTP_INTERNAL_SERVER_ERROR r)
  | missing {err : ℕ} (h : Probes enable method uri) (hprobe : core.probe uri = some (.error err))
      (herr : err ≠ 0) :
      StaticCase core build gzipVaryOn allocOk enable method uri req r (.declined r)
  | directory {info : FileInfo} (h : Probes enable method uri)
      (hprobe : core.probe uri = some (.ok info)) (hdir : info.isDir = true) :
      StaticCase core build gzipVaryOn allocOk enable method uri req r (.declined r)
  | special {info : FileInfo} (h : Probes enable method uri)
      (hprobe : core.probe uri = some (.ok info)) (hdir : info.isDir = false)
      (hfile : info.isFile = false) :
      StaticCase core build gzipVaryOn allocOk enable method uri req r
        (.status NGX_HTTP_NOT_FOUND r)
  | varyFailed {info : FileInfo} (h : Probes enable method uri)
      (hprobe : core.probe uri = some (.ok info)) (hfile : info.isDir = false ∧ info.isFile = true)
      (hon : enable = .on) (hvary : varyAcceptEncoding gzipVaryOn (allocOk .vary) r = none) :
      StaticCase core build gzipVaryOn allocOk enable method uri req r
        (.status NGX_HTTP_INTERNAL_SERVER_ERROR r)
  | refused {info : FileInfo} {r' : Response} (h : Probes enable method uri)
      (hprobe : core.probe uri = some (.ok info)) (hfile : info.isDir = false ∧ info.isFile = true)
      (hon : enable = .on) (hvary : varyAcceptEncoding gzipVaryOn (allocOk .vary) r = some r')
      (haccepts : accepts build req.isMain req.headersIn ≠ NGX_OK) :
      StaticCase core build gzipVaryOn allocOk enable method uri req r (.declined r')
  | negotiated {info : FileInfo} {r' : Response} (h : Probes enable method uri)
      (hprobe : core.probe uri = some (.ok info)) (hfile : info.isDir = false ∧ info.isFile = true)
      (hon : enable = .on) (hvary : varyAcceptEncoding gzipVaryOn (allocOk .vary) r = some r')
      (haccepts : accepts build req.isMain req.headersIn = NGX_OK) :
      StaticCase core build gzipVaryOn allocOk enable method uri req r
        (serveFile core allocOk method info { r' with gzipTested := true, gzipOk := false })
  | always {info : FileInfo} (h : Probes enable method uri)
      (hprobe : core.probe uri = some (.ok info)) (hfile : info.isDir = false ∧ info.isFile = true)
      (hon : enable ≠ .on) :
      StaticCase core build gzipVaryOn allocOk enable method uri req r
        (serveFile core allocOk method info r)

theorem staticHandler_cases :
    StaticCase core build gzipVaryOn allocOk enable method uri req r
      (staticHandler core build gzipVaryOn allocOk enable method uri req r) := by
  unfold staticHandler
  by_cases hm : method = .other
  · rw [if_pos hm]
    exact .skipped fun h => h.method hm
  rw [if_neg hm]
  by_cases hu : uri.getLast? = some SLASH
  · rw [if_pos hu]
    exact .skipped fun h => h.file hu
  rw [if_neg hu]
  by_cases he : enable = .off
  · rw [if_pos he]
    exact .skipped fun h => h.enabled he
  rw [if_neg he]
  have hgo : Probes enable method uri := ⟨hm, hu, he⟩
  cases hpath : core.mapUriToPath uri with
  | none => exact .broken hgo (.inl (by rw [StaticCore.probe, hpath]; rfl))
  | some path =>
    dsimp only
    by_cases hl : core.setDisableSymlinks (path ++ ascii ".br") = NGX_OK
    case neg =>
      rw [if_pos hl]
      exact .broken hgo (.inl (by rw [StaticCore.probe, hpath, Option.bind_some, if_neg hl]))
    rw [if_neg (not_not.mpr hl)]
    have hprobe : core.probe uri = some (core.openCachedFile (path ++ ascii ".br")) := by
      rw [StaticCore.probe, hpath, Option.bind_some, if_pos hl]
    cases ho : core.openCachedFile (path ++ ascii ".br") with
    | error err =>
      rw [ho] at hprobe
      dsimp only
      by_cases herr : err = 0
      · rw [if_pos herr]
        exact .broken hgo (.inr (herr ▸ hprobe))
      · rw [if_neg herr]
        exact .missing hgo hprobe herr
    | ok info =>
      rw [ho] at hprobe
      dsimp only
      cases hdir : info.isDir with
      | true => exact .directory hgo hprobe hdir
      | false =>
        rw [if_neg Bool.false_ne_true]
        cases hfile : info.isFile with
        | false => exact .special hgo hprobe hdir hfile
        | true =>
          rw [Bool.not_true, if_neg Bool.false_ne_true]
          by_cases hon : enable = .on
          · rw [if_pos hon]
            split
            case h_1 hvary => exact .varyFailed hgo hprobe ⟨hdir, hfile⟩ hon hvary
            case h_2 r' hvary =>
              by_cases ha : checkEligility build req = NGX_OK
              · rw [if_neg (not_not.mpr ha)]
                exact .negotiated hgo hprobe ⟨hdir, hfile⟩ hon hvary ha
              · rw [if_pos ha]
                exact .refused hgo hprobe ⟨hdir, hfile⟩ hon hvary ha
          · rw [if_neg hon]
            exact .always hgo hprobe ⟨hdir, hfile⟩ hon

theorem serveFile_cases {info : FileInfo} (h : serveFile core allocOk method info r = .served r') :
    ∃ p, Response.push
        (core.setContentType
          (core.setEtag { r with status := NGX_HTTP_OK, contentLengthN := info.size }).2).2
        (allocOk .contentEncoding) (ascii "Content-Encoding") (ascii "br") = some p ∧
      r' = { p with contentEncoding := some (ascii "br"), allowRanges := true } := by
  simp only [serveFile] at h
  split at h
  · cases h
  split at h
  · cases h
  split at h
  · cases h
  split at h
  · cases h
  case h_2 p hp =>
    refine ⟨p, hp, ?_⟩
    split at h
    · exact (StaticOutcome.served.inj h).symm
    · split at h
      · cases h
      · exact (StaticOutcome.served.inj h).symm

theorem serveFile_ne_declined (info : FileInfo) (s : Response) :
    serveFile core allocOk method info s ≠ .declined r := by
  unfold serveFile
  grind

end NgxBrotli
