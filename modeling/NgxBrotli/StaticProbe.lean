import NgxBrotli.Declined

namespace NgxBrotli

variable {core : StaticCore} {build : Build} {gzipVaryOn : Bool} {allocOk : StaticAlloc → Bool}
  {method : Method} {uri : Bytes} {req : Request} {r : Response}

/-- The probe finds something special: a FIFO, a socket or a device. -/
def FindsSpecial (core : StaticCore) (uri : Bytes) : Prop :=
  ∃ info, core.probe uri = some (.ok info) ∧ info.isDir = false ∧ info.isFile = false

/-- The handler declines; what the sidecar may change is the Vary field. -/
def DeclinesAlone (core : StaticCore) (build : Build) (gzipVaryOn : Bool)
    (allocOk : StaticAlloc → Bool) (method : Method) (uri : Bytes) (req : Request) (r : Response) :
    Prop :=
  ∃ r', staticHandler core build gzipVaryOn allocOk .on method uri req r = .declined r' ∧
    (r' = r ∨ varyAcceptEncoding gzipVaryOn (allocOk .vary) r = some r') ∧ VaryAdded r r'

theorem varyAcceptEncoding_alloc : varyAcceptEncoding gzipVaryOn true r ≠ none := by
  unfold varyAcceptEncoding
  dsimp only
  split
  · exact Option.some_ne_none _
  split
  · exact Option.some_ne_none _
  · exact Response.push_ne_none

/-- Without errors a client that refuses `br` is declined if and only if the path that is probed is
not one of a special file. -/
theorem refused_declined_iff (haccepts : accepts build req.isMain req.headersIn ≠ NGX_OK)
    (hmethod : method ≠ .other)
    (hprobe : Probes .on method uri → core.probe uri ≠ none ∧ core.probe uri ≠ some (.error 0))
    (halloc : allocOk .vary = true) :
    DeclinesAlone core build gzipVaryOn allocOk method uri req r ↔
      ¬(uri.getLast? ≠ some SLASH ∧ FindsSpecial core uri) := by
  have hcase : StaticCase core build gzipVaryOn allocOk .on method uri req r _ :=
    staticHandler_cases
  constructor
  · rintro ⟨r', hdeclined, -, -⟩ ⟨huri, info, hinfo, hdir, hfile⟩
    have hgo : Probes .on method uri := ⟨hmethod, huri, nofun⟩
    generalize staticHandler core build gzipVaryOn allocOk .on method uri req r =
      o at hdeclined hcase
    cases hcase with
    | skipped hno => exact hno hgo
    | missing _ hinfo' => cases hinfo.symm.trans hinfo'
    | directory _ hinfo' hdir' =>
      cases hinfo.symm.trans hinfo'
      cases hdir.symm.trans hdir'
    | refused _ hinfo' hfile' =>
      cases hinfo.symm.trans hinfo'
      cases hfile.symm.trans hfile'.2
    | negotiated => exact serveFile_ne_declined _ _ hdeclined
    | always => exact serveFile_ne_declined _ _ hdeclined
    | broken => cases hdeclined
    | special => cases hdeclined
    | varyFailed => cases hdeclined
  · intro hordinary
    generalize ho : staticHandler core build gzipVaryOn allocOk .on method uri req r = o at hcase
    cases hcase with
    | skipped => exact ⟨r, ho, .inl rfl, .refl r⟩
    | missing => exact ⟨r, ho, .inl rfl, .refl r⟩
    | directory => exact ⟨r, ho, .inl rfl, .refl r⟩
    | refused _ _ _ _ hvary => exact ⟨_, ho, .inr hvary, varyAdded_varyAcceptEncoding hvary⟩
    | special hgo hinfo hdir hfile => exact absurd ⟨hgo.file, _, hinfo, hdir, hfile⟩ hordinary
    | broken hgo hbroken =>
      obtain hbroken | hbroken := hbroken
      · exact absurd hbroken (hprobe hgo).1
      · exact absurd hbroken (hprobe hgo).2
    | varyFailed _ _ _ _ hvary =>
      rw [halloc] at hvary
      exact absurd hvary varyAcceptEncoding_alloc
    | negotiated _ _ _ _ _ ha => exact absurd ha haccepts
    | always _ _ _ hon => exact absurd rfl hon

/-- One core, with what it finds at the path of the sidecar. -/
def StaticCore.finding (info : FileInfo) : StaticCore :=
  { StaticCore.sidecar with openCachedFile := fun _ => .ok info }

/-- The response to `GET /a` that the handler is given. -/
def Response.untouched : Response :=
  ⟨200, false, none, -1, false, none, none, .ofList [], 20, false, false, false, false⟩

/-- A client for `gzip` and a directory at the path of the sidecar. -/
theorem refused_declined_directory :
    DeclinesAlone (.finding ⟨true, false, 0⟩) .chained false (fun _ => true) .get (ascii "/a")
      ⟨true, false, .of (.ofList [⟨1, ascii "Accept-Encoding", ascii "gzip"⟩])⟩ .untouched := by
  have haccepts : accepts .chained true
      (.of (.ofList [⟨1, ascii "Accept-Encoding", ascii "gzip"⟩])) ≠ NGX_OK := by decide +kernel
  have hmethod : Method.get ≠ .other := by decide
  refine (refused_declined_iff haccepts hmethod (fun _ => ⟨?_, ?_⟩) rfl).mpr ?_
  · exact Option.some_ne_none _
  · intro h
    cases Option.some.inj h
  · rintro ⟨-, info, hinfo, hdir, -⟩
    obtain rfl : (⟨true, false, 0⟩ : FileInfo) = info := Except.ok.inj (Option.some.inj hinfo)
    cases hdir

/-- A client for `gzip` gets a 404 for a FIFO at the path of the sidecar. -/
theorem refused_special :
    ¬∀ (core : StaticCore) (build : Build) (gzipVaryOn : Bool) (allocOk : StaticAlloc → Bool)
      (method : Method) (uri : Bytes) (req : Request) (r : Response),
      accepts build req.isMain req.headersIn ≠ NGX_OK → method ≠ .other →
      (Probes .on method uri → core.probe uri ≠ none ∧ core.probe uri ≠ some (.error 0)) →
      (∀ site, allocOk site = true) →
      ∃ r', staticHandler core build gzipVaryOn allocOk .on method uri req r = .declined r' := by
  intro h
  let core : StaticCore := .finding ⟨false, false, 0⟩
  let req : Request := ⟨true, false, .of (.ofList [⟨1, ascii "Accept-Encoding", ascii "gzip"⟩])⟩
  have hprobe : core.probe (ascii "/a") = some (.ok ⟨false, false, 0⟩) := rfl
  obtain ⟨r', hdeclined⟩ := h core .chained false (fun _ => true) .get (ascii "/a") req .untouched
    (by decide +kernel) nofun (fun _ => by rw [hprobe]; exact ⟨nofun, nofun⟩) fun _ => rfl
  have hstatus : staticHandler core .chained false (fun _ => true) .on .get (ascii "/a") req
      .untouched = .status NGX_HTTP_NOT_FOUND .untouched := rfl
  cases hstatus.symm.trans hdeclined

end NgxBrotli
