import NgxBrotli.LocationConf

namespace NgxBrotli
open Runs Scopes

section

variable {σ : Type}

def nextStep : Label → Stream σ → Option (Stream σ)
  | .call o bufs, .untouched buffered _ trace =>
    some (.untouched buffered (.returned o.forwardRc) (trace ++ [.call bufs, .forward bufs]))
  | _, _ => none

/-- The two chains of filters from their tops. -/
structure Filters (σ : Type) where
  header : Bool → Request → Response → HeaderOutcome
  body : Bool → Label → Stream σ → Option (Stream σ)

def Filters.rest : Filters σ where
  header _ _ r := .next r none
  body _ := nextStep

/-- `ngx_http_brotli_filter_init` -/
def filterInit (anyEnabled : Bool) (brotli : Filters σ) : Filters σ :=
  if anyEnabled then brotli else .rest

/-- A response: the header filters, then the calls of the body filters. -/
def Filters.respond (filters : Filters σ) (bypassed buffered : Bool) (req : Request) (r : Response)
    (labels : List Label) : HeaderOutcome × Option (Stream σ) :=
  match filters.header bypassed req r with
  | .error => (.error, none)
  | .next r' ctx =>
    (.next r' ctx, run (filters.body r'.headerOnly) labels (Stream.start ctx buffered))

end

section

variable {σ : Type} (enc : Encoder σ) (core : Core) (build : Build)
  (decodeBase64 : Bytes → Option Bytes) (gzipVaryOn : Bool) (allocOk : AllocSite → Bool)

def Filters.brotli (conf : Conf) : Filters σ where
  header := headerFilter core build decodeBase64 conf gzipVaryOn allocOk
  body := streamStep enc conf

variable {ls ls' : List (ℕ × LocLine)} {s s' : Blocks ℕ LocConf}
  {dicts dicts' : ℕ → Option (List DcbDict)} {http : ℕ} {path : List ℕ}

theorem run_untouched (conf : Conf) (headerOnly buffered : Bool) (phase : Phase)
    (trace : List (Event σ)) (labels : List Label) :
    run (streamStep enc conf headerOnly) labels (.untouched buffered phase trace) =
      run nextStep labels (.untouched buffered phase trace) := by
  induction labels generalizing phase trace with
  | nil => rfl
  | cons l labels ih =>
    cases l with
    | call o bufs => exact ih _ _
    | pass ds => rfl

/-- A location that is off is left as it would be without the module. -/
theorem respond_off {conf : Conf} (hoff : conf.enable = false) (bypassed buffered : Bool)
    (req : Request) (r : Response) (labels : List Label) :
    (Filters.brotli enc core build decodeBase64 gzipVaryOn allocOk conf).respond bypassed buffered
      req r labels = Filters.rest.respond bypassed buffered req r labels := by
  have hheader : headerFilter core build decodeBase64 conf gzipVaryOn allocOk bypassed req r =
      .next r none := by
    rw [headerFilter, if_pos]
    simp [headerFilterSkips, hoff]
  simp only [Filters.respond, Filters.brotli, Filters.rest, hheader]
  exact congrArg (_, ·) (run_untouched enc conf _ buffered .start [] labels)

theorem locationConf_off (h : readConf ls = .ok s) (hlatch : s.latched = false)
    (hpath : path ≠ []) : (locationConf s dicts http path).enable = false := by
  have hoff := readLines_unlatched (P := fun conf => conf.enable = NGX_CONF_UNSET ∨ conf.enable = 0)
    h hlatch (.inl rfl) fun _ _ _ => LocLine.set_enable
  simp only [locationConf, LocConf.toConf, effective_eq hpath, blockConf, bne_eq_false_iff_eq]
  obtain hdefault | ⟨label, hlabel, hset⟩ :=
    inherited_cases NGX_CONF_UNSET 0 (fun l => (s.confs l).enable) (http :: path)
  · exact hdefault
  · rw [← hlabel]
    exact (hoff label).resolve_left hset

theorem filterInit_respond (h : readConf ls = .ok s) (dicts : ℕ → Option (List DcbDict)) (http : ℕ)
    (hpath : path ≠ []) (bypassed buffered : Bool) (req : Request) (r : Response)
    (labels : List Label) :
    let brotli := Filters.brotli enc core build decodeBase64 gzipVaryOn allocOk
      (locationConf s dicts http path)
    (filterInit s.latched brotli).respond bypassed buffered req r labels =
      brotli.respond bypassed buffered req r labels := by
  intro brotli
  cases hlatch : s.latched with
  | true => rfl
  | false =>
    exact (respond_off enc core build decodeBase64 gzipVaryOn allocOk
      (locationConf_off h hlatch hpath) bypassed buffered req r labels).symm

theorem locationConf_congr (h : readConf ls = .ok s) (h' : readConf ls' = .ok s')
    (hsame : ∀ label ∈ http :: path, linesOf label ls = linesOf label ls' ∧
      dicts label = dicts' label) :
    locationConf s dicts http path = locationConf s' dicts' http path := by
  have hconf (label : ℕ) (hl : label ∈ http :: path) : blockConf s dicts label =
      blockConf s' dicts' label := by
    obtain ⟨hlines, hdicts⟩ := hsame label hl
    have hs := (readLines_scope h).2 label
    rw [hlines, (readLines_scope h').2 label] at hs
    rw [blockConf, blockConf, Except.ok.inj hs, hdicts]
  rw [locationConf, locationConf, effective, effective, hconf http List.mem_cons_self]
  congr 1
  exact List.foldl_ext _ _ _ fun prev label hl => by rw [hconf label (List.mem_cons_of_mem _ hl)]

end

def kBrotliStaticEnum : List (Bytes × StaticEnable) :=
  [(ascii "off", .off), (ascii "on", .on), (ascii "always", .always)]

/-- `create_conf`; `none` is `NGX_CONF_UNSET_UINT`. -/
def staticCreateConf : Option StaticEnable := none

/-- `set_enable_slot`, but for its latch: `ngx_conf_set_enum_slot` with `kBrotliStaticEnum`. -/
def staticSetEnableSlot (enable : Option StaticEnable) (value : Bytes) :
    Except SlotError (Option StaticEnable) :=
  if enable ≠ none then .error .isDuplicate
  else
    match kBrotliStaticEnum.find? fun e => matchesName value e.1 with
    | some e => .ok (some e.2)
    | none => .error .invalidValue

/-- The `brotli_static` directives of all blocks; the latch is the `any_enabled` of this module. -/
def staticReadConf (ls : List (ℕ × Bytes)) : Except SlotError (Blocks ℕ (Option StaticEnable)) :=
  readLines staticSetEnableSlot enableLatches staticCreateConf ls

/-- `merge_conf` -/
def staticMergeConf (prev cfg : Option StaticEnable) : Option StaticEnable :=
  merge none (some .off) prev cfg

/-- What the handler reads in the last of nested blocks. -/
def staticLocation (s : Blocks ℕ (Option StaticEnable)) (http : ℕ) (path : List ℕ) : StaticEnable :=
  (path.foldl (fun prev label => staticMergeConf prev (s.confs label)) (s.confs http)).getD .off

/-- `init`: the handler in the content phase, or nothing there. -/
def staticInit (anyEnabled : Bool) (handler : Response → StaticOutcome) (r : Response) :
    StaticOutcome :=
  if anyEnabled then handler r else .declined r

section

variable {ls ls' : List (ℕ × Bytes)} {s s' : Blocks ℕ (Option StaticEnable)} {http : ℕ}
  {path : List ℕ}

theorem staticSetEnableSlot_off {enable enable' : Option StaticEnable} {value : Bytes}
    (hlatch : enableLatches value = false) (h : staticSetEnableSlot enable value = .ok enable') :
    enable' = some .off := by
  obtain rfl : value = ascii "off" := by simpa [enableLatches] using hlatch
  unfold staticSetEnableSlot at h
  split at h
  · cases h
  · have hfind : kBrotliStaticEnum.find? (fun e => matchesName (ascii "off") e.1) =
        some (ascii "off", .off) := by decide +kernel
    rw [hfind] at h
    exact (Except.ok.inj h).symm

theorem staticLocation_off (h : staticReadConf ls = .ok s) (hlatch : s.latched = false)
    (hpath : path ≠ []) : staticLocation s http path = .off := by
  have hoff := readLines_unlatched (P := fun enable => enable = none ∨ enable = some .off)
    h hlatch (.inl rfl) fun _ _ _ hl _ hset => .inr (staticSetEnableSlot_off hl hset)
  have hmerged : path.foldl (fun prev label => staticMergeConf prev (s.confs label)) (s.confs http) =
      inherited none (some .off) s.confs (http :: path) := foldl_merge s.confs http hpath
  rw [staticLocation, hmerged]
  obtain hdefault | ⟨label, hlabel, hset⟩ :=
    inherited_cases none (some StaticEnable.off) s.confs (http :: path)
  · rw [hdefault]
    rfl
  · rw [← hlabel, (hoff label).resolve_left hset]
    rfl

theorem staticLocation_congr (h : staticReadConf ls = .ok s) (h' : staticReadConf ls' = .ok s')
    (hsame : ∀ label ∈ http :: path, linesOf label ls = linesOf label ls') :
    staticLocation s http path = staticLocation s' http path := by
  have hconf (label : ℕ) (hl : label ∈ http :: path) : s.confs label = s'.confs label := by
    have hs := (readLines_scope h).2 label
    rw [hsame label hl, (readLines_scope h').2 label] at hs
    exact (Except.ok.inj hs).symm
  rw [staticLocation, staticLocation, hconf http List.mem_cons_self]
  congr 1
  exact List.foldl_ext _ _ _ fun prev label hl => by rw [hconf label (List.mem_cons_of_mem _ hl)]

theorem staticInit_handler (core : StaticCore) (build : Build) (gzipVaryOn : Bool)
    (allocOk : StaticAlloc → Bool) (method : Method) (uri : Bytes) (req : Request) (r : Response)
    (h : staticReadConf ls = .ok s) (hpath : path ≠ []) :
    let handler :=
      staticHandler core build gzipVaryOn allocOk (staticLocation s http path) method uri req
    staticInit s.latched handler r = handler r := by
  intro handler
  cases hlatch : s.latched with
  | true => rfl
  | false =>
    have hdeclined : handler r = .declined r := by
      have henable : staticLocation s http path = .off := staticLocation_off h hlatch hpath
      simp [handler, henable, staticHandler]
    rw [hdeclined]
    rfl

end

/-- The directives of blocks that are not around a location change none of its responses, although
they share the latches that decide on the hooks. -/
theorem siblings_invisible {σ : Type} (enc : Encoder σ) (core : Core) (staticCore : StaticCore)
    (build : Build) (decodeBase64 : Bytes → Option Bytes) (gzipVaryOn : Bool)
    (allocOk : AllocSite → Bool) (staticAllocOk : StaticAlloc → Bool)
    {ls ls' : List (ℕ × LocLine)} {s s' : Blocks ℕ LocConf} {statics statics' : List (ℕ × Bytes)}
    {t t' : Blocks ℕ (Option StaticEnable)} (dicts dicts' : ℕ → Option (List DcbDict)) (http : ℕ)
    {path : List ℕ} (h : readConf ls = .ok s) (h' : readConf ls' = .ok s')
    (ht : staticReadConf statics = .ok t) (ht' : staticReadConf statics' = .ok t')
    (hpath : path ≠ [])
    (hsame : ∀ label ∈ http :: path, linesOf label ls = linesOf label ls' ∧
      dicts label = dicts' label ∧ linesOf label statics = linesOf label statics') :
    let brotli := Filters.brotli enc core build decodeBase64 gzipVaryOn allocOk
    let handler := staticHandler staticCore build gzipVaryOn staticAllocOk
    (∀ bypassed buffered req r labels,
      (filterInit s.latched (brotli (locationConf s dicts http path))).respond bypassed buffered
          req r labels =
        (filterInit s'.latched (brotli (locationConf s' dicts' http path))).respond
          bypassed buffered req r labels) ∧
    ∀ method uri req r,
      staticInit t.latched (handler (staticLocation t http path) method uri req) r =
        staticInit t'.latched (handler (staticLocation t' http path) method uri req) r := by
  intro brotli handler
  have hconf : locationConf s dicts http path = locationConf s' dicts' http path :=
    locationConf_congr h h' fun label hl => ⟨(hsame label hl).1, (hsame label hl).2.1⟩
  have henable : staticLocation t http path = staticLocation t' http path :=
    staticLocation_congr ht ht' fun label hl => (hsame label hl).2.2
  refine ⟨fun bypassed buffered req r labels => ?_, fun method uri req r => ?_⟩
  · have hs := filterInit_respond enc core build decodeBase64 gzipVaryOn allocOk h dicts http hpath
    have hs' :=
      filterInit_respond enc core build decodeBase64 gzipVaryOn allocOk h' dicts' http hpath
    rw [hs, hs', hconf]
  · rw [staticInit_handler staticCore build gzipVaryOn staticAllocOk method uri req r ht hpath,
      staticInit_handler staticCore build gzipVaryOn staticAllocOk method uri req r ht' hpath,
        henable]

/-- A location beside one with `brotli on` and `brotli_static always`, with which the hooks come
in. -/
theorem siblings_invisible_sample :
    let location : List (ℕ × LocLine) := [(1, .compLevel 5)]
    let r : Response :=
      ⟨200, false, none, 100, true, none, none, .ofList [], 20, false, false, true, false⟩
    ∃ s s' t, readConf location = .ok s ∧
      readConf ((2, .enable (ascii "on")) :: location) = .ok s' ∧
      staticReadConf [(2, ascii "always")] = .ok t ∧
      (s.latched, s'.latched, t.latched) = (false, true, true) ∧
      (filterInit s'.latched (Filters.brotli blockEncoder Core.plain .chained Base64.decode false
          (fun _ => true) (locationConf s' (fun _ => none) 0 [1]))).respond false false
            ⟨true, false, .of (.ofList [])⟩ r [] =
              (.next r none, some (.untouched false .start [])) ∧
      staticInit t.latched (staticHandler StaticCore.sidecar .chained false (fun _ => true)
        (staticLocation t 0 [1]) .get (ascii "/a") ⟨true, false, .of (.ofList [])⟩) r =
          .declined r := by
  intro location r
  have hon :
      ∃ s', readConf ((2, .enable (ascii "on")) :: location) = .ok s' ∧ s'.latched = true := by
    exact ⟨_, rfl, rfl⟩
  have halways : ∃ t, staticReadConf [(2, ascii "always")] = .ok t ∧ t.latched = true :=
    ⟨_, rfl, rfl⟩
  obtain ⟨s', hs', hlatch'⟩ := hon
  obtain ⟨t, ht, hlatch⟩ := halways
  have hlocation : readConf location = .ok ⟨false, _⟩ := rfl
  have hempty : staticReadConf [] = .ok ⟨false, fun _ => none⟩ := rfl
  obtain ⟨hfilter, hstatic⟩ :=
    siblings_invisible blockEncoder Core.plain StaticCore.sidecar .chained Base64.decode false
      (fun _ => true) (fun _ => true) (fun _ => none) (fun _ => none) 0 hs' hlocation ht hempty
      (List.cons_ne_nil 1 []) (by decide)
  refine ⟨_, s', t, hlocation, hs', ht, by rw [hlatch, hlatch'], ?_, ?_⟩
  · exact (hfilter false false ⟨true, false, .of (.ofList [])⟩ r []).trans rfl
  · exact (hstatic .get (ascii "/a") ⟨true, false, .of (.ofList [])⟩ r).trans rfl

end NgxBrotli
