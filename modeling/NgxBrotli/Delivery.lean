import NgxBrotli.Completion
import NgxBrotli.Decoding
import NgxBrotli.DictMeaning
import NgxBrotli.Hooks

namespace NgxBrotli
open Runs Scopes

/-- `DCB_MAGIC` -/
def dcbMagic : Bytes := [0xff, 0x44, 0x43, 0x42]

/-- The body of a response for a client with this dictionary, by the coding: the checks of the dcb
header, then the decoder on what follows it. -/
def receive (dec : Option Bytes → Bytes → Option Bytes) (dictionary : Option Bytes)
    (coding : Option Bytes) (body : Bytes) : Option Bytes :=
  if coding = none then some body
  else if coding = some (ascii "br") then dec none body
  else if coding = some (ascii "dcb") then
    dictionary.bind fun d =>
      if body.take 4 = dcbMagic ∧ (body.drop 4).take 32 = Sha2.digest d then
        dec (some d) (body.drop 36)
      else none
  else none

theorem receive_br (dec : Option Bytes → Bytes → Option Bytes) (dictionary : Option Bytes)
    (body : Bytes) : receive dec dictionary (some (ascii "br")) body = dec none body := rfl

theorem receive_dcb (dec : Option Bytes → Bytes → Option Bytes) {d : DcbDict} (stream : Bytes)
    (hhash : d.hash = Sha2.digest d.bytes) :
    receive dec (some d.bytes) (some (ascii "dcb")) (dcbHeader d ++ stream) =
      dec (some d.bytes) stream := by
  have hlen : d.hash.length = 32 := d.hash_length
  have htake : (dcbHeader d ++ stream).take 4 = dcbMagic := rfl
  have hdrop : (dcbHeader d ++ stream).drop 4 = d.hash ++ stream := rfl
  have hrest : (dcbHeader d ++ stream).drop 36 = stream := by
    rw [← List.drop_drop (i := 32) (j := 4), hdrop, List.drop_left' hlen]
  have hkey : ((dcbHeader d ++ stream).drop 4).take 32 = Sha2.digest d.bytes := by
    rw [hdrop, ← hhash, List.take_left' hlen]
  rw [receive, if_neg (Option.some_ne_none _), if_neg (by decide), if_pos rfl, Option.bind_some,
    if_pos ⟨htake, hkey⟩, hrest]

section

variable {p : Platform} {ds : List Directive} {parse : Parse}

theorem exists_load (hevp : ∀ label line, .dictFile label line ∈ ds → DigestsSha256 line.host)
    (h : configure p ds = .ok parse) {label : ℕ} {d : DcbDict}
    (hd : d ∈ (parse.dicts label).getD []) :
    ∃ t l, Parsed p ds t ∧ Recorded ds t ∧ l ∈ t.loads ∧ l.dict = d := by
  obtain ⟨t, hfold, h⟩ := bind_eq_ok_iff.mp h
  obtain ⟨main, -, h⟩ := bind_eq_ok_iff.mp h
  cases h
  have hparsed : Parsed p ds t := parsed_start.foldlM hfold hevp
  rw [hparsed.dicts label] at hd
  obtain ⟨l, hl, rfl⟩ := List.mem_map.mp hd
  exact ⟨t, l, hparsed, recorded_start.foldlM hfold hevp, List.mem_of_mem_filter hl, rfl⟩

theorem configured_keys (hevp : ∀ label line, .dictFile label line ∈ ds → DigestsSha256 line.host)
    (h : configure p ds = .ok parse) (htrust : ds.any Directive.trustOn = false) {label : ℕ}
    {d : DcbDict} (hd : d ∈ (parse.dicts label).getD []) : d.hash = Sha2.digest d.bytes := by
  obtain ⟨t, l, hparsed, hs, hmem, rfl⟩ := exists_load hevp h hd
  refine hparsed.digest l hmem ?_
  -- a key that was not computed would have needed the flag
  by_contra hne
  obtain ⟨-, hone⟩ := hparsed.skipped l hmem (Bool.eq_false_of_not_eq_true hne)
  rw [hs.trust.mp hone] at htrust
  cases htrust

theorem mem_locationConf_dicts {s : Blocks ℕ LocConf} {dicts : ℕ → Option (List DcbDict)} {http : ℕ}
    {path : List ℕ} (hpath : path ≠ []) {d : DcbDict}
    (hd : d ∈ (locationConf s dicts http path).dcbDicts) : ∃ label, d ∈ (dicts label).getD [] := by
  simp only [locationConf, LocConf.toConf, effective_eq hpath, blockConf] at hd
  obtain hdefault | ⟨label, hlabel, -⟩ :=
    inherited_cases none (some []) (fun l => dicts l) (http :: path)
  · rw [hdefault] at hd
    cases hd
  · rw [← hlabel] at hd
    exact ⟨label, hd⟩

end

section

variable {core : Core} {build : Build} {decodeBase64 : Bytes → Option Bytes} {conf : Conf}
  {gzipVaryOn : Bool} {allocOk : AllocSite → Bool} {req : Request} {r r' : Response}
  {ctx : FilterCtx}

theorem headerFilter_dict {bypassed : Bool} {d : DcbDict}
    (h : headerFilter core build decodeBase64 conf gzipVaryOn allocOk bypassed req r =
      .next r' (some ctx)) (hd : ctx.dcbDict = some d) : d ∈ conf.dcbDicts := by
  have hcommit {dcb : Option DcbDict} {r : Response}
      (h : commitEncoding core allocOk dcb r = .next r' (some ctx)) : dcb = some d := by
    obtain ⟨hctx, -⟩ := commitEncoding_cases h
    obtain rfl := Option.some.inj hctx
    exact hd
  obtain ⟨_, _, -, -, h⟩ := headerFilter_negotiated h
  obtain ⟨d', hdict, h⟩ | ⟨-, ⟨-, h⟩ | ⟨-, -, hctx⟩⟩ := negotiateEncoding_cases h
  · obtain rfl := Option.some.inj (hcommit h)
    rw [dcbNegotiate_eq_bind, Option.ite_none_right_eq_some] at hdict
    obtain ⟨_, -, hdict⟩ := Option.bind_eq_some_iff.mp hdict.2
    obtain ⟨_, -, hdict⟩ := Option.bind_eq_some_iff.mp hdict
    exact List.mem_of_find?_eq_some hdict
  · cases hcommit h
  · cases hctx

end

section

variable {σ : Type}

def Stream.trace : Stream σ → List (Event σ)
  | .untouched _ _ trace => trace
  | .filtered w => w.trace

def Stream.completed : Stream σ → Bool
  | .untouched .. => true
  | .filtered w => w.ctx.success

variable {enc : Encoder σ} {conf : Conf} {headerOnly buffered : Bool} {st : Stream σ}

theorem filtered_of_reach {ctx : FilterCtx}
    (h : Reachable (streamStep enc conf headerOnly) (Stream.start (some ctx) buffered) st) :
    ∃ w, st = .filtered w ∧ Reachable (bodyStep enc conf headerOnly)
      (World.initial ctx buffered) w := by
  refine h.invariant (I := fun st => ∃ w, st = .filtered w ∧
    Reachable (bodyStep enc conf headerOnly) (World.initial ctx buffered) w) ⟨_, rfl, .init⟩ ?_
  rintro l _ st' - - ⟨w, rfl, hw⟩ hstep
  obtain ⟨w', hw', rfl⟩ := Option.map_eq_some_iff.mp hstep
  exact ⟨w', rfl, hw.step trivial hw'⟩

theorem sent_of_forwards (h : Forwards buffered st) :
    bodyBytes (sentBufs st.trace) = bodyBytes (suppliedBufs st.trace) := by
  obtain ⟨phase, chains, rfl⟩ := h
  show bodyBytes (sentBufs (chains.flatMap _)) = bodyBytes (suppliedBufs (chains.flatMap _))
  congr 1
  induction chains with
  | nil => rfl
  | cons bufs chains ih =>
    rw [List.flatMap_cons, sentBufs_append, suppliedBufs_append, ih]
    rfl

end

section

variable {σ : Type} {enc : Encoder σ} {dec : Option Bytes → Bytes → Option Bytes} {core : Core}
  {build : Build} {decodeBase64 : Bytes → Option Bytes} {gzipVaryOn : Bool}
  {allocOk : AllocSite → Bool} {bypassed buffered : Bool} {req : Request} {r r' : Response}
  {dictionary : Option Bytes}

/-- The dictionary that the header filter chose is the one of the client. -/
theorem dictionary_of_header (hcore : core.KeepsEncoding) {conf : Conf}
    (hkeys : ∀ d ∈ conf.dcbDicts, d.hash = Sha2.digest d.bytes)
    (hclient : ∀ key, advertisedKey decodeBase64 req.headersIn.headers = some key →
      ∃ d, dictionary = some d ∧ key = Sha2.digest d)
    (hcollision : ∀ d ∈ conf.dcbDicts, ∀ d', dictionary = some d' →
      Sha2.digest d.bytes = Sha2.digest d' → d.bytes = d') {ctx : FilterCtx}
    (hheader : headerFilter core build decodeBase64 conf gzipVaryOn allocOk bypassed req r =
      .next r' (some ctx)) {d : DcbDict} (hd : ctx.dcbDict = some d) : dictionary =
        some d.bytes := by
  have hmem := headerFilter_dict hheader hd
  obtain ⟨d', hd', hkey, -⟩ | ⟨hnone, -⟩ := headerFilter_encoding hcore hheader
  · obtain rfl := Option.some.inj (hd.symm.trans hd')
    obtain ⟨own, rfl, hdigest⟩ := hclient d.hash hkey
    rw [hcollision d hmem own rfl ((hkeys d hmem).symm.trans hdigest)]
  · rw [hnone] at hd
    cases hd

theorem received_of_success (spec : enc.Contract) (hdec : enc.DecodedBy dec)
    (hcore : core.KeepsEncoding) {conf : Conf}
    (hkeys : ∀ d ∈ conf.dcbDicts, d.hash = Sha2.digest d.bytes)
    (hclient : ∀ key, advertisedKey decodeBase64 req.headersIn.headers = some key →
      ∃ d, dictionary = some d ∧ key = Sha2.digest d)
    (hcollision : ∀ d ∈ conf.dcbDicts, ∀ d', dictionary = some d' →
      Sha2.digest d.bytes = Sha2.digest d' → d.bytes = d') {ctx : FilterCtx}
    (hheader : headerFilter core build decodeBase64 conf gzipVaryOn allocOk bypassed req r =
      .next r' (some ctx)) {w : World σ}
    (h : Reachable (bodyStep enc conf false) (World.initial ctx buffered) w)
    (hdone : w.ctx.success = true) (hfinal : FinalOnly (suppliedBufs w.trace)) :
    receive dec dictionary r'.contentEncoding (bodyBytes (sentBufs w.trace)) =
      some (bodyBytes (suppliedBufs w.trace)) := by
  have hsent := sent_of_success spec h hdone hfinal
  have hdecoded := decoded_of_success spec hdec h hdone hfinal
  obtain ⟨d, hd, -, hcoding⟩ | ⟨hd, hcoding⟩ := headerFilter_encoding hcore hheader
  · have hown := dictionary_of_header hcore hkeys hclient hcollision hheader hd
    rw [hd] at hsent hdecoded
    rw [hcoding, hsent, hown]
    exact (receive_dcb dec _ (hkeys d (headerFilter_dict hheader hd))).trans hdecoded
  · rw [hd] at hsent hdecoded
    rw [hcoding, hsent]
    exact (receive_br dec dictionary _).trans hdecoded

variable {p : Platform} {ds : List Directive} {parse : Parse} {s : Blocks ℕ LocConf} {http : ℕ}
  {path : List ℕ}

theorem location_dictionaries
    (hevp : ∀ label line, .dictFile label line ∈ ds → DigestsSha256 line.host)
    (hparse : configure p ds = .ok parse) (htrust : ds.any Directive.trustOn = false)
    (hpath : path ≠ [])
    (hcollision : ∀ label, ∀ d ∈ (parse.dicts label).getD [], ∀ d', dictionary = some d' →
      Sha2.digest d.bytes = Sha2.digest d' → d.bytes = d') {d : DcbDict}
    (hd : d ∈ (locationConf s parse.dicts http path).dcbDicts) :
    d.hash = Sha2.digest d.bytes ∧
      ∀ d', dictionary = some d' → Sha2.digest d.bytes = Sha2.digest d' → d.bytes = d' := by
  obtain ⟨label, hmem⟩ := mem_locationConf_dicts hpath hd
  exact ⟨configured_keys hevp hparse htrust hmem, hcollision label d hmem⟩

/-- A client that names the digest of its dictionary, or names none, gets the body of every response
that is completed, under every configuration that is accepted without trusted hashes, if no
dictionary of the configuration is another one with the same digest; a dictionary that was chosen is
the client's, and the stream was written by an instance that has it. -/
theorem delivery (spec : enc.Contract) (hdec : enc.DecodedBy dec) (hcore : core.KeepsEncoding)
    (hlatch : core.KeepsLatch)
    (hevp : ∀ label line, .dictFile label line ∈ ds → DigestsSha256 line.host)
    (hparse : configure p ds = .ok parse) (htrust : ds.any Directive.trustOn = false)
    (hpath : path ≠ [])
    (hclient : ∀ key, advertisedKey decodeBase64 req.headersIn.headers = some key →
      ∃ d, dictionary = some d ∧ key = Sha2.digest d)
    (hcollision : ∀ label, ∀ d ∈ (parse.dicts label).getD [], ∀ d', dictionary = some d' →
      Sha2.digest d.bytes = Sha2.digest d' → d.bytes = d')
    (hidentity : r.contentEncoding = none) {ctx : Option FilterCtx}
    (hheader : headerFilter core build decodeBase64 (locationConf s parse.dicts http path)
      gzipVaryOn allocOk bypassed req r = .next r' ctx)
    {st : Stream σ} (h : Reachable (streamStep enc (locationConf s parse.dicts http path) false)
      (Stream.start ctx buffered) st)
    (hdone : st.completed = true) (hfinal : FinalOnly (suppliedBufs st.trace)) :
    receive dec dictionary r'.contentEncoding (bodyBytes (sentBufs st.trace)) =
        some (bodyBytes (suppliedBufs st.trace)) ∧
      ∀ c d, ctx = some c → c.dcbDict = some d → dictionary = some d.bytes ∧
        ∃ e, enc.Wrote dictionary (bodyBytes (suppliedBufs st.trace))
          (takenBytes st.trace).flatten e ∧ enc.isFinished e = true := by
  have hdicts {d : DcbDict} (hd : d ∈ (locationConf s parse.dicts http path).dcbDicts) :=
    location_dictionaries hevp hparse htrust hpath hcollision hd
  cases ctx with
  | none =>
    -- the response is passed on as it was
    obtain ⟨-, hvary⟩ := (headerFilter_latch hlatch hheader).resolve_right fun hctx => hctx.1 rfl
    have hcoding : r'.contentEncoding = none := by rw [hvary.rest, hidentity]
    refine ⟨?_, fun c d hctx => by cases hctx⟩
    rw [hcoding, receive, if_pos rfl, sent_of_forwards (forwards_of_reach h)]
  | some ctx =>
    obtain ⟨w, rfl, hw⟩ := filtered_of_reach h
    refine ⟨received_of_success spec hdec hcore (fun d hd => (hdicts hd).1) hclient
      (fun d hd => (hdicts hd).2) hheader hw hdone hfinal, fun c d hctx hd => ?_⟩
    obtain rfl := Option.some.inj hctx
    have hown := dictionary_of_header hcore (fun d hd => (hdicts hd).1) hclient
      (fun d hd => (hdicts hd).2) hheader hd
    have hwrote := wrote_of_success spec hw hdone hfinal
    rw [hd] at hwrote
    rw [hown]
    exact ⟨rfl, hwrote⟩

end

def abcConf : Conf := ⟨true, 20, -1, false, [], [abcDict], false, 6, 19⟩

def abcRequest : Request :=
  ⟨true, true, .of (.ofList [⟨1, ascii "Accept-Encoding", ascii "br, dcb"⟩,
    ⟨1, ascii "Available-Dictionary", COLON :: (Base64.encode abcKey.val ++ [COLON])⟩])⟩

def abcResponse : Response :=
  ⟨200, false, none, -1, true, none, none, .ofList [], 20, false, false, false, false⟩

theorem abc_location :
    ∃ s parse, readConf [(1, .enable (ascii "on"))] = .ok s ∧
      configure plainPlatform [.strictPath true, .dictFile 0 (plainLine none)] = .ok parse ∧
      locationConf s parse.dicts 0 [1] = abcConf ∧
      ∀ label, ∀ d ∈ (parse.dicts label).getD [], d.bytes = ascii "abc" := by
  obtain ⟨parse, hparse, hdicts⟩ : ∃ parse,
      configure plainPlatform [.strictPath true, .dictFile 0 (plainLine none)] = .ok parse ∧
      parse.dicts =
        Function.update (fun _ : ℕ => (none : Option (List DcbDict))) 0 (some [abcDict]) :=
    (configure_iff_loads (digests_of_plainHost _ (by simp [dictLines, plainLine]))).mpr
      ⟨⟨fun _ => rfl, fun h => by cases h⟩, rfl, fun _ => rfl, abcDict, abc_loadsTo (.inl rfl) _,
        by simp, rfl⟩
  refine ⟨_, parse, rfl, hparse, by rw [hdicts]; rfl, fun label d hd => ?_⟩
  rw [hdicts] at hd
  by_cases hlabel : label = 0
  · subst hlabel
    rw [Function.update_self] at hd
    obtain rfl := List.mem_singleton.mp hd
    rfl
  · rw [Function.update_of_ne hlabel] at hd
    cases hd

theorem abc_header :
    ∃ r',
        headerFilter Core.plain .chained Base64.decode abcConf false (fun _ => true) false
          abcRequest
        abcResponse = .next r' (some ⟨-1, some abcDict⟩) ∧
      r'.contentEncoding = some (ascii "dcb") := by
  refine ⟨⟨200, false, some (ascii "dcb"), -1, false, none, none,
    .ofList [⟨1, ascii "Vary", dcbVaryValue⟩, ⟨1, ascii "Content-Encoding", ascii "dcb"⟩], 20,
    false, true, false, true⟩, ?_, rfl⟩
  decide +kernel

theorem abc_client (key : Bytes)
    (h : advertisedKey Base64.decode abcRequest.headersIn.headers = some key) :
    ∃ d, some (ascii "abc") = some d ∧ key = Sha2.digest d := by
  have hkey : advertisedKey Base64.decode abcRequest.headersIn.headers = some abcKey.val := by
    decide +kernel
  exact ⟨_, rfl, by rw [digest_abc]; exact Option.some.inj (h.symm.trans hkey)⟩

/-- A response in one call; the next filter takes one byte at a time. -/
theorem delivery_sample :
    let labels := .call .fine [⟨[1, 2], false, true⟩] :: List.replicate 6 (.pass ⟨1, NGX_OK⟩)
    ∃ s parse r' ctx st, readConf [(1, .enable (ascii "on"))] = .ok s ∧
      configure plainPlatform [.strictPath true, .dictFile 0 (plainLine none)] = .ok parse ∧
      let conf := locationConf s parse.dicts 0 [1]
      headerFilter Core.plain .chained Base64.decode conf false (fun _ => true) false abcRequest
          abcResponse = .next r' ctx ∧
        run (streamStep blockEncoder conf false) labels (Stream.start ctx false) = some st ∧
        r'.contentEncoding = some (ascii "dcb") ∧
        receive blockDecode (some (ascii "abc")) r'.contentEncoding
          (bodyBytes (sentBufs st.trace)) = some [1, 2] := by
  intro labels
  obtain ⟨s, parse, hs, hparse, hconf, hbytes⟩ := abc_location
  obtain ⟨r', hheader, hcoding⟩ := abc_header
  have hrun : (run (streamStep blockEncoder abcConf false) labels
      (Stream.start (some ⟨-1, some abcDict⟩) false)).map
        (fun st => (st.completed, suppliedBufs st.trace)) =
          some (true, [⟨[1, 2], false, true⟩]) := by
    decide +kernel
  obtain ⟨st, hrun, hend⟩ := Option.map_eq_some_iff.mp hrun
  obtain ⟨hdone, hbufs⟩ := Prod.mk.inj hend
  rw [← hconf] at hheader hrun
  obtain ⟨hbody, -⟩ := delivery blockContract blockEncoder_decodedBy Core.plain_keepsEncoding
    Core.plain_keepsLatch (digests_of_plainHost _ (by simp [dictLines, plainLine])) hparse rfl
    (List.cons_ne_nil 1 []) abc_client
    (fun label d hd d' hd' _ => (hbytes label d hd).trans (Option.some.inj hd')) rfl hheader
    (Reachable.run .init hrun) hdone (by rw [hbufs]; decide)
  refine ⟨s, parse, r', _, st, hs, hparse, hheader, hrun, hcoding, ?_⟩
  rw [hbody, hbufs]
  rfl

end NgxBrotli
