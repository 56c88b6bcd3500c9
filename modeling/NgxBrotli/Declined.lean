import NgxBrotli.CacheKey
import NgxBrotli.DcbFraming

namespace NgxBrotli
open Runs

/-- Vary lines were added behind the others, and `r->gzip_vary` may be set; the rest is as it
was. -/
structure VaryAdded (r r' : Response) : Prop where
  rest : r' = { r with headers := r'.headers, gzipVary := r'.gzipVary }
  headers : ∃ added, r'.headers.toList = r.headers.toList ++ added ∧
    ∀ h ∈ added, h.hash = 1 ∧ h.key = ascii "Vary"

section

variable {r r' r'' : Response}

theorem VaryAdded.refl (r : Response) : VaryAdded r r :=
  ⟨rfl, [], (List.append_nil _).symm, nofun⟩

theorem VaryAdded.trans (h : VaryAdded r r') (h' : VaryAdded r' r'') : VaryAdded r r'' := by
  obtain ⟨added, hadded, hlines⟩ := h.headers
  obtain ⟨added', hadded', hlines'⟩ := h'.headers
  refine ⟨?_, added ++ added', by rw [hadded', hadded, List.append_assoc], fun e he => ?_⟩
  · rw [h'.rest, h.rest]
  · obtain he | he := List.mem_append.mp he
    · exact hlines e he
    · exact hlines' e he

theorem VaryAdded.push {allocOk : Bool} {value : Bytes}
    (h : r.push allocOk (ascii "Vary") value = some r') : VaryAdded r r' := by
  unfold Response.push at h
  obtain ⟨headers, hpush, rfl⟩ := Option.map_eq_some_iff.mp h
  refine ⟨rfl, [⟨1, ascii "Vary", value⟩], PartList.toList_push hpush, fun e he => ?_⟩
  rw [List.mem_singleton.mp he]
  exact ⟨rfl, rfl⟩

theorem varyAdded_varyAcceptEncoding {gzipVaryOn allocOk : Bool}
    (h : varyAcceptEncoding gzipVaryOn allocOk r = some r') : VaryAdded r r' := by
  have hflag : VaryAdded r { r with gzipVary := true } :=
    ⟨rfl, [], (List.append_nil _).symm, nofun⟩
  unfold varyAcceptEncoding at h
  dsimp only at h
  split at h
  · exact Option.some.inj h ▸ hflag
  split at h
  · exact Option.some.inj h ▸ hflag
  · exact hflag.trans (.push h)

end

def SameLatch (r r' : Response) : Prop := r'.gzipTested = r.gzipTested ∧ r'.gzipOk = r.gzipOk

theorem SameLatch.trans {r r' r'' : Response} (h : SameLatch r r') (h' : SameLatch r' r'') :
    SameLatch r r'' :=
  ⟨h'.1.trans h.1, h'.2.trans h.2⟩

theorem SameLatch.push {r r' : Response} {allocOk : Bool} {key value : Bytes}
    (h : r.push allocOk key value = some r') : SameLatch r r' := by
  unfold Response.push at h
  obtain ⟨headers, -, rfl⟩ := Option.map_eq_some_iff.mp h
  exact ⟨rfl, rfl⟩

/-- The functions of the core leave the latch alone. -/
structure Core.KeepsLatch (core : Core) : Prop where
  clearContentLength (r : Response) : SameLatch r (core.clearContentLength r)
  clearAcceptRanges (r : Response) : SameLatch r (core.clearAcceptRanges r)
  weakEtag (r : Response) : SameLatch r (core.weakEtag r)

structure StaticCore.KeepsLatch (core : StaticCore) : Prop where
  setEtag (r : Response) : SameLatch r (core.setEtag r).2
  setContentType (r : Response) : SameLatch r (core.setContentType r).2

def GzipOff (r : Response) : Prop := r.gzipTested = true ∧ r.gzipOk = false

theorem SameLatch.gzipOff {r r' : Response} (h : SameLatch r r') (hoff : GzipOff r) : GzipOff r' :=
  ⟨h.1.trans hoff.1, h.2.trans hoff.2⟩

section

variable {core : Core} {build : Build} {decodeBase64 : Bytes → Option Bytes} {conf : Conf}
  {gzipVaryOn : Bool} {allocOk : AllocSite → Bool} {req : Request} {r r' : Response}
  {ctx : Option FilterCtx}

theorem commitEncoding_latch (hkeep : core.KeepsLatch) {dcb : Option DcbDict}
    (h : commitEncoding core allocOk dcb r = .next r' ctx) : SameLatch r r' ∧ ctx ≠ none := by
  obtain ⟨rfl, p, hp, rfl⟩ := commitEncoding_cases h
  have hpush : SameLatch r p := .push hp
  have hfields (coding : Bytes) :
      SameLatch p { p with contentEncoding := some coding, filterNeedInMemory := true } :=
        ⟨rfl, rfl⟩
  exact ⟨hpush.trans ((hfields _).trans ((hkeep.clearContentLength _).trans
    ((hkeep.clearAcceptRanges _).trans (hkeep.weakEtag _)))), Option.some_ne_none _⟩

theorem negotiateEncoding_latch (hkeep : core.KeepsLatch)
    (h : negotiateEncoding core build decodeBase64 conf allocOk req r = .next r' ctx) :
    ctx = none ∧ r' = r ∨ ctx ≠ none ∧ GzipOff r' := by
  have hcommit {dcb : Option DcbDict}
      (h : commitEncoding core allocOk dcb { r with gzipTested := true, gzipOk := false } =
        .next r' ctx) : ctx ≠ none ∧ GzipOff r' := by
    obtain ⟨hlatch, hctx⟩ := commitEncoding_latch hkeep h
    exact ⟨hctx, hlatch.gzipOff ⟨rfl, rfl⟩⟩
  obtain ⟨d, -, h⟩ | ⟨-, ⟨-, h⟩ | ⟨-, hr, hctx⟩⟩ := negotiateEncoding_cases h
  · exact .inr (hcommit h)
  · exact .inr (hcommit h)
  · exact .inl ⟨hctx, hr⟩

theorem varyAdded_pushBypassVary (h : pushBypassVary conf allocOk r = some r') :
    VaryAdded r r' := by
  unfold pushBypassVary at h
  split at h
  · exact .push h
  · exact Option.some.inj h ▸ .refl r

theorem varyAdded_emitVary (h : emitVary conf gzipVaryOn allocOk r = some r') : VaryAdded r r' := by
  unfold emitVary at h
  split at h
  · exact .push h
  · exact varyAdded_varyAcceptEncoding h

theorem headerFilter_latch (hkeep : core.KeepsLatch) {bypassed : Bool}
    (h : headerFilter core build decodeBase64 conf gzipVaryOn allocOk bypassed req r =
      .next r' ctx) :
    ctx = none ∧ VaryAdded r r' ∨ ctx ≠ none ∧ GzipOff r' := by
  obtain ⟨-, rfl, hctx⟩ | ⟨-, r₁, hbypass, ⟨-, rfl, hctx⟩ | ⟨-, r₂, hemit, h⟩⟩ :=
    headerFilter_cases h
  · exact .inl ⟨hctx, .refl _⟩
  · exact .inl ⟨hctx, varyAdded_pushBypassVary hbypass⟩
  · have hvary := (varyAdded_pushBypassVary hbypass).trans (varyAdded_emitVary hemit)
    obtain ⟨hctx, rfl⟩ | hcommit := negotiateEncoding_latch hkeep h
    · exact .inl ⟨hctx, hvary⟩
    · exact .inr hcommit

end

section

variable {core : StaticCore} {build : Build} {gzipVaryOn : Bool} {allocOk : StaticAlloc → Bool}
  {enable : StaticEnable} {method : Method} {uri : Bytes} {req : Request} {r r' : Response}

theorem staticHandler_declined
    (h : staticHandler core build gzipVaryOn allocOk enable method uri req r = .declined r') :
    VaryAdded r r' := by
  have hcase : StaticCase core build gzipVaryOn allocOk enable method uri req r _ :=
    staticHandler_cases
  generalize staticHandler core build gzipVaryOn allocOk enable method uri req r = o at h hcase
  have hsame (h : StaticOutcome.declined r = .declined r') : VaryAdded r r' :=
    StaticOutcome.declined.inj h ▸ .refl r
  cases hcase with
  | skipped => exact hsame h
  | missing => exact hsame h
  | directory => exact hsame h
  | refused _ _ _ _ hvary =>
    obtain rfl := StaticOutcome.declined.inj h
    exact varyAdded_varyAcceptEncoding hvary
  | negotiated => exact absurd h (serveFile_ne_declined _ _)
  | always => exact absurd h (serveFile_ne_declined _ _)
  | broken => cases h
  | special => cases h
  | varyFailed => cases h

theorem serveFile_latch (hkeep : core.KeepsLatch) {info : FileInfo}
    (h : serveFile core allocOk method info r = .served r') : SameLatch r r' := by
  obtain ⟨p, hp, rfl⟩ := serveFile_cases h
  have hstatus : SameLatch r { r with status := NGX_HTTP_OK, contentLengthN := info.size } :=
    ⟨rfl, rfl⟩
  have hpush : SameLatch r p :=
    (hstatus.trans ((hkeep.setEtag _).trans (hkeep.setContentType _))).trans (.push hp)
  exact hpush.trans ⟨rfl, rfl⟩

end

/-- A response in the body filter: without a context, or with the stream of its context. -/
inductive Stream (σ : Type)
  | untouched (buffered : Bool) (phase : Phase) (trace : List (Event σ))
  | filtered (w : World σ)

section

variable {σ : Type} (enc : Encoder σ) (conf : Conf) (headerOnly : Bool)

/-- `ngx_http_brotli_body_filter` with its first test, `ctx == NULL`. -/
def streamStep : Label → Stream σ → Option (Stream σ)
  | l, .filtered w => (bodyStep enc conf headerOnly l w).map .filtered
  | .call o bufs, .untouched buffered _ trace =>
    some (.untouched buffered (.returned o.forwardRc) (trace ++ [.call bufs, .forward bufs]))
  | .pass _, .untouched .. => none

/-- Before the first call on what the header filter left. -/
def Stream.start (ctx : Option FilterCtx) (buffered : Bool) : Stream σ :=
  match ctx with
  | none => .untouched buffered .start []
  | some ctx => .filtered (World.initial ctx buffered)

end

/-- Every chain is forwarded as it came, and nothing else happens. -/
def Forwards {σ : Type} (buffered : Bool) (s : Stream σ) : Prop :=
  ∃ (phase : Phase) (chains : List (List Buf)), s = .untouched buffered phase
    (chains.flatMap fun bufs => [.call bufs, .forward bufs])

/-- Without a context every run forwards. -/
theorem forwards_of_reach {σ : Type} {enc : Encoder σ} {conf : Conf} {headerOnly buffered : Bool}
    {s : Stream σ} (h : Reachable (streamStep enc conf headerOnly) (Stream.start none buffered) s) :
    Forwards buffered s := by
  refine h.invariant (I := Forwards buffered) ⟨.start, [], rfl⟩ ?_
  rintro l s s' - - ⟨phase, chains, rfl⟩ hstep
  cases l with
  | pass => cases hstep
  | call o bufs =>
    obtain rfl := Option.some.inj hstep
    exact ⟨.returned o.forwardRc, chains ++ [bufs], by rw [List.flatMap_append]; rfl⟩

/-- A response that the header filter passes on, or the static handler declines, is the one before
but for Vary, and the body filter forwards what follows; one that they commit to has gzip latched
off. -/
theorem declining_frame {core : Core} {staticCore : StaticCore} (hencoding : core.KeepsEncoding)
    (hcore : core.KeepsLatch) (hstatic : staticCore.KeepsLatch) (build : Build)
    (decodeBase64 : Bytes → Option Bytes) (conf : Conf) (gzipVaryOn : Bool) (req : Request)
    (r r' : Response) :
    (∀ allocOk bypassed ctx, headerFilter core build decodeBase64 conf gzipVaryOn allocOk bypassed
        req r = .next r' ctx →
      (ctx = none ∧ VaryAdded r r' ∧
        ∀ (σ : Type) (enc : Encoder σ) (headerOnly buffered : Bool) (s : Stream σ),
          Reachable (streamStep enc conf headerOnly) (Stream.start ctx buffered) s →
            Forwards buffered s) ∨
      ctx ≠ none ∧ GzipOff r' ∧
        (r'.contentEncoding = some (ascii "dcb") ∨ r'.contentEncoding = some (ascii "br"))) ∧
    (∀ allocOk enable method uri,
      staticHandler staticCore build gzipVaryOn allocOk enable method uri req r = .declined r' →
        VaryAdded r r') ∧
    ∀ allocOk method uri,
      staticHandler staticCore build gzipVaryOn allocOk .on method uri req r = .served r' →
        GzipOff r' := by
  refine ⟨fun allocOk bypassed ctx h => ?_, fun _ _ _ _ => staticHandler_declined,
    fun allocOk method uri h => ?_⟩
  · obtain ⟨rfl, hvary⟩ | ⟨hctx, hoff⟩ := headerFilter_latch hcore h
    · exact .inl ⟨rfl, hvary, fun _ _ _ _ _ => forwards_of_reach⟩
    · obtain ⟨c, rfl⟩ := Option.ne_none_iff_exists'.mp hctx
      refine .inr ⟨hctx, hoff, ?_⟩
      obtain ⟨d, -, -, hdcb⟩ | ⟨-, hbr⟩ := headerFilter_encoding hencoding h
      · exact .inl hdcb
      · exact .inr hbr
  · obtain ⟨info, s, -, -, -, -, -, hserve⟩ := staticHandler_served h
    exact (serveFile_latch hstatic hserve).gzipOff ⟨rfl, rfl⟩

theorem Core.plain_keepsLatch : Core.plain.KeepsLatch :=
  ⟨fun _ => ⟨rfl, rfl⟩, fun _ => ⟨rfl, rfl⟩, fun _ => ⟨rfl, rfl⟩⟩

theorem StaticCore.sidecar_keepsLatch : StaticCore.sidecar.KeepsLatch :=
  ⟨fun _ => ⟨rfl, rfl⟩, fun _ => ⟨rfl, rfl⟩⟩

/-- A request for `gzip` with a sidecar of 40 bytes there: both modules decline, and gzip may go on;
a request for `br` is served. -/
theorem declining_frame_sample :
    let conf : Conf := ⟨true, 20, -1, false, [], [], false, 6, 0⟩
    let accept (v : String) : Request :=
      ⟨true, false, .of (.ofList [⟨1, ascii "Accept-Encoding", ascii v⟩])⟩
    let r : Response :=
      ⟨200, false, none, 100, true, none, none, .ofList [], 20, false, false, true, false⟩
    let varied : Response := { r with
      headers := .ofList [⟨1, ascii "Vary", ascii "Accept-Encoding"⟩], gzipVary := true }
    headerFilter Core.plain .chained Base64.decode conf false (fun _ => true) false
        (accept "gzip") r = .next varied none ∧
      VaryAdded r varied ∧ varied.gzipOk = true ∧
      ∃ served,
        staticHandler StaticCore.sidecar .chained false (fun _ => true) .on .get (ascii "/a")
        (accept "br") r = .served served ∧ GzipOff served := by
  intro conf accept r varied
  have hnext : headerFilter Core.plain .chained Base64.decode conf false (fun _ => true) false
      (accept "gzip") r = .next varied none := by decide +kernel
  have hframe (req : Request) (r' : Response) :=
    declining_frame Core.plain_keepsEncoding Core.plain_keepsLatch StaticCore.sidecar_keepsLatch
      .chained Base64.decode conf false req r r'
  have hvaried := ((hframe (accept "gzip") varied).1 _ _ _ hnext).resolve_right fun h => h.1 rfl
  obtain ⟨served, hserved⟩ : ∃ served, staticHandler StaticCore.sidecar .chained false
      (fun _ => true) .on .get (ascii "/a") (accept "br") r = .served served :=
    ⟨{ varied with
        contentEncoding := some (ascii "br"), contentLengthN := 40, gzipTested := true
        gzipOk := false
        headers := .ofList [⟨1, ascii "Vary", ascii "Accept-Encoding"⟩,
          ⟨1, ascii "Content-Encoding", ascii "br"⟩] }, by decide +kernel⟩
  exact ⟨hnext, hvaried.2.1, rfl, served, hserved, (hframe (accept "br") served).2.2 _ _ _ hserved⟩

end NgxBrotli
