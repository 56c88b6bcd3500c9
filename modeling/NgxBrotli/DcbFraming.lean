import NgxBrotli.StreamRuns

namespace NgxBrotli
open Runs

/-- The macros of the core leave Content-Encoding as it is. -/
structure Core.KeepsEncoding (core : Core) : Prop where
  clearContentLength (r : Response) :
    (core.clearContentLength r).contentEncoding = r.contentEncoding
  clearAcceptRanges (r : Response) : (core.clearAcceptRanges r).contentEncoding = r.contentEncoding
  weakEtag (r : Response) : (core.weakEtag r).contentEncoding = r.contentEncoding

/-- What the Available-Dictionary header of a request decodes to. -/
def advertisedKey (decodeBase64 : Bytes → Option Bytes) (headers : HeaderList) : Option Bytes :=
  (findRequestHeader headers (ascii "available-dictionary")).bind fun h =>
    availableDictionary decodeBase64 h.value

section

variable {core : Core} {build : Build} {decodeBase64 : Bytes → Option Bytes} {conf : Conf}
  {gzipVaryOn : Bool} {allocOk : AllocSite → Bool} {req : Request} {r r' : Response}
  {ctx : FilterCtx}

theorem advertisedKey_of_dcbNegotiate {d : DcbDict}
    (h : dcbNegotiate build decodeBase64 conf req = some d) :
    advertisedKey decodeBase64 req.headersIn.headers = some d.hash := by
  rw [dcbNegotiate_eq_bind, Option.ite_none_right_eq_some] at h
  obtain ⟨e, he, h⟩ := Option.bind_eq_some_iff.mp h.2
  obtain ⟨key, hkey, h⟩ := Option.bind_eq_some_iff.mp h
  have hhash : d.hash = key := by simpa using List.find?_some h
  rw [advertisedKey, he, Option.bind_some, hkey, hhash]

theorem commitEncoding_encoding (hkeep : core.KeepsEncoding) {dcb : Option DcbDict}
    (h : commitEncoding core allocOk dcb r = .next r' (some ctx)) :
    ctx.dcbDict = dcb ∧
      r'.contentEncoding = some (if dcb.isSome then ascii "dcb" else ascii "br") := by
  obtain ⟨hctx, p, hp, rfl⟩ := commitEncoding_cases h
  obtain rfl := Option.some.inj hctx
  refine ⟨rfl, ?_⟩
  rw [hkeep.weakEtag, hkeep.clearAcceptRanges, hkeep.clearContentLength]

theorem negotiateEncoding_encoding (hkeep : core.KeepsEncoding)
    (h : negotiateEncoding core build decodeBase64 conf allocOk req r = .next r' (some ctx)) :
    (∃ d, ctx.dcbDict = some d ∧ advertisedKey decodeBase64 req.headersIn.headers = some d.hash ∧
      r'.contentEncoding = some (ascii "dcb")) ∨
    ctx.dcbDict = none ∧ r'.contentEncoding = some (ascii "br") := by
  obtain ⟨d, hd, h⟩ | ⟨-, ⟨-, h⟩ | ⟨-, -, hctx⟩⟩ := negotiateEncoding_cases h
  · obtain ⟨hctx, hencoding⟩ := commitEncoding_encoding hkeep h
    exact .inl ⟨d, hctx, advertisedKey_of_dcbNegotiate hd, hencoding⟩
  · exact .inr (commitEncoding_encoding hkeep h)
  · cases hctx

theorem headerFilter_encoding (hkeep : core.KeepsEncoding) {bypassed : Bool}
    (h : headerFilter core build decodeBase64 conf gzipVaryOn allocOk bypassed req r =
      .next r' (some ctx)) :
    (∃ d, ctx.dcbDict = some d ∧ advertisedKey decodeBase64 req.headersIn.headers = some d.hash ∧
      r'.contentEncoding = some (ascii "dcb")) ∨
    ctx.dcbDict = none ∧ r'.contentEncoding = some (ascii "br") := by
  obtain ⟨_, _, -, -, h⟩ := headerFilter_negotiated h
  exact negotiateEncoding_encoding hkeep h

end

variable {σ : Type}

/-- The buffers of the filter's own that it gave to the next filter. -/
def ownBufs (tr : List (Event σ)) : List Buf :=
  tr.flatMap fun e => match e with | .header b => [b] | .offer b => [b] | _ => []

@[simp] theorem ownBufs_append (tr es : List (Event σ)) :
    ownBufs (tr ++ es) = ownBufs tr ++ ownBufs es := List.flatMap_append

theorem ownBufs_fail (w : World σ) : ownBufs w.fail.trace = ownBufs w.trace :=
  flatMap_fail w fun _ => rfl

theorem offeredBufs_fail (w : World σ) : offeredBufs w.fail.trace = offeredBufs w.trace :=
  flatMap_fail w fun _ => rfl

theorem ownBufs_of_noHeader {tr : List (Event σ)} (h : ∀ b, .header b ∉ tr) :
    ownBufs tr = offeredBufs tr := by
  induction tr with
  | nil => rfl
  | cons e tr ih =>
    have hrest : ownBufs tr = offeredBufs tr := ih fun b hb => h b (List.mem_cons_of_mem e hb)
    cases e with
    | header b => exact absurd List.mem_cons_self (h b)
    | offer b => exact congrArg (b :: ·) hrest
    | _ => exact hrest

theorem offeredBufs_of_ownBufs {tr : List (Event σ)} (h : ownBufs tr = []) :
    offeredBufs tr = [] := by
  rw [ownBufs, List.flatMap_eq_nil_iff] at h
  rw [offeredBufs, List.flatMap_eq_nil_iff]
  intro e he
  have hown := h e he
  cases e with
  | offer b => cases hown
  | _ => rfl

theorem bodyBytes_sentBufs {tr : List (Event σ)}
    (h : ∀ bufs, .forward bufs ∈ tr → bodyBytes bufs = []) :
    bodyBytes (sentBufs tr) = bodyBytes (ownBufs tr) := by
  induction tr with
  | nil => rfl
  | cons e tr ih =>
    have hrest := ih fun bufs hbufs => h bufs (List.mem_cons_of_mem e hbufs)
    have hsent : sentBufs (e :: tr) = sentBufs [e] ++ sentBufs tr := sentBufs_append [e] tr
    have hown : ownBufs (e :: tr) = ownBufs [e] ++ ownBufs tr := ownBufs_append [e] tr
    rw [hsent, hown, bodyBytes_append, bodyBytes_append, hrest]
    congr 1
    cases e with
    | forward bufs =>
      have hbufs := h bufs List.mem_cons_self
      simpa [sentBufs, ownBufs, bodyBytes] using hbufs
    | _ => rfl

theorem noHeader_of_inLoop {es : List (Event σ)} (h : ∀ e ∈ es, e.InLoop) (b : Buf) :
    .header b ∉ es := fun hb => h _ hb

def headerBuf (d : DcbDict) : Buf := ⟨dcbHeader d, false, false⟩

/-- Where the dcb header of a stream stands. -/
inductive Framing (headerOnly : Bool) (w : World σ) : Option DcbDict → Prop
  | plain (hd : w.ctx.dcbDict = none) (hno : ∀ b, .header b ∉ w.trace) : Framing headerOnly w none
  | due {d : DcbDict} (hd : w.ctx.dcbDict = some d) (hc : w.ctx.closed = false)
      (hs : w.ctx.dcbHeaderSent = false) (hown : ownBufs w.trace = [])
      (hphase : w.phase = .start ∨ headerOnly = true) : Framing headerOnly w (some d)
  | sent {d : DcbDict} (hd : w.ctx.dcbDict = some d) (hs : w.ctx.dcbHeaderSent = true)
      (hown : ownBufs w.trace = headerBuf d :: offeredBufs w.trace) : Framing headerOnly w (some d)
  | failed {d : DcbDict}
      (hown : ownBufs w.trace = [] ∨ ownBufs w.trace = headerBuf d :: offeredBufs w.trace)
      (hphase : w.phase = .returned NGX_ERROR) : Framing headerOnly w (some d)

/-- What goes to the next filter as it came: up to the first error, only what follows the end. -/
structure Handed (headerOnly : Bool) (w : World σ) : Prop where
  called : ∀ bufs, .forward bufs ∈ w.trace → .call bufs ∈ w.trace
  forwarded : headerOnly = false → FinalOnly (suppliedBufs w.trace) →
    ∀ bufs, .forward bufs ∈ w.trace → bufs = []
  closed : w.ctx.closed = true → w.ctx.success = true ∨ w.phase = .returned NGX_ERROR

section

variable {enc : Encoder σ} {spec : enc.Contract} {conf : Conf} {headerOnly : Bool}
  {w w' : World σ} {dict : Option DcbDict} {bufs : List Buf}

theorem Framing.fail (h : Framing headerOnly w dict) : Framing headerOnly w.fail dict := by
  cases h with
  | plain hd hno =>
    refine .plain hd fun b hb => ?_
    obtain hb | hb := List.mem_append.mp hb
    · exact hno b hb
    · cases hs : w.ctx.encoder <;> simp [hs] at hb
  | due hd hc hs hown => exact .failed (.inl (by rwa [ownBufs_fail])) rfl
  | sent hd hs hown => exact .sent hd hs (by rw [ownBufs_fail, offeredBufs_fail, hown])
  | failed hown hphase => exact .failed (by rwa [ownBufs_fail, offeredBufs_fail]) rfl

theorem Framing.headed (h : Framing headerOnly w dict) (hrun : w.phase ≠ .returned NGX_ERROR)
    {ctx : BodyCtx σ} {hdr es : List (Event σ)} (hhdr : Headed w.ctx ctx hdr)
    (hdict : w'.ctx.dcbDict = ctx.dcbDict) (hsent : w'.ctx.dcbHeaderSent = ctx.dcbHeaderSent)
    (htrace : w'.trace = w.trace ++ hdr ++ es) (hno : ∀ b, .header b ∉ es)
    (hoffer : offeredBufs es = []) :
    Framing headerOnly w' dict := by
  have hown : ownBufs es = [] := (ownBufs_of_noHeader hno).trans hoffer
  cases hhdr with
  | done hdone =>
    rw [List.append_nil] at htrace
    cases h with
    | plain hd hno' =>
      refine .plain (hdict.trans hd) fun b hb => ?_
      rw [htrace, List.mem_append] at hb
      exact hb.elim (hno' b) (hno b)
    -- a header that is due is sent at this stage
    | due hd hc hs => simp [hd, hs] at hdone
    | sent hd hs hown' =>
      refine .sent (hdict.trans hd) (hsent.trans hs) ?_
      rw [htrace, ownBufs_append, hown, offeredBufs_append, hoffer, List.append_nil,
        List.append_nil, hown']
    | failed _ hphase => exact absurd hphase hrun
  | @sent d hd hs =>
    cases h with
    | plain hd' => simp [hd'] at hd
    | @due d' hd' hc hs' hown' hphase =>
      obtain rfl := Option.some.inj (hd.symm.trans hd')
      refine .sent (hdict.trans hd) hsent ?_
      rw [htrace, ownBufs_append, ownBufs_append, hown', hown, offeredBufs_append,
        offeredBufs_append, offeredBufs_of_ownBufs hown', hoffer]
      rfl
    | sent _ hs' => simp [hs'] at hs
    | failed _ hphase => exact absurd hphase hrun

theorem Framing.noted (h : Framing headerOnly w dict) (hrun : w.phase ≠ .returned NGX_ERROR)
    {ctx : BodyCtx σ} (hd : ctx.dcbDict = w.ctx.dcbDict) (hc : ctx.closed = w.ctx.closed)
    (hs : ctx.dcbHeaderSent = w.ctx.dcbHeaderSent) (bufs : List Buf) :
    Framing headerOnly { w with ctx := ctx, trace := w.trace ++ [.call bufs] } dict := by
  cases h with
  | plain hd' hno => exact .plain (hd.trans hd') fun b hb => hno b (by simpa using hb)
  | due hd' hc' hs' hown hphase =>
    exact .due (hd.trans hd') (hc.trans hc') (hs.trans hs') (by simpa [ownBufs] using hown) hphase
  | sent hd' hs' hown =>
    refine .sent (hd.trans hd') (hs.trans hs') ?_
    simpa [ownBufs, offeredBufs] using hown
  | failed _ hphase => exact absurd hphase hrun

theorem Framing.call (h : Framing headerOnly w dict) (hrun : w.phase ≠ .returned NGX_ERROR)
    (hcall : StartCase enc conf headerOnly bufs w w') : Framing headerOnly w' dict := by
  have hinit {ctx : BodyCtx σ} (hi : Initialized enc conf w.ctx ctx) :
      Framing headerOnly { w with ctx := ctx, trace := w.trace ++ [.call bufs] } dict := by
    cases hi <;> refine h.noted hrun ?_ ?_ ?_ bufs <;> rfl
  have happend (added : List Buf) (b : Buf) :
      Event.header b ∉ [(.append added : Event σ)] := by simp
  cases hcall with
  | @forwarded rc hgate =>
    cases h with
    | plain hd hno => exact .plain hd fun b hb => hno b (by simpa using hb)
    | due hd hc hs hown hphase =>
      have ho : headerOnly = true := hgate.resolve_left (by simp [hc])
      exact .due hd hc hs (by simpa [ownBufs] using hown) (.inr ho)
    | sent hd hs hown => exact .sent hd hs (by simpa [ownBufs, offeredBufs] using hown)
    | failed _ hphase => exact absurd hphase hrun
  | initFailed hc ho hi =>
    apply Framing.fail
    refine h.noted hrun ?_ ?_ ?_ bufs <;> rfl
  | failed hc ho hi ha =>
    have hopen := hinit hi
    cases ha with
    | @headerFailed d hdr hd hs hhdr =>
      cases hopen with
      | plain hd' => cases hd.symm.trans hd'
      | @due d' hd' hc' hs' hown =>
        -- the header was not allocated, or the next filter refused it
        obtain rfl := Option.some.inj (hd.symm.trans hd')
        refine .failed ?_ rfl
        rw [ownBufs_fail, offeredBufs_fail, ownBufs_append, offeredBufs_append, hown,
          offeredBufs_of_ownBufs hown]
        obtain rfl | rfl := hhdr
        · exact .inl rfl
        · exact .inr rfl
      | sent _ hs' => cases hs.symm.trans hs'
      | failed _ hphase => exact absurd hphase hrun
    | linksFailed hhdr =>
      apply Framing.fail
      exact hopen.headed hrun hhdr rfl rfl rfl (happend _) rfl
  | entered hc ho hi ha =>
    have hopen := hinit hi
    cases ha with
    | null hhdr =>
      exact hopen.headed hrun hhdr rfl rfl (List.append_nil _).symm (fun _ => List.not_mem_nil) rfl
    | links hhdr => exact hopen.headed hrun hhdr rfl rfl rfl (happend _) rfl

theorem Framing.pass {d : Downstream} (h : Framing headerOnly w dict) (ho : headerOnly = false)
    (hrun : w.phase = .running) (hpass : PassCase enc conf d w w') (hsafe : w'.phase ≠ .fault) :
    Framing headerOnly w' dict := by
  obtain ⟨hd', hs', -⟩ := hpass.frame.resolve_left hsafe
  obtain ⟨es, htrace, hes⟩ := hpass.trace_append.resolve_left hsafe
  have hno := noHeader_of_inLoop hes
  cases h with
  | plain hd hno' =>
    refine .plain (hd'.trans hd) fun b hb => ?_
    rw [htrace, List.mem_append] at hb
    exact hb.elim (hno' b) (hno b)
  | due hd hc hs hown hphase => simp [hrun, ho] at hphase
  | sent hd hs hown =>
    refine .sent (hd'.trans hd) (hs'.trans hs) ?_
    rw [htrace, ownBufs_append, offeredBufs_append, hown, ownBufs_of_noHeader hno]
    rfl
  | failed _ hphase => simp [hrun] at hphase

theorem Handed.extend (h : Handed headerOnly w) {es : List (Event σ)}
    (htrace : w'.trace = w.trace ++ es) (hno : ∀ bufs, .forward bufs ∉ es)
    (hclosed : w'.ctx.closed = true → w'.ctx.success = true ∨ w'.phase = .returned NGX_ERROR) :
    Handed headerOnly w' where
  called bufs hbufs := by
    rw [htrace, List.mem_append] at hbufs ⊢
    exact .inl (h.called bufs (hbufs.resolve_right (hno bufs)))
  forwarded ho hfinal bufs hbufs := by
    rw [htrace, List.mem_append] at hbufs
    rw [htrace, suppliedBufs_append] at hfinal
    exact h.forwarded ho hfinal.of_append bufs (hbufs.resolve_right (hno bufs))
  closed := hclosed

theorem Handed.forward {rc : Int} (h : Handed headerOnly w) (ha : Account spec headerOnly w)
    (hrun : w.phase ≠ .returned NGX_ERROR) (hgate : w.ctx.closed = true ∨ headerOnly = true) :
    Handed headerOnly
      { w with phase := .returned rc, trace := w.trace ++ [.call bufs, .forward bufs] } where
  called bufs' hmem := by
    obtain hmem | hmem := List.mem_append.mp hmem
    · exact List.mem_append_left _ (h.called bufs' hmem)
    · obtain rfl : bufs' = bufs := by simpa using hmem
      simp
  forwarded ho hfinal bufs' hmem := by
    have hc : w.ctx.closed = true := hgate.resolve_right (by simp [ho])
    have hs : w.ctx.success = true := (h.closed hc).resolve_right hrun
    rw [suppliedBufs_append] at hfinal
    obtain hmem | hmem := List.mem_append.mp hmem
    · exact h.forwarded ho hfinal.of_append bufs' hmem
    · obtain rfl : bufs' = bufs := by simpa using hmem
      cases ha with
      | fresh ha =>
        obtain ⟨c, hctx⟩ := ha.ctx
        simp [hctx, BodyCtx.ofFilterCtx] at hc
      | opened _ ha => simp [ha.closed] at hc
      | closed ha =>
        have hnil := (ha.success hs hfinal.of_append).supplied.append_nil hfinal
        simpa [suppliedBufs] using hnil
  closed hc := .inl ((h.closed hc).resolve_right hrun)

theorem Handed.call (h : Handed headerOnly w) (ha : Account spec headerOnly w)
    (hrun : w.phase ≠ .returned NGX_ERROR) (hcall : StartCase enc conf headerOnly bufs w w') :
    Handed headerOnly w' := by
  have hno (es : List (Event σ))
      (hes : ∀ e ∈ es, (∃ b, e = .header b) ∨ ∃ bufs, e = .append bufs) :
      ∀ e ∈ [.call bufs] ++ es, ∀ bufs', e ≠ .forward bufs' := by
    rintro e he bufs' rfl
    simpa using mem_startEvents hes he
  have hfail {w' : World σ} {es : List (Event σ)} (htrace : w'.trace = w.trace ++ es)
      (hes : ∀ e ∈ es, ∀ bufs', e ≠ .forward bufs') : Handed headerOnly w'.fail := by
    obtain ⟨es', htrace', hes'⟩ :=
      trace_fail (p := fun e => ∀ bufs', e ≠ .forward bufs') (by simp) htrace hes
    exact h.extend htrace' (fun bufs' hmem => hes' _ hmem bufs' rfl) fun _ => .inr rfl
  cases hcall with
  | forwarded hgate => exact h.forward ha hrun hgate
  | initFailed => exact hfail rfl (hno [] nofun)
  | failed hc ho hi hacc =>
    obtain ⟨_, _, _, es, -, htrace, hes⟩ := hacc.frame (.inl rfl)
    exact hfail (by rw [htrace, List.append_assoc]) (hno es hes)
  | @entered ctx w' hc ho hi hacc =>
    obtain ⟨_, _, _, es, hctx, htrace, hes⟩ := hacc.frame (.inr rfl)
    have hopen : ctx.closed = false := by
      cases hi <;> exact hc
    have htrace' : w'.trace = w.trace ++ ([.call bufs] ++ es) := by rw [htrace, List.append_assoc]
    refine h.extend htrace' (fun bufs' hmem => hno es hes _ hmem bufs' rfl) fun hc' => ?_
    rw [hctx] at hc'
    simp [hopen] at hc'

theorem Handed.pass {d : Downstream} (h : Handed headerOnly w) (hopen : w.ctx.closed = false)
    (hpass : PassCase enc conf d w w') (hsafe : w'.phase ≠ .fault) : Handed headerOnly w' := by
  obtain ⟨-, -, hclosed⟩ := hpass.frame.resolve_left hsafe
  obtain ⟨es, htrace, hes⟩ := hpass.trace_append.resolve_left hsafe
  refine h.extend htrace (fun bufs hbufs => hes _ hbufs) fun hc => ?_
  obtain hsame | hdone := hclosed
  · rw [hsame, hopen] at hc
    cases hc
  · exact hdone

end

section

variable {enc : Encoder σ} {conf : Conf} {headerOnly : Bool} {ctx : FilterCtx} {buffered : Bool}
  {w : World σ}

theorem framing_of_reach (spec : enc.Contract)
    (h : Reach (bodyStep enc conf headerOnly) (fun _ w => w.phase ≠ .returned NGX_ERROR)
      (World.initial ctx buffered) w) :
    Framing headerOnly w ctx.dcbDict ∧ Handed headerOnly w := by
  refine invariant_of_reach (I := fun w => Framing headerOnly w ctx.dcbDict ∧ Handed headerOnly w)
    spec ?_ ?_ ?_ h
  · refine ⟨?_, nofun, nofun, nofun⟩
    cases hd : ctx.dcbDict with
    | none => exact .plain hd nofun
    | some d => exact .due hd rfl rfl rfl (.inl rfl)
  · intro o bufs w w' ha hno hi hcase
    exact ⟨hi.1.call hno hcase, hi.2.call ha hno hcase⟩
  · intro d w w' ha hrun _ hi hcase hsafe
    obtain ⟨ho, s, b, hopen, -⟩ := ha.opened_of_running hrun
    exact ⟨hi.1.pass ho hrun hcase hsafe, hi.2.pass hopen.closed hcase hsafe⟩

theorem offered_isPrefix (spec : enc.Contract)
    (h : Reachable (bodyStep enc conf headerOnly) (World.initial ctx buffered) w) :
    bodyBytes (offeredBufs w.trace) <+: (takenBytes w.trace).flatten := by
  rw [(taken_eq_offered spec h).1, List.map_append, List.flatten_append, bodyBytes,
    List.flatMap_def]
  exact List.prefix_append _ _

/-- For a response that the header filter declared dcb, every run sends the dcb header with the key
of the request, once and first, and then the output of the encoder; for br there is no header. -/
theorem dcb_framing {core : Core} {build : Build} {decodeBase64 : Bytes → Option Bytes}
    {gzipVaryOn : Bool} {allocOk : AllocSite → Bool} {bypassed : Bool} {req : Request}
    {r r' : Response} (spec : enc.Contract) (hcore : core.KeepsEncoding)
    (hheader : headerFilter core build decodeBase64 conf gzipVaryOn allocOk bypassed req r =
      .next r' (some ctx))
    (h : Reach (bodyStep enc conf headerOnly) (fun _ w => w.phase ≠ .returned NGX_ERROR)
      (World.initial ctx buffered) w)
    (hfinal : FinalOnly (suppliedBufs w.trace))
    (hempty : headerOnly = true → bodyBytes (suppliedBufs w.trace) = []) :
    (r'.contentEncoding = some (ascii "dcb") → ∃ key,
      advertisedKey decodeBase64 req.headersIn.headers = some key ∧ key.length = 32 ∧
      let frame : Bytes := [0xff, 0x44, 0x43, 0x42] ++ key
      bodyBytes (sentBufs w.trace) <+: frame ++ (takenBytes w.trace).flatten ∧
      (ownBufs w.trace = [] ∨ ownBufs w.trace = ⟨frame, false, false⟩ :: offeredBufs w.trace) ∧
      (headerOnly = false → w.phase ≠ .start → w.phase ≠ .returned NGX_ERROR →
        ownBufs w.trace = ⟨frame, false, false⟩ :: offeredBufs w.trace)) ∧
    (r'.contentEncoding = some (ascii "br") →
      bodyBytes (sentBufs w.trace) <+: (takenBytes w.trace).flatten ∧
      ∀ b, .header b ∉ w.trace) := by
  obtain ⟨hframing, hhanded⟩ := framing_of_reach spec h
  have hoffered := offered_isPrefix spec h.reachable
  -- nothing but the filter's own bytes is sent
  have hsent : bodyBytes (sentBufs w.trace) = bodyBytes (ownBufs w.trace) := by
    apply bodyBytes_sentBufs
    intro bufs hbufs
    cases ho : headerOnly with
    | false =>
      rw [hhanded.forwarded ho hfinal bufs hbufs]
      rfl
    | true =>
      have hcall := hhanded.called bufs hbufs
      have hnil := hempty ho
      rw [bodyBytes, List.flatMap_eq_nil_iff] at hnil ⊢
      exact fun b hb => hnil b (List.mem_flatMap.mpr ⟨_, hcall, hb⟩)
  have hframe {d : DcbDict} (hown : ownBufs w.trace = headerBuf d :: offeredBufs w.trace) :
      bodyBytes (ownBufs w.trace) <+: dcbHeader d ++ (takenBytes w.trace).flatten := by
    rw [hown, bodyBytes_cons]
    exact (List.prefix_append_right_inj _).mpr hoffered
  obtain ⟨d, hd, hkey, hencoding⟩ | ⟨hd, hencoding⟩ := headerFilter_encoding hcore hheader
  · rw [hd] at hframing
    refine ⟨fun _ => ⟨d.hash, hkey, d.hash_length, ?_⟩, fun hbr => ?_⟩
    · rw [hsent]
      cases hframing with
      | due hd' hc hs hown hphase =>
        refine ⟨?_, .inl hown, fun ho hp _ => ?_⟩
        · rw [hown]
          exact List.nil_prefix
        · rw [ho] at hphase
          exact absurd (hphase.resolve_right Bool.false_ne_true) hp
      | sent hd' hs hown => exact ⟨hframe hown, .inr hown, fun _ _ _ => hown⟩
      | failed hown hphase =>
        refine ⟨?_, hown, fun _ _ hp => absurd hphase hp⟩
        obtain hown | hown := hown
        · rw [hown]
          exact List.nil_prefix
        · exact hframe hown
    · rw [hencoding] at hbr
      exact absurd hbr (by decide)
  · rw [hd] at hframing
    refine ⟨fun hdcb => ?_, fun _ => ?_⟩
    · rw [hencoding] at hdcb
      exact absurd hdcb (by decide)
    · cases hframing with
      | plain hd' hno =>
        rw [hsent, ownBufs_of_noHeader hno]
        exact ⟨hoffered, hno⟩

end

theorem Core.plain_keepsEncoding : Core.plain.KeepsEncoding :=
  ⟨fun _ => rfl, fun _ => rfl, fun _ => rfl⟩

def DcbDict.sample : DcbDict := ⟨[], [0x78], List.replicate 32 0x62, List.length_replicate⟩

def Conf.dcb : Conf := { Conf.plain with dcbDicts := [.sample] }

/-- A dcb response of two bytes, after a call that brings nothing; the next filter takes one byte at
a time. -/
theorem dcb_framing_sample :
    ∃ w : World BlockState, w.phase = .returned NGX_OK ∧ w.ctx.success = true ∧
      bodyBytes (sentBufs w.trace) <+:
        [0xff, 0x44, 0x43, 0x42] ++ DcbDict.sample.hash ++ [1, 2, 3] := by
  let headers : HeaderList := .ofList [⟨1, ascii "Accept-Encoding", ascii "dcb"⟩,
    ⟨1, ascii "Available-Dictionary", COLON :: (Base64.encode DcbDict.sample.hash ++ [COLON])⟩]
  let r : Response :=
    ⟨200, false, none, -1, true, none, none, .ofList [], 20, false, false, false, false⟩
  let r' : Response := ⟨200, false, some (ascii "dcb"), -1, false, none, none,
    .ofList [⟨1, ascii "Vary", dcbVaryValue⟩, ⟨1, ascii "Content-Encoding", ascii "dcb"⟩], 20,
    false, true, false, true⟩
  have hheader : headerFilter Core.plain .chained Base64.decode .dcb false (fun _ => true) false
      ⟨true, true, .of headers⟩ r = .next r' (some ⟨-1, some .sample⟩) := by decide +kernel
  have hkey : advertisedKey Base64.decode headers = some DcbDict.sample.hash := by decide +kernel
  let pass : Label := .pass ⟨1, NGX_OK⟩
  let labels := [.call .fine [], pass, .call .fine [⟨[1, 2], false, true⟩]] ++ List.replicate 6 pass
  have hrun : ∃ w : World BlockState, run (guarded (fun _ w => w.phase ≠ .returned NGX_ERROR)
      (bodyStep blockEncoder .dcb false)) labels (World.initial ⟨-1, some .sample⟩ false) = some w ∧
      w.phase = .returned NGX_OK ∧ w.ctx.success = true ∧ FinalOnly (suppliedBufs w.trace) ∧
      (takenBytes w.trace).flatten = [1, 2, 3] := ⟨_, rfl, rfl, rfl, by decide, rfl⟩
  obtain ⟨w, hrun, hret, hsuccess, hfinal, htaken⟩ := hrun
  have hw := Reach.run_guarded .init hrun
  obtain ⟨key, hkey', -, hsent, -⟩ :=
    (dcb_framing blockContract Core.plain_keepsEncoding hheader hw hfinal nofun).1 rfl
  obtain rfl := Option.some.inj (hkey.symm.trans hkey')
  rw [htaken] at hsent
  exact ⟨w, hret, hsuccess, hsent⟩

end NgxBrotli
