import NgxBrotli.DcbFraming
import NgxBrotli.LengthCap
import NgxBrotli.Ratio

namespace NgxBrotli
open Runs

variable {σ : Type} {enc : Encoder σ} {spec : enc.Contract} {conf : Conf} {headerOnly : Bool}
  {dict : Option DcbDict} {w w' : World σ} {ctx ctx' : BodyCtx σ} {tr es : List (Event σ)}

def BodyCtx.headerBufs (ctx : BodyCtx σ) : List Buf :=
  if ctx.dcbHeaderSent then (ctx.dcbDict.map headerBuf).toList else []

theorem length_headerBuf (d : DcbDict) : (headerBuf d).bytes.length = 36 := by
  rw [headerBuf, dcbHeader, List.length_append, d.hash_length]
  rfl

def BodyCtx.counters (ctx : BodyCtx σ) : Option DcbDict × Bool × UInt64 × UInt64 :=
  (ctx.dcbDict, ctx.dcbHeaderSent, ctx.bytesIn, ctx.bytesOut)

/-- The counters are those of the trace. -/
structure Totals (dict : Option DcbDict) (ctx : BodyCtx σ) (tr : List (Event σ)) : Prop where
  dict : ctx.dcbDict = dict
  bytesIn : ctx.bytesIn = UInt64.ofNat (fedBytes tr).length
  bytesOut : ctx.bytesOut =
    UInt64.ofNat ((bodyBytes ctx.headerBufs).length + (takenBytes tr).flatten.length)

def Ended (spec : enc.Contract) (ctx : BodyCtx σ) : Prop :=
  ctx.success = true ∨
    ∃ s, ctx.encoder = some s ∧ spec.finished s ∧ enc.hasMoreOutput s = false

/-- The totals, and up to the first error what the filter gave: the header, then the output.
At the end there was some. -/
structure Counted (spec : enc.Contract) (dict : Option DcbDict) (ctx : BodyCtx σ)
    (tr : List (Event σ)) : Prop extends Totals dict ctx tr where
  own : ctx.closed = false ∨ ctx.success = true → ownBufs tr = ctx.headerBufs ++ offeredBufs tr
  output : Ended spec ctx → takenBytes tr ≠ []
  sent : ctx.success = true → HeaderSent ctx

theorem Totals.quiet (h : Totals dict ctx tr) (es : List (Event σ)) (hfed : fedBytes es = [])
    (htaken : takenBytes es = []) : Totals dict ctx (tr ++ es) where
  dict := h.dict
  bytesIn := by rw [fedBytes_append, hfed, List.append_nil, h.bytesIn]
  bytesOut := by rw [takenBytes_append, htaken, List.append_nil, h.bytesOut]

theorem headerBufs_of_counters (hkeep : ctx'.counters = ctx.counters) :
    ctx'.headerBufs = ctx.headerBufs := by
  obtain ⟨hdict, hsent, -⟩ : _ ∧ _ ∧ _ := by simpa [BodyCtx.counters] using hkeep
  rw [BodyCtx.headerBufs, BodyCtx.headerBufs, hdict, hsent]

theorem Totals.keep (h : Totals dict ctx tr) (hkeep : ctx'.counters = ctx.counters) :
    Totals dict ctx' tr := by
  have hheader := headerBufs_of_counters hkeep
  obtain ⟨hdict, -, hin, hout⟩ : _ ∧ _ ∧ _ ∧ _ := by simpa [BodyCtx.counters] using hkeep
  exact ⟨hdict.trans h.dict, hin.trans h.bytesIn, by rw [hout, hheader, h.bytesOut]⟩

theorem Totals.fail (h : Totals dict w.ctx w.trace) (hs : w.ctx.success = false) :
    Counted spec dict w.fail.ctx w.fail.trace where
  dict := h.dict
  bytesIn := by
    rw [fedBytes, flatMap_fail w fun _ => rfl]
    exact h.bytesIn
  bytesOut := by
    rw [takenBytes, flatMap_fail w fun _ => rfl]
    exact h.bytesOut
  own hopen := by
    obtain hc | hdone := hopen
    · cases hc
    · cases hs.symm.trans hdone
  output hend := by
    obtain hdone | ⟨s, he, -⟩ := hend
    · cases hs.symm.trans hdone
    · cases he
  sent hdone := by cases hs.symm.trans hdone

theorem Totals.count (spec : enc.Contract) (h : Totals dict ctx tr) {s s' : σ} {op : Operation}
    {input : Bytes} {n : ℕ} (hcall : enc.compressStream op input s = some (n, s')) (e : Option σ)
    (bufs : List Buf) :
    Totals dict
      { ctx with encoder := e, bytesIn := ctx.bytesIn + UInt64.ofNat n, input := bufs }
      (tr ++ [.compress op input n s']) where
  dict := h.dict
  bytesIn := Capped.count spec h.bytesIn hcall
  bytesOut := by
    rw [takenBytes_append]
    exact (h.bytesOut.trans (by simp [takenBytes]; rfl))

theorem Account.offered_nil (h : Account spec headerOnly w) (hc : w.ctx.closed = false)
    (hdue : ¬HeaderSent w.ctx) : offeredBufs w.trace = [] := by
  cases h with
  | fresh h => exact h.offered
  | opened _ _ _ hheader => exact absurd hheader hdue
  | closed h => simp [h.closed] at hc

theorem Totals.headed {hdr : List (Event σ)} (h : Totals dict ctx tr) (hhdr : Headed ctx ctx' hdr) :
    Totals dict ctx' (tr ++ hdr) := by
  cases hhdr with
  | done => rwa [List.append_nil]
  | @sent d hd hs =>
    refine ⟨h.dict, (h.quiet _ rfl rfl).bytesIn, ?_⟩
    have hbefore : bodyBytes ctx.headerBufs = [] := by simp [BodyCtx.headerBufs, hs, bodyBytes]
    have hafter : (bodyBytes (BodyCtx.headerBufs { ctx with
        bytesOut := ctx.bytesOut + 36, dcbHeaderSent := true })).length = 36 := by
      simp [BodyCtx.headerBufs, hd, bodyBytes, length_headerBuf]
    have hcount := (h.quiet [.header ⟨dcbHeader d, false, false⟩] rfl rfl).bytesOut
    rw [hbefore, List.length_nil, Nat.zero_add] at hcount
    rw [hafter, Nat.add_comm, UInt64.ofNat_add]
    exact congrArg (· + 36) hcount

theorem own_headed {hdr : List (Event σ)} (hown : ownBufs tr = ctx.headerBufs ++ offeredBufs tr)
    (hdue : ¬HeaderSent ctx → offeredBufs tr = []) (hhdr : Headed ctx ctx' hdr) :
    ownBufs (tr ++ hdr) = ctx'.headerBufs ++ offeredBufs (tr ++ hdr) := by
  cases hhdr with
  | done => rwa [List.append_nil]
  | @sent d hd hs =>
    have hnone := hdue (by simp [HeaderSent, hd, hs])
    have hbefore : ctx.headerBufs = [] := by simp [BodyCtx.headerBufs, hs]
    rw [ownBufs_append, offeredBufs_append, hown, hnone, hbefore]
    simp [BodyCtx.headerBufs, hd, headerBuf, ownBufs, offeredBufs]

theorem Counted.call {bufs : List Buf} (h : Counted spec dict w.ctx w.trace)
    (ha : Account spec headerOnly w) (hcall : StartCase enc conf headerOnly bufs w w') :
    Counted spec dict w'.ctx w'.trace := by
  have hnoted : Totals dict w.ctx (w.trace ++ [Event.call bufs]) := h.quiet _ rfl rfl
  have hinit (hc : w.ctx.closed = false) {ctx : BodyCtx σ} (hi : Initialized enc conf w.ctx ctx) :
      Totals dict ctx (w.trace ++ [Event.call bufs]) ∧ ctx.success = false ∧
        ownBufs (w.trace ++ [Event.call bufs]) =
          ctx.headerBufs ++ offeredBufs (w.trace ++ [Event.call bufs]) ∧
        (¬HeaderSent ctx → offeredBufs (w.trace ++ [Event.call bufs]) = []) ∧
        (Ended spec ctx → takenBytes w.trace ≠ []) := by
    have hown : ownBufs (w.trace ++ [Event.call bufs]) =
        w.ctx.headerBufs ++ offeredBufs (w.trace ++ [Event.call bufs]) := by
      rw [ownBufs_append, offeredBufs_append, h.own (.inl hc), List.append_assoc]
      rfl
    have hdue (hdue : ¬HeaderSent w.ctx) : offeredBufs (w.trace ++ [Event.call bufs]) = [] := by
      rw [offeredBufs_append, ha.offered_nil hc hdue]
      rfl
    have hs := ha.success_of_open hc
    cases hi with
    | already => exact ⟨hnoted, hs, hown, hdue, h.output⟩
    | now hi hopen =>
      refine ⟨hnoted.keep rfl, hs, hown, hdue, fun hend => ?_⟩
      obtain hdone | ⟨s, he, hf, -⟩ := hend
      · cases hs.symm.trans hdone
      · obtain rfl := Option.some.inj he
        exact absurd hf (openEncoder_unfinished spec hopen)
  cases hcall with
  | forwarded =>
    refine ⟨h.quiet _ rfl rfl, fun hopen => ?_, fun hend => ?_, h.sent⟩
    · rw [ownBufs_append, offeredBufs_append, h.own hopen, List.append_assoc]
      rfl
    · rw [takenBytes_append]
      exact List.append_ne_nil_of_left_ne_nil (h.output hend) _
  | initFailed hc =>
    exact Totals.fail (hnoted.keep rfl) (ha.success_of_open hc)
  | failed hc ho hi hacc =>
    obtain ⟨htotals, hs, -⟩ := hinit hc hi
    cases hacc with
    | headerFailed hd hsent hhdr =>
      refine Totals.fail ?_ hs
      obtain rfl | rfl := hhdr
      · exact htotals.quiet _ rfl rfl
      · exact htotals.quiet _ rfl rfl
    | @linksFailed _ _ added hhdr =>
      refine Totals.fail (((htotals.headed hhdr).quiet [.append added] rfl rfl).keep rfl) ?_
      cases hhdr <;> exact hs
  | @entered ctx w' hc ho hi hacc =>
    obtain ⟨htotals, hs, hown, hdue, hout⟩ := hinit hc hi
    have hhead {ctx' : BodyCtx σ} {hdr : List (Event σ)} (hhdr : Headed ctx ctx' hdr) :
        Counted spec dict ctx' (w.trace ++ [Event.call bufs] ++ hdr) := by
      have hs' : ctx'.success = false := by
        cases hhdr <;> exact hs
      refine ⟨htotals.headed hhdr, fun _ => own_headed hown hdue hhdr, fun hend => ?_,
        fun hdone => by cases hs'.symm.trans hdone⟩
      rw [takenBytes_append, takenBytes_append]
      refine List.append_ne_nil_of_left_ne_nil (List.append_ne_nil_of_left_ne_nil (hout ?_) _) _
      cases hhdr <;> exact hend
    cases hacc with
    | null hhdr => exact hhead hhdr
    | links hhdr =>
      have hheaded := hhead hhdr
      refine ⟨(hheaded.toTotals.quiet [.append bufs] rfl rfl).keep rfl, fun hopen => ?_,
        fun hend => ?_, hheaded.sent⟩
      · rw [ownBufs_append, offeredBufs_append, hheaded.own hopen, List.append_assoc]
        rfl
      · rw [takenBytes_append]
        exact List.append_ne_nil_of_left_ne_nil (hheaded.output hend) _

theorem Counted.loop (h : Counted spec dict ctx tr) (hc : ctx.closed = false)
    (ht : Totals dict ctx' (tr ++ es)) (hes : ∀ e ∈ es, e.InLoop)
    (hheader : ctx'.headerBufs = ctx.headerBufs) (hsent : HeaderSent ctx')
    (hout : Ended spec ctx' → takenBytes (tr ++ es) ≠ []) : Counted spec dict ctx' (tr ++ es) where
  toTotals := ht
  own _ := by
    rw [ownBufs_append, offeredBufs_append, h.own (.inl hc), hheader, List.append_assoc,
      ownBufs_of_noHeader (noHeader_of_inLoop hes)]
  output := hout
  sent _ := hsent

theorem not_ended_of_compress (spec : enc.Contract) {s s' : σ} {op : Operation}
    {input : Bytes} {n : ℕ}
    (hq : Quiet enc s ctx) (hcall : enc.compressStream op input s = some (n, s'))
    (hs : ctx'.success = false) (he : ctx'.encoder = some s') : ¬Ended spec ctx' := by
  rintro (hdone | ⟨t, ht, hf, hmore⟩)
  · cases hs.symm.trans hdone
  · obtain rfl := Option.some.inj (he.symm.trans ht)
    cases hmore.symm.trans (hq.more_of_finished spec hcall hf)

theorem Counted.pass {d : Downstream} (h : Counted spec dict w.ctx w.trace)
    (hc : w.ctx.closed = false) (hs : w.ctx.success = false) (hsent : HeaderSent w.ctx)
    (hpass : PassCase enc conf d w w') :
    Counted spec dict w'.ctx w'.trace ∨ w'.phase = .fault := by
  have hoffer (b : Buf) :
      fedBytes [offerEvent w.ctx b] = [] ∧ takenBytes [offerEvent w.ctx b] = [] := by
    obtain he | he := offerEvent_cases w.ctx b <;> rw [he] <;> exact ⟨rfl, rfl⟩
  -- the buffer is offered, and nothing else changes that is counted
  have hoffered (b : Buf) (n : ℕ) :
      Counted spec dict (w.ctx.afterOffer b n) (w.trace ++ [offerEvent w.ctx b]) := by
    obtain ⟨hfed, htaken⟩ := hoffer b
    refine h.loop hc ((h.quiet _ hfed htaken).keep rfl) (inLoop_singleton (offerEvent_inLoop _ b))
      rfl hsent fun hend => ?_
    rw [takenBytes_append, htaken, List.append_nil]
    exact h.output hend
  cases hpass with
  | faulted => exact .inr rfl
  | offered => exact .inl (hoffered _ _)
  | blocked => exact .inl (hoffered _ _)
  | offerFailed => exact .inl ((hoffered _ _).toTotals.fail hs)
  | @took s b hbusy hready he hb hmore hout =>
    have htaken :
        takenBytes [Event.take (σ := σ) (enc.takeOutput s).1] = [(enc.takeOutput s).1] := by
      simp [takenBytes, hout]
    refine .inl (h.loop hc ⟨h.dict, ?_, ?_⟩ (inLoop_singleton trivial) rfl hsent fun _ => ?_)
    · rw [fedBytes_append]
      exact h.bytesIn.trans (by simp [fedBytes])
    · rw [takenBytes_append, htaken, List.flatten_append, List.length_append, ← Nat.add_assoc,
        UInt64.ofNat_add, List.flatten_singleton]
      exact congrArg (· + _) h.bytesOut
    · rw [takenBytes_append, htaken]
      exact List.append_ne_nil_of_right_ne_nil _ (List.cons_ne_nil _ _)
  | takeFailed =>
    exact .inl (Totals.fail ((h.quiet [.take []] rfl rfl).keep rfl) hs)
  | @succeeded s hbusy hready he hmore hfinished =>
    have hend := h.output (.inr ⟨s, he, (spec.isFinished_iff s).mp hfinished⟩)
    left
    rw [trace_succeed he]
    refine h.loop hc ((h.quiet [.destroy s] rfl rfl).keep rfl) (inLoop_singleton trivial) rfl hsent
      fun _ => ?_
    rw [takenBytes_append]
    exact List.append_ne_nil_of_left_ne_nil hend _
  | @finishing s s' n hq hend hcall =>
    have hfed : fedBytes [.compress .finish [] n s'] = [] := by simp [fedBytes]
    refine .inl (h.loop hc ((h.quiet _ hfed rfl).keep rfl) (inLoop_singleton trivial) rfl hsent
      fun hend => ?_)
    exact absurd hend (not_ended_of_compress spec hq hcall hs rfl)
  | callFailed => exact .inl (Totals.fail (w := { w with buffered := true }) h.toTotals hs)
  | idle => exact .inl h
  | skipped => exact .inl ⟨h.keep rfl, h.own, h.output, h.sent⟩
  | @popped s s' b rest hq hend hin hcall hcap =>
    have ht := (h.toTotals.count spec hcall (some s') rest).quiet
      [.pop b] rfl rfl
    rw [List.append_assoc] at ht
    refine .inl (h.loop hc (ht.keep rfl) ?_ rfl hsent fun hend => ?_)
    · simp [Event.InLoop]
    · exact absurd hend (not_ended_of_compress spec hq hcall hs rfl)
  | pushed hq hend hin hcall hcap =>
    refine .inl (h.loop hc (h.toTotals.count spec hcall _ _) (inLoop_singleton trivial) rfl hsent
      fun hend => ?_)
    exact absurd hend (not_ended_of_compress spec hq hcall hs rfl)
  | pushFailed hq hend hin hcall hwhy => exact .inl ((h.toTotals.count spec hcall _ _).fail hs)

section

variable {c : FilterCtx} {buffered : Bool}

theorem counted_of_reach (spec : enc.Contract)
    (h : Reachable (bodyStep enc conf headerOnly) (World.initial c buffered) w) :
    Counted spec c.dcbDict w.ctx w.trace := by
  refine invariant_of_reach (I := fun w => Counted spec c.dcbDict w.ctx w.trace) spec ?_ ?_ ?_ h
  · refine ⟨⟨rfl, rfl, rfl⟩, fun _ => rfl, fun hend => ?_, nofun⟩
    obtain hdone | ⟨s, he, -⟩ := hend
    · cases hdone
    · cases he
  · intro o bufs w w' ha _ hi hcase
    exact hi.call ha hcase
  · intro d w w' ha hrun _ hi hcase hsafe
    obtain ⟨-, s, b, ho, -, hsent⟩ := ha.opened_of_running hrun
    exact (hi.pass ho.closed ho.success hsent hcase).resolve_right hsafe

theorem failed_stays (spec : enc.Contract)
    (hw : Reachable (bodyStep enc conf headerOnly) (World.initial c buffered) w)
    (hc : w.ctx.closed = true) (hs : w.ctx.success = false)
    (h : Reachable (bodyStep enc conf headerOnly) w w') : w'.ctx.success = false := by
  have hinv : Reachable (bodyStep enc conf headerOnly) (World.initial c buffered) w' ∧
      w'.ctx.closed = true ∧ w'.ctx.success = false := by
    induction h with
    | init => exact ⟨hw, hc, hs⟩
    | step _ _ hstep ih =>
      obtain ⟨hw, hc, hs⟩ := ih
      refine ⟨hw.step trivial hstep, ?_⟩
      obtain ⟨-, -, o, bufs, rfl, hcase⟩ | ⟨hrun, d, rfl, hcase⟩ := bodyStep_cases hstep
      · cases hcase with
        | forwarded => exact ⟨hc, hs⟩
        | initFailed ho => cases ho.symm.trans hc
        | failed ho => cases ho.symm.trans hc
        | entered ho => cases ho.symm.trans hc
      · obtain ⟨-, s, b, ho, -⟩ := (account_of_reach spec hw).opened_of_running hrun
        cases ho.closed.symm.trans hc
  exact hinv.2.2

theorem closed_of_error (spec : enc.Contract)
    (hw : Reachable (bodyStep enc conf headerOnly) (World.initial c buffered) w)
    (hc : w.ctx.closed = false) {l : Label} (hstep : bodyStep enc conf headerOnly l w = some w')
    (herror : w'.phase = .returned NGX_ERROR) :
    w'.ctx.success = false ∧ (w'.ctx.closed = true ∨ headerOnly = true) := by
  have ha := account_of_reach spec hw
  have hs := ha.success_of_open hc
  obtain ⟨-, -, o, bufs, rfl, hcase⟩ | ⟨hrun, d, rfl, hcase⟩ := bodyStep_cases hstep
  · cases hcase with
    | forwarded hgate => exact ⟨hs, .inr (hgate.resolve_left (by simp [hc]))⟩
    | initFailed => exact ⟨hs, .inl rfl⟩
    | failed hc ho hi hacc =>
      obtain ⟨_, _, _, es, hctx, -⟩ := hacc.frame (.inl rfl)
      refine ⟨?_, .inl rfl⟩
      cases hi <;> exact (congrArg BodyCtx.success hctx).trans hs
    | entered => cases herror
  · cases hcase with
    | faulted => cases herror
    | offered => cases hrun.symm.trans herror
    | blocked => cases herror
    | offerFailed => exact ⟨hs, .inl rfl⟩
    | took => cases hrun.symm.trans herror
    | takeFailed => exact ⟨hs, .inl rfl⟩
    | succeeded => cases herror
    | finishing => cases hrun.symm.trans herror
    | callFailed => exact ⟨hs, .inl rfl⟩
    | idle => cases herror
    | skipped => cases hrun.symm.trans herror
    | popped => cases hrun.symm.trans herror
    | pushed => cases hrun.symm.trans herror
    | pushFailed => exact ⟨hs, .inl rfl⟩

theorem success_of_headerOnly (spec : enc.Contract)
    (h : Reachable (bodyStep enc conf true) (World.initial c buffered) w) :
    w.ctx.success = false := by
  refine invariant_of_reach (I := fun w => w.ctx.success = false) spec rfl ?_ ?_ h
  · intro o bufs w w' _ _ hs hcase
    cases hcase with
    | forwarded => exact hs
    | initFailed _ ho => cases ho
    | failed _ ho => cases ho
    | entered _ ho => cases ho
  · intro d w w' ha hrun
    cases (ha.opened_of_running hrun).1

end

/-- The bytes the filter gave to the next one. -/
def outLength (w : World σ) : ℕ := (bodyBytes (ownBufs w.trace)).length

theorem takenBytes_length_pos (h : takenBytes tr ≠ []) : 0 < (takenBytes tr).flatten.length := by
  obtain ⟨out, hout⟩ := List.exists_mem_of_ne_nil _ h
  have hne : out ≠ [] := by
    obtain ⟨e, -, he⟩ := List.mem_flatMap.mp hout
    cases e with
    | take bytes =>
      by_cases hb : bytes = []
      · simp [hb] at he
      · obtain rfl : out = bytes := by simpa [hb] using he
        exact hb
    | _ => cases he
  rw [List.length_pos_iff, ne_eq, List.flatten_eq_nil_iff]
  exact fun hnil => hne (hnil out hout)

def NotFound (sprintfUi : ℕ → UInt64 → Bytes) (ctx : Option (BodyCtx σ)) : Prop :=
  ∀ allocOk v, ratioVariable sprintfUi ctx allocOk v = some (NGX_OK, ⟨true, false, true, v.data⟩)

theorem notFound_of_unsuccessful {sprintfUi : ℕ → UInt64 → Bytes} (hs : ctx.success = false) :
    NotFound sprintfUi (some ctx) := by
  intro allocOk v
  rw [ratioVariable, hs]
  rfl

section

variable {c : FilterCtx} {buffered : Bool}

theorem phase_of_success (spec : enc.Contract)
    (h : Reachable (bodyStep enc conf headerOnly) (World.initial c buffered) w)
    (hs : w.ctx.success = true) : w.phase ≠ .running := by
  intro hrun
  obtain ⟨-, s, b, ho, -⟩ := (account_of_reach spec h).opened_of_running hrun
  cases ho.success.symm.trans hs

/-- On success the counters are the length of the body and the length of what was given, at least
one byte of it. -/
theorem counters_of_success (spec : enc.Contract)
    (h : Reachable (bodyStep enc conf headerOnly) (World.initial c buffered) w)
    (hs : w.ctx.success = true) (hout : outLength w < 2 ^ 64) :
    w.ctx.bytesOut.toNat = outLength w ∧ 0 < outLength w ∧
      ownBufs w.trace = (c.dcbDict.map headerBuf).toList ++ offeredBufs w.trace := by
  have hi := counted_of_reach spec h
  have hheader : w.ctx.headerBufs = (c.dcbDict.map headerBuf).toList := by
    rw [BodyCtx.headerBufs, hi.dict]
    obtain hd | hsent := hi.sent hs
    · rw [hi.dict] at hd
      simp [hd]
    · rw [hsent, if_pos rfl]
  have hown := hi.own (.inr hs)
  have htaken : (takenBytes w.trace).flatten = bodyBytes (offeredBufs w.trace) := by
    obtain ⟨houtput, hready⟩ := taken_eq_offered spec h
    rw [houtput, hready (phase_of_success spec h hs), List.append_nil, bodyBytes, List.flatMap_def]
  have hlength : outLength w =
      (bodyBytes w.ctx.headerBufs).length + (takenBytes w.trace).flatten.length := by
    rw [outLength, hown, bodyBytes_append, List.length_append, htaken]
  have hpos := takenBytes_length_pos (hi.output (.inl hs))
  refine ⟨?_, by omega, hheader ▸ hown⟩
  rw [hi.bytesOut, ← hlength, UInt64.toNat_ofNat', Nat.mod_eq_of_lt hout]

/-- In every run that succeeded the counters are the length of the body and of what was given to the
next filter, the dcb header with it, and the ratio divides by one byte at least.  In every other
state it is not found: before the end of the stream, and after an error for good. -/
theorem ratio_counters (spec : enc.Contract) (sprintfUi : ℕ → UInt64 → Bytes) :
    (∀ w, Reachable (bodyStep enc conf headerOnly) (World.initial c buffered) w →
      (w.ctx.success = true → FinalOnly (suppliedBufs w.trace) → bodyLength w < 2 ^ 64 →
        outLength w < 2 ^ 64 →
        w.ctx.bytesIn.toNat = bodyLength w ∧ w.ctx.bytesOut.toNat = outLength w ∧
        1 ≤ w.ctx.bytesOut.toNat ∧
        (c.dcbDict = none → ownBufs w.trace = offeredBufs w.trace) ∧
        ∀ d, c.dcbDict = some d → ownBufs w.trace = headerBuf d :: offeredBufs w.trace ∧
          (headerBuf d).bytes.length = 36) ∧
      (outLength w < 2 ^ 64 → ∀ allocOk v, ratioVariable sprintfUi (some w.ctx) allocOk v ≠ none) ∧
      (w.ctx.closed = false → NotFound sprintfUi (some w.ctx))) ∧
    (∀ w l w' w'', Reachable (bodyStep enc conf headerOnly) (World.initial c buffered) w →
      w.ctx.closed = false → bodyStep enc conf headerOnly l w = some w' →
      w'.phase = .returned NGX_ERROR → Reachable (bodyStep enc conf headerOnly) w' w'' →
      NotFound sprintfUi (some w''.ctx)) ∧
    NotFound (σ := σ) sprintfUi none := by
  refine ⟨fun w h => ⟨fun hs hfinal hin hout => ?_, fun hout allocOk v => ?_, fun hc => ?_⟩,
    fun w l w' w'' h hc hstep herror h' => ?_, fun _ _ => rfl⟩
  · obtain ⟨hcount, hpos, hown⟩ := counters_of_success spec h hs hout
    have hfed := (complete_of_success spec h hs hfinal).fed
    refine ⟨?_, hcount, by omega, fun hd => ?_, fun d hd => ⟨?_, length_headerBuf d⟩⟩
    · rw [(counted_of_reach spec h).bytesIn, hfed, UInt64.toNat_ofNat']
      exact Nat.mod_eq_of_lt hin
    · rw [hown, hd]
      rfl
    · rw [hown, hd]
      rfl
  · cases hs : w.ctx.success with
    | false =>
      rw [notFound_of_unsuccessful hs]
      exact Option.some_ne_none _
    | true =>
      obtain ⟨hcount, hpos, -⟩ := counters_of_success spec h hs hout
      have hne : w.ctx.bytesOut ≠ 0 := by
        intro hzero
        rw [hzero] at hcount
        exact absurd hcount (by rw [UInt64.toNat_zero]; omega)
      cases allocOk <;> simp [ratioVariable, hs, ratioParts, hne]
  · exact notFound_of_unsuccessful ((account_of_reach spec h).success_of_open hc)
  · apply notFound_of_unsuccessful
    obtain ⟨hs, hclosed | ho⟩ := closed_of_error spec h hc hstep herror
    · exact failed_stays spec (h.step trivial hstep) hclosed hs h'
    · subst ho
      exact success_of_headerOnly spec ((h.step trivial hstep).trans h')

end

/-- A dcb response of two bytes gives its header and three bytes of output. -/
theorem ratio_counters_sample :
    ∃ w : World BlockState, w.ctx.success = true ∧ w.ctx.bytesIn.toNat = 2 ∧
      w.ctx.bytesOut.toNat = 39 := by
  let pass : Label := .pass ⟨1, NGX_OK⟩
  let labels := [.call .fine [], pass, .call .fine [⟨[1, 2], false, true⟩]] ++ List.replicate 6 pass
  have hrun : ∃ w : World BlockState, run (bodyStep blockEncoder .dcb false) labels
      (World.initial ⟨-1, some .sample⟩ false) = some w ∧ w.ctx.success = true ∧
        FinalOnly (suppliedBufs w.trace) ∧ bodyLength w = 2 ∧ outLength w = 39 :=
    ⟨_, rfl, rfl, by decide, rfl, rfl⟩
  obtain ⟨w, hrun, hs, hfinal, hin, hout⟩ := hrun
  have hcounters := (ratio_counters blockContract decimalUi).1 w (Reachable.run .init hrun)
  obtain ⟨hbytesIn, hbytesOut, -⟩ := hcounters.1 hs hfinal (by omega) (by omega)
  exact ⟨w, hs, hbytesIn.trans hin, hbytesOut.trans hout⟩

end NgxBrotli
