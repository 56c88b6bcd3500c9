import NgxBrotli.BodyFilter

/-!
# What a step of the body filter can do

One case for each way through the start of a call and through a pass of the loop, with its guards.
The results about whole runs go by these cases and never unfold the filter.
-/

namespace NgxBrotli

variable {σ : Type} {enc : Encoder σ} {conf : Conf} {headerOnly : Bool}

theorem openEncoder_invariant {I : σ → Prop} (h0 : ∀ s, enc.createInstance = some s → I s)
    (hp : ∀ p v s s', enc.setParameter p v s = some s' → I s → I s')
    (hd : ∀ d q s s', enc.attachDictionary d q s = some s' → I s → I s')
    {contentLength : Int} {dcbDict : Option DcbDict} {s : σ}
    (h : openEncoder enc conf contentLength dcbDict = .ok s) : I s := by
  unfold openEncoder at h
  split at h
  · cases h
  case h_2 s₀ h₀ =>
    split at h
    · cases h
    case h_2 s₁ h₁ =>
      split at h
      · cases h
      case h_2 s₂ h₂ =>
        have hopened : I s₂ := hp _ _ _ _ h₂ (hp _ _ _ _ h₁ (h0 s₀ h₀))
        have hhint : I (if contentLength > 0 then
            (enc.setParameter .sizeHint (min contentLength 0xffffffff).toNat s₂).getD s₂
            else s₂) := by
          split
          · cases hs : enc.setParameter .sizeHint (min contentLength 0xffffffff).toNat s₂ with
            | none => exact hopened
            | some s₃ => exact hp _ _ _ _ hs hopened
          · exact hopened
        dsimp only at h
        split at h
        · exact Except.ok.inj h ▸ hhint
        · split at h
          · cases h
          case h_2 s₄ h₄ => exact Except.ok.inj h ▸ hd _ _ _ _ h₄ hhint

inductive Initialized (enc : Encoder σ) (conf : Conf) (ctx : BodyCtx σ) : BodyCtx σ → Prop
  | already (h : ctx.initialized = true) : Initialized enc conf ctx ctx
  | now {s : σ} (h : ctx.initialized = false)
      (hopen : openEncoder enc conf ctx.contentLength ctx.dcbDict = .ok s) :
      Initialized enc conf ctx { ctx with
        initialized :=
          true, encoder := some s, outBuf := some ⟨[], false, false⟩, outChain := true }

theorem ensureStreamInitialized_ok {o : CallOracle} {ctx ctx' : BodyCtx σ}
    (h : ensureStreamInitialized enc conf o ctx = .ok ctx') : Initialized enc conf ctx ctx' := by
  unfold ensureStreamInitialized at h
  split at h
  case isTrue hi => exact Except.ok.inj h ▸ .already hi
  case isFalse hi =>
    dsimp only at h
    split at h
    · cases h
    case h_2 s hs =>
      split at h
      · cases h
      split at h
      · cases h
      · exact Except.ok.inj h ▸ .now (Bool.not_eq_true _ ▸ hi) hs

theorem ensureStreamInitialized_error {o : CallOracle} {ctx ctx' : BodyCtx σ}
    (h : ensureStreamInitialized enc conf o ctx = .error ctx') :
    ctx.initialized = false ∧ ∃ s b,
      ctx' = { ctx with initialized := true, encoder := s, outBuf := b } := by
  unfold ensureStreamInitialized at h
  split at h
  · cases h
  case isFalse hi =>
    refine ⟨Bool.not_eq_true _ ▸ hi, ?_⟩
    dsimp only at h
    split at h
    case h_1 s hs => exact ⟨s, ctx.outBuf, (Except.error.inj h).symm⟩
    case h_2 s hs =>
      split at h
      · exact ⟨some s, ctx.outBuf, (Except.error.inj h).symm⟩
      split at h
      · exact ⟨some s, _, (Except.error.inj h).symm⟩
      · cases h

inductive Headed (ctx : BodyCtx σ) : BodyCtx σ → List (Event σ) → Prop
  | done (h : ctx.dcbDict = none ∨ ctx.dcbHeaderSent = true) : Headed ctx ctx []
  | sent {d : DcbDict} (hd : ctx.dcbDict = some d) (h : ctx.dcbHeaderSent = false) :
      Headed ctx { ctx with bytesOut := ctx.bytesOut + 36, dcbHeaderSent := true }
        [.header ⟨dcbHeader d, false, false⟩]

inductive Accepts (bufs : List Buf) (w : World σ) : Except (World σ) (World σ) → Prop
  | headerFailed {d : DcbDict} {hdr : List (Event σ)} (hd : w.ctx.dcbDict = some d)
      (hs : w.ctx.dcbHeaderSent = false)
      (hhdr : hdr = [] ∨ hdr = [.header ⟨dcbHeader d, false, false⟩]) :
      Accepts bufs w (.error { w with trace := w.trace ++ hdr })
  | null {ctx : BodyCtx σ} {hdr : List (Event σ)} (hhdr : Headed w.ctx ctx hdr) (hb : bufs = []) :
      Accepts bufs w (.ok { w with ctx := ctx, trace := w.trace ++ hdr })
  | links {ctx : BodyCtx σ} {hdr : List (Event σ)} (hhdr : Headed w.ctx ctx hdr) (hb : bufs ≠ []) :
      Accepts bufs w (.ok ⟨{ ctx with input := ctx.input ++ bufs }, true, w.phase,
        w.trace ++ hdr ++ [.append bufs]⟩)
  | linksFailed {ctx : BodyCtx σ} {hdr : List (Event σ)} {added : List Buf}
      (hhdr : Headed w.ctx ctx hdr) (hadded : added <+: bufs) :
      Accepts bufs w (.error ⟨{ ctx with input := ctx.input ++ added }, w.buffered, w.phase,
        w.trace ++ hdr ++ [.append added]⟩)

theorem addInput_cases {ctx : BodyCtx σ} {hdr : List (Event σ)} {w w' : World σ}
    (hhdr : Headed w.ctx ctx hdr) (hw : w' = { w with ctx := ctx, trace := w.trace ++ hdr })
    (o : CallOracle) (bufs : List Buf) : Accepts bufs w (addInput o bufs w') := by
  subst hw
  unfold addInput
  by_cases hb : bufs = []
  · rw [if_pos hb]
    exact .null hhdr hb
  · rw [if_neg hb]
    by_cases hl : o.links < bufs.length
    · simp only [if_pos hl]
      exact .linksFailed hhdr (List.take_prefix _ _)
    · simp only [if_neg hl, List.take_of_length_le (Nat.le_of_not_lt hl)]
      exact .links hhdr hb

theorem acceptInput_cases (o : CallOracle) (bufs : List Buf) (w : World σ) :
    Accepts bufs w (acceptInput o bufs w) := by
  have hself : w = { w with ctx := w.ctx, trace := w.trace ++ [] } := by rw [List.append_nil]
  unfold acceptInput
  split
  case h_1 hd => exact addInput_cases (.done (.inl hd)) hself o bufs
  case h_2 d hd =>
    split
    case isTrue hs => exact addInput_cases (.done (.inr hs)) hself o bufs
    case isFalse hs =>
      rw [Bool.not_eq_true] at hs
      unfold emitDcbHeader
      by_cases hok : (!o.dcbHeaderOk) = true
      · rw [if_pos hok]
        have herr : Accepts bufs w _ := .headerFailed hd hs (.inl rfl)
        rw [List.append_nil] at herr
        exact herr
      · rw [if_neg hok]
        by_cases hrc : o.dcbHeaderRc = NGX_ERROR
        · simp only [if_pos hrc]
          exact .headerFailed hd hs (.inr rfl)
        · simp only [if_neg hrc]
          exact addInput_cases (.sent hd hs) rfl o bufs

theorem Accepts.frame {bufs : List Buf} {w w' : World σ} {r : Except (World σ) (World σ)}
    (h : Accepts bufs w r) (hr : r = .error w' ∨ r = .ok w') :
    ∃ added bytesOut sent es, w'.ctx = { w.ctx with
        input := w.ctx.input ++ added, bytesOut := bytesOut, dcbHeaderSent := sent } ∧
      w'.trace = w.trace ++ es ∧ ∀ e ∈ es, (∃ b, e = .header b) ∨ ∃ bufs, e = .append bufs := by
  have hhead {ctx : BodyCtx σ} {hdr : List (Event σ)} (hhdr : Headed w.ctx ctx hdr) :
      ∃ bytesOut sent, ctx = { w.ctx with bytesOut := bytesOut, dcbHeaderSent := sent } ∧
        ∀ e ∈ hdr, (∃ b, e = .header b) ∨ ∃ bufs, e = .append bufs := by
    cases hhdr with
    | done => exact ⟨_, _, rfl, nofun⟩
    | sent hd hs => exact ⟨_, _, rfl, fun e he => .inl ⟨_, List.mem_singleton.mp he⟩⟩
  cases h with
  | headerFailed hd hs hhdr =>
    obtain rfl : _ = w' := by simpa using hr
    refine ⟨[], w.ctx.bytesOut, w.ctx.dcbHeaderSent, _, by rw [List.append_nil], rfl,
      fun e he => ?_⟩
    obtain rfl | rfl := hhdr
    · cases he
    · exact .inl ⟨_, List.mem_singleton.mp he⟩
  | null hhdr hb =>
    obtain rfl : _ = w' := by simpa using hr
    obtain ⟨bytesOut, sent, rfl, hes⟩ := hhead hhdr
    exact ⟨[], bytesOut, sent, _, by rw [List.append_nil], rfl, hes⟩
  | @links ctx hdr hhdr hb =>
    obtain rfl : _ = w' := by simpa using hr
    obtain ⟨bytesOut, sent, rfl, hes⟩ := hhead hhdr
    refine ⟨bufs, bytesOut, sent, hdr ++ [.append bufs], rfl, by simp, fun e he => ?_⟩
    obtain he | he := List.mem_append.mp he
    · exact hes e he
    · exact .inr ⟨_, List.mem_singleton.mp he⟩
  | @linksFailed ctx hdr added hhdr hadded =>
    obtain rfl : _ = w' := by simpa using hr
    obtain ⟨bytesOut, sent, rfl, hes⟩ := hhead hhdr
    refine ⟨added, bytesOut, sent, hdr ++ [.append added], rfl, by simp, fun e he => ?_⟩
    obtain he | he := List.mem_append.mp he
    · exact hes e he
    · exact .inr ⟨_, List.mem_singleton.mp he⟩

theorem mem_startEvents {bufs : List Buf} {es : List (Event σ)} {e : Event σ}
    (hes : ∀ e ∈ es, (∃ b, e = .header b) ∨ ∃ bufs, e = .append bufs)
    (he : e ∈ [.call bufs] ++ es) :
    e = .call bufs ∨ (∃ b, e = .header b) ∨ ∃ bufs, e = .append bufs := by
  obtain he | he := List.mem_append.mp he
  · exact .inl (List.mem_singleton.mp he)
  · exact .inr (hes e he)

/-- The start of a call. -/
inductive StartCase (enc : Encoder σ) (conf : Conf) (headerOnly : Bool) (bufs : List Buf)
    (w : World σ) : World σ → Prop
  | forwarded {rc : Int} (h : w.ctx.closed = true ∨ headerOnly = true) :
      StartCase enc conf headerOnly bufs w
        { w with phase := .returned rc, trace := w.trace ++ [.call bufs, .forward bufs] }
  | initFailed {s : Option σ} {b : Option Buf} (hc : w.ctx.closed = false)
      (ho : headerOnly = false) (hi : w.ctx.initialized = false) :
      StartCase enc conf headerOnly bufs w (World.fail { w with
        ctx := { w.ctx with initialized := true, encoder := s, outBuf := b }
        trace := w.trace ++ [.call bufs] })
  | failed {ctx : BodyCtx σ} {w' : World σ} (hc : w.ctx.closed = false) (ho : headerOnly = false)
      (hi : Initialized enc conf w.ctx ctx)
      (ha : Accepts bufs { w with ctx := ctx, trace := w.trace ++ [.call bufs] } (.error w')) :
      StartCase enc conf headerOnly bufs w w'.fail
  | entered {ctx : BodyCtx σ} {w' : World σ} (hc : w.ctx.closed = false) (ho : headerOnly = false)
      (hi : Initialized enc conf w.ctx ctx)
      (ha : Accepts bufs { w with ctx := ctx, trace := w.trace ++ [.call bufs] } (.ok w')) :
      StartCase enc conf headerOnly bufs w { w' with phase := .running }

theorem startCall_cases (o : CallOracle) (bufs : List Buf) (w : World σ) :
    StartCase enc conf headerOnly bufs w (startCall enc conf headerOnly o bufs w) := by
  rw [startCall]
  split
  case isTrue hg =>
    rw [World.emit, World.emit, List.append_assoc]
    exact .forwarded (Bool.or_eq_true_iff.mp hg)
  case isFalse hg =>
    obtain ⟨hc, ho⟩ := Bool.or_eq_false_iff.mp (Bool.not_eq_true _ ▸ hg)
    split
    case h_1 ctx he =>
      obtain ⟨hi, s, b, rfl⟩ := ensureStreamInitialized_error he
      exact .initFailed hc ho hi
    case h_2 ctx he =>
      have hi := ensureStreamInitialized_ok he
      have ha := acceptInput_cases o bufs { w.emit (.call bufs) with ctx := ctx }
      split
      case h_1 w' hw => exact .failed hc ho hi (hw ▸ ha)
      case h_2 w' hw => exact .entered hc ho hi (hw ▸ ha)

/-- The encoder may be called: no output is outstanding or pending, and the stream goes on. -/
structure Quiet (enc : Encoder σ) (s : σ) (ctx : BodyCtx σ) : Prop where
  busy : ctx.outputBusy = false
  ready : ctx.outputReady = false
  encoder : ctx.encoder = some s
  more : enc.hasMoreOutput s = false
  unfinished : enc.isFinished s = false

def BodyCtx.afterOffer (ctx : BodyCtx σ) (b : Buf) (consumed : ℕ) : BodyCtx σ :=
  { ctx with
    outBuf := some { b with bytes := b.bytes.drop consumed }
    outputReady := false
    outputBusy := b.bytes.drop consumed ≠ [] }

def offerEvent (ctx : BodyCtx σ) (b : Buf) : Event σ :=
  if ctx.outputReady && ctx.outChain then .offer b else .wake

theorem offerEvent_cases (ctx : BodyCtx σ) (b : Buf) :
    offerEvent ctx b = .offer b ∨ offerEvent ctx b = .wake := by
  rw [offerEvent]
  split
  · exact .inl rfl
  · exact .inr rfl

def lastMark (enc : Encoder σ) (ctx : BodyCtx σ) (s : σ) : Bool :=
  ctx.endOfInput && enc.isFinished s && !enc.hasMoreOutput s

def flushMark (enc : Encoder σ) (ctx : BodyCtx σ) (s : σ) : Bool :=
  !lastMark enc ctx s && ctx.endOfBlock

/-- One pass of the loop. -/
inductive PassCase (enc : Encoder σ) (conf : Conf) (d : Downstream) (w : World σ) : World σ → Prop
  | faulted {w' : World σ} (h : w.ctx.encoder = none ∨ w.ctx.outBuf = none) :
      PassCase enc conf d w w'.fault
  | offered {b : Buf} (hb : w.ctx.outBuf = some b)
      (hout : w.ctx.outputBusy = true ∨ w.ctx.outputReady = true)
      (hprogress : b.bytes.drop d.consumed = [] ∨ w.ctx.outputBusy = false ∨
        (b.bytes.drop d.consumed).length ≠ b.bytes.length) :
      PassCase enc conf d w { w with
        ctx := w.ctx.afterOffer b d.consumed
        trace := w.trace ++ [offerEvent w.ctx b] }
  | blocked {b : Buf} {buffered : Bool} (hb : w.ctx.outBuf = some b)
      (hout : w.ctx.outputBusy = true ∨ w.ctx.outputReady = true)
      (hrest : b.bytes.drop d.consumed ≠ [])
      (hbuffered : buffered = true ∨ w.ctx.input = [] ∧ buffered = w.buffered) :
      PassCase enc conf d w ⟨w.ctx.afterOffer b d.consumed, buffered, .returned NGX_AGAIN,
        w.trace ++ [offerEvent w.ctx b]⟩
  | offerFailed {b : Buf} (hb : w.ctx.outBuf = some b)
      (hout : w.ctx.outputBusy = true ∨ w.ctx.outputReady = true)
      (hrc : d.rc ≠ NGX_OK ∧ d.rc ≠ NGX_AGAIN) :
      PassCase enc conf d w (World.fail { w with
        ctx := w.ctx.afterOffer b d.consumed
        trace := w.trace ++ [offerEvent w.ctx b] })
  | took {s : σ} {b : Buf} (hbusy : w.ctx.outputBusy = false) (hready : w.ctx.outputReady = false)
      (hs : w.ctx.encoder = some s) (hb : w.ctx.outBuf = some b)
      (hmore : enc.hasMoreOutput s = true) (hout : (enc.takeOutput s).1 ≠ []) :
      PassCase enc conf d w ⟨{ w.ctx with
          encoder := some (enc.takeOutput s).2
          outBuf := some ⟨(enc.takeOutput s).1, flushMark enc w.ctx (enc.takeOutput s).2,
            lastMark enc w.ctx (enc.takeOutput s).2⟩
          bytesOut := w.ctx.bytesOut + UInt64.ofNat (enc.takeOutput s).1.length
          endOfBlock := false
          outputReady := true },
        w.buffered && !(lastMark enc w.ctx (enc.takeOutput s).2 ||
          flushMark enc w.ctx (enc.takeOutput s).2),
        w.phase, w.trace ++ [.take (enc.takeOutput s).1]⟩
  | takeFailed {s : σ} (hbusy : w.ctx.outputBusy = false) (hready : w.ctx.outputReady = false)
      (hs : w.ctx.encoder = some s) (hmore : enc.hasMoreOutput s = true)
      (hout : (enc.takeOutput s).1 = []) :
      PassCase enc conf d w (World.fail { w with
        ctx := { w.ctx with encoder := some (enc.takeOutput s).2 }
        trace := w.trace ++ [.take []] })
  | succeeded {s : σ} (hbusy : w.ctx.outputBusy = false) (hready : w.ctx.outputReady = false)
      (hs : w.ctx.encoder = some s) (hmore : enc.hasMoreOutput s = false)
      (hfinished : enc.isFinished s = true) : PassCase enc conf d w (succeed w)
  | finishing {s s' : σ} {n : ℕ} (hq : Quiet enc s w.ctx) (hend : w.ctx.endOfInput = true)
      (hcall : enc.compressStream .finish [] s = some (n, s')) :
      PassCase enc conf d w ⟨{ w.ctx with encoder := some s' }, true, w.phase,
        w.trace ++ [.compress .finish [] n s']⟩
  | callFailed {s : σ} {op : Operation} {input : Bytes} (hq : Quiet enc s w.ctx)
      (hcall : enc.compressStream op input s = none) :
      PassCase enc conf d w (World.fail { w with buffered := true })
  | idle {s : σ} (hq : Quiet enc s w.ctx) (hend : w.ctx.endOfInput = false)
      (hin : w.ctx.input = []) : PassCase enc conf d w (w.ret NGX_OK)
  | skipped {s : σ} {b : Buf} {rest : List Buf} (hq : Quiet enc s w.ctx)
      (hend : w.ctx.endOfInput = false) (hin : w.ctx.input = b :: rest)
      (hb : b.bytes = [] ∧ b.lastBuf = false ∧ b.flush = false) :
      PassCase enc conf d w { w with ctx := { w.ctx with input := rest } }
  | popped {s s' : σ} {b : Buf} {rest : List Buf} (hq : Quiet enc s w.ctx)
      (hend : w.ctx.endOfInput = false) (hin : w.ctx.input = b :: rest)
      (hcall : enc.compressStream b.operation b.bytes s = some (b.bytes.length, s'))
      (hcap : overCap conf (w.ctx.bytesIn + UInt64.ofNat b.bytes.length) = false) :
      PassCase enc conf d w ⟨{ w.ctx with
          encoder := some s'
          bytesIn := w.ctx.bytesIn + UInt64.ofNat b.bytes.length
          endOfInput := b.lastBuf
          endOfBlock := w.ctx.endOfBlock || !b.lastBuf && b.flush
          input := rest },
        true, w.phase,
        w.trace ++ [.compress b.operation b.bytes b.bytes.length s', .pop b]⟩
  | pushed {s s' : σ} {b : Buf} {rest : List Buf} {n : ℕ} (hq : Quiet enc s w.ctx)
      (hend : w.ctx.endOfInput = false) (hin : w.ctx.input = b :: rest)
      (hcall : enc.compressStream b.operation b.bytes s = some (n, s'))
      (hcap : overCap conf (w.ctx.bytesIn + UInt64.ofNat n) = false)
      (hn : n ≠ 0) (hpart : n ≠ b.bytes.length) :
      PassCase enc conf d w ⟨{ w.ctx with
          encoder := some s'
          bytesIn := w.ctx.bytesIn + UInt64.ofNat n
          input := { b with bytes := b.bytes.drop n } :: rest },
        true, w.phase, w.trace ++ [.compress b.operation b.bytes n s']⟩
  | pushFailed {s s' : σ} {b : Buf} {rest : List Buf} {n : ℕ} (hq : Quiet enc s w.ctx)
      (hend : w.ctx.endOfInput = false) (hin : w.ctx.input = b :: rest)
      (hcall : enc.compressStream b.operation b.bytes s = some (n, s'))
      (hwhy : overCap conf (w.ctx.bytesIn + UInt64.ofNat n) = true ∨ n = 0) :
      PassCase enc conf d w (World.fail { w with
        ctx := { w.ctx with
          encoder := some s'
          bytesIn := w.ctx.bytesIn + UInt64.ofNat n
          input := { b with bytes := b.bytes.drop n } :: rest }
        buffered := true
        trace := w.trace ++ [.compress b.operation b.bytes n s'] })

section

variable {d : Downstream} {w : World σ}

theorem noteOffered_eq {ctx : BodyCtx σ} (hout : ctx.outputBusy = true ∨ ctx.outputReady = true)
    (b : Buf) (n : ℕ) :
      noteOffered { b with bytes := b.bytes.drop n } ctx = ctx.afterOffer b n := by
  rw [noteOffered, BodyCtx.afterOffer]
  by_cases hr : ctx.outputReady = true
  · by_cases hd : b.bytes.drop n = [] <;> simp [hr, hd, List.length_eq_zero_iff, -List.length_drop]
  · have hb : ctx.outputBusy = true := hout.resolve_right hr
    rw [Bool.not_eq_true] at hr
    by_cases hd : b.bytes.drop n = [] <;>
      simp [hr, hd, hb, List.length_eq_zero_iff, -List.length_drop]

theorem offerOutput_cases (hout : w.ctx.outputBusy = true ∨ w.ctx.outputReady = true) :
    PassCase enc conf d w (offerOutput d w) := by
  unfold offerOutput
  split
  case h_1 hb => exact .faulted (.inr hb)
  case h_2 b hb =>
    dsimp only
    rw [noteOffered_eq hout]
    have hbusy :
        (w.ctx.afterOffer b d.consumed).outputBusy = decide (b.bytes.drop d.consumed ≠ []) :=
      rfl
    by_cases hok : d.rc = NGX_OK
    · rw [if_pos hok, hbusy]
      split
      case isTrue hstuck =>
        rw [Bool.and_eq_true] at hstuck
        exact .blocked hb hout (of_decide_eq_true hstuck.1) (.inl rfl)
      case isFalse hstuck =>
        refine .offered hb hout ?_
        by_contra hno
        push Not at hno
        obtain ⟨hrest, hb, hlen⟩ := hno
        rw [ne_eq, Bool.not_eq_false] at hb
        exact hstuck (by simp [availableBusyOutput, hrest, hb, hlen, -List.length_drop])
    · rw [if_neg hok]
      by_cases hagain : d.rc = NGX_AGAIN
      · rw [if_pos hagain, hbusy]
        split
        case isTrue hrest =>
          refine .blocked hb hout (of_decide_eq_true hrest) ?_
          cases hin : w.ctx.input with
          | nil => exact .inr ⟨rfl, by simp [BodyCtx.afterOffer, World.emit, hin]⟩
          | cons c rest => exact .inl (by simp [BodyCtx.afterOffer, World.emit, hin])
        case isFalse hrest => exact .offered hb hout (.inl (by simpa using hrest))
      · rw [if_neg hagain]
        exact .offerFailed hb hout ⟨hok, hagain⟩

theorem takeOutput_cases {s : σ} (hbusy : w.ctx.outputBusy = false)
    (hready : w.ctx.outputReady = false) (hs : w.ctx.encoder = some s)
    (hmore : enc.hasMoreOutput s = true) : PassCase enc conf d w (takeOutput enc s w) := by
  unfold takeOutput
  by_cases hout : (enc.takeOutput s).1 = []
  · have hfail : PassCase enc conf d w _ := .takeFailed hbusy hready hs hmore hout
    simpa [World.emit, hout] using hfail
  · have hlen : (enc.takeOutput s).1.length ≠ 0 := mt List.length_eq_zero_iff.mp hout
    dsimp only
    rw [if_neg hlen]
    split
    case h_1 hb => exact .faulted (.inr hb)
    case h_2 b hb => exact .took hbusy hready hs hb hmore hout

theorem pushInput_cases {s : σ} {b : Buf} {rest : List Buf} (hq : Quiet enc s w.ctx)
    (hend : w.ctx.endOfInput = false) (hin : w.ctx.input = b :: rest) :
    PassCase enc conf d w (pushInput enc conf s b rest w) := by
  unfold pushInput
  split
  case h_1 hcall => exact .callFailed hq hcall
  case h_2 n s' hcall =>
    dsimp only
    by_cases hcap : overCap conf (w.ctx.bytesIn + UInt64.ofNat n) = true
    · rw [if_pos hcap]
      exact .pushFailed hq hend hin hcall (.inl hcap)
    rw [if_neg hcap]
    rw [Bool.not_eq_true] at hcap
    by_cases hn : n = b.bytes.length
    · subst hn
      rw [if_pos rfl]
      have hpop := PassCase.popped (d := d) hq hend hin hcall hcap
      cases hl : b.lastBuf <;> cases hf : b.flush <;>
        simpa [World.emit, hl, hf, hend] using hpop
    · rw [if_neg hn]
      by_cases h0 : n = 0
      · rw [if_pos h0]
        exact .pushFailed hq hend hin hcall (.inr h0)
      · rw [if_neg h0]
        exact .pushed hq hend hin hcall hcap h0 hn

theorem pass_cases (d : Downstream) (w : World σ) : PassCase enc conf d w (pass enc conf d w) := by
  unfold pass
  split
  case isTrue hout => exact offerOutput_cases (Bool.or_eq_true_iff.mp hout)
  case isFalse hout =>
    obtain ⟨hbusy, hready⟩ := Bool.or_eq_false_iff.mp (Bool.not_eq_true _ ▸ hout)
    split
    case h_1 hs => exact .faulted (.inl hs)
    case h_2 s hs =>
      by_cases hmore : enc.hasMoreOutput s = true
      · rw [if_pos hmore]
        exact takeOutput_cases hbusy hready hs hmore
      rw [if_neg hmore]
      rw [Bool.not_eq_true] at hmore
      by_cases hfin : enc.isFinished s = true
      · rw [if_pos (by rw [hfin, hmore]; rfl)]
        exact .succeeded hbusy hready hs hmore hfin
      rw [Bool.not_eq_true] at hfin
      have hq : Quiet enc s w.ctx := ⟨hbusy, hready, hs, hmore, hfin⟩
      rw [hfin, Bool.false_and, if_neg Bool.false_ne_true]
      by_cases hend : w.ctx.endOfInput = true
      · rw [if_pos hend, finishStream]
        split
        case h_1 hcall => exact .callFailed hq hcall
        case h_2 n s' hcall => exact .finishing hq hend hcall
      rw [if_neg hend]
      rw [Bool.not_eq_true] at hend
      split
      case h_1 hin => exact .idle hq hend hin
      case h_2 b rest hin =>
        split
        case isTrue hempty =>
          simp only [Bool.and_eq_true, decide_eq_true_eq, Bool.not_eq_true',
            List.length_eq_zero_iff] at hempty
          exact .skipped hq hend hin ⟨hempty.1.1, hempty.1.2, hempty.2⟩
        case isFalse => exact pushInput_cases hq hend hin

end

/-- A step is a call that starts or a pass of a call that runs. -/
theorem bodyStep_cases {l : Label} {w w' : World σ}
    (h : bodyStep enc conf headerOnly l w = some w') :
    (w.phase ≠ .running ∧ w.phase ≠ .fault ∧
      ∃ o bufs, l = .call o bufs ∧ StartCase enc conf headerOnly bufs w w') ∨
    w.phase = .running ∧ ∃ d, l = .pass d ∧ PassCase enc conf d w w' := by
  cases l with
  | call o bufs =>
    left
    have hcase : StartCase enc conf headerOnly bufs w _ := startCall_cases o bufs w
    cases hp : w.phase with
    | start =>
      rw [bodyStep, hp] at h
      exact ⟨nofun, nofun, o, bufs, rfl, Option.some.inj h ▸ hcase⟩
    | returned rc =>
      rw [bodyStep, hp] at h
      exact ⟨nofun, nofun, o, bufs, rfl, Option.some.inj h ▸ hcase⟩
    | running => simp [bodyStep, hp] at h
    | fault => simp [bodyStep, hp] at h
  | pass d =>
    right
    cases hp : w.phase with
    | running =>
      rw [bodyStep, hp] at h
      exact ⟨rfl, d, rfl, Option.some.inj h ▸ pass_cases d w⟩
    | start => simp [bodyStep, hp] at h
    | returned rc => simp [bodyStep, hp] at h
    | fault => simp [bodyStep, hp] at h

def Event.InLoop : Event σ → Prop
  | .call _ | .append _ | .header _ | .forward _ => False
  | .compress .. | .pop _ | .take _ | .offer _ | .wake | .destroy _ => True

theorem offerEvent_inLoop (ctx : BodyCtx σ) (b : Buf) : (offerEvent ctx b).InLoop := by
  obtain he | he := offerEvent_cases ctx b
  · rw [he]
    trivial
  · rw [he]
    trivial

theorem inLoop_singleton {e : Event σ} (he : e.InLoop) : ∀ e' ∈ [e], e'.InLoop :=
  List.forall_mem_singleton.mpr he

theorem trace_fail {p : Event σ → Prop} (hp : ∀ s, p (.destroy s)) {w : World σ}
    {tr es : List (Event σ)} (h : w.trace = tr ++ es) (hes : ∀ e ∈ es, p e) :
    ∃ es, w.fail.trace = tr ++ es ∧ ∀ e ∈ es, p e := by
  refine ⟨es ++ (w.ctx.encoder.map Event.destroy).toList, ?_, fun e he => ?_⟩
  · rw [← List.append_assoc, ← h]
    rfl
  · obtain he | he := List.mem_append.mp he
    · exact hes e he
    · cases hs : w.ctx.encoder with
      | none => simp [hs] at he
      | some s =>
        obtain rfl : e = .destroy s := by simpa [hs] using he
        exact hp s

theorem trace_succeed {w : World σ} {s : σ} (hs : w.ctx.encoder = some s) :
    (succeed w).trace = w.trace ++ [Event.destroy s] := by
  change w.trace ++ (w.ctx.encoder.map Event.destroy).toList = _
  rw [hs]
  rfl

theorem PassCase.trace_append {d : Downstream} {w w' : World σ} (h : PassCase enc conf d w w') :
    w'.phase = .fault ∨ ∃ es, w'.trace = w.trace ++ es ∧ ∀ e ∈ es, e.InLoop := by
  have hoffer (b : Buf) : ∀ e ∈ [offerEvent w.ctx b], e.InLoop :=
    inLoop_singleton (offerEvent_inLoop w.ctx b)
  have hself : w.trace = w.trace ++ [] := (List.append_nil _).symm
  have hdestroy (s : σ) : (Event.destroy s).InLoop := trivial
  cases h with
  | faulted => exact .inl rfl
  | @offered b => exact .inr ⟨_, rfl, hoffer b⟩
  | @blocked b => exact .inr ⟨_, rfl, hoffer b⟩
  | @offerFailed b => exact .inr (trace_fail hdestroy rfl (hoffer b))
  | took => exact .inr ⟨_, rfl, inLoop_singleton trivial⟩
  | takeFailed => exact .inr (trace_fail hdestroy rfl (inLoop_singleton trivial))
  | succeeded => exact .inr (trace_fail (w := w) hdestroy hself nofun)
  | finishing => exact .inr ⟨_, rfl, inLoop_singleton trivial⟩
  | callFailed => exact .inr (trace_fail hdestroy hself nofun)
  | idle => exact .inr ⟨[], hself, nofun⟩
  | skipped => exact .inr ⟨[], hself, nofun⟩
  | popped =>
    refine .inr ⟨_, rfl, fun e he => ?_⟩
    obtain rfl | he := List.mem_cons.mp he
    · trivial
    · rw [List.mem_singleton.mp he]
      trivial
  | pushed => exact .inr ⟨_, rfl, inLoop_singleton trivial⟩
  | pushFailed => exact .inr (trace_fail hdestroy rfl (inLoop_singleton trivial))

theorem StartCase.trace_prefix {bufs : List Buf} {w w' : World σ}
    (h : StartCase enc conf headerOnly bufs w w') : w.trace <+: w'.trace := by
  have hfail {w : World σ} {tr : List (Event σ)} (h : tr <+: w.trace) : tr <+: w.fail.trace :=
    h.trans (List.prefix_append _ _)
  cases h with
  | forwarded => exact List.prefix_append _ _
  | initFailed => exact hfail (List.prefix_append _ _)
  | failed hc ho hi ha =>
    obtain ⟨_, _, _, es, -, htrace, -⟩ := ha.frame (.inl rfl)
    apply hfail
    rw [htrace, List.append_assoc]
    exact List.prefix_append _ _
  | entered hc ho hi ha =>
    obtain ⟨_, _, _, es, -, htrace, -⟩ := ha.frame (.inr rfl)
    rw [htrace, List.append_assoc]
    exact List.prefix_append _ _

theorem PassCase.frame {d : Downstream} {w w' : World σ} (h : PassCase enc conf d w w') :
    w'.phase = .fault ∨ w'.ctx.dcbDict = w.ctx.dcbDict ∧
      w'.ctx.dcbHeaderSent = w.ctx.dcbHeaderSent ∧
      (w'.ctx.closed = w.ctx.closed ∨ w'.ctx.success = true ∨ w'.phase = .returned NGX_ERROR) := by
  cases h with
  | faulted => exact .inl rfl
  | succeeded => exact .inr ⟨rfl, rfl, .inr (.inl rfl)⟩
  | offerFailed => exact .inr ⟨rfl, rfl, .inr (.inr rfl)⟩
  | takeFailed => exact .inr ⟨rfl, rfl, .inr (.inr rfl)⟩
  | callFailed => exact .inr ⟨rfl, rfl, .inr (.inr rfl)⟩
  | pushFailed => exact .inr ⟨rfl, rfl, .inr (.inr rfl)⟩
  | offered => exact .inr ⟨rfl, rfl, .inl rfl⟩
  | blocked => exact .inr ⟨rfl, rfl, .inl rfl⟩
  | took => exact .inr ⟨rfl, rfl, .inl rfl⟩
  | finishing => exact .inr ⟨rfl, rfl, .inl rfl⟩
  | idle => exact .inr ⟨rfl, rfl, .inl rfl⟩
  | skipped => exact .inr ⟨rfl, rfl, .inl rfl⟩
  | popped => exact .inr ⟨rfl, rfl, .inl rfl⟩
  | pushed => exact .inr ⟨rfl, rfl, .inl rfl⟩

end NgxBrotli
