import NgxBrotli.Programs
import NgxBrotli.StreamRuns

/-!
# The encoder and the output buffer

The body filter once more, noting each use of the encoder, of a field of `ctx->out_buf` and of
`ctx->in` with the context at that point.  Without its notes it is the body filter.
-/

namespace NgxBrotli
open Runs Logged

/-- What is used. -/
inductive Use
  | setUp
  | compressStream
  | takeOutput
  | hasMoreOutput
  | isFinished
  | destroy
  /-- `ctx->out_buf->temporary` -/
  | temporary
  /-- another field of `ctx->out_buf` -/
  | outBuf
  /-- `ctx->in` -/
  | input
  deriving DecidableEq, Repr

/-- A use and the context at that point. -/
structure Access (σ : Type) where
  use : Use
  ctx : BodyCtx σ

variable {σ : Type}

def access (u : Use) (ctx : BodyCtx σ) : Logged (Access σ) PUnit := note ⟨u, ctx⟩

section

variable (enc : Encoder σ) (conf : Conf) (headerOnly : Bool)

/-- `closed` is set before the instance is destroyed. -/
def loggedClose (w : World σ) : Logged (Access σ) (World σ) :=
  if w.ctx.encoder.isSome then do
    access .destroy { w.ctx with closed := true }
    pure w.close
  else pure w.close

def loggedFail (w : World σ) : Logged (Access σ) (World σ) := do
  let w ← loggedClose w
  pure (w.ret NGX_ERROR)

def loggedEnsureStream (o : CallOracle) (ctx : BodyCtx σ) :
    Logged (Access σ) (Except (BodyCtx σ) (BodyCtx σ)) :=
  if ctx.initialized then pure (.ok ctx)
  else do
    let ctx := { ctx with initialized := true }
    access .setUp ctx
    match openEncoder enc conf ctx.contentLength ctx.dcbDict with
    | .error s => pure (.error { ctx with encoder := s })
    | .ok s =>
      let ctx := { ctx with encoder := some s }
      if !o.bufOk then pure (.error ctx)
      else do
        let ctx := { ctx with outBuf := some ⟨[], false, false⟩ }
        -- there is no link yet
        access .temporary ctx
        if !o.chainOk then pure (.error ctx) else pure (.ok { ctx with outChain := true })

def loggedAddInput (o : CallOracle) (bufs : List Buf) (w : World σ) :
    Logged (Access σ) (Except (World σ) (World σ)) :=
  if bufs = [] then pure (.ok w)
  else do
    access .input w.ctx
    pure (addInput o bufs w)

def loggedAcceptInput (o : CallOracle) (bufs : List Buf) (w : World σ) :
    Logged (Access σ) (Except (World σ) (World σ)) :=
  match w.ctx.dcbDict with
  | none => loggedAddInput o bufs w
  | some d =>
    if w.ctx.dcbHeaderSent then loggedAddInput o bufs w
    else
      match emitDcbHeader o d w with
      | .error w => pure (.error w)
      | .ok w => loggedAddInput o bufs w

def loggedStartCall (o : CallOracle) (bufs : List Buf) (w : World σ) :
    Logged (Access σ) (World σ) :=
  let w := w.emit (.call bufs)
  if w.ctx.closed || headerOnly then pure ((w.emit (.forward bufs)).ret o.forwardRc)
  else do
    match ← loggedEnsureStream enc conf o w.ctx with
    | .error ctx => loggedFail { w with ctx := ctx }
    | .ok ctx =>
      match ← loggedAcceptInput o bufs { w with ctx := ctx } with
      | .error w => loggedFail w
      | .ok w => pure { w with phase := .running }

def loggedOfferOutput (d : Downstream) (w : World σ) : Logged (Access σ) (World σ) := do
  -- its size is read, or the next filter is given the link
  access .outBuf w.ctx
  match w.ctx.outBuf with
  | none => pure w.fault
  | some b =>
    let available := availableBusyOutput w.ctx b
    let offer := if w.ctx.outputReady && w.ctx.outChain then .offer b else .wake
    let b := { b with bytes := b.bytes.drop d.consumed }
    let ctx := noteOffered b w.ctx
    let w := { w with ctx := ctx }.emit offer
    access .outBuf ctx
    if d.rc = NGX_OK then
      if ctx.outputBusy && available == b.bytes.length then
        pure ({ w with buffered := true }.ret NGX_AGAIN)
      else pure w
    else if d.rc = NGX_AGAIN then
      if ctx.outputBusy then do
        access .input ctx
        pure ({ w with buffered := w.buffered || ctx.input ≠ [] }.ret NGX_AGAIN)
      else pure w
    else loggedFail w

def loggedTakeOutput (s : σ) (w : World σ) : Logged (Access σ) (World σ) := do
  access .takeOutput w.ctx
  let (out, s) := enc.takeOutput s
  let w := { w with ctx := { w.ctx with encoder := some s } }.emit (.take out)
  if out.length = 0 then loggedFail w
  else do
    access .outBuf w.ctx
    match w.ctx.outBuf with
    | none => pure w.fault
    | some _ => do
      access .isFinished w.ctx
      access .hasMoreOutput w.ctx
      let last := w.ctx.endOfInput && enc.isFinished s && !enc.hasMoreOutput s
      let flush := !last && w.ctx.endOfBlock
      pure { w with
        ctx := { w.ctx with
          outBuf := some ⟨out, flush, last⟩
          bytesOut := w.ctx.bytesOut + UInt64.ofNat out.length
          endOfBlock := false
          outputReady := true }
        buffered := w.buffered && !(last || flush) }

def loggedSucceed (w : World σ) : Logged (Access σ) (World σ) := do
  let w ← loggedClose { w with ctx := { w.ctx with success := true }, buffered := false }
  pure (w.ret NGX_OK)

def loggedFinishStream (s : σ) (w : World σ) : Logged (Access σ) (World σ) := do
  access .compressStream w.ctx
  match enc.compressStream .finish [] s with
  | none => loggedFail { w with buffered := true }
  | some (n, s) =>
    pure ({ w with ctx := { w.ctx with encoder := some s }, buffered := true }.emit
      (.compress .finish [] n s))

def loggedPushInput (s : σ) (b : Buf) (rest : List Buf) (w : World σ) :
    Logged (Access σ) (World σ) := do
  access .compressStream w.ctx
  match enc.compressStream b.operation b.bytes s with
  | none => loggedFail { w with buffered := true }
  | some (n, s) =>
    let ctx := { w.ctx with
      encoder := some s
      bytesIn := w.ctx.bytesIn + UInt64.ofNat n
      input := { b with bytes := b.bytes.drop n } :: rest }
    let w := { w with ctx := ctx, buffered := true }.emit (.compress b.operation b.bytes n s)
    access .input ctx
    if overCap conf ctx.bytesIn then loggedFail w
    else if n = b.bytes.length then
      let ctx :=
        if b.lastBuf then { ctx with endOfInput := true }
        else if b.flush then { ctx with endOfBlock := true }
        else ctx
      pure ({ w with ctx := { ctx with input := rest } }.emit (.pop b))
    else if n = 0 then loggedFail w
    else pure w

def loggedPass (d : Downstream) (w : World σ) : Logged (Access σ) (World σ) :=
  if w.ctx.outputBusy || w.ctx.outputReady then loggedOfferOutput d w
  else do
    access .hasMoreOutput w.ctx
    match w.ctx.encoder with
    | none => pure w.fault
    | some s =>
      if enc.hasMoreOutput s then loggedTakeOutput enc s w
      else do
        access .isFinished w.ctx
        if enc.isFinished s && !enc.hasMoreOutput s then loggedSucceed w
        else if w.ctx.endOfInput then loggedFinishStream enc s w
        else do
          access .input w.ctx
          match w.ctx.input with
          | [] => pure (w.ret NGX_OK)
          | b :: rest =>
            if b.bytes.length = 0 && !b.lastBuf && !b.flush then
              pure { w with ctx := { w.ctx with input := rest } }
            else loggedPushInput enc conf s b rest w

def loggedStep : Label → World σ → Option (Logged (Access σ) (World σ))
  | .call o bufs, w =>
    match w.phase with
    | .start | .returned _ => some (loggedStartCall enc conf headerOnly o bufs w)
    | .running | .fault => none
  | .pass d, w =>
    match w.phase with
    | .running => some (loggedPass enc conf d w)
    | .start | .returned _ | .fault => none

end

section

variable {enc : Encoder σ} {conf : Conf} {headerOnly : Bool} {w : World σ}

@[simp] theorem loggedClose_val : (loggedClose w).val = w.close := by
  unfold loggedClose
  split <;> rfl

@[simp] theorem loggedFail_val : (loggedFail w).val = w.fail := by
  rw [loggedFail, val_bind, loggedClose_val]
  rfl

@[simp] theorem loggedEnsureStream_val (o : CallOracle) (ctx : BodyCtx σ) :
    (loggedEnsureStream enc conf o ctx).val = ensureStreamInitialized enc conf o ctx := by
  unfold loggedEnsureStream ensureStreamInitialized
  split
  · rfl
  · dsimp only
    rw [val_bind]
    cases openEncoder enc conf ctx.contentLength ctx.dcbDict with
    | error s => rfl
    | ok s => cases o.bufOk <;> cases o.chainOk <;> rfl

@[simp] theorem loggedAddInput_val (o : CallOracle) (bufs : List Buf) (w : World σ) :
    (loggedAddInput o bufs w).val = addInput o bufs w := by
  unfold loggedAddInput
  split
  case isTrue hb => rw [addInput, if_pos hb, val_pure]
  case isFalse => rfl

@[simp] theorem loggedAcceptInput_val (o : CallOracle) (bufs : List Buf) (w : World σ) :
    (loggedAcceptInput o bufs w).val = acceptInput o bufs w := by
  unfold loggedAcceptInput acceptInput
  cases w.ctx.dcbDict with
  | none => exact loggedAddInput_val o bufs w
  | some d =>
    dsimp only
    split
    · exact loggedAddInput_val o bufs w
    · cases emitDcbHeader o d w with
      | error w' => rfl
      | ok w' => exact loggedAddInput_val o bufs w'

theorem loggedStartCall_val (o : CallOracle) (bufs : List Buf) (w : World σ) :
    (loggedStartCall enc conf headerOnly o bufs w).val =
      startCall enc conf headerOnly o bufs w := by
  unfold loggedStartCall startCall
  dsimp only
  split
  · rfl
  · rw [val_bind, loggedEnsureStream_val]
    cases ensureStreamInitialized enc conf o (w.emit (.call bufs)).ctx with
    | error ctx => exact loggedFail_val
    | ok ctx =>
      dsimp only
      rw [val_bind, loggedAcceptInput_val]
      cases acceptInput o bufs { w.emit (.call bufs) with ctx := ctx } with
      | error w' => exact loggedFail_val
      | ok w' => rfl

@[simp] theorem loggedOfferOutput_val (d : Downstream) (w : World σ) :
    (loggedOfferOutput d w).val = offerOutput d w := by
  unfold loggedOfferOutput offerOutput
  rw [val_bind]
  cases w.ctx.outBuf with
  | none => rfl
  | some b =>
    dsimp only
    rw [val_bind]
    simp only [val_ite, val_bind, val_pure, loggedFail_val]

@[simp] theorem loggedTakeOutput_val (s : σ) (w : World σ) :
    (loggedTakeOutput enc s w).val = takeOutput enc s w := by
  unfold loggedTakeOutput takeOutput
  rw [val_bind]
  dsimp only
  split
  · exact loggedFail_val
  · rw [val_bind]
    cases w.ctx.outBuf with
    | none => rfl
    | some b => rfl

@[simp] theorem loggedSucceed_val (w : World σ) : (loggedSucceed w).val = succeed w := by
  rw [loggedSucceed, val_bind, loggedClose_val]
  rfl

@[simp] theorem loggedFinishStream_val (s : σ) (w : World σ) :
    (loggedFinishStream enc s w).val = finishStream enc s w := by
  unfold loggedFinishStream finishStream
  rw [val_bind]
  cases enc.compressStream .finish [] s with
  | none => exact loggedFail_val
  | some r => rfl

@[simp] theorem loggedPushInput_val (s : σ) (b : Buf) (rest : List Buf) (w : World σ) :
    (loggedPushInput enc conf s b rest w).val = pushInput enc conf s b rest w := by
  unfold loggedPushInput pushInput
  rw [val_bind]
  cases enc.compressStream b.operation b.bytes s with
  | none => exact loggedFail_val
  | some r =>
    dsimp only
    rw [val_bind]
    simp only [val_ite, val_pure, loggedFail_val]

theorem loggedPass_val (d : Downstream) (w : World σ) :
    (loggedPass enc conf d w).val = pass enc conf d w := by
  unfold loggedPass pass
  split
  · exact loggedOfferOutput_val d w
  · rw [val_bind]
    cases w.ctx.encoder with
    | none => rfl
    | some s =>
      cases w.ctx.input with
      | nil => simp only [val_ite, val_bind, val_pure, loggedTakeOutput_val, loggedSucceed_val,
          loggedFinishStream_val]
      | cons b rest => simp only [val_ite, val_bind, val_pure, loggedTakeOutput_val,
          loggedSucceed_val, loggedFinishStream_val, loggedPushInput_val]

/-- The filter without its notes is the body filter. -/
theorem loggedStep_val (l : Label) (w : World σ) :
    (loggedStep enc conf headerOnly l w).map Logged.val = bodyStep enc conf headerOnly l w := by
  cases l with
  | call o bufs =>
    cases hp : w.phase with
    | start => simp [loggedStep, bodyStep, hp, loggedStartCall_val]
    | returned rc => simp [loggedStep, bodyStep, hp, loggedStartCall_val]
    | running => simp [loggedStep, bodyStep, hp]
    | fault => simp [loggedStep, bodyStep, hp]
  | pass d =>
    cases hp : w.phase with
    | running => simp [loggedStep, bodyStep, hp, loggedPass_val]
    | start => simp [loggedStep, bodyStep, hp]
    | returned rc => simp [loggedStep, bodyStep, hp]
    | fault => simp [loggedStep, bodyStep, hp]

end

/-- The encoder and the output chain are there. -/
structure Live (ctx : BodyCtx σ) : Prop where
  encoder : ctx.encoder ≠ none
  outBuf : ctx.outBuf ≠ none
  outChain : ctx.outChain = true
  closed : ctx.closed = false

/-- What was taken of the encoder was consumed entirely. -/
def Drained (ctx : BodyCtx σ) : Prop := ∀ b, ctx.outBuf = some b → b.bytes = []

def destroyed (tr : List (Event σ)) : List σ :=
  tr.flatMap fun e => match e with | .destroy s => [s] | _ => []

@[simp] theorem destroyed_append (tr es : List (Event σ)) :
    destroyed (tr ++ es) = destroyed tr ++ destroyed es := List.flatMap_append

/-- The pointers by the flags. -/
inductive Wired (w : World σ) : Prop
  | fresh (hi : w.ctx.initialized = false) (hc : w.ctx.closed = false)
      (he : w.ctx.encoder = none) (hflags : w.ctx.outputBusy = false ∧ w.ctx.outputReady = false)
      (hd : destroyed w.trace = []) (hphase : w.phase ≠ .running ∧ w.phase ≠ .fault)
  | opened (hi : w.ctx.initialized = true) (hlive : Live w.ctx)
      (hdrained : w.ctx.outputBusy = false → w.ctx.outputReady = false → Drained w.ctx)
      (hd : destroyed w.trace = []) (hphase : w.phase ≠ .fault)
  | closed (hc : w.ctx.closed = true) (hd : (destroyed w.trace).length ≤ 1)
      (hphase : ∃ rc, w.phase = .returned rc)

section

variable {enc : Encoder σ} {conf : Conf} {headerOnly : Bool} {w w' : World σ}

theorem destroyed_of_forall {es : List (Event σ)} (h : ∀ s, .destroy s ∉ es) :
    destroyed es = [] := by
  rw [destroyed, List.flatMap_eq_nil_iff]
  intro e he
  cases e with
  | destroy s => exact absurd he (h s)
  | _ => rfl

theorem Wired.close {tr es : List (Event σ)} {rc : Int} (hd : destroyed tr = [])
    (hw : w.trace = tr ++ es) (hes : ∀ s, .destroy s ∉ es) : Wired (w.close.ret rc) := by
  refine .closed rfl ?_ ⟨rc, rfl⟩
  have htrace : (w.close.ret rc).trace = tr ++ es ++ (w.ctx.encoder.map Event.destroy).toList := by
    rw [← hw]
    rfl
  rw [htrace, destroyed_append, destroyed_append, hd, destroyed_of_forall hes]
  cases w.ctx.encoder <;> simp [destroyed]

theorem Wired.call {bufs : List Buf} (h : Wired w)
    (hcall : StartCase enc conf headerOnly bufs w w') : Wired w' := by
  have hdestroy (hc : w.ctx.closed = false) : destroyed w.trace = [] := by
    cases h with
    | fresh _ _ _ _ hd => exact hd
    | opened _ _ _ hd => exact hd
    | closed hc' => simp [hc] at hc'
  have hno (es : List (Event σ)) (hes : ∀ e ∈ es, (∃ b, e = .header b) ∨ ∃ bufs, e = .append bufs)
      (s : σ) : .destroy s ∉ [Event.call bufs] ++ es := by
    intro hs
    simpa using mem_startEvents hes hs
  cases hcall with
  | @forwarded rc hgate =>
    have hsame : destroyed (w.trace ++ [Event.call bufs, .forward bufs]) = destroyed w.trace := by
      simp [destroyed]
    cases h with
    | fresh hi hc he hflags hd => exact .fresh hi hc he hflags (hsame.trans hd) ⟨nofun, nofun⟩
    | opened hi hlive hdrained hd => exact .opened hi hlive hdrained (hsame.trans hd) nofun
    | closed hc hd => exact .closed hc (hsame ▸ hd) ⟨rc, rfl⟩
  | initFailed hc => exact .close (hdestroy hc) rfl (hno [] nofun)
  | @failed ctx w' hc ho hi hacc =>
    obtain ⟨_, _, _, es, -, htrace, hes⟩ := hacc.frame (.inl rfl)
    exact .close (hdestroy hc) (by rw [htrace, List.append_assoc]) (hno es hes)
  | @entered ctx w' hc ho hi hacc =>
    obtain ⟨_, _, _, es, hctx, htrace, hes⟩ := hacc.frame (.inr rfl)
    have hd : destroyed w'.trace = [] := by
      rw [htrace, List.append_assoc, destroyed_append, hdestroy hc,
        destroyed_of_forall (hno es hes)]
      rfl
    have hopen : ctx.initialized = true ∧ Live ctx ∧
        (ctx.outputBusy = false → ctx.outputReady = false → Drained ctx) := by
      cases hi with
      | already hi =>
        cases h with
        | fresh hi' => simp [hi] at hi'
        | opened hi' hlive hdrained => exact ⟨hi, hlive, hdrained⟩
        | closed hc' => simp [hc] at hc'
      | now hi hopen =>
        -- the new output buffer is empty
        refine ⟨rfl, ⟨nofun, nofun, rfl, hc⟩, fun _ _ b hb => ?_⟩
        rw [← Option.some.inj hb]
    obtain ⟨hi', hlive, hdrained⟩ := hopen
    refine .opened ?_ ?_ ?_ hd nofun
    · rw [hctx]
      exact hi'
    · rw [hctx]
      exact ⟨hlive.encoder, hlive.outBuf, hlive.outChain, hlive.closed⟩
    · rw [hctx]
      exact hdrained

theorem Wired.opened_of_running (h : Wired w) (hrun : w.phase = .running) :
    w.ctx.initialized = true ∧ Live w.ctx ∧
      (w.ctx.outputBusy = false → w.ctx.outputReady = false → Drained w.ctx) ∧
      destroyed w.trace = [] := by
  cases h with
  | fresh _ _ _ _ _ hphase => exact absurd hrun hphase.1
  | opened hi hlive hdrained hd => exact ⟨hi, hlive, hdrained, hd⟩
  | closed _ _ hphase =>
    obtain ⟨rc, hrc⟩ := hphase
    rw [hrun] at hrc
    cases hrc

theorem Wired.pass {d : Downstream} (h : Wired w) (hrun : w.phase = .running)
    (hpass : PassCase enc conf d w w') : Wired w' := by
  obtain ⟨hi, hlive, hdrained, hd⟩ := h.opened_of_running hrun
  have hsafe : w.phase ≠ .fault := by simp [hrun]
  have hadd {es : List (Event σ)} (hes : ∀ s, .destroy s ∉ es) :
      destroyed (w.trace ++ es) = [] := by
    rw [destroyed_append, hd, destroyed_of_forall hes]
    rfl
  have hoffer (b : Buf) (s : σ) : .destroy s ∉ [offerEvent w.ctx b] := by
    obtain he | he := offerEvent_cases w.ctx b <;> simp [he]
  have hafter {b : Buf} (n : ℕ) (hbusy : (w.ctx.afterOffer b n).outputBusy = false) :
      Drained (w.ctx.afterOffer b n) := by
    intro b' hb'
    rw [← Option.some.inj hb']
    simpa [BodyCtx.afterOffer] using hbusy
  have hself : w.trace = w.trace ++ [] := (List.append_nil _).symm
  cases hpass with
  | faulted hnone =>
    obtain hnone | hnone := hnone
    · exact absurd hnone hlive.encoder
    · exact absurd hnone hlive.outBuf
  | @offered b =>
    exact .opened hi ⟨hlive.encoder, Option.some_ne_none _, hlive.outChain, hlive.closed⟩
      (fun hb _ => hafter _ hb) (hadd (hoffer b)) hsafe
  | @blocked b =>
    exact .opened hi ⟨hlive.encoder, Option.some_ne_none _, hlive.outChain, hlive.closed⟩
      (fun hb _ => hafter _ hb) (hadd (hoffer b)) (by simp)
  | @offerFailed b => exact .close hd rfl (hoffer b)
  | took =>
    exact .opened hi ⟨Option.some_ne_none _, Option.some_ne_none _, hlive.outChain, hlive.closed⟩
      (fun _ hr => Bool.noConfusion hr) (hadd (by simp)) hsafe
  -- whatever fails destroys the instance, and nothing was destroyed before
  | takeFailed => exact .close hd rfl (by simp)
  | succeeded =>
    exact .close (w := { w with ctx := { w.ctx with success := true }, buffered := false }) hd hself
      fun _ => List.not_mem_nil
  | finishing =>
    exact .opened hi ⟨Option.some_ne_none _, hlive.outBuf, hlive.outChain, hlive.closed⟩ hdrained
      (hadd (by simp)) hsafe
  | callFailed => exact .close hd hself fun _ => List.not_mem_nil
  | idle => exact .opened hi hlive hdrained hd (by simp [World.ret])
  | skipped =>
    exact .opened hi ⟨hlive.encoder, hlive.outBuf, hlive.outChain, hlive.closed⟩ hdrained hd hsafe
  | popped =>
    exact .opened hi ⟨Option.some_ne_none _, hlive.outBuf, hlive.outChain, hlive.closed⟩ hdrained
      (hadd (by simp)) hsafe
  | pushed =>
    exact .opened hi ⟨Option.some_ne_none _, hlive.outBuf, hlive.outChain, hlive.closed⟩ hdrained
      (hadd (by simp)) hsafe
  | pushFailed => exact .close hd rfl (by simp)

theorem wired_of_reach {c : FilterCtx} {buffered : Bool}
    (h : Reachable (bodyStep enc conf headerOnly) (World.initial c buffered) w) : Wired w := by
  refine h.invariant (.fresh rfl rfl rfl ⟨rfl, rfl⟩ rfl ⟨?_, ?_⟩) ?_
  · exact (nofun : Phase.start ≠ .running)
  · exact (nofun : Phase.start ≠ .fault)
  intro l w w' _ _ hw hstep
  obtain ⟨-, -, o, bufs, rfl, hcase⟩ | ⟨hrun, d, rfl, hcase⟩ := bodyStep_cases hstep
  · exact hw.call hcase
  · exact hw.pass hrun hcase

end

structure Access.Sound (p : Phase) (a : Access σ) : Prop where
  live : a.use = .compressStream ∨ a.use = .takeOutput ∨ a.use = .outBuf → Live a.ctx
  drained : a.use = .compressStream ∨ a.use = .takeOutput → Drained a.ctx
  destroyed : a.use = .destroy → ¬Drained a.ctx → p = .returned NGX_ERROR

/-- Every use of a step is sound. -/
def Careful (x : Logged (Access σ) (World σ)) : Prop := Notes (Access.Sound x.val.phase) x

section

variable {enc : Encoder σ} {conf : Conf} {headerOnly : Bool} {w : World σ} {ctx : BodyCtx σ}

theorem careful_pure (w : World σ) : Careful (pure w) := notes_pure w

theorem careful_bind {α : Type} {x : Logged (Access σ) α} {f : α → Logged (Access σ) (World σ)}
    (hx : ∀ p, Notes (Access.Sound p) x) (hf : Careful (f x.val)) : Careful (x >>= f) :=
  notes_bind.mpr ⟨hx _, hf⟩

theorem careful_ite {c : Prop} [Decidable c] {x y : Logged (Access σ) (World σ)}
    (hx : c → Careful x) (hy : ¬c → Careful y) : Careful (if c then x else y) := by
  split
  case isTrue h => exact hx h
  case isFalse h => exact hy h

theorem notes_outBuf (h : Live ctx) (p : Phase) : Notes (Access.Sound p) (access .outBuf ctx) :=
  notes_note.mpr ⟨fun _ => h, nofun, nofun⟩

theorem notes_compressStream (h : Live ctx) (hd : Drained ctx) (p : Phase) :
    Notes (Access.Sound p) (access .compressStream ctx) :=
  notes_note.mpr ⟨fun _ => h, fun _ => hd, nofun⟩

theorem notes_takeOutput (h : Live ctx) (hd : Drained ctx) (p : Phase) :
    Notes (Access.Sound p) (access .takeOutput ctx) :=
  notes_note.mpr ⟨fun _ => h, fun _ => hd, nofun⟩

theorem notes_other {u : Use}
    (hu : u ≠ .compressStream ∧ u ≠ .takeOutput ∧ u ≠ .outBuf ∧ u ≠ .destroy)
    (ctx : BodyCtx σ) (p : Phase) : Notes (Access.Sound p) (access u ctx) := by
  obtain ⟨h₁, h₂, h₃, h₄⟩ := hu
  refine notes_note.mpr ⟨fun h => ?_, fun h => ?_, fun h => absurd h h₄⟩
  · obtain h | h | h := h
    · exact absurd h h₁
    · exact absurd h h₂
    · exact absurd h h₃
  · exact h.elim (absurd · h₁) (absurd · h₂)

theorem notes_close {p : Phase} (h : ¬Drained w.ctx → p = .returned NGX_ERROR) :
    Notes (Access.Sound p) (loggedClose w) := by
  unfold loggedClose
  split
  · exact notes_bind.mpr ⟨notes_note.mpr ⟨nofun, nofun, fun _ hd => h hd⟩, notes_pure _⟩
  · exact notes_pure _

theorem careful_fail (w : World σ) : Careful (loggedFail w) :=
  notes_bind.mpr ⟨notes_close fun _ => rfl, notes_pure _⟩

theorem careful_succeed (hd : Drained w.ctx) : Careful (loggedSucceed w) :=
  notes_bind.mpr ⟨notes_close fun hno => absurd hd hno, notes_pure _⟩

theorem Live.noteOffered (h : Live ctx) (b : Buf) : Live (noteOffered b ctx) := by
  unfold NgxBrotli.noteOffered
  dsimp only
  cases ctx.outputReady <;> by_cases hb : b.bytes.length = 0 <;>
    simp only [hb, if_true, if_false, Bool.false_eq_true] <;>
    exact ⟨h.encoder, nofun, h.outChain, h.closed⟩

theorem careful_offerOutput (d : Downstream) (h : Live w.ctx) :
    Careful (loggedOfferOutput d w) := by
  refine careful_bind (notes_outBuf h) ?_
  cases w.ctx.outBuf with
  | none => exact careful_pure _
  | some b =>
    refine careful_bind (notes_outBuf (h.noteOffered _)) ?_
    refine careful_ite (fun _ => ?_) fun _ => ?_
    · exact careful_ite (fun _ => careful_pure _) fun _ => careful_pure _
    · refine careful_ite (fun _ => ?_) fun _ => careful_fail _
      refine careful_ite (fun _ => ?_) fun _ => careful_pure _
      exact careful_bind (notes_other (by decide) _) (careful_pure _)

theorem careful_takeOutput (s : σ) (h : Live w.ctx) (hd : Drained w.ctx) :
    Careful (loggedTakeOutput enc s w) := by
  refine careful_bind (notes_takeOutput h hd) ?_
  refine careful_ite (fun _ => careful_fail _) fun _ => ?_
  refine careful_bind (notes_outBuf ⟨nofun, h.outBuf, h.outChain, h.closed⟩) ?_
  cases hb : w.ctx.outBuf with
  | none => exact absurd hb h.outBuf
  | some b =>
    simp only [World.emit, hb]
    refine careful_bind (notes_other (by decide) _) ?_
    exact careful_bind (notes_other (by decide) _) (careful_pure _)

theorem careful_finishStream (s : σ) (h : Live w.ctx) (hd : Drained w.ctx) :
    Careful (loggedFinishStream enc s w) := by
  refine careful_bind (notes_compressStream h hd) ?_
  cases enc.compressStream .finish [] s with
  | none => exact careful_fail _
  | some r => exact careful_pure _

theorem careful_pushInput (s : σ) (b : Buf) (rest : List Buf) (h : Live w.ctx)
    (hd : Drained w.ctx) : Careful (loggedPushInput enc conf s b rest w) := by
  refine careful_bind (notes_compressStream h hd) ?_
  cases enc.compressStream b.operation b.bytes s with
  | none => exact careful_fail _
  | some r =>
    refine careful_bind (notes_other (by decide) _) ?_
    refine careful_ite (fun _ => careful_fail _) fun _ => ?_
    refine careful_ite (fun _ => careful_pure _) fun _ => ?_
    exact careful_ite (fun _ => careful_fail _) fun _ => careful_pure _

theorem careful_pass (d : Downstream) (hlive : Live w.ctx)
    (hdrained : w.ctx.outputBusy = false → w.ctx.outputReady = false → Drained w.ctx) :
    Careful (loggedPass enc conf d w) := by
  unfold loggedPass
  refine careful_ite (fun _ => careful_offerOutput d hlive) fun hout => ?_
  -- nothing is outstanding
  have hd : Drained w.ctx := by
    rw [Bool.or_eq_true, not_or, Bool.not_eq_true, Bool.not_eq_true] at hout
    exact hdrained hout.1 hout.2
  refine careful_bind (notes_other (by decide) _) ?_
  cases w.ctx.encoder with
  | none => exact careful_pure _
  | some s =>
    refine careful_ite (fun _ => careful_takeOutput s hlive hd) fun _ => ?_
    refine careful_bind (notes_other (by decide) _) ?_
    refine careful_ite (fun _ => careful_succeed hd) fun _ => ?_
    refine careful_ite (fun _ => careful_finishStream s hlive hd) fun _ => ?_
    refine careful_bind (notes_other (by decide) _) ?_
    cases w.ctx.input with
    | nil => exact careful_pure _
    | cons b rest =>
      exact careful_ite (fun _ => careful_pure _) fun _ => careful_pushInput s b rest hlive hd

theorem notes_ensureStream (o : CallOracle) (ctx : BodyCtx σ) (p : Phase) :
    Notes (Access.Sound p) (loggedEnsureStream enc conf o ctx) := by
  unfold loggedEnsureStream
  split
  · exact notes_pure _
  · refine notes_bind.mpr ⟨notes_other (by decide) _ p, ?_⟩
    cases openEncoder enc conf ctx.contentLength ctx.dcbDict with
    | error s => exact notes_pure _
    | ok s =>
      dsimp only
      split
      · exact notes_pure _
      · refine notes_bind.mpr ⟨notes_other (by decide) _ p, ?_⟩
        split
        · exact notes_pure _
        · exact notes_pure _

theorem notes_acceptInput (o : CallOracle) (bufs : List Buf) (w : World σ) (p : Phase) :
    Notes (Access.Sound p) (loggedAcceptInput o bufs w) := by
  have hadd (w : World σ) : Notes (Access.Sound p) (loggedAddInput o bufs w) := by
    unfold loggedAddInput
    split
    · exact notes_pure _
    · exact notes_bind.mpr ⟨notes_other (by decide) _ p, notes_pure _⟩
  unfold loggedAcceptInput
  cases w.ctx.dcbDict with
  | none => exact hadd w
  | some d =>
    dsimp only
    split
    · exact hadd w
    · cases emitDcbHeader o d w with
      | error w' => exact notes_pure _
      | ok w' => exact hadd w'

theorem careful_startCall (o : CallOracle) (bufs : List Buf) (w : World σ) :
    Careful (loggedStartCall enc conf headerOnly o bufs w) := by
  unfold loggedStartCall
  refine careful_ite (fun _ => careful_pure _) fun _ => ?_
  refine careful_bind (notes_ensureStream o _) ?_
  cases (loggedEnsureStream enc conf o (w.emit (.call bufs)).ctx).val with
  | error ctx => exact careful_fail _
  | ok ctx =>
    refine careful_bind (notes_acceptInput o bufs _) ?_
    cases (loggedAcceptInput o bufs { w.emit (.call bufs) with ctx := ctx }).val with
    | error w' => exact careful_fail _
    | ok w' => exact careful_pure _

theorem careful_step {l : Label} {r : Logged (Access σ) (World σ)} (hw : Wired w)
    (hstep : loggedStep enc conf headerOnly l w = some r) : Careful r := by
  cases l with
  | call o bufs =>
    cases hp : w.phase with
    | start =>
      rw [loggedStep, hp] at hstep
      exact Option.some.inj hstep ▸ careful_startCall o bufs w
    | returned rc =>
      rw [loggedStep, hp] at hstep
      exact Option.some.inj hstep ▸ careful_startCall o bufs w
    | running => simp [loggedStep, hp] at hstep
    | fault => simp [loggedStep, hp] at hstep
  | pass d =>
    cases hp : w.phase with
    | running =>
      rw [loggedStep, hp] at hstep
      obtain ⟨-, hlive, hdrained, -⟩ := hw.opened_of_running hp
      exact Option.some.inj hstep ▸ careful_pass d hlive hdrained
    | start => simp [loggedStep, hp] at hstep
    | returned rc => simp [loggedStep, hp] at hstep
    | fault => simp [loggedStep, hp] at hstep

theorem loggedStep_of_closed {l : Label} {r : Logged (Access σ) (World σ)} (hw : Wired w)
    (hc : w.ctx.closed = true) (hstep : loggedStep enc conf headerOnly l w = some r) :
    r.log = [] ∧ r.val.ctx = w.ctx := by
  cases hw with
  | fresh _ hc' => simp [hc] at hc'
  | opened _ hlive => cases hc.symm.trans hlive.closed
  | closed _ _ hphase =>
    obtain ⟨rc, hrc⟩ := hphase
    cases l with
    | call o bufs =>
      rw [loggedStep, hrc] at hstep
      obtain rfl := Option.some.inj hstep
      have hgate : ((w.emit (.call bufs)).ctx.closed || headerOnly) = true := by
        rw [World.emit, hc, Bool.true_or]
      rw [loggedStartCall, if_pos hgate]
      exact ⟨rfl, rfl⟩
    | pass d => simp [loggedStep, hrc] at hstep

/-- In every step of every run: the encoder is called and a field of the output buffer is used, the
set-up apart, only while all three are there and the stream is open; CompressStream and TakeOutput
are called only when the output taken before was consumed; an instance is destroyed at most once,
and with output outstanding only where the call fails; a closed stream uses nothing. -/
theorem encoder_protocol {c : FilterCtx} {buffered : Bool} {l : Label}
    {r : Logged (Access σ) (World σ)}
    (h : Reachable (bodyStep enc conf headerOnly) (World.initial c buffered) w)
    (hstep : loggedStep enc conf headerOnly l w = some r) :
    (∀ a ∈ r.log, a.use = .compressStream ∨ a.use = .takeOutput ∨ a.use = .outBuf → Live a.ctx) ∧
    (∀ a ∈ r.log, a.use = .compressStream ∨ a.use = .takeOutput → Drained a.ctx) ∧
    (destroyed r.val.trace).length ≤ 1 ∧
    (∀ a ∈ r.log, a.use = .destroy → ¬Drained a.ctx → r.val.phase = .returned NGX_ERROR) ∧
    (w.ctx.closed = true → r.log = [] ∧ r.val.ctx = w.ctx) := by
  have hw := wired_of_reach h
  have hcareful := careful_step hw hstep
  have hnext : bodyStep enc conf headerOnly l w = some r.val := by
    rw [← loggedStep_val, hstep, Option.map_some]
  refine ⟨fun a ha => (hcareful a ha).live, fun a ha => (hcareful a ha).drained, ?_,
    fun a ha => (hcareful a ha).destroyed, fun hc => loggedStep_of_closed hw hc hstep⟩
  cases wired_of_reach (h.step trivial hnext) with
  | fresh _ _ _ _ hd => simp [hd]
  | opened _ _ _ hd => simp [hd]
  | closed _ hd => exact hd

end

/-- The pass that takes the output of a stream of two bytes. -/
theorem encoder_protocol_sample :
    ∃ (w : World BlockState) (r : Logged (Access BlockState) (World BlockState)),
      loggedStep blockEncoder .plain false (.pass ⟨64, NGX_OK⟩) w = some r ∧
        r.log.map Access.use = [.hasMoreOutput, .takeOutput, .outBuf, .isFinished, .hasMoreOutput] ∧
        (∀ a ∈ r.log, a.use = .compressStream ∨ a.use = .takeOutput → Drained a.ctx) := by
  let labels : List Label := [.call .fine [⟨[1, 2], false, true⟩], .pass ⟨64, NGX_OK⟩]
  have hrun : ∃ w r, run (bodyStep blockEncoder .plain false) labels
      (World.initial ⟨-1, none⟩ false) = some w ∧
      loggedStep blockEncoder .plain false (.pass ⟨64, NGX_OK⟩) w = some r ∧
      r.log.map Access.use = [.hasMoreOutput, .takeOutput, .outBuf, .isFinished, .hasMoreOutput] :=
    ⟨_, _, rfl, rfl, rfl⟩
  obtain ⟨w, r, hw, hstep, hlog⟩ := hrun
  exact ⟨w, r, hstep, hlog, (encoder_protocol (Reachable.run .init hw) hstep).2.1⟩

/-- The set-up sets a field of the output buffer before there is a link. -/
theorem outBuf_before_outChain :
    ¬∀ (σ : Type) (enc : Encoder σ) (conf : Conf) (headerOnly : Bool) (c : FilterCtx)
      (buffered : Bool) (w : World σ) (l : Label) (r : Logged (Access σ) (World σ)),
      Reachable (bodyStep enc conf headerOnly) (World.initial c buffered) w →
      loggedStep enc conf headerOnly l w = some r →
      ∀ a ∈ r.log, a.use = .outBuf ∨ a.use = .temporary → Live a.ctx := by
  intro h
  have hstep : ∃ r a, loggedStep blockEncoder .plain false (.call .fine [])
      (World.initial ⟨-1, none⟩ false) = some r ∧ r.log.getLast? = some a ∧
        a.use = .temporary ∧ a.ctx.outChain = false := ⟨_, _, rfl, rfl, rfl, rfl⟩
  obtain ⟨r, a, hr, ha, huse, hchain⟩ := hstep
  have hlive := h _ blockEncoder .plain false ⟨-1, none⟩ false _ _ r .init hr a
    (List.mem_of_getLast? ha) (.inr huse)
  rw [hlive.outChain] at hchain
  cases hchain

end NgxBrotli
