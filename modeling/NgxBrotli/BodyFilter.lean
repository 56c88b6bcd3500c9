import NgxBrotli.HeaderFilter
import NgxBrotli.Runs

/-!
# The body filter

`ngx_http_brotli_body_filter` with its stream set-up, dcb header and close, as a system whose steps
are the start of a call and one pass of the `for (;;)` loop.  The encoder of libbrotli is a
parameter; the next body filter and the pool answer through the labels.
-/

namespace NgxBrotli

/-- `BrotliEncoderOperation`, but for the metadata blocks, which the filter never emits. -/
inductive Operation
  | process
  | flush
  | finish
  deriving DecidableEq, Repr

/-- `BrotliEncoderParameter`, as far as the filter sets them. -/
inductive Parameter
  | quality
  | lgWin
  | sizeHint
  deriving DecidableEq, Repr

/-- The functions of libbrotli on an encoder instance of type `σ`.  `none` is a `NULL` or a
`BROTLI_FALSE`; `compressStream` says how much of the input it consumed. -/
structure Encoder (σ : Type) where
  createInstance : Option σ
  setParameter : Parameter → ℕ → σ → Option σ
  /-- `BrotliEncoderPrepareDictionary`, then `BrotliEncoderAttachPreparedDictionary` -/
  attachDictionary : Bytes → Int → σ → Option σ
  compressStream : Operation → Bytes → σ → Option (ℕ × σ)
  hasMoreOutput : σ → Bool
  takeOutput : σ → Bytes × σ
  isFinished : σ → Bool

/-- `ngx_buf_t` in memory: what is between `pos` and `last`, and two flags. -/
structure Buf where
  bytes : Bytes
  flush : Bool
  lastBuf : Bool
  deriving DecidableEq, Repr

/-- `ngx_http_brotli_ctx_t`.  `input` is the chain `ctx->in`, `outChain` says that the link is
there, and its buffer is `outBuf`. -/
structure BodyCtx (σ : Type) where
  encoder : Option σ
  contentLength : Int
  bytesIn : UInt64
  bytesOut : UInt64
  input : List Buf
  outChain : Bool
  outBuf : Option Buf
  initialized : Bool
  closed : Bool
  success : Bool
  outputReady : Bool
  outputBusy : Bool
  endOfInput : Bool
  endOfBlock : Bool
  dcbHeaderSent : Bool
  dcbDict : Option DcbDict

def BodyCtx.ofFilterCtx {σ : Type} (ctx : FilterCtx) : BodyCtx σ where
  encoder := none
  contentLength := ctx.contentLength
  bytesIn := 0
  bytesOut := 0
  input := []
  outChain := false
  outBuf := none
  initialized := false
  closed := false
  success := false
  outputReady := false
  outputBusy := false
  endOfInput := false
  endOfBlock := false
  dcbHeaderSent := false
  dcbDict := ctx.dcbDict

/-- What the filter does to the encoder and to the next filter, and what it is given. -/
inductive Event (σ : Type)
  | call (bufs : List Buf)
  | append (bufs : List Buf)
  /-- `BrotliEncoderCompressStream` succeeded: the input, how much it consumed, the state after -/
  | compress (op : Operation) (input : Bytes) (consumed : ℕ) (after : σ)
  | pop (b : Buf)
  | take (bytes : Bytes)
  | header (b : Buf)
  | offer (b : Buf)
  | wake
  | forward (bufs : List Buf)
  | destroy (s : σ)

/-- Where the filter stands.  A `fault` is a `NULL` pointer used. -/
inductive Phase
  | start
  | running
  | returned (rc : Int)
  | fault
  deriving DecidableEq, Repr

structure World (σ : Type) where
  ctx : BodyCtx σ
  /-- `NGX_HTTP_BROTLI_BUFFERED` in `r->connection->buffered` -/
  buffered : Bool
  phase : Phase
  trace : List (Event σ)

namespace World

variable {σ : Type}

def emit (w : World σ) (e : Event σ) : World σ := { w with trace := w.trace ++ [e] }

def ret (w : World σ) (rc : Int) : World σ := { w with phase := .returned rc }

def fault (w : World σ) : World σ := { w with phase := .fault }

/-- `ngx_http_brotli_filter_close` -/
def close (w : World σ) : World σ :=
  { w with
    ctx := { w.ctx with closed := true, encoder := none, outChain := false, outBuf := none }
    trace := w.trace ++ (w.ctx.encoder.map Event.destroy).toList }

def fail (w : World σ) : World σ := w.close.ret NGX_ERROR

end World

/-- What the pool and the next filter answer during the start of a call. -/
structure CallOracle where
  bufOk : Bool
  chainOk : Bool
  dcbHeaderOk : Bool
  dcbHeaderRc : Int
  /-- how many links `ngx_chain_add_copy` gets from the pool -/
  links : ℕ
  forwardRc : Int

abbrev BROTLI_MIN_WINDOW_BITS : ℕ := 10

/-- The loop that tunes `lg_win`. -/
def growWindow (lgWin : ℕ) (contentLength : Int) (wbits : ℕ) : ℕ :=
  if wbits < lgWin ∧ contentLength > 2 ^ wbits then growWindow lgWin contentLength (wbits + 1)
  else wbits
termination_by lgWin - wbits

def windowBits (lgWin : ℕ) (contentLength : Int) : ℕ :=
  if contentLength > 0 then growWindow lgWin contentLength BROTLI_MIN_WINDOW_BITS else lgWin

/-- The bytes of the dcb header: the magic, then the SHA-256 of the dictionary. -/
def dcbHeader (d : DcbDict) : Bytes := [0xff, 0x44, 0x43, 0x42] ++ d.hash

section

variable {σ : Type} (enc : Encoder σ) (conf : Conf) (headerOnly : Bool)

/-- The encoder part of the stream set-up; an error carries the instance, if there is one. -/
def openEncoder (contentLength : Int) (dcbDict : Option DcbDict) : Except (Option σ) σ :=
  match enc.createInstance with
  | none => .error none
  | some s =>
    match enc.setParameter .quality (conf.quality % 2 ^ 32).toNat s with
    | none => .error s
    | some s =>
      match enc.setParameter .lgWin (windowBits conf.lgWin contentLength % 2 ^ 32) s with
      | none => .error s
      | some s =>
        -- a refused hint is not an error
        let s :=
          if contentLength > 0 then
            (enc.setParameter .sizeHint (min contentLength 0xffffffff).toNat s).getD s
          else s
        match dcbDict with
        | none => .ok s
        | some d =>
          match enc.attachDictionary d.bytes conf.quality s with
          | none => .error s
          | some s => .ok s

/-- `ngx_http_brotli_filter_ensure_stream_initialized`; an error carries the context too. -/
def ensureStreamInitialized (o : CallOracle) (ctx : BodyCtx σ) : Except (BodyCtx σ) (BodyCtx σ) :=
  if ctx.initialized then .ok ctx
  else
    let ctx := { ctx with initialized := true }
    match openEncoder enc conf ctx.contentLength ctx.dcbDict with
    | .error s => .error { ctx with encoder := s }
    | .ok s =>
      let ctx := { ctx with encoder := some s }
      if !o.bufOk then .error ctx
      else
        let ctx := { ctx with outBuf := some ⟨[], false, false⟩ }
        if !o.chainOk then .error ctx else .ok { ctx with outChain := true }

/-- `ngx_http_brotli_emit_dcb_header` -/
def emitDcbHeader (o : CallOracle) (d : DcbDict) (w : World σ) : Except (World σ) (World σ) :=
  if !o.dcbHeaderOk then .error w
  else
    let w := w.emit (.header ⟨dcbHeader d, false, false⟩)
    if o.dcbHeaderRc = NGX_ERROR then .error w
    else
      .ok { w with ctx := { w.ctx with
        bytesOut := w.ctx.bytesOut + 36
        dcbHeaderSent := true } }

/-- The chain of the call is appended to `ctx->in`; the copy may run out of links. -/
def addInput (o : CallOracle) (bufs : List Buf) (w : World σ) : Except (World σ) (World σ) :=
  if bufs = [] then .ok w
  else
    let added := bufs.take o.links
    let w := { w with ctx := { w.ctx with input := w.ctx.input ++ added } }.emit (.append added)
    if o.links < bufs.length then .error w else .ok { w with buffered := true }

/-- What the call does once the stream is there: the dcb header of the first call, the input. -/
def acceptInput (o : CallOracle) (bufs : List Buf) (w : World σ) : Except (World σ) (World σ) :=
  match w.ctx.dcbDict with
  | none => addInput o bufs w
  | some d =>
    if w.ctx.dcbHeaderSent then addInput o bufs w
    else (emitDcbHeader o d w).bind (addInput o bufs)

/-- The start of a call, up to the loop. -/
def startCall (o : CallOracle) (bufs : List Buf) (w : World σ) : World σ :=
  let w := w.emit (.call bufs)
  if w.ctx.closed || headerOnly then (w.emit (.forward bufs)).ret o.forwardRc
  else
    match ensureStreamInitialized enc conf o w.ctx with
    | .error ctx => { w with ctx := ctx }.fail
    | .ok ctx =>
      match acceptInput o bufs { w with ctx := ctx } with
      | .error w => w.fail
      | .ok w => { w with phase := .running }

/-- What the next filter does when it is called: the bytes it consumes of the output buffer, and its
return code. -/
structure Downstream where
  consumed : ℕ
  rc : Int

/-- The flags after the next filter was called; `b` is what it left of the output buffer. -/
def noteOffered (b : Buf) (ctx : BodyCtx σ) : BodyCtx σ :=
  let ctx := { ctx with outBuf := some b }
  let ctx := if ctx.outputReady then { ctx with outputReady := false, outputBusy := true } else ctx
  if b.bytes.length = 0 then { ctx with outputBusy := false } else ctx

/-- `available_busy_output` -/
def availableBusyOutput (ctx : BodyCtx σ) (b : Buf) : ℕ :=
  if ctx.outputBusy then b.bytes.length else 0

/-- Output is ready or busy: it is offered, or the next filter is called again. -/
def offerOutput (d : Downstream) (w : World σ) : World σ :=
  match w.ctx.outBuf with
  | none => w.fault
  | some b =>
    let available := availableBusyOutput w.ctx b
    let offer := if w.ctx.outputReady && w.ctx.outChain then .offer b else .wake
    let b := { b with bytes := b.bytes.drop d.consumed }
    let ctx := noteOffered b w.ctx
    let w := { w with ctx := ctx }.emit offer
    if d.rc = NGX_OK then
      if ctx.outputBusy && available == b.bytes.length then
        { w with buffered := true }.ret NGX_AGAIN
      else w
    else if d.rc = NGX_AGAIN then
      if ctx.outputBusy then { w with buffered := w.buffered || ctx.input ≠ [] }.ret NGX_AGAIN
      else w
    else w.fail

/-- The encoder has output: it becomes the output buffer. -/
def takeOutput (s : σ) (w : World σ) : World σ :=
  let (out, s) := enc.takeOutput s
  let w := { w with ctx := { w.ctx with encoder := some s } }.emit (.take out)
  if out.length = 0 then w.fail
  else
    match w.ctx.outBuf with
    | none => w.fault
    | some _ =>
      let last := w.ctx.endOfInput && enc.isFinished s && !enc.hasMoreOutput s
      let flush := !last && w.ctx.endOfBlock
      { w with
        ctx := { w.ctx with
          outBuf := some ⟨out, flush, last⟩
          bytesOut := w.ctx.bytesOut + UInt64.ofNat out.length
          endOfBlock := false
          outputReady := true }
        buffered := w.buffered && !(last || flush) }

/-- The stream is finished, and all of it was consumed. -/
def succeed (w : World σ) : World σ :=
  ({ w with ctx := { w.ctx with success := true }, buffered := false }.close).ret NGX_OK

/-- `end_of_input`: the encoder is asked for what it still holds. -/
def finishStream (s : σ) (w : World σ) : World σ :=
  match enc.compressStream .finish [] s with
  | none => { w with buffered := true }.fail
  | some (n, s) =>
    { w with ctx := { w.ctx with encoder := some s }, buffered := true }.emit
    (.compress .finish [] n s)

/-- The operation a buffer asks for. -/
def Buf.operation (b : Buf) : Operation :=
  if b.lastBuf then .finish else if b.flush then .flush else .process

/-- `brotli_max_length` is set and exceeded. -/
def overCap (bytesIn : UInt64) : Bool :=
  conf.maxLength != NGX_CONF_UNSET && bytesIn.toInt64.toInt > conf.maxLength

/-- The first buffer of `ctx->in` goes to the encoder. -/
def pushInput (s : σ) (b : Buf) (rest : List Buf) (w : World σ) : World σ :=
  match enc.compressStream b.operation b.bytes s with
  | none => { w with buffered := true }.fail
  | some (n, s) =>
    let ctx := { w.ctx with
      encoder := some s
      bytesIn := w.ctx.bytesIn + UInt64.ofNat n
      input := { b with bytes := b.bytes.drop n } :: rest }
    let w := { w with ctx := ctx, buffered := true }.emit (.compress b.operation b.bytes n s)
    if overCap conf ctx.bytesIn then w.fail
    else if n = b.bytes.length then
      let ctx :=
        if b.lastBuf then { ctx with endOfInput := true }
        else if b.flush then { ctx with endOfBlock := true }
        else ctx
      { w with ctx := { ctx with input := rest } }.emit (.pop b)
    else if n = 0 then w.fail
    else w

/-- One pass of the loop. -/
def pass (d : Downstream) (w : World σ) : World σ :=
  if w.ctx.outputBusy || w.ctx.outputReady then offerOutput d w
  else
    match w.ctx.encoder with
    | none => w.fault
    | some s =>
      if enc.hasMoreOutput s then takeOutput enc s w
      else if enc.isFinished s && !enc.hasMoreOutput s then succeed w
      else if w.ctx.endOfInput then finishStream enc s w
      else
        match w.ctx.input with
        | [] => w.ret NGX_OK
        | b :: rest =>
          if b.bytes.length = 0 && !b.lastBuf && !b.flush then
            { w with ctx := { w.ctx with input := rest } }
          else pushInput enc conf s b rest w

inductive Label
  | call (o : CallOracle) (bufs : List Buf)
  | pass (d : Downstream)

/-- `ngx_http_brotli_body_filter`, step by step. -/
def bodyStep : Label → World σ → Option (World σ)
  | .call o bufs, w =>
    match w.phase with
    | .start | .returned _ => some (startCall enc conf headerOnly o bufs w)
    | .running | .fault => none
  | .pass d, w =>
    match w.phase with
    | .running => some (pass enc conf d w)
    | .start | .returned _ | .fault => none

/-- A request the header filter committed to. -/
def World.initial (ctx : FilterCtx) (buffered : Bool) : World σ :=
  ⟨.ofFilterCtx ctx, buffered, .start, []⟩

end

end NgxBrotli
