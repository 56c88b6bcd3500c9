import NgxBrotli.BodySteps

namespace NgxBrotli
open Runs

variable {σ : Type}

/-- The contract of libbrotli.  `finished` says that the last block of the stream was written, and
`held` counts the input that was accepted and is not yet compressed. -/
structure Encoder.Contract (enc : Encoder σ) where
  finished : σ → Prop
  held : σ → ℕ
  isFinished_iff (s : σ) : enc.isFinished s = true ↔ finished s ∧ enc.hasMoreOutput s = false
  created {s : σ} : enc.createInstance = some s → ¬finished s
  parameter {p : Parameter} {v : ℕ} {s s' : σ} :
    enc.setParameter p v s = some s' → finished s' → finished s
  dictionary {d : Bytes} {q : Int} {s s' : σ} :
    enc.attachDictionary d q s = some s' → finished s' → finished s
  consumed_le {op : Operation} {input : Bytes} {n : ℕ} {s s' : σ} :
    enc.compressStream op input s = some (n, s') → n ≤ input.length
  /-- Only a FINISH that took all of its input writes the last block, and this leaves output. -/
  finishes {op : Operation} {input : Bytes} {n : ℕ} {s s' : σ} :
    enc.compressStream op input s = some (n, s') → finished s' →
      finished s ∨ op = .finish ∧ n = input.length ∧ enc.hasMoreOutput s' = true
  /-- A FLUSH is performed when its input is depleted and no output remains after the call. -/
  flushes {input : Bytes} {n : ℕ} {s s' : σ} :
    enc.compressStream .flush input s = some (n, s') → n = input.length →
      enc.hasMoreOutput s' = false → held s' = 0
  /-- Without pending output a call consumes input, leaves output or completes its operation. -/
  progress {op : Operation} {input : Bytes} {n : ℕ} {s s' : σ} :
    enc.compressStream op input s = some (n, s') → enc.hasMoreOutput s = false →
      0 < n ∨ enc.hasMoreOutput s' = true ∨ n = input.length ∧ (op = .finish → finished s')
  taken_finished (s : σ) : finished (enc.takeOutput s).2 ↔ finished s
  taken_held (s : σ) : held (enc.takeOutput s).2 = held s
  finished_held {s : σ} : finished s → held s = 0

section Trace

variable (tr : List (Event σ))

/-- The buffers the calls brought. -/
def suppliedBufs : List Buf := tr.flatMap fun e => match e with | .call bufs => bufs | _ => []

def appendedBufs : List Buf := tr.flatMap fun e => match e with | .append bufs => bufs | _ => []

/-- The bytes the encoder consumed. -/
def fedBytes : Bytes :=
  tr.flatMap fun e => match e with | .compress _ input n _ => input.take n | _ => []

/-- The buffers the encoder gave. -/
def takenBytes : List Bytes :=
  tr.flatMap fun e => match e with | .take out => if out = [] then [] else [out] | _ => []

/-- The output buffers given to the next filter. -/
def offeredBufs : List Buf := tr.flatMap fun e => match e with | .offer b => [b] | _ => []

/-- Every buffer given to the next filter. -/
def sentBufs : List Buf := tr.flatMap fun e =>
  match e with | .header b => [b] | .offer b => [b] | .forward bufs => bufs | _ => []

@[simp] theorem suppliedBufs_append (es : List (Event σ)) :
    suppliedBufs (tr ++ es) = suppliedBufs tr ++ suppliedBufs es := List.flatMap_append

@[simp] theorem appendedBufs_append (es : List (Event σ)) :
    appendedBufs (tr ++ es) = appendedBufs tr ++ appendedBufs es := List.flatMap_append

@[simp] theorem fedBytes_append (es : List (Event σ)) :
    fedBytes (tr ++ es) = fedBytes tr ++ fedBytes es := List.flatMap_append

@[simp] theorem takenBytes_append (es : List (Event σ)) :
    takenBytes (tr ++ es) = takenBytes tr ++ takenBytes es := List.flatMap_append

@[simp] theorem offeredBufs_append (es : List (Event σ)) :
    offeredBufs (tr ++ es) = offeredBufs tr ++ offeredBufs es := List.flatMap_append

@[simp] theorem sentBufs_append (es : List (Event σ)) :
    sentBufs (tr ++ es) = sentBufs tr ++ sentBufs es := List.flatMap_append

theorem flatMap_fail {β : Type} (w : World σ) {f : Event σ → List β}
    (hf : ∀ s, f (.destroy s) = []) : w.fail.trace.flatMap f = w.trace.flatMap f := by
  have htrace : w.fail.trace = w.trace ++ (w.ctx.encoder.map Event.destroy).toList := rfl
  rw [htrace, List.flatMap_append]
  cases w.ctx.encoder <;> simp [hf]

theorem flatMap_startEvents {β : Type} {f : Event σ → List β} {es : List (Event σ)}
    (hes : ∀ e ∈ es, (∃ b, e = .header b) ∨ ∃ bufs, e = .append bufs)
    (hheader : ∀ b, f (.header b) = []) (happend : ∀ bufs, f (.append bufs) = []) :
    es.flatMap f = [] := by
  rw [List.flatMap_eq_nil_iff]
  intro e he
  obtain ⟨b, rfl⟩ | ⟨bufs, rfl⟩ := hes e he
  · exact hheader b
  · exact happend bufs

end Trace

/-- The body of a stream. -/
def bodyBytes (bufs : List Buf) : Bytes := bufs.flatMap Buf.bytes

@[simp] theorem bodyBytes_cons (b : Buf) (bufs : List Buf) :
    bodyBytes (b :: bufs) = b.bytes ++ bodyBytes bufs := List.flatMap_cons

@[simp] theorem bodyBytes_append (bufs bufs' : List Buf) :
    bodyBytes (bufs ++ bufs') = bodyBytes bufs ++ bodyBytes bufs' := List.flatMap_append

/-- `last_buf` is on the final buffer only. -/
def FinalOnly (bufs : List Buf) : Prop := ∀ b ∈ bufs.dropLast, b.lastBuf = false

instance decidableFinalOnly (bufs : List Buf) : Decidable (FinalOnly bufs) :=
  inferInstanceAs (Decidable (∀ b ∈ bufs.dropLast, b.lastBuf = false))

/-- The final buffer has `last_buf`, and no other. -/
def EndsStream (bufs : List Buf) : Prop :=
  ∃ pre b, bufs = pre ++ [b] ∧ b.lastBuf = true ∧ ∀ c ∈ pre, c.lastBuf = false

theorem FinalOnly.of_append {l m : List Buf} (h : FinalOnly (l ++ m)) : FinalOnly l := by
  intro b hb
  apply h b
  cases m with
  | nil => rwa [List.append_nil]
  | cons c m =>
    rw [List.dropLast_append_of_ne_nil (List.cons_ne_nil c m)]
    exact List.mem_append_left _ (List.dropLast_subset l hb)

theorem EndsStream.append_nil {l m : List Buf} (h : EndsStream l) (hf : FinalOnly (l ++ m)) :
    m = [] := by
  obtain ⟨pre, b, rfl, hb, -⟩ := h
  by_contra hm
  have hmem : b ∈ (pre ++ [b] ++ m).dropLast := by
    rw [List.dropLast_append_of_ne_nil hm]
    simp
  rw [hf b hmem] at hb
  cases hb

theorem FinalOnly.endsStream {l rest : List Buf} {flags : List Bool}
    (hf : FinalOnly l) (h : l.map Buf.lastBuf = flags ++ true :: rest.map Buf.lastBuf) :
    rest = [] ∧ EndsStream l := by
  obtain ⟨pre, t, rfl, hpre, ht⟩ := List.map_eq_append_iff.mp h
  obtain ⟨b, t, rfl, hb, hrest⟩ := List.map_eq_cons_iff.mp ht
  have htnil : t = [] := by
    by_contra hne
    have hmem : b ∈ (pre ++ b :: t).dropLast := by
      rw [List.dropLast_append_of_ne_nil (List.cons_ne_nil b t),
        List.dropLast_cons_of_ne_nil hne]
      simp
    rw [hf b hmem] at hb
    cases hb
  subst htnil
  refine ⟨List.map_eq_nil_iff.mp hrest.symm, pre, b, rfl, hb, fun c hc => hf c ?_⟩
  rwa [List.dropLast_concat]

/-- The output buffer that is still to be given to the next filter. -/
def readyBufs (ctx : BodyCtx σ) : List Buf := if ctx.outputReady then ctx.outBuf.toList else []

/-- Every byte appended was fed or is on the chain, and every buffer taken was offered or is
ready. -/
structure Books (ctx : BodyCtx σ) (tr : List (Event σ)) : Prop where
  input : bodyBytes (appendedBufs tr) = fedBytes tr ++ bodyBytes ctx.input
  output : takenBytes tr = (offeredBufs tr ++ readyBufs ctx).map Buf.bytes

/-- An open stream: the encoder, the output buffer and the flags agree with the trace. -/
structure Opened {enc : Encoder σ} (spec : enc.Contract) (s : σ) (b : Buf) (ctx : BodyCtx σ)
    (tr : List (Event σ)) : Prop extends Books ctx tr where
  initialized : ctx.initialized = true
  closed : ctx.closed = false
  success : ctx.success = false
  encoder : ctx.encoder = some s
  outBuf : ctx.outBuf = some b
  outChain : ctx.outChain = true
  flags : ctx.input.map Buf.lastBuf <:+ (appendedBufs tr).map Buf.lastBuf
  ended : ctx.endOfInput = true → FinalOnly (appendedBufs tr) →
    ctx.input = [] ∧ EndsStream (appendedBufs tr)
  finish : spec.finished s → ctx.endOfInput = true ∧
    ∃ input s', .compress .finish input input.length s' ∈ tr ∧ spec.finished s'
  marked : enc.isFinished s = true → EndsStream (sentBufs tr ++ readyBufs ctx)
  unmarked : enc.isFinished s = false → ∀ c ∈ sentBufs tr ++ readyBufs ctx, c.lastBuf = false

/-- What success means. -/
structure Complete {enc : Encoder σ} (spec : enc.Contract) (tr : List (Event σ)) : Prop where
  supplied : EndsStream (suppliedBufs tr)
  fed : fedBytes tr = bodyBytes (suppliedBufs tr)
  finish : ∃ input s', .compress .finish input input.length s' ∈ tr ∧ spec.finished s'
  finished : ∃ s, .destroy s ∈ tr ∧ enc.isFinished s = true
  sent : EndsStream (sentBufs tr)

structure Closed {enc : Encoder σ} (spec : enc.Contract) (ctx : BodyCtx σ) (tr : List (Event σ)) :
    Prop where
  closed : ctx.closed = true
  outBuf : ctx.outBuf = none
  input : fedBytes tr <+: bodyBytes (suppliedBufs tr)
  output : takenBytes tr = (offeredBufs tr).map Buf.bytes
  success : ctx.success = true → FinalOnly (suppliedBufs tr) → Complete spec tr

/-- Before the first call with a body to filter. -/
structure Fresh (headerOnly : Bool) (ctx : BodyCtx σ) (tr : List (Event σ)) : Prop where
  ctx : ∃ c, ctx = .ofFilterCtx c
  trace : headerOnly = false → tr = []
  appended : appendedBufs tr = []
  fed : fedBytes tr = []
  taken : takenBytes tr = []
  offered : offeredBufs tr = []

def HeaderSent (ctx : BodyCtx σ) : Prop := ctx.dcbDict = none ∨ ctx.dcbHeaderSent = true

inductive Account {enc : Encoder σ} (spec : enc.Contract) (headerOnly : Bool) (w : World σ) : Prop
  | fresh (h : Fresh headerOnly w.ctx w.trace) (hrun : w.phase ≠ .running)
      (hfault : w.phase ≠ .fault)
  | opened {s : σ} {b : Buf} (ho : headerOnly = false) (h : Opened spec s b w.ctx w.trace)
      (hsupplied : suppliedBufs w.trace = appendedBufs w.trace) (hheader : HeaderSent w.ctx)
      (hphase : w.phase = .running ∨ w.ctx.outputReady = false ∧ ∃ rc, w.phase = .returned rc)
  | closed (h : Closed spec w.ctx w.trace) (hphase : ∃ rc, w.phase = .returned rc)

section

variable {enc : Encoder σ} {spec : enc.Contract} {headerOnly : Bool} {w w' : World σ}
  {ctx ctx' : BodyCtx σ} {tr : List (Event σ)} {s : σ} {b : Buf}

theorem Books.fail (h : Books w.ctx w.trace) (hready : w.ctx.outputReady = false)
    (hsuccess : w.ctx.success = false) (hsupplied : appendedBufs w.trace <+: suppliedBufs w.trace) :
    Account spec headerOnly w.fail := by
  refine .closed ⟨rfl, rfl, ?_, ?_, ?_⟩ ⟨NGX_ERROR, rfl⟩
  · rw [fedBytes, suppliedBufs, flatMap_fail w fun _ => rfl, flatMap_fail w fun _ => rfl,
      ← fedBytes, ← suppliedBufs]
    obtain ⟨t, ht⟩ := hsupplied
    refine ⟨bodyBytes w.ctx.input ++ bodyBytes t, ?_⟩
    rw [← List.append_assoc, ← h.input, ← ht, bodyBytes_append]
  · rw [takenBytes, offeredBufs, flatMap_fail w fun _ => rfl, flatMap_fail w fun _ => rfl,
      ← takenBytes, ← offeredBufs, h.output, readyBufs, hready, if_neg Bool.false_ne_true,
      List.append_nil]
  · intro hs
    have hs' : w.ctx.success = true := hs
    rw [hsuccess] at hs'
    cases hs'

theorem Opened.afterOffer (h : Opened spec s b ctx tr) (n : ℕ) :
    Opened spec s { b with bytes := b.bytes.drop n } (ctx.afterOffer b n)
      (tr ++ [offerEvent ctx b]) := by
  have hready : readyBufs (ctx.afterOffer b n) = [] := rfl
  -- the buffer is given once, when it is ready; later passes only wake the next filter
  have hevent : offerEvent ctx b = .offer b ∧ readyBufs ctx = [b] ∨
      offerEvent ctx b = .wake ∧ readyBufs ctx = [] := by
    rw [offerEvent, readyBufs, h.outChain, h.outBuf, Bool.and_true]
    cases ctx.outputReady with
    | true => exact .inl ⟨rfl, rfl⟩
    | false => exact .inr ⟨rfl, rfl⟩
  have happended : appendedBufs (tr ++ [offerEvent ctx b]) = appendedBufs tr := by
    obtain ⟨he, -⟩ | ⟨he, -⟩ := hevent <;> simp [appendedBufs, he]
  have hsent : sentBufs (tr ++ [offerEvent ctx b]) ++ readyBufs (ctx.afterOffer b n) =
      sentBufs tr ++ readyBufs ctx := by
    rw [hready]
    obtain ⟨he, hr⟩ | ⟨he, hr⟩ := hevent <;> simp [sentBufs, he, hr]
  refine { h with
    outBuf := rfl
    input := ?_
    output := ?_
    flags := happended ▸ h.flags
    ended := happended ▸ h.ended
    finish := ?_
    marked := hsent ▸ h.marked
    unmarked := hsent ▸ h.unmarked }
  · rw [happended]
    obtain ⟨he, -⟩ | ⟨he, -⟩ := hevent <;> simpa [fedBytes, he, BodyCtx.afterOffer] using h.input
  · rw [hready]
    have := h.output
    obtain ⟨he, hr⟩ | ⟨he, hr⟩ := hevent <;> simpa [takenBytes, offeredBufs, he, hr] using this
  · intro hf
    obtain ⟨hend, input, s', hmem, hf'⟩ := h.finish hf
    exact ⟨hend, input, s', List.mem_append_left _ hmem, hf'⟩

theorem Opened.took (h : Opened spec s b ctx tr) (hready : ctx.outputReady = false)
    (hmore : enc.hasMoreOutput s = true) (hout : (enc.takeOutput s).1 ≠ []) {flush : Bool}
    {bytesOut : UInt64} {b' : Buf} (hb' : b' = ⟨(enc.takeOutput s).1, flush,
      lastMark enc ctx (enc.takeOutput s).2⟩) :
    Opened spec (enc.takeOutput s).2 b'
      { ctx with
        encoder := some (enc.takeOutput s).2
        outBuf := some b'
        bytesOut := bytesOut
        endOfBlock := false
        outputReady := true } (tr ++ [Event.take (enc.takeOutput s).1]) := by
  have happended : appendedBufs (tr ++ [Event.take (enc.takeOutput s).1]) = appendedBufs tr := by
    simp [appendedBufs]
  have hempty : readyBufs ctx = [] := by rw [readyBufs, hready, if_neg Bool.false_ne_true]
  have hunmarked : ∀ c ∈ sentBufs tr, c.lastBuf = false := by
    have hnot : enc.isFinished s = false := by
      rw [← Bool.not_eq_true, spec.isFinished_iff, hmore]
      simp
    have := h.unmarked hnot
    rwa [hempty, List.append_nil] at this
  have hsent : sentBufs (tr ++ [Event.take (enc.takeOutput s).1]) = sentBufs tr := by
    simp [sentBufs]
  have hfinish : spec.finished (enc.takeOutput s).2 → ctx.endOfInput = true ∧
      ∃ input s', .compress .finish input input.length s' ∈
        tr ++ [Event.take (enc.takeOutput s).1] ∧
        spec.finished s' := by
    intro hf
    obtain ⟨hend, input, s', hmem, hf'⟩ := h.finish ((spec.taken_finished s).mp hf)
    exact ⟨hend, input, s', List.mem_append_left _ hmem, hf'⟩
  refine { h with
    encoder := rfl
    outBuf := rfl
    input := ?_
    output := ?_
    flags := happended ▸ h.flags
    ended := happended ▸ h.ended
    finish := hfinish
    marked := fun hf => ?_
    unmarked := fun hf => ?_ }
  · rw [happended]
    simpa [fedBytes] using h.input
  · have := h.output
    rw [hempty, List.append_nil] at this
    simpa [takenBytes, offeredBufs, readyBufs, hout, hb'] using this
  · have hlast : b'.lastBuf = true := by
      obtain ⟨hfin, hno⟩ := (spec.isFinished_iff _).mp hf
      rw [hb', lastMark, (hfinish hfin).1, hf, hno]
      rfl
    exact ⟨sentBufs tr, b', by rw [hsent]; rfl, hlast, hunmarked⟩
  · intro c hc
    rw [hsent, List.mem_append] at hc
    rcases hc with hc | hc
    · exact hunmarked c hc
    · obtain rfl : c = b' := by simpa [readyBufs] using hc
      rw [hb', lastMark, hf, Bool.and_false, Bool.false_and]

theorem Quiet.unfinished_stream (spec : enc.Contract) (hq : Quiet enc s ctx) :
    ¬spec.finished s := by
  intro hf
  have := (spec.isFinished_iff s).mpr ⟨hf, hq.more⟩
  rw [hq.unfinished] at this
  cases this

theorem Quiet.more_of_finished (spec : enc.Contract) (hq : Quiet enc s ctx) {op : Operation}
    {input : Bytes} {n : ℕ} {s' : σ} (hcall : enc.compressStream op input s = some (n, s'))
    (hf : spec.finished s') : enc.hasMoreOutput s' = true :=
  ((spec.finishes hcall hf).resolve_left (hq.unfinished_stream spec)).2.2

theorem Opened.compressed (h : Opened spec s b ctx tr) (hq : Quiet enc s ctx) {op : Operation}
    {input : Bytes} {n : ℕ} {s' : σ} (hcall : enc.compressStream op input s = some (n, s'))
    {bytesIn : UInt64} {bufs : List Buf} {endOfInput endOfBlock : Bool} {after : List (Event σ)}
    (hafter : after = [] ∨ ∃ c, after = [.pop c])
    (hbytes : bodyBytes ctx.input = input.take n ++ bodyBytes bufs)
    (hflags : bufs.map Buf.lastBuf <:+ ctx.input.map Buf.lastBuf)
    (hended : endOfInput = true → FinalOnly (appendedBufs tr) → bufs = [] ∧
      EndsStream (appendedBufs tr))
    (hfinish : op = .finish → n = input.length → endOfInput = true) :
    Opened spec s' b
      { ctx with
        encoder := some s'
        bytesIn := bytesIn
        endOfInput := endOfInput
        endOfBlock := endOfBlock
        input := bufs } (tr ++ .compress op input n s' :: after) := by
  have hproj {β : Type} (f : Event σ → List β) (hf : ∀ c, f (.pop c) = []) :
      (tr ++ .compress op input n s' :: after).flatMap f =
        tr.flatMap f ++ f (.compress op input n s') := by
    obtain rfl | ⟨c, rfl⟩ := hafter <;> simp [hf]
  have happended : appendedBufs (tr ++ .compress op input n s' :: after) = appendedBufs tr := by
    rw [appendedBufs, hproj _ fun _ => rfl, List.append_nil, appendedBufs]
  have hsent : sentBufs (tr ++ .compress op input n s' :: after) = sentBufs tr := by
    rw [sentBufs, hproj _ fun _ => rfl, List.append_nil, sentBufs]
  have hnot : enc.isFinished s' = false := by
    rw [← Bool.not_eq_true, spec.isFinished_iff]
    rintro ⟨hf, hno⟩
    have hmore := hq.more_of_finished spec hcall hf
    rw [hno] at hmore
    cases hmore
  refine { h with
    encoder := rfl
    input := ?_
    output := ?_
    flags := happended ▸ hflags.trans h.flags
    ended := happended ▸ hended
    finish := fun hf => ?_
    marked := fun hf => ?_
    unmarked := fun _ => ?_ }
  · rw [happended, h.input, hbytes, fedBytes, fedBytes, hproj _ fun _ => rfl, List.append_assoc]
  · rw [takenBytes, offeredBufs, hproj _ fun _ => rfl, hproj _ fun _ => rfl, List.append_nil,
      List.append_nil]
    exact h.output
  · obtain hf' | ⟨hop, hn, -⟩ := spec.finishes hcall hf
    · exact absurd hf' (hq.unfinished_stream spec)
    · subst hop hn
      exact ⟨hfinish rfl rfl, input, s', by simp, hf⟩
  · rw [hnot] at hf
    cases hf
  · rw [hsent]
    exact h.unmarked hq.unfinished

theorem Books.compress (h : Books ctx tr) {op : Operation} {n : ℕ} {s' : σ} {bytesIn : UInt64}
    {rest : List Buf} (hin : ctx.input = b :: rest) :
    Books { ctx with
        encoder :=
          some s', bytesIn := bytesIn, input := { b with bytes := b.bytes.drop n } :: rest }
      (tr ++ [Event.compress op b.bytes n s']) := by
  constructor
  · have happended : appendedBufs (tr ++ [Event.compress op b.bytes n s']) = appendedBufs tr := by
      simp [appendedBufs]
    have hfed :
        fedBytes (tr ++ [Event.compress op b.bytes n s']) = fedBytes tr ++ b.bytes.take n := by
      simp [fedBytes]
    rw [happended, hfed, h.input, hin, bodyBytes_cons, bodyBytes_cons, List.append_assoc,
      ← List.append_assoc (b.bytes.take n), List.take_append_drop]
  · simpa [takenBytes, offeredBufs, readyBufs] using h.output

theorem Opened.succeed (h : Opened spec s b w.ctx w.trace) (hready : w.ctx.outputReady = false)
    (hfinished : enc.isFinished s = true)
    (hsupplied : suppliedBufs w.trace = appendedBufs w.trace) :
    Account spec headerOnly (succeed w) := by
  have htrace := trace_succeed h.encoder
  have hempty : readyBufs w.ctx = [] := by rw [readyBufs, hready, if_neg Bool.false_ne_true]
  have hfed : fedBytes (w.trace ++ [Event.destroy s]) = fedBytes w.trace := by simp [fedBytes]
  have hsup : suppliedBufs (w.trace ++ [Event.destroy s]) = appendedBufs w.trace := by
    rw [← hsupplied]
    simp [suppliedBufs]
  have hbytes := h.input
  refine .closed ⟨rfl, rfl, ?_, ?_, fun _ hfinal => ?_⟩ ⟨NGX_OK, rfl⟩
  · rw [htrace, hfed, hsup, hbytes]
    exact List.prefix_append _ _
  · have := h.output
    rw [hempty, List.append_nil] at this
    rw [htrace]
    simpa [takenBytes, offeredBufs] using this
  · rw [htrace] at hfinal ⊢
    rw [hsup] at hfinal
    obtain ⟨hend, input, s', hmem, hf⟩ := h.finish ((spec.isFinished_iff s).mp hfinished).1
    obtain ⟨hin, hends⟩ := h.ended hend hfinal
    refine ⟨hsup ▸ hends, ?_, ⟨input, s', List.mem_append_left _ hmem, hf⟩,
      ⟨s, by simp, hfinished⟩, ?_⟩
    · rw [hfed, hsup, hbytes, hin, bodyBytes, List.flatMap_nil, List.append_nil]
    · have := h.marked hfinished
      rw [hempty, List.append_nil] at this
      simpa [sentBufs] using this

theorem Opened.pass {conf : Conf} {d : Downstream} (ho : headerOnly = false)
    (h : Opened spec s b w.ctx w.trace) (hsupplied : suppliedBufs w.trace = appendedBufs w.trace)
    (hheader : HeaderSent w.ctx) (hrun : w.phase = .running) (hpass : PassCase enc conf d w w') :
    Account spec headerOnly w' := by
  -- what a trace without calls and chains adds
  have hkeep (es : List (Event σ)) (he : suppliedBufs es = []) (he' : appendedBufs es = []) :
      suppliedBufs (w.trace ++ es) = appendedBufs (w.trace ++ es) := by
    rw [suppliedBufs_append, appendedBufs_append, he, he', hsupplied]
  have hoffer (b : Buf) : suppliedBufs [offerEvent w.ctx b] = [] ∧
      appendedBufs [offerEvent w.ctx b] = [] := by
    obtain he | he := offerEvent_cases w.ctx b <;> rw [he] <;> exact ⟨rfl, rfl⟩
  cases hpass with
  | faulted hnone => simp [h.encoder, h.outBuf] at hnone
  | offered hb hout hprogress =>
    obtain rfl := Option.some.inj (h.outBuf.symm.trans hb)
    exact .opened ho (h.afterOffer _) (hkeep _ (hoffer _).1 (hoffer _).2) hheader (.inl hrun)
  | blocked hb hout hrest hbuffered =>
    obtain rfl := Option.some.inj (h.outBuf.symm.trans hb)
    exact .opened ho (h.afterOffer _) (hkeep _ (hoffer _).1 (hoffer _).2) hheader
      (.inr ⟨rfl, NGX_AGAIN, rfl⟩)
  | offerFailed hb hout hrc =>
    obtain rfl := Option.some.inj (h.outBuf.symm.trans hb)
    have := hkeep _ (hoffer b).1 (hoffer b).2
    exact (h.afterOffer d.consumed).toBooks.fail rfl h.success (this ▸ List.prefix_refl _)
  | took hbusy hready hs hb hmore hout =>
    obtain rfl := Option.some.inj (h.encoder.symm.trans hs)
    exact .opened ho (h.took hready hmore hout rfl) (hkeep _ rfl rfl) hheader (.inl hrun)
  | takeFailed hbusy hready hs hmore hout =>
    have hpre := hkeep [.take []] rfl rfl
    refine Books.fail ⟨?_, ?_⟩ hready h.success (hpre ▸ List.prefix_refl _)
    · simpa [appendedBufs, fedBytes] using h.input
    · simpa [takenBytes, offeredBufs, readyBufs] using h.output
  | succeeded hbusy hready hs hmore hfinished =>
    obtain rfl := Option.some.inj (h.encoder.symm.trans hs)
    exact h.succeed hready hfinished hsupplied
  | finishing hq hend hcall =>
    obtain rfl := Option.some.inj (h.encoder.symm.trans hq.encoder)
    refine .opened ho (h.compressed hq hcall (.inl rfl) ?_ (List.suffix_refl _) h.ended
      fun _ _ => hend) (hkeep _ rfl rfl) hheader (.inl hrun)
    rw [List.take_nil, List.nil_append]
  | callFailed hq hcall =>
    exact Books.fail (w := { w with buffered := true }) h.toBooks hq.ready h.success
      (hsupplied ▸ List.prefix_refl _)
  | idle hq hend hin => exact .opened ho h hsupplied hheader (.inr ⟨hq.ready, NGX_OK, rfl⟩)
  | skipped hq hend hin hb =>
    refine .opened ho { h with input := ?_, flags := ?_, ended := ?_ } hsupplied hheader (.inl hrun)
    · have := h.input
      rw [hin] at this
      simpa [bodyBytes, hb.1] using this
    · have := h.flags
      rw [hin] at this
      exact (List.suffix_cons _ _).trans this
    · intro hend'
      rw [hend] at hend'
      cases hend'
  | @popped s s' b rest hq hend hin hcall hcap =>
    obtain rfl := Option.some.inj (h.encoder.symm.trans hq.encoder)
    obtain ⟨flags, hflags⟩ := h.flags
    rw [hin, List.map_cons] at hflags
    refine .opened ho (h.compressed hq hcall (.inr ⟨b, rfl⟩) ?_ ?_ ?_ ?_) (hkeep _ rfl rfl) hheader
      (.inl hrun)
    · rw [hin, List.take_length]
      rfl
    · rw [hin]
      exact List.suffix_cons _ _
    · intro hlast hfinal
      rw [hlast] at hflags
      exact hfinal.endsStream hflags.symm
    · -- FINISH is asked of a buffer with `last_buf` only
      intro hop _
      unfold Buf.operation at hop
      split at hop
      case isTrue hlast => exact hlast
      case isFalse => split at hop <;> cases hop
  | @pushed s s' b rest n hq hend hin hcall hcap hn hpart =>
    obtain rfl := Option.some.inj (h.encoder.symm.trans hq.encoder)
    have hended : w.ctx.endOfInput ≠ true := by simp [hend]
    refine .opened ho (h.compressed hq hcall (.inl rfl) ?_ ?_ (fun he => absurd he hended)
      fun _ hn => absurd hn hpart) (hkeep _ rfl rfl) hheader (.inl hrun)
    · rw [hin, bodyBytes_cons, bodyBytes_cons, ← List.append_assoc, List.take_append_drop]
    · rw [hin]
      exact List.suffix_refl _
  | @pushFailed s s' b rest n hq hend hin hcall hwhy =>
    have hpre := hkeep [.compress b.operation b.bytes n s'] rfl rfl
    exact (h.toBooks.compress hin).fail hq.ready h.success (hpre ▸ List.prefix_refl _)

variable {conf : Conf}

theorem openEncoder_unfinished (spec : enc.Contract) {contentLength : Int}
    {dcbDict : Option DcbDict} (h : openEncoder enc conf contentLength dcbDict = .ok s) :
    ¬spec.finished s :=
  openEncoder_invariant (fun _ h => spec.created h)
    (fun _ _ _ _ h hs hf => hs (spec.parameter h hf))
    (fun _ _ _ _ h hs hf => hs (spec.dictionary h hf)) h

theorem Opened.received (h : Opened spec s b ctx tr) {bufs added : List Buf} {es : List (Event σ)}
    {bytesOut : UInt64} {dcbHeaderSent : Bool} (hbufs : bufs = ctx.input ++ added)
    (happended : appendedBufs es = added)
    (hquiet : fedBytes es = [] ∧ takenBytes es = [] ∧ offeredBufs es = [])
    (hsent : sentBufs es = [] ∨
      enc.isFinished s = false ∧ ∀ c ∈ sentBufs es, c.lastBuf = false) :
    Opened spec s b
      { ctx with input := bufs, bytesOut := bytesOut, dcbHeaderSent := dcbHeaderSent }
        (tr ++ es) := by
  have happ : appendedBufs (tr ++ es) = appendedBufs tr ++ added := by
    rw [appendedBufs_append, happended]
  refine { h with
    input := ?_
    output := ?_
    flags := ?_
    ended := fun hend hfinal => ?_
    finish := fun hf => ?_
    marked := fun hf => ?_
    unmarked := fun hf c hc => ?_ }
  · rw [happ, fedBytes_append, hquiet.1, List.append_nil, hbufs, bodyBytes_append,
      bodyBytes_append, h.input, List.append_assoc]
  · rw [takenBytes_append, hquiet.2.1, offeredBufs_append, hquiet.2.2, List.append_nil,
      List.append_nil]
    exact h.output
  · obtain ⟨flags, hflags⟩ := h.flags
    refine ⟨flags, ?_⟩
    rw [hbufs, happ, List.map_append, List.map_append, ← hflags, List.append_assoc]
  · rw [happ] at hfinal ⊢
    obtain ⟨hin, hends⟩ := h.ended hend hfinal.of_append
    obtain rfl := hends.append_nil hfinal
    rw [List.append_nil]
    exact ⟨by rw [hbufs, hin]; rfl, hends⟩
  · obtain ⟨hend, input, s', hmem, hf'⟩ := h.finish hf
    exact ⟨hend, input, s', List.mem_append_left _ hmem, hf'⟩
  · obtain hno | ⟨hnot, -⟩ := hsent
    · rw [sentBufs_append, hno, List.append_nil]
      exact h.marked hf
    · rw [hf] at hnot
      cases hnot
  · rw [sentBufs_append, List.append_assoc, List.mem_append, List.mem_append] at hc
    rcases hc with hc | hc | hc
    · exact h.unmarked hf c (List.mem_append_left _ hc)
    · obtain hno | ⟨-, hunmarked⟩ := hsent
      · rw [hno] at hc
        cases hc
      · exact hunmarked c hc
    · exact h.unmarked hf c (List.mem_append_right _ hc)

theorem Opened.of_openEncoder (spec : enc.Contract) (c : FilterCtx)
    (hopen : openEncoder enc conf c.contentLength c.dcbDict = .ok s) :
    Opened spec s ⟨[], false, false⟩ { (BodyCtx.ofFilterCtx c : BodyCtx σ) with
      initialized := true, encoder := some s, outBuf := some ⟨[], false, false⟩, outChain := true }
      [] where
  input := rfl
  output := rfl
  initialized := rfl
  closed := rfl
  success := rfl
  encoder := rfl
  outBuf := rfl
  outChain := rfl
  flags := List.suffix_refl _
  ended := nofun
  finish hf := absurd hf (openEncoder_unfinished spec hopen)
  marked hf := absurd ((spec.isFinished_iff s).mp hf).1 (openEncoder_unfinished spec hopen)
  unmarked _ _ := nofun

theorem Account.initialized (h : Account spec headerOnly w) (hrun : w.phase ≠ .running)
    (hc : w.ctx.closed = false) (ho : headerOnly = false) (hi : Initialized enc conf w.ctx ctx) :
    ∃ s b, Opened spec s b ctx w.trace ∧ ctx.outputReady = false ∧
      suppliedBufs w.trace = appendedBufs w.trace ∧
      (HeaderSent ctx ∨ enc.isFinished s = false) := by
  cases h with
  | fresh h =>
    obtain ⟨⟨c, hctx⟩, htrace, -⟩ := h
    rw [hctx] at hi
    rw [htrace ho]
    cases hi with
    | already hi => cases hi
    | @now s hi hopen =>
      have hnot : enc.isFinished s = false := by
        rw [← Bool.not_eq_true, spec.isFinished_iff]
        exact fun hf => openEncoder_unfinished spec hopen hf.1
      exact ⟨s, _, .of_openEncoder spec c hopen, rfl, rfl, .inr hnot⟩
  | opened _ h hsupplied hheader hphase =>
    cases hi with
    | now hi => simp [h.initialized] at hi
    | already => exact ⟨_, _, h, (hphase.resolve_left hrun).1, hsupplied, .inl hheader⟩
  | closed h => simp [h.closed] at hc

theorem Opened.headed (h : Opened spec s b ctx tr) {hdr : List (Event σ)}
    (hdue : HeaderSent ctx ∨ enc.isFinished s = false) (hhdr : Headed ctx ctx' hdr) :
    Opened spec s b ctx' (tr ++ hdr) ∧ HeaderSent ctx' ∧ ctx'.outputReady = ctx.outputReady := by
  cases hhdr with
  | done hsent => exact ⟨(List.append_nil tr).symm ▸ h, hsent, rfl⟩
  | sent hd hsent =>
    have hnot : enc.isFinished s = false := by
      apply hdue.resolve_left
      simp [HeaderSent, hd, hsent]
    exact ⟨h.received (List.append_nil _).symm rfl ⟨rfl, rfl, rfl⟩
      (.inr ⟨hnot, by simp [sentBufs]⟩), .inr rfl, rfl⟩

theorem Opened.accepts {bufs : List Buf} {r : Except (World σ) (World σ)} (ho : headerOnly = false)
    (h : Opened spec s b w.ctx w.trace) (hready : w.ctx.outputReady = false)
    (hsupplied : suppliedBufs w.trace = appendedBufs w.trace ++ bufs)
    (hdue : HeaderSent w.ctx ∨ enc.isFinished s = false) (ha : Accepts bufs w r) :
    match r with
    | .error w' => Account spec headerOnly w'.fail
    | .ok w' => Account spec headerOnly { w' with phase := .running } := by
  have hhead {ctx : BodyCtx σ} {hdr : List (Event σ)} (hhdr : Headed w.ctx ctx hdr) :
      suppliedBufs (w.trace ++ hdr) = appendedBufs (w.trace ++ hdr) ++ bufs := by
    cases hhdr with
    | done => rwa [List.append_nil]
    | sent => simpa [suppliedBufs, appendedBufs] using hsupplied
  cases ha with
  | @headerFailed d hdr hd hs hhdr =>
    refine Books.fail ?_ hready h.success ?_
    · obtain rfl | rfl := hhdr
      · exact (List.append_nil w.trace).symm ▸ h.toBooks
      · constructor
        · simpa [appendedBufs, fedBytes] using h.input
        · simpa [takenBytes, offeredBufs] using h.output
    · have hpre : appendedBufs w.trace <+: suppliedBufs w.trace := ⟨bufs, hsupplied.symm⟩
      obtain rfl | rfl := hhdr <;> simpa [appendedBufs, suppliedBufs] using hpre
  | null hhdr hb =>
    obtain ⟨hopen, hheader, -⟩ := h.headed hdue hhdr
    have := hhead hhdr
    rw [hb, List.append_nil] at this
    exact .opened ho hopen this hheader (.inl rfl)
  | links hhdr hb =>
    obtain ⟨hopen, hheader, -⟩ := h.headed hdue hhdr
    refine .opened ho (hopen.received rfl (List.append_nil _) ⟨rfl, rfl, rfl⟩ (.inl rfl)) ?_ hheader
      (.inl rfl)
    simpa [suppliedBufs, appendedBufs] using hhead hhdr
  | @linksFailed ctx hdr added hhdr hadded =>
    obtain ⟨hopen, hheader, hr⟩ := h.headed hdue hhdr
    refine Books.fail (hopen.received rfl (List.append_nil _) ⟨rfl, rfl, rfl⟩ (.inl rfl)).toBooks
      (hr.trans hready) hopen.success ?_
    obtain ⟨t, rfl⟩ := hadded
    refine ⟨t, ?_⟩
    have := hhead hhdr
    simp only [suppliedBufs, appendedBufs, List.flatMap_append] at this ⊢
    simp [this]

theorem Account.noted (h : Account spec headerOnly w) (hrun : w.phase ≠ .running)
    (hc : w.ctx.closed = false) (ho : headerOnly = false) (hi : Initialized enc conf w.ctx ctx)
    (bufs : List Buf) :
    ∃ s b, Opened spec s b ctx (w.trace ++ [Event.call bufs]) ∧ ctx.outputReady = false ∧
      suppliedBufs (w.trace ++ [Event.call bufs]) =
        appendedBufs (w.trace ++ [Event.call bufs]) ++ bufs ∧
      (HeaderSent ctx ∨ enc.isFinished s = false) := by
  obtain ⟨s, b, hopen, hready, hsupplied, hdue⟩ := h.initialized hrun hc ho hi
  refine ⟨s, b, hopen.received (List.append_nil _).symm rfl ⟨rfl, rfl, rfl⟩ (.inl rfl), hready, ?_,
    hdue⟩
  simpa [suppliedBufs, appendedBufs] using hsupplied

theorem Closed.forwarded {bufs : List Buf} (h : Closed spec ctx tr) :
    Closed spec ctx (tr ++ [.call bufs, .forward bufs]) := by
  have hsup : suppliedBufs (tr ++ [Event.call bufs, .forward bufs]) = suppliedBufs tr ++ bufs := by
    simp [suppliedBufs]
  have hfed : fedBytes (tr ++ [Event.call bufs, .forward bufs]) = fedBytes tr := by simp [fedBytes]
  have hsent : sentBufs (tr ++ [Event.call bufs, .forward bufs]) = sentBufs tr ++ bufs := by
    simp [sentBufs]
  refine ⟨h.closed, h.outBuf, ?_, ?_, fun hs hfinal => ?_⟩
  · rw [hfed, hsup, bodyBytes_append]
    exact h.input.trans (List.prefix_append _ _)
  · simpa [takenBytes, offeredBufs] using h.output
  · rw [hsup] at hfinal
    have hdone := h.success hs hfinal.of_append
    -- nothing comes after the end of the body
    obtain rfl := hdone.supplied.append_nil hfinal
    rw [List.append_nil] at hsup hsent
    obtain ⟨input, s', hmem, hf⟩ := hdone.finish
    obtain ⟨t, ht, hfin⟩ := hdone.finished
    exact ⟨hsup ▸ hdone.supplied, by rw [hfed, hsup, hdone.fed],
      ⟨input, s', List.mem_append_left _ hmem, hf⟩, ⟨t, List.mem_append_left _ ht, hfin⟩,
      hsent ▸ hdone.sent⟩

theorem Account.call {bufs : List Buf} (h : Account spec headerOnly w) (hrun : w.phase ≠ .running)
    (hcall : StartCase enc conf headerOnly bufs w w') : Account spec headerOnly w' := by
  cases hcall with
  | @forwarded rc hgate =>
    cases h with
    | fresh h =>
      obtain ⟨⟨c, hctx⟩, -, happended, hfed, htaken, hoffered⟩ := h
      have ho : headerOnly = true := by simpa [hctx, BodyCtx.ofFilterCtx] using hgate
      refine .fresh ⟨⟨c, hctx⟩, by simp [ho], ?_, ?_, ?_, ?_⟩ nofun nofun
      · simpa [appendedBufs] using happended
      · simpa [fedBytes] using hfed
      · simpa [takenBytes] using htaken
      · simpa [offeredBufs] using hoffered
    | opened ho h => simp [ho, h.closed] at hgate
    | closed h => exact .closed h.forwarded ⟨rc, rfl⟩
  | initFailed hc ho hi =>
    cases h with
    | fresh h =>
      obtain ⟨⟨c, hctx⟩, htrace, -⟩ := h
      refine Books.fail ⟨?_, ?_⟩ ?_ ?_ ?_
      all_goals simp [htrace ho, hctx, BodyCtx.ofFilterCtx, appendedBufs, fedBytes, bodyBytes,
        takenBytes, offeredBufs, readyBufs]
    | opened _ h => simp [h.initialized] at hi
    | closed h => simp [h.closed] at hc
  | failed hc ho hi ha =>
    obtain ⟨s, b, hopen, hready, hsupplied, hdue⟩ := h.noted hrun hc ho hi bufs
    exact hopen.accepts (w := { w with ctx := _, trace := _ }) ho hready hsupplied hdue ha
  | entered hc ho hi ha =>
    obtain ⟨s, b, hopen, hready, hsupplied, hdue⟩ := h.noted hrun hc ho hi bufs
    exact hopen.accepts (w := { w with ctx := _, trace := _ }) ho hready hsupplied hdue ha

theorem account_initial (spec : enc.Contract) (headerOnly : Bool) (ctx : FilterCtx)
    (buffered : Bool) : Account spec headerOnly (World.initial ctx buffered) :=
  .fresh ⟨⟨ctx, rfl⟩, fun _ => rfl, rfl, rfl, rfl, rfl⟩ nofun nofun

theorem Account.opened_of_running (h : Account spec headerOnly w) (hrun : w.phase = .running) :
    headerOnly = false ∧ ∃ s b, Opened spec s b w.ctx w.trace ∧
      suppliedBufs w.trace = appendedBufs w.trace ∧ HeaderSent w.ctx := by
  cases h with
  | fresh _ hno => exact absurd hrun hno
  | opened ho h hsupplied hheader => exact ⟨ho, _, _, h, hsupplied, hheader⟩
  | closed _ hphase =>
    obtain ⟨rc, hrc⟩ := hphase
    rw [hrun] at hrc
    cases hrc

/-- The account is kept in every state of every run. -/
theorem account_of_reach {P : Label → World σ → Prop} {c : FilterCtx} {buffered : Bool}
    (spec : enc.Contract)
    (h : Reach (bodyStep enc conf headerOnly) P (World.initial c buffered) w) :
    Account spec headerOnly w := by
  apply h.invariant (account_initial spec headerOnly c buffered)
  intro l w w' _ _ hw hstep
  obtain ⟨hrun, -, o, bufs, rfl, hcase⟩ | ⟨hrun, d, rfl, hcase⟩ := bodyStep_cases hstep
  · exact hw.call hrun hcase
  · obtain ⟨ho, s, b, hopen, hsupplied, hheader⟩ := hw.opened_of_running hrun
    exact hopen.pass ho hsupplied hheader hrun hcase

end

end NgxBrotli
