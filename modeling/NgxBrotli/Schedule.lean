import NgxBrotli.DcbFraming
import NgxBrotli.Feed

/-!
# The output does not depend on the schedule

The coder of a stream is the encoder with the few fields that say what was read and what is due; it
knows of no calls, no chains and no next filter.  In every run the filter offers what the coder
gives on the buffers that the calls brought, so the split of a body into chains, the wake-ups and
the pace of the client leave no trace in the output.
-/

namespace NgxBrotli
open Runs Feed

variable {σ : Type}

def Buf.carries (b : Buf) : Bool := !b.bytes.isEmpty || b.lastBuf || b.flush

/-- The buffers that say something. -/
def carried (bufs : List Buf) : List Buf := bufs.filter Buf.carries

@[simp] theorem carried_append (bufs bufs' : List Buf) :
    carried (bufs ++ bufs') = carried bufs ++ carried bufs' := List.filter_append _ _

theorem carried_cons {b : Buf} (h : b.carries = true) (bufs : List Buf) :
    carried (b :: bufs) = b :: carried bufs := List.filter_cons_of_pos h

structure Coder (σ : Type) where
  encoder : σ
  bytesIn : UInt64
  endOfInput : Bool
  endOfBlock : Bool

namespace Coder

variable (enc : Encoder σ) (conf : Conf)

def start (s : σ) : Coder σ := ⟨s, 0, false, false⟩

/-- The buffer that is made of the pending output. -/
def outBuf (k : Coder σ) : Buf :=
  let s := (enc.takeOutput k.encoder).2
  let last := k.endOfInput && enc.isFinished s && !enc.hasMoreOutput s
  ⟨(enc.takeOutput k.encoder).1, !last && k.endOfBlock, last⟩

/-- The first buffer of the queue is coded, or a part of it. -/
def push (k : Coder σ) (b : Buf) (rest : List Buf) : Option (Coder σ × List Buf × List Buf) :=
  match enc.compressStream b.operation b.bytes k.encoder with
  | none => none
  | some (n, s) =>
    let bytesIn := k.bytesIn + UInt64.ofNat n
    if overCap conf bytesIn then none
    else if n = b.bytes.length then
      some (⟨s, bytesIn, b.lastBuf, k.endOfBlock || !b.lastBuf && b.flush⟩, rest, [])
    else if n = 0 then none
    else some
      (⟨s, bytesIn, k.endOfInput, k.endOfBlock⟩, { b with bytes := b.bytes.drop n } :: rest, [])

/-- Pending output goes first, then the end of the stream, then the queue. -/
def step (k : Coder σ) (q : List Buf) : Option (Coder σ × List Buf × List Buf) :=
  if enc.hasMoreOutput k.encoder then
    if (enc.takeOutput k.encoder).1 = [] then none
    else some (⟨(enc.takeOutput k.encoder).2, k.bytesIn, k.endOfInput, false⟩, q, [k.outBuf enc])
  else if enc.isFinished k.encoder then none
  else if k.endOfInput then
    match enc.compressStream .finish [] k.encoder with
    | none => none
    | some (_, s) => some (⟨s, k.bytesIn, k.endOfInput, k.endOfBlock⟩, q, [])
  else
    match q with
    | [] => none
    | b :: rest => k.push enc conf b rest

variable {enc conf} {k k' : Coder σ} {b : Buf} {q q' rest out : List Buf}

theorem push_append (h : k.push enc conf b rest = some (k', q', out)) (r : List Buf) :
    k.push enc conf b (rest ++ r) = some (k', q' ++ r, out) := by
  unfold push at h ⊢
  split at h
  · cases h
  case h_2 n s hcall =>
    dsimp only at h ⊢
    split at h
    · cases h
    case isFalse hcap =>
      rw [if_neg hcap]
      split at h
      case isTrue hn =>
        rw [if_pos hn]
        cases h
        rfl
      case isFalse hn =>
        rw [if_neg hn]
        split at h
        · cases h
        case isFalse h0 =>
          rw [if_neg h0]
          cases h
          rfl

theorem step_append (h : k.step enc conf q = some (k', q', out)) (r : List Buf) :
    k.step enc conf (q ++ r) = some (k', q' ++ r, out) := by
  unfold step at h ⊢
  split at h
  case isTrue hmore =>
    rw [if_pos hmore]
    split at h
    · cases h
    case isFalse hout =>
      rw [if_neg hout]
      cases h
      rfl
  case isFalse hmore =>
    rw [if_neg hmore]
    split at h
    · cases h
    case isFalse hfinished =>
      rw [if_neg hfinished]
      split at h
      case isTrue hend =>
        rw [if_pos hend]
        split at h
        · cases h
        · cases h
          rfl
      case isFalse hend =>
        rw [if_neg hend]
        cases q with
        | nil => cases h
        | cons b rest => exact push_append h r

end Coder

/-- The coder reads the buffers of the body. -/
def coder (enc : Encoder σ) (conf : Conf) : Machine (Coder σ) Buf Buf where
  step := Coder.step enc conf
  step_append := Coder.step_append

section

variable {enc : Encoder σ} {conf : Conf} {k : Coder σ}

theorem coder_took (hmore : enc.hasMoreOutput k.encoder = true)
    (hout : (enc.takeOutput k.encoder).1 ≠ []) (q : List Buf) :
    (coder enc conf).step k q = some
      (⟨(enc.takeOutput k.encoder).2, k.bytesIn, k.endOfInput, false⟩, q, [k.outBuf enc]) := by
  change Coder.step enc conf k q = _
  unfold Coder.step
  rw [if_pos hmore, if_neg hout]

theorem coder_finishing {n : ℕ} {s : σ} (hmore : enc.hasMoreOutput k.encoder = false)
    (hunfinished : enc.isFinished k.encoder = false) (hend : k.endOfInput = true)
    (hcall : enc.compressStream .finish [] k.encoder = some (n, s)) (q : List Buf) :
    (coder enc conf).step k q = some (⟨s, k.bytesIn, k.endOfInput, k.endOfBlock⟩, q, []) := by
  change Coder.step enc conf k q = _
  unfold Coder.step
  rw [hmore, if_neg Bool.false_ne_true, hunfinished, if_neg Bool.false_ne_true, if_pos hend, hcall]

theorem coder_pushed (hmore : enc.hasMoreOutput k.encoder = false)
    (hunfinished : enc.isFinished k.encoder = false) (hend : k.endOfInput = false) (b : Buf)
    (rest : List Buf) : (coder enc conf).step k (b :: rest) = k.push enc conf b rest := by
  change Coder.step enc conf k (b :: rest) = _
  unfold Coder.step
  rw [hmore, if_neg Bool.false_ne_true, hunfinished, if_neg Bool.false_ne_true, hend,
    if_neg Bool.false_ne_true]

theorem Coder.push_all {s : σ} {b : Buf} (rest : List Buf)
    (hcall : enc.compressStream b.operation b.bytes k.encoder = some (b.bytes.length, s))
    (hcap : overCap conf (k.bytesIn + UInt64.ofNat b.bytes.length) = false) :
    k.push enc conf b rest = some (⟨s, k.bytesIn + UInt64.ofNat b.bytes.length, b.lastBuf,
      k.endOfBlock || !b.lastBuf && b.flush⟩, rest, []) := by
  rw [Coder.push, hcall]
  dsimp only
  rw [hcap, if_neg Bool.false_ne_true, if_pos rfl]

theorem Coder.push_part {s : σ} {b : Buf} {n : ℕ} (rest : List Buf)
    (hcall : enc.compressStream b.operation b.bytes k.encoder = some (n, s))
    (hcap : overCap conf (k.bytesIn + UInt64.ofNat n) = false) (hn : n ≠ 0)
    (hpart : n ≠ b.bytes.length) :
    k.push enc conf b rest = some (⟨s, k.bytesIn + UInt64.ofNat n, k.endOfInput, k.endOfBlock⟩,
      { b with bytes := b.bytes.drop n } :: rest, []) := by
  rw [Coder.push, hcall]
  dsimp only
  rw [hcap, if_neg Bool.false_ne_true, if_neg hpart, if_neg hn]

end

theorem coder_stopped {enc : Encoder σ} {conf : Conf} (spec : enc.Contract) {k : Coder σ}
    (h : enc.isFinished k.encoder = true) : (coder enc conf).Stopped k := by
  intro q
  have hmore : enc.hasMoreOutput k.encoder = false := ((spec.isFinished_iff _).mp h).2
  change Coder.step enc conf k q = none
  unfold Coder.step
  rw [hmore, if_neg Bool.false_ne_true, if_pos h]

/-- The coder of a request: it read some of the buffers, and `q` are left. -/
def Coded (enc : Encoder σ) (conf : Conf) (c : FilterCtx) (bufs : List Buf) (k : Coder σ)
    (q out : List Buf) : Prop :=
  ∃ s, openEncoder enc conf c.contentLength c.dcbDict = .ok s ∧
    (coder enc conf).Steps (.start s) (carried bufs) k q out

theorem Coded.tail {enc : Encoder σ} {conf : Conf} {c : FilterCtx} {bufs q q' out out' : List Buf}
    {k k' : Coder σ} (h : Coded enc conf c bufs k q out)
    (hstep : (coder enc conf).step k q = some (k', q', out')) :
    Coded enc conf c bufs k' q' (out ++ out') := by
  obtain ⟨s, hs, hsteps⟩ := h
  exact ⟨s, hs, hsteps.tail hstep⟩

theorem Coded.append {enc : Encoder σ} {conf : Conf} {c : FilterCtx} {bufs q out : List Buf}
    {k : Coder σ} (h : Coded enc conf c bufs k q out) (more : List Buf) :
    Coded enc conf c (bufs ++ more) k (q ++ carried more) out := by
  obtain ⟨s, hs, hsteps⟩ := h
  exact ⟨s, hs, carried_append bufs more ▸ hsteps.append (carried more)⟩

def BodyCtx.coder (ctx : BodyCtx σ) (s : σ) : Coder σ :=
  ⟨s, ctx.bytesIn, ctx.endOfInput, ctx.endOfBlock⟩

/-- The filter and the coder of its request. -/
inductive Follows (enc : Encoder σ) (conf : Conf) (c : FilterCtx) (w : World σ) : Prop
  | fresh (hctx : w.ctx = .ofFilterCtx c) (hoffered : offeredBufs w.trace = [])
  | opened {s : σ} (hc : w.ctx.closed = false) (hs : w.ctx.encoder = some s)
      (h : Coded enc conf c (suppliedBufs w.trace) (w.ctx.coder s) (carried w.ctx.input)
        (offeredBufs w.trace ++ readyBufs w.ctx))
  | unopened (hc : w.ctx.closed = true) (hsuccess : w.ctx.success = false)
      (hoffered : offeredBufs w.trace = [])
  | closed {k : Coder σ} {q : List Buf} (hc : w.ctx.closed = true)
      (h : Coded enc conf c (suppliedBufs w.trace) k q (offeredBufs w.trace))
      (hsuccess : w.ctx.success = true → enc.isFinished k.encoder = true)

section

variable {enc : Encoder σ} {spec : enc.Contract} {conf : Conf} {headerOnly : Bool} {c : FilterCtx}
  {ctx : BodyCtx σ} {w w' : World σ} {s : σ} {bufs : List Buf}

theorem suppliedBufs_fail (w : World σ) : suppliedBufs w.fail.trace = suppliedBufs w.trace :=
  flatMap_fail w fun _ => rfl

theorem Coded.fail {k : Coder σ} {q : List Buf}
    (h : Coded enc conf c (suppliedBufs w.trace) k q (offeredBufs w.trace))
    (hsuccess : w.ctx.success = false) : Follows enc conf c w.fail := by
  refine .closed (k := k) (q := q) rfl ?_ fun hs => ?_
  · rwa [suppliedBufs_fail, offeredBufs_fail]
  · have hs' : w.ctx.success = true := hs
    rw [hsuccess] at hs'
    cases hs'

theorem pass_skip {d : Downstream} {b : Buf} {rest : List Buf} (hq : Quiet enc s w.ctx)
    (hend : w.ctx.endOfInput = false) (hin : w.ctx.input = b :: rest) (hb : b.carries = false) :
    pass enc conf d w = { w with ctx := { w.ctx with input := rest } } := by
  have hempty : (decide (b.bytes.length = 0) && !b.lastBuf && !b.flush) = true := by
    simpa [Buf.carries, and_assoc] using hb
  unfold pass
  rw [hq.busy, hq.ready, Bool.or_self, if_neg Bool.false_ne_true, hq.encoder]
  dsimp only
  rw [hq.more, if_neg Bool.false_ne_true, hq.unfinished, Bool.false_and, if_neg Bool.false_ne_true,
    hend, if_neg Bool.false_ne_true, hin]
  exact if_pos hempty

theorem carries_of_pass {d : Downstream} {b : Buf} {rest : List Buf} (hq : Quiet enc s w.ctx)
    (hend : w.ctx.endOfInput = false) (hin : w.ctx.input = b :: rest)
    (h : pass enc conf d w = w') (htrace : w'.trace ≠ w.trace) : b.carries = true := by
  by_contra hb
  rw [pass_skip hq hend hin (Bool.eq_false_of_not_eq_true hb)] at h
  exact htrace (congrArg World.trace h).symm

theorem offeredBufs_offerEvent {b : Buf} {tr : List (Event σ)} (hchain : ctx.outChain = true)
    (hb : ctx.outBuf = some b) :
    offeredBufs (tr ++ [offerEvent ctx b]) = offeredBufs tr ++ readyBufs ctx := by
  rw [offeredBufs_append, offerEvent, readyBufs, hchain, hb, Bool.and_true]
  cases ctx.outputReady <;> rfl

theorem suppliedBufs_offerEvent {b : Buf} {tr : List (Event σ)} :
    suppliedBufs (tr ++ [offerEvent ctx b]) = suppliedBufs tr := by
  obtain he | he := offerEvent_cases ctx b <;> simp [suppliedBufs, he]

theorem Coded.logged {k : Coder σ} {q ready : List Buf} {tr : List (Event σ)}
    (h : Coded enc conf c (suppliedBufs tr) k q (offeredBufs tr ++ ready)) (es : List (Event σ))
    (hsupplied : suppliedBufs es = []) (hoffered : offeredBufs es = []) :
    Coded enc conf c (suppliedBufs (tr ++ es)) k q (offeredBufs (tr ++ es) ++ ready) := by
  rwa [suppliedBufs_append, offeredBufs_append, hsupplied, hoffered, List.append_nil,
    List.append_nil]

theorem Coded.handed {k : Coder σ} {q : List Buf} {b : Buf} (ho : Opened spec s b w.ctx w.trace)
    (h : Coded enc conf c (suppliedBufs w.trace) k q (offeredBufs w.trace ++ readyBufs w.ctx)) :
    Coded enc conf c (suppliedBufs (w.trace ++ [offerEvent w.ctx b])) k q
      (offeredBufs (w.trace ++ [offerEvent w.ctx b])) := by
  rwa [suppliedBufs_offerEvent, offeredBufs_offerEvent ho.outChain ho.outBuf]

theorem readyBufs_idle (hready : ctx.outputReady = false) : readyBufs ctx = [] := by
  rw [readyBufs, hready, if_neg Bool.false_ne_true]

theorem readyBufs_afterOffer (b : Buf) (n : ℕ) : readyBufs (ctx.afterOffer b n) = [] :=
  readyBufs_idle rfl

theorem Buf.carries_drop {b : Buf} {n : ℕ} (h : n < b.bytes.length) :
    Buf.carries { b with bytes := b.bytes.drop n } = true := by
  have hlen : (b.bytes.drop n).length ≠ 0 := by
    rw [List.length_drop]
    omega
  simp [Buf.carries, mt List.length_eq_zero_iff.mpr hlen]

theorem Coded.pass {d : Downstream} {b : Buf} (ho : Opened spec s b w.ctx w.trace)
    (h : Coded enc conf c (suppliedBufs w.trace) (w.ctx.coder s) (carried w.ctx.input)
      (offeredBufs w.trace ++ readyBufs w.ctx))
    (hpass : PassCase enc conf d w w') (hw : pass enc conf d w = w') (hsafe : w'.phase ≠ .fault) :
    Follows enc conf c w' := by
  have hgrow (e : Event σ) (es : List (Event σ)) : w.trace ++ e :: es ≠ w.trace := by simp
  cases hpass with
  | faulted => exact absurd rfl hsafe
  | offered hb =>
    obtain rfl := Option.some.inj (ho.outBuf.symm.trans hb)
    refine .opened ho.closed ho.encoder ?_
    rw [readyBufs_afterOffer, List.append_nil]
    exact h.handed ho
  | blocked hb =>
    obtain rfl := Option.some.inj (ho.outBuf.symm.trans hb)
    refine .opened ho.closed ho.encoder ?_
    rw [readyBufs_afterOffer, List.append_nil]
    exact h.handed ho
  | offerFailed hb =>
    obtain rfl := Option.some.inj (ho.outBuf.symm.trans hb)
    exact Coded.fail (k := w.ctx.coder s) (q := carried w.ctx.input) (h.handed ho) ho.success
  | took hbusy hready hs hb hmore hout =>
    obtain rfl := Option.some.inj (ho.encoder.symm.trans hs)
    have hstep := h.tail (coder_took (k := w.ctx.coder s) hmore hout _)
    rw [readyBufs_idle hready, List.append_nil] at hstep
    exact .opened ho.closed rfl (hstep.logged _ rfl rfl)
  | takeFailed hbusy hready hs hmore hout =>
    have hkept := h.logged [.take []] rfl rfl
    rw [readyBufs_idle hready, List.append_nil] at hkept
    exact hkept.fail ho.success
  | succeeded hbusy hready hs hmore hfinished =>
    obtain rfl := Option.some.inj (ho.encoder.symm.trans hs)
    have hkept := h.logged [.destroy s] rfl rfl
    rw [readyBufs_idle hready, List.append_nil] at hkept
    refine .closed (k := w.ctx.coder s) (q := carried w.ctx.input) rfl ?_ fun _ => hfinished
    rwa [trace_succeed ho.encoder]
  | @finishing s s' n hq hend hcall =>
    obtain rfl := Option.some.inj (ho.encoder.symm.trans hq.encoder)
    have hstep := h.tail (coder_finishing (k := w.ctx.coder s) hq.more hq.unfinished hend hcall _)
    rw [List.append_nil] at hstep
    exact .opened ho.closed rfl (hstep.logged _ rfl rfl)
  | callFailed hq hcall =>
    rw [readyBufs_idle hq.ready, List.append_nil] at h
    exact Coded.fail (w := { w with buffered := true }) h ho.success
  | idle hq hend hin => exact .opened ho.closed ho.encoder h
  | @skipped s b rest hq hend hin hb =>
    refine .opened ho.closed ho.encoder ?_
    have hnone : b.carries = false := by simp [Buf.carries, hb]
    rw [hin, carried, List.filter_cons_of_neg (by simp [hnone])] at h
    exact h
  | @popped s s' b rest hq hend hin hcall hcap =>
    obtain rfl := Option.some.inj (ho.encoder.symm.trans hq.encoder)
    rw [hin, carried_cons (carries_of_pass hq hend hin hw (hgrow _ _))] at h
    have hpush := Coder.push_all (k := w.ctx.coder s) (carried rest) hcall hcap
    have hstep := h.tail ((coder_pushed hq.more hq.unfinished hend b _).trans hpush)
    rw [List.append_nil] at hstep
    exact .opened ho.closed rfl (hstep.logged _ rfl rfl)
  | @pushed s s' b rest n hq hend hin hcall hcap hn hpart =>
    obtain rfl := Option.some.inj (ho.encoder.symm.trans hq.encoder)
    rw [hin, carried_cons (carries_of_pass hq hend hin hw (hgrow _ _))] at h
    have hpush := Coder.push_part (k := w.ctx.coder s) (carried rest) hcall hcap hn hpart
    have hstep := h.tail ((coder_pushed hq.more hq.unfinished hend b _).trans hpush)
    rw [List.append_nil, ← carried_cons (Buf.carries_drop
      (lt_of_le_of_ne (spec.consumed_le hcall) hpart))] at hstep
    exact .opened ho.closed rfl (hstep.logged _ rfl rfl)
  | @pushFailed s s' b rest n hq hend hin hcall hwhy =>
    have hkept := h.logged [.compress b.operation b.bytes n s'] rfl rfl
    rw [readyBufs_idle hq.ready, List.append_nil] at hkept
    exact hkept.fail ho.success

theorem Account.of_encoder (ha : Account spec headerOnly w) (hc : w.ctx.closed = false)
    (hs : w.ctx.encoder = some s) : headerOnly = false ∧ w.ctx.initialized = true := by
  cases ha with
  | fresh hfresh =>
    obtain ⟨c', hctx⟩ := hfresh.ctx
    simp [hctx, BodyCtx.ofFilterCtx] at hs
  | opened hbody hopened => exact ⟨hbody, hopened.initialized⟩
  | closed hclosed => simp [hclosed.closed] at hc

theorem Follows.initialized (ha : Account spec headerOnly w) (h : Follows enc conf c w)
    (hc : w.ctx.closed = false) (ho : headerOnly = false) (hi : Initialized enc conf w.ctx ctx) :
    ∃ s, ctx.encoder = some s ∧ Coded enc conf c (suppliedBufs w.trace) (ctx.coder s)
      (carried ctx.input) (offeredBufs w.trace ++ readyBufs ctx) := by
  cases h with
  | fresh hctx =>
    rw [hctx] at hi
    cases hi with
    | already hi => cases hi
    | @now s hi hopen =>
      cases ha with
      | fresh hfresh =>
        rw [hfresh.trace ho]
        exact ⟨s, rfl, s, hopen, .refl _ _⟩
      | opened _ hopened =>
        have := hopened.initialized
        simp [hctx, BodyCtx.ofFilterCtx] at this
      | closed hclosed => simp [hclosed.closed] at hc
  | opened _ hs h =>
    cases hi with
    | already => exact ⟨_, hs, h⟩
    | now hi => simp [(ha.of_encoder hc hs).2] at hi
  | unopened hclosed => simp [hclosed] at hc
  | closed hclosed => simp [hclosed] at hc

theorem Accepts.input_eq {bufs : List Buf} (ha : Accepts bufs w (.ok w')) :
    w'.ctx.input = w.ctx.input ++ bufs := by
  cases ha with
  | null hhdr hb =>
    rw [hb, List.append_nil]
    cases hhdr <;> rfl
  | links hhdr => cases hhdr <;> rfl

theorem Coded.accepts {bufs : List Buf} {r : Except (World σ) (World σ)}
    (hc : w.ctx.closed = false) (hs : w.ctx.encoder = some s) (hready : w.ctx.outputReady = false)
    (hsuccess : w.ctx.success = false)
    (h : Coded enc conf c (suppliedBufs w.trace) (w.ctx.coder s)
      (carried w.ctx.input ++ carried bufs) (offeredBufs w.trace ++ readyBufs w.ctx))
    (ha : Accepts bufs w r) :
    match r with
    | .error w' => Follows enc conf c w'.fail
    | .ok w' => Follows enc conf c { w' with phase := .running } := by
  rw [readyBufs_idle hready] at h
  have hkept {es : List (Event σ)}
      (hes : ∀ e ∈ es, (∃ b, e = .header b) ∨ ∃ bufs, e = .append bufs) :
      Coded enc conf c (suppliedBufs (w.trace ++ es)) (w.ctx.coder s)
        (carried w.ctx.input ++ carried bufs) (offeredBufs (w.trace ++ es)) := by
    have hkept := h.logged es
      (flatMap_startEvents hes (fun _ => rfl) fun _ => rfl)
      (flatMap_startEvents hes (fun _ => rfl) fun _ => rfl)
    rwa [List.append_nil] at hkept
  cases r with
  | error w' =>
    obtain ⟨added, bytesOut, sent, es, hctx, htrace, hes⟩ := ha.frame (.inl rfl)
    have hcoded := hkept hes
    rw [← htrace] at hcoded
    exact hcoded.fail (by rw [hctx]; exact hsuccess)
  | ok w' =>
    obtain ⟨added, bytesOut, sent, es, hctx, htrace, hes⟩ := ha.frame (.inr rfl)
    have hadded : added = bufs := by
      have hin := ha.input_eq
      rw [hctx] at hin
      exact List.append_cancel_left hin
    have hcoded := hkept hes
    rw [← htrace, ← carried_append, ← hadded] at hcoded
    refine .opened (s := s) (by rw [hctx]; exact hc) (by rw [hctx]; exact hs) ?_
    have hready' : w'.ctx.outputReady = false := by rw [hctx]; exact hready
    rw [readyBufs_idle hready', List.append_nil, hctx]
    exact hcoded

theorem Follows.call {bufs : List Buf} (ha : Account spec headerOnly w) (h : Follows enc conf c w)
    (hrun : w.phase ≠ .running) (hcall : StartCase enc conf headerOnly bufs w w') :
    Follows enc conf c w' := by
  have hsupplied (es : List (Event σ)) : suppliedBufs (w.trace ++ Event.call bufs :: es) =
      suppliedBufs w.trace ++ bufs ++ suppliedBufs es := by simp [suppliedBufs]
  -- the stream that the call finds, or opens, with the call noted
  have hnoted {ctx : BodyCtx σ} (hc : w.ctx.closed = false) (ho : headerOnly = false)
      (hi : Initialized enc conf w.ctx ctx) :
      ∃ s, ctx.closed = false ∧ ctx.encoder = some s ∧ ctx.outputReady = false ∧
        ctx.success = false ∧ Coded enc conf c (suppliedBufs (w.trace ++ [Event.call bufs]))
          (ctx.coder s) (carried ctx.input ++ carried bufs)
          (offeredBufs (w.trace ++ [Event.call bufs]) ++ readyBufs ctx) := by
    obtain ⟨s, hs, hcoded⟩ := h.initialized ha hc ho hi
    obtain ⟨_, _, hopen, hready, -⟩ := ha.initialized hrun hc ho hi
    refine ⟨s, hopen.closed, hs, hready, hopen.success, ?_⟩
    have happ : offeredBufs (w.trace ++ [Event.call bufs]) = offeredBufs w.trace := by
      simp [offeredBufs]
    rw [hsupplied, happ]
    exact (List.append_nil (_ ++ bufs)).symm ▸ hcoded.append bufs
  cases hcall with
  | @forwarded rc hgate =>
    have hoffered :
        offeredBufs (w.trace ++ [Event.call bufs, .forward bufs]) = offeredBufs w.trace := by
      simp [offeredBufs]
    cases h with
    | fresh hctx hno => exact .fresh hctx (hoffered.trans hno)
    | opened hc hs =>
      -- a stream that is open is not forwarded
      simp [(ha.of_encoder hc hs).1, hc] at hgate
    | unopened hc hsuccess hno => exact .unopened hc hsuccess (hoffered.trans hno)
    | @closed k q hc h hsuccess =>
      refine .closed (k := k) (q := q ++ carried bufs) hc ?_ hsuccess
      dsimp only
      rw [hsupplied, hoffered]
      exact (List.append_nil (_ ++ bufs)).symm ▸ h.append bufs
  | initFailed hc ho hi =>
    cases h with
    | fresh hctx hno =>
      refine .unopened rfl
        (by simp [World.fail, World.close, World.ret, hctx, BodyCtx.ofFilterCtx]) ?_
      rw [offeredBufs_fail]
      simpa [offeredBufs] using hno
    | opened _ hs => simp [(ha.of_encoder hc hs).2] at hi
    | unopened hclosed => simp [hclosed] at hc
    | closed hclosed => simp [hclosed] at hc
  | failed hc ho hi hacc =>
    obtain ⟨s, hopen, hs, hready, hsuccess, hcoded⟩ := hnoted hc ho hi
    exact Coded.accepts (w := { w with ctx := _, trace := _ }) hopen hs hready hsuccess hcoded hacc
  | entered hc ho hi hacc =>
    obtain ⟨s, hopen, hs, hready, hsuccess, hcoded⟩ := hnoted hc ho hi
    exact Coded.accepts (w := { w with ctx := _, trace := _ }) hopen hs hready hsuccess hcoded hacc

variable {buffered : Bool}

theorem follows_of_reach (spec : enc.Contract)
    (h : Reachable (bodyStep enc conf headerOnly) (World.initial c buffered) w) :
    Follows enc conf c w := by
  refine h.invariant (.fresh rfl rfl) ?_
  intro l w w' hw _ hi hstep
  have ha := account_of_reach spec hw
  have hsafe := phase_ne_fault spec (hw.step trivial hstep)
  obtain ⟨hrun, -, o, bufs, rfl, hcase⟩ | ⟨hrun, d, rfl, hcase⟩ := bodyStep_cases hstep
  · exact hi.call ha hrun hcase
  · have hpass : pass enc conf d w = w' := by
      rw [bodyStep, hrun] at hstep
      exact Option.some.inj hstep
    obtain ⟨-, s, b, hopen, -⟩ := ha.opened_of_running hrun
    cases hi with
    | fresh hctx =>
      have := hopen.initialized
      simp [hctx, BodyCtx.ofFilterCtx] at this
    | opened _ hs h =>
      obtain rfl := Option.some.inj (hs.symm.trans hopen.encoder)
      exact h.pass hopen hcase hpass hsafe
    | unopened hclosed => simp [hopen.closed] at hclosed
    | closed hclosed => simp [hopen.closed] at hclosed

/-- What the filter gives, in every state, is what a coder of its request gives. -/
theorem coded_of_reach (spec : enc.Contract)
    (h : Reachable (bodyStep enc conf headerOnly) (World.initial c buffered) w) :
    (w.ctx.success = false ∧ offeredBufs w.trace ++ readyBufs w.ctx = []) ∨
      ∃ k q, Coded enc conf c (suppliedBufs w.trace) k q (offeredBufs w.trace ++ readyBufs w.ctx) ∧
        (w.ctx.success = true → (coder enc conf).Stopped k) := by
  cases follows_of_reach spec h with
  | fresh hctx hoffered =>
    rw [hctx, hoffered]
    exact .inl ⟨rfl, rfl⟩
  | opened hc hs hcoded =>
    refine .inr ⟨_, _, hcoded, fun hsuccess => ?_⟩
    have hclosed := (closed_of_success spec h hsuccess).closed
    rw [hc] at hclosed
    cases hclosed
  | unopened hc hsuccess hoffered =>
    rw [hoffered, readyBufs_of_closed spec h hc]
    exact .inl ⟨hsuccess, rfl⟩
  | closed hc hcoded hsuccess =>
    rw [readyBufs_of_closed spec h hc, List.append_nil]
    exact .inr ⟨_, _, hcoded, fun hs => coder_stopped spec (hsuccess hs)⟩

/-- An idle coder waits for its queue. -/
theorem coder_waits (hq : Quiet enc s ctx) (hend : ctx.endOfInput = false) :
    (coder enc conf).step (ctx.coder s) [] = none := by
  change Coder.step enc conf (ctx.coder s) [] = none
  rw [Coder.step, BodyCtx.coder, hq.more, if_neg Bool.false_ne_true, hq.unfinished,
    if_neg Bool.false_ne_true, hend, if_neg Bool.false_ne_true]

/-- The filter is a coder.  Before the first call it has given nothing.  On an open stream the
output, with the buffer that is still to go down, is what the coder gave on the buffers that the
calls brought, the encoder and the flags of the context are the state of that coder and `ctx->in` is
its queue; and where a call returned `NGX_OK` the coder waits for input.  A closed stream has given
what the coder gave up to some step, all of it on success, and nothing where the encoder does not
open. -/
theorem bodyFilter_refines_coder (spec : enc.Contract)
    (h : Reachable (bodyStep enc conf headerOnly) (World.initial c buffered) w) :
    let out := offeredBufs w.trace ++ readyBufs w.ctx
    (w.ctx = .ofFilterCtx c ∧ (headerOnly = false → w.trace = []) ∧ out = []) ∨
    (∃ s, w.ctx.closed = false ∧ w.ctx.encoder = some s ∧
      Coded enc conf c (suppliedBufs w.trace) (w.ctx.coder s) (carried w.ctx.input) out ∧
      (w.phase = .returned NGX_OK →
        w.ctx.input = [] ∧ (coder enc conf).step (w.ctx.coder s) [] = none)) ∨
    (w.ctx.closed = true ∧
      ((w.ctx.success = false ∧ out = [] ∧
          ∃ e, openEncoder enc conf c.contentLength c.dcbDict = .error e) ∨
        ∃ k q, Coded enc conf c (suppliedBufs w.trace) k q out ∧
          (w.ctx.success = true → (coder enc conf).Stopped k))) := by
  intro out
  cases follows_of_reach spec h with
  | fresh hctx hoffered =>
    have hnone : out = [] := by
      show offeredBufs w.trace ++ readyBufs w.ctx = []
      rw [hoffered, hctx]
      rfl
    refine .inl ⟨hctx, fun hbody => ?_, hnone⟩
    cases account_of_reach spec h with
    | fresh hfresh => exact hfresh.trace hbody
    | opened _ hopened =>
      have hinit := hopened.initialized
      simp [hctx, BodyCtx.ofFilterCtx] at hinit
    | closed hclosed =>
      have hc := hclosed.closed
      simp [hctx, BodyCtx.ofFilterCtx] at hc
  | @opened s hc hs hcoded =>
    refine .inr (.inl ⟨s, hc, hs, hcoded, fun hret => ?_⟩)
    obtain ⟨hq, hend, hin⟩ := quiet_of_returned spec h hret hs
    exact ⟨hin, coder_waits hq hend⟩
  | unopened hc hsuccess hoffered =>
    have hnone : out = [] := by
      show offeredBufs w.trace ++ readyBufs w.ctx = []
      rw [hoffered, readyBufs_of_closed spec h hc, List.append_nil]
    refine .inr (.inr ⟨hc, ?_⟩)
    cases hopen : openEncoder enc conf c.contentLength c.dcbDict with
    | error e => exact .inl ⟨hsuccess, hnone, e, rfl⟩
    | ok s =>
      -- the encoder was opened, and the pool failed
      rw [hnone]
      exact .inr ⟨.start s, _, ⟨s, hopen, .refl _ _⟩, fun hs => by simp [hsuccess] at hs⟩
  | @closed k q hc hcoded hsuccess =>
    refine .inr (.inr ⟨hc, .inr ⟨k, q, ?_, fun hs => coder_stopped spec (hsuccess hs)⟩⟩)
    show Coded enc conf c _ k q (offeredBufs w.trace ++ readyBufs w.ctx)
    rwa [readyBufs_of_closed spec h hc, List.append_nil]

/-- A client that stalls: the coder of the context gave the one buffer that it has. -/
theorem bodyFilter_refines_coder_stalled :
    let bufs : List Buf := [⟨[1, 2, 3], false, false⟩, ⟨[], false, false⟩]
    let labels := .call .fine bufs :: List.replicate 4 (.pass ⟨0, NGX_OK⟩)
    ∃ w s, run (bodyStep blockEncoder .plain false) labels (World.initial ⟨-1, none⟩ false) =
      some w ∧ w.ctx.encoder = some s ∧
      offeredBufs w.trace ++ readyBufs w.ctx = [⟨[1, 2], false, false⟩] ∧
      Coded blockEncoder .plain ⟨-1, none⟩ bufs (w.ctx.coder s) (carried w.ctx.input)
        (offeredBufs w.trace ++ readyBufs w.ctx) := by
  intro bufs labels
  have hrun : (run (bodyStep blockEncoder .plain false) labels (World.initial ⟨-1, none⟩ false)).map
      (fun w => (offeredBufs w.trace ++ readyBufs w.ctx, suppliedBufs w.trace, w.ctx.closed)) =
        some ([⟨[1, 2], false, false⟩], bufs, false) := by decide +kernel
  obtain ⟨w, hw, hend⟩ := Option.map_eq_some_iff.mp hrun
  simp only [Prod.mk.injEq] at hend
  obtain ⟨hout, hbufs, hopen⟩ := hend
  obtain ⟨-, -, hnone⟩ | ⟨s, -, hs, hcoded, -⟩ | ⟨hclosed, -⟩ :=
    bodyFilter_refines_coder blockContract (Reachable.run .init hw)
  · rw [hout] at hnone
    cases hnone
  · rw [hbufs] at hcoded
    exact ⟨w, s, hw, hs, hout, hcoded⟩
  · rw [hopen] at hclosed
    cases hclosed

/-- Two runs on bodies of which one begins with the other give outputs of which one begins with the
other, buffer by buffer with their marks, and a run that succeeded has given all of it; what the
calls are, where the next filter stops and when it is woken does not matter, nor does any number of
empty links without a mark. -/
theorem schedule_independent (spec : enc.Contract) {headerOnly' buffered' : Bool} {w' : World σ}
    (h : Reachable (bodyStep enc conf headerOnly) (World.initial c buffered) w)
    (h' : Reachable (bodyStep enc conf headerOnly') (World.initial c buffered') w')
    (hbody : carried (suppliedBufs w.trace) <+: carried (suppliedBufs w'.trace) ∨
      carried (suppliedBufs w'.trace) <+: carried (suppliedBufs w.trace)) :
    let out := offeredBufs w.trace ++ readyBufs w.ctx
    let out' := offeredBufs w'.trace ++ readyBufs w'.ctx
    (out <+: out' ∨ out' <+: out) ∧ (w'.ctx.success = true → out <+: out') ∧
      (w.ctx.success = true → w'.ctx.success = true → out = out') := by
  dsimp only
  obtain ⟨hs, hnone⟩ | ⟨k, q, ⟨s, hs, hcoded⟩, hstop⟩ := coded_of_reach spec h
  · rw [hnone]
    exact ⟨.inl List.nil_prefix, fun _ => List.nil_prefix, fun hs' => by simp [hs] at hs'⟩
  obtain ⟨hs', hnone⟩ | ⟨k', q', ⟨s', hs', hcoded'⟩, hstop'⟩ := coded_of_reach spec h'
  · rw [hnone]
    refine ⟨.inr List.nil_prefix, ?_, fun _ => ?_⟩ <;> simp [hs']
  -- both coders start with the same encoder
  obtain rfl := Except.ok.inj (hs.symm.trans hs')
  refine ⟨hcoded.prefix_or_prefix hcoded' hbody,
    fun hdone => hcoded.prefix_of_stopped hcoded' hbody (hstop' hdone), fun hdone hdone' => ?_⟩
  have hle := hcoded.prefix_of_stopped hcoded' hbody (hstop' hdone')
  have hge := hcoded'.prefix_of_stopped hcoded hbody.symm (hstop hdone)
  exact hle.eq_of_length (le_antisymm hle.length_le hge.length_le)

end

/-- Three links in one call of a client that takes all, and the same links over three calls, with an
empty one among them and a client that stalls twice. -/
theorem schedule_independent_sample :
    let b₁ : Buf := ⟨[1, 2, 3], false, false⟩
    let b₂ : Buf := ⟨[4], true, false⟩
    let b₃ : Buf := ⟨[5], false, true⟩
    let fast := .call .fine [b₁, b₂, b₃] :: List.replicate 10 (.pass ⟨9, NGX_OK⟩)
    let slow := .call .fine [b₁, ⟨[], false, false⟩] :: List.replicate 4 (.pass ⟨0, NGX_OK⟩) ++
      [.call .fine [b₂], .pass ⟨0, NGX_OK⟩] ++
      .call .fine [b₃] :: List.replicate 12 (.pass ⟨1, NGX_OK⟩)
    ∃ w w',
      run (bodyStep blockEncoder .plain false) fast (World.initial ⟨-1, none⟩ false) = some w ∧
      run (bodyStep blockEncoder .plain false) slow (World.initial ⟨-1, none⟩ false) = some w' ∧
      w.ctx.success = true ∧ offeredBufs w.trace = offeredBufs w'.trace := by
  intro b₁ b₂ b₃ fast slow
  have hfast : (run (bodyStep blockEncoder .plain false) fast (World.initial ⟨-1, none⟩ false)).map
      (fun w => (w.ctx.success, readyBufs w.ctx, carried (suppliedBufs w.trace))) =
        some (true, [], [b₁, b₂, b₃]) := by decide +kernel
  have hslow : (run (bodyStep blockEncoder .plain false) slow (World.initial ⟨-1, none⟩ false)).map
      (fun w => (w.ctx.success, readyBufs w.ctx, carried (suppliedBufs w.trace))) =
        some (true, [], [b₁, b₂, b₃]) := by decide +kernel
  obtain ⟨w, hw, hend⟩ := Option.map_eq_some_iff.mp hfast
  obtain ⟨w', hw', hend'⟩ := Option.map_eq_some_iff.mp hslow
  simp only [Prod.mk.injEq] at hend hend'
  obtain ⟨hdone, hready, hbody⟩ := hend
  obtain ⟨hdone', hready', hbody'⟩ := hend'
  refine ⟨w, w', hw, hw', hdone, ?_⟩
  have hout :=
    (schedule_independent blockContract (Reachable.run .init hw) (Reachable.run .init hw')
      (.inl (by rw [hbody, hbody']))).2.2 hdone hdone'
  rwa [hready, hready', List.append_nil, List.append_nil] at hout

end NgxBrotli
