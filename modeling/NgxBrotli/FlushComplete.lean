import NgxBrotli.StreamRuns

namespace NgxBrotli
open Runs

variable {σ : Type} {enc : Encoder σ} {conf : Conf} {headerOnly : Bool} {c : FilterCtx}
  {buffered : Bool} {w w' : World σ}

def poppedBufs (tr : List (Event σ)) : List Buf :=
  tr.flatMap fun e => match e with | .pop b => [b] | _ => []

/-- The last of them had `flush`. -/
def LastFlush (tr : List (Event σ)) : Prop :=
  ∃ b, (poppedBufs tr).getLast? = some b ∧ b.flush = true

/-- Every byte consumed was emitted: what was taken was offered, and the encoder holds nothing. -/
structure Emitted (spec : enc.Contract) (w : World σ) : Prop where
  offered : takenBytes w.trace = (offeredBufs w.trace).map Buf.bytes
  encoder : ∀ s, w.ctx.encoder = some s → enc.hasMoreOutput s = false ∧ spec.held s = 0
  finished : w.ctx.success = true → ∀ s, .destroy s ∈ w.trace →
    enc.hasMoreOutput s = false ∧ spec.held s = 0

/-- The FLUSH call of this step, if there is one and it takes all of its input, performs the
flush. -/
def FlushPerformed (spec : enc.Contract) (l : Label) (w : World σ) : Prop :=
  match l with
  | .call .. => True
  | .pass _ => ∀ s b rest s', Quiet enc s w.ctx → w.ctx.endOfInput = false →
      w.ctx.input = b :: rest → b.operation = .flush →
      enc.compressStream .flush b.bytes s = some (b.bytes.length, s') → spec.held s' = 0

/-- After a flush buffer the encoder holds nothing until the next input, or until the end of the
input has it write the rest. -/
structure FlushKept (spec : enc.Contract) (ctx : BodyCtx σ) (tr : List (Event σ)) : Prop where
  encoder : ∀ s, ctx.encoder = some s → LastFlush tr →
    ctx.endOfInput = true ∨ spec.held s = 0 ∨ ∃ b rest, ctx.input = b :: rest ∧ b.bytes ≠ []
  destroyed : ∀ s, .destroy s ∈ tr → ctx.closed = true ∧
    (ctx.success = true → enc.isFinished s = true)
  closed : ctx.closed = true → ctx.encoder = none
  success : ctx.success = true → ctx.closed = true

theorem LastFlush.of_append {tr es : List (Event σ)} (h : LastFlush (tr ++ es))
    (hes : poppedBufs es = []) : LastFlush tr := by
  obtain ⟨b, hb, hf⟩ := h
  rw [poppedBufs, List.flatMap_append, ← poppedBufs, ← poppedBufs, hes, List.append_nil] at hb
  exact ⟨b, hb, hf⟩

theorem lastFlush_pop {tr : List (Event σ)} {e : Event σ} {b : Buf} :
    LastFlush (tr ++ [e, .pop b]) ↔ b.flush = true := by
  simp [LastFlush, poppedBufs]

section

variable {spec : enc.Contract} {ctx : BodyCtx σ} {tr es : List (Event σ)}

theorem FlushKept.append (h : FlushKept spec ctx tr) (hpop : poppedBufs es = [])
    (hdestroy : ∀ s, .destroy s ∉ es) : FlushKept spec ctx (tr ++ es) where
  encoder s hs hflush := h.encoder s hs (hflush.of_append hpop)
  destroyed s hs := h.destroyed s ((List.mem_append.mp hs).resolve_right (hdestroy s))
  closed := h.closed
  success := h.success

theorem FlushKept.received (h : FlushKept spec ctx tr) (added : List Buf) (bytesOut : UInt64)
    (dcbHeaderSent : Bool) : FlushKept spec { ctx with
      input := ctx.input ++ added, bytesOut := bytesOut, dcbHeaderSent := dcbHeaderSent } tr where
  encoder s hs hflush := by
    obtain hend | hheld | ⟨b, rest, hin, hb⟩ := h.encoder s hs hflush
    · exact .inl hend
    · exact .inr (.inl hheld)
    · exact .inr (.inr ⟨b, rest ++ added, by rw [hin, List.cons_append], hb⟩)
  destroyed := h.destroyed
  closed := h.closed
  success := h.success

theorem FlushKept.moved (h : FlushKept spec ctx tr) (hc : ctx.closed = false) {s' : σ}
    {ctx' : BodyCtx σ} (hencoder : ctx'.encoder = some s') (hclosed : ctx'.closed = false)
    (hsuccess : ctx'.success = ctx.success) (hdestroy : ∀ s, .destroy s ∉ es)
    (hkept : LastFlush (tr ++ es) → ctx'.endOfInput = true ∨ spec.held s' = 0 ∨
      ∃ b rest, ctx'.input = b :: rest ∧ b.bytes ≠ []) : FlushKept spec ctx' (tr ++ es) where
  encoder s hs hflush := by
    obtain rfl := Option.some.inj (hencoder.symm.trans hs)
    exact hkept hflush
  destroyed s hs := by
    have := (h.destroyed s ((List.mem_append.mp hs).resolve_right (hdestroy s))).1
    rw [hc] at this
    cases this
  closed hc' := by
    rw [hclosed] at hc'
    cases hc'
  success hs := by
    have := h.success (hsuccess ▸ hs)
    rw [hc] at this
    cases this

theorem FlushKept.close (h : FlushKept spec ctx tr) (es : List (Event σ)) (hc : ctx.closed = false)
    (hdestroy : ∀ s, .destroy s ∉ es) (hw : w.trace = tr ++ es)
    (hfinished : w.ctx.success = true → ∀ s, w.ctx.encoder = some s → enc.isFinished s = true) :
    FlushKept spec w.close.ctx w.close.trace where
  encoder := nofun
  destroyed s hs := by
    refine ⟨rfl, fun hsuccess => ?_⟩
    rw [World.close, hw, List.mem_append, List.mem_append] at hs
    rcases hs with (hs | hs) | hs
    · have := (h.destroyed s hs).1
      rw [hc] at this
      cases this
    · exact absurd hs (hdestroy s)
    · apply hfinished hsuccess s
      simpa using hs
  closed _ := rfl
  success _ := rfl

theorem FlushKept.call {bufs : List Buf} (h : FlushKept spec w.ctx w.trace)
    (ha : Account spec headerOnly w) (hcall : StartCase enc conf headerOnly bufs w w') :
    FlushKept spec w'.ctx w'.trace := by
  have hno (hc : w.ctx.closed = false) {ctx : BodyCtx σ} (hs : ctx.success = w.ctx.success) :
      ctx.success = true → False := by
    intro hsuccess
    have := h.success (hs ▸ hsuccess)
    rw [hc] at this
    cases this
  cases hcall with
  | @forwarded rc hgate =>
    have : FlushKept spec w.ctx (w.trace ++ [Event.call bufs, .forward bufs]) :=
      h.append rfl (by simp)
    exact ⟨this.encoder, this.destroyed, this.closed, this.success⟩
  | initFailed hc ho hi =>
    exact h.close _ hc (by simp) rfl fun hs => (hno hc rfl hs).elim
  | @failed ctx w' hc ho hi hacc =>
    obtain ⟨added, bytesOut, sent, es, hctx, htrace, hes⟩ := hacc.frame (.inl rfl)
    have hsuccess : w'.ctx.success = w.ctx.success := by
      rw [hctx]
      cases hi <;> rfl
    refine h.close ([Event.call bufs] ++ es) hc ?_ ?_ fun hs => (hno hc hsuccess hs).elim
    · intro s hs
      simpa using mem_startEvents hes hs
    · rw [htrace, List.append_assoc]
  | @entered ctx w' hc ho hi hacc =>
    obtain ⟨added, bytesOut, sent, es, hctx, htrace, hes⟩ := hacc.frame (.inr rfl)
    have hpop : poppedBufs es = [] := flatMap_startEvents hes (fun _ => rfl) fun _ => rfl
    have hdestroy : ∀ s, .destroy s ∉ [Event.call bufs] ++ es := by
      intro s hs
      simpa using mem_startEvents hes hs
    have hkept : FlushKept spec ctx w.trace := by
      cases hi with
      | already => exact h
      | now hi hopen =>
        have htr : w.trace = [] := by
          cases ha with
          | fresh ha => exact ha.trace ho
          | opened _ ha => simp [ha.initialized] at hi
          | closed ha => simp [ha.closed] at hc
        rw [htr]
        refine ⟨?_, nofun, fun hc' => ?_, fun hs => (hno hc rfl hs).elim⟩
        · rintro s' - ⟨b, hb, -⟩
          cases hb
        · rw [hc] at hc'
          cases hc'
    rw [hctx, htrace, List.append_assoc]
    exact (hkept.received added bytesOut sent).append (by simpa [poppedBufs] using hpop) hdestroy

theorem FlushKept.pass {d : Downstream} {s : σ} {b : Buf} (h : FlushKept spec w.ctx w.trace)
    (ho : Opened spec s b w.ctx w.trace)
    (hperformed : FlushPerformed spec (.pass d) w) (hpass : PassCase enc conf d w w') :
    FlushKept spec w'.ctx w'.trace := by
  have hc := ho.closed
  have hno : w.ctx.success = true → False := by
    intro hs
    rw [ho.success] at hs
    cases hs
  have hoffer (b : Buf) : poppedBufs [offerEvent w.ctx b] = [] ∧
      ∀ s, .destroy s ∉ [offerEvent w.ctx b] := by
    obtain he | he := offerEvent_cases w.ctx b <;> simp [he, poppedBufs]
  cases hpass with
  | faulted hnone => simp [ho.encoder, ho.outBuf] at hnone
  | @offered b hb hout hprogress =>
    have := h.append (hoffer b).1 (hoffer b).2
    exact ⟨this.encoder, this.destroyed, this.closed, this.success⟩
  | @blocked b buffered hb hout hrest hbuffered =>
    have := h.append (hoffer b).1 (hoffer b).2
    exact ⟨this.encoder, this.destroyed, this.closed, this.success⟩
  | @offerFailed b hb hout hrc =>
    exact h.close _ hc (hoffer b).2 rfl fun hs => (hno hs).elim
  | took hbusy hready hs hb hmore hout =>
    refine h.moved hc rfl hc rfl (by simp) fun hflush => ?_
    rw [spec.taken_held]
    exact h.encoder _ hs (hflush.of_append rfl)
  | takeFailed hbusy hready hs hmore hout =>
    exact h.close _ hc (by simp) rfl fun hs => (hno hs).elim
  | succeeded hbusy hready hs hmore hfinished =>
    refine h.close [] hc (by simp) (List.append_nil _).symm fun _ s hs' => ?_
    obtain rfl := Option.some.inj (hs.symm.trans hs')
    exact hfinished
  | finishing hq hend hcall =>
    exact h.moved hc rfl hc rfl (by simp) fun _ => .inl hend
  | callFailed hq hcall =>
    exact h.close [] hc (by simp) (List.append_nil _).symm fun hs => (hno hs).elim
  | idle hq hend hin => exact h
  | skipped hq hend hin hb =>
    refine ⟨fun s hs hflush => ?_, h.destroyed, h.closed, h.success⟩
    obtain he | hheld | ⟨b', rest', hin', hb'⟩ := h.encoder s hs hflush
    · exact .inl he
    · exact .inr (.inl hheld)
    · obtain ⟨rfl, -⟩ := List.cons.inj (hin.symm.trans hin')
      exact absurd hb.1 hb'
  | @popped s s' b rest hq hend hin hcall hcap =>
    refine h.moved hc rfl hc rfl (by simp) fun hflush => ?_
    have hflush' : b.flush = true := lastFlush_pop.mp hflush
    cases hlast : b.lastBuf with
    | true => exact .inl rfl
    | false =>
      have hop : b.operation = .flush := by
        rw [Buf.operation, hlast, hflush', if_neg Bool.false_ne_true, if_pos rfl]
      rw [hop] at hcall
      exact .inr (.inl (hperformed s b rest s' hq hend hin hop hcall))
  | @pushed s s' b rest n hq hend hin hcall hcap hn hpart =>
    refine h.moved hc rfl hc rfl (by simp) fun _ => .inr (.inr ⟨_, _, rfl, ?_⟩)
    -- the rest of the buffer is still to come
    have hle := spec.consumed_le hcall
    rw [ne_eq, List.drop_eq_nil_iff]
    omega
  | pushFailed hq hend hin hcall hwhy =>
    exact h.close _ hc (by simp) rfl fun hs => (hno hs).elim

end

theorem flushKept_initial (spec : enc.Contract) (c : FilterCtx) (buffered : Bool) :
    FlushKept spec (World.initial (σ := σ) c buffered).ctx [] where
  encoder s hs := by cases hs
  destroyed s hs := by cases hs
  closed hc := by cases hc
  success hs := by cases hs

/-- In every run all of whose FLUSH calls that take the rest of their input perform the flush, a
call that returns `NGX_OK` after a flush buffer has left nothing in the encoder. -/
theorem flush_complete (spec : enc.Contract)
    (h : Reach (bodyStep enc conf headerOnly) (FlushPerformed spec) (World.initial c buffered) w)
    (hret : w.phase = .returned NGX_OK) (hin : w.ctx.input = []) (hflush : LastFlush w.trace) :
    Emitted spec w := by
  have hkept : FlushKept spec w.ctx w.trace := by
    refine invariant_of_reach (I := fun w => FlushKept spec w.ctx w.trace) spec
      (flushKept_initial spec c buffered) ?_ ?_ h
    · intro o bufs w w' ha _ hi hcase
      exact hi.call ha hcase
    · intro d w w' ha hrun hl hi hcase _
      obtain ⟨-, s, b, ho, -⟩ := ha.opened_of_running hrun
      exact hi.pass ho hl hcase
  have hrun : w.phase ≠ .running := by rw [hret]; nofun
  have hstream := taken_eq_offered spec h.reachable
  refine ⟨by rw [hstream.1, hstream.2 hrun, List.append_nil], fun s hs => ?_, fun hs s hd => ?_⟩
  · obtain ⟨hq, hend, -⟩ := quiet_of_returned spec h.reachable hret hs
    refine ⟨hq.more, ?_⟩
    obtain he | hheld | ⟨b, rest, hin', -⟩ := hkept.encoder s hs hflush
    · rw [hend] at he
      cases he
    · exact hheld
    · rw [hin] at hin'
      cases hin'
  · obtain ⟨hf, hmore⟩ := (spec.isFinished_iff s).mp ((hkept.destroyed s hd).2 hs)
    exact ⟨hmore, spec.finished_held hf⟩

theorem flushPerformed_of_nil {spec : enc.Contract} {l : Label} (hin : w.ctx.input = []) :
    FlushPerformed spec l w := by
  cases l with
  | call => trivial
  | pass =>
    intro s b rest s' _ _ hin'
    rw [hin] at hin'
    cases hin'

/-- A flush buffer that fills a block. -/
theorem flush_complete_sample :
    ∃ w : World BlockState, w.phase = .returned NGX_OK ∧ fedBytes w.trace = [1, 2] ∧
      Emitted blockContract w := by
  let step := bodyStep blockEncoder .plain false
  let call : Label := .call .fine [⟨[1, 2], true, false⟩]
  let pass : Label := .pass ⟨64, NGX_OK⟩
  have hreach : ∃ w, Reach step (FlushPerformed blockContract) (World.initial ⟨-1, none⟩ false) w ∧
      w.phase = .returned NGX_OK ∧ w.ctx.input = [] ∧ LastFlush w.trace ∧
        fedBytes w.trace = [1, 2] := by
    refine ⟨_, .step (i := pass) (.step (i := pass) (.step (i := pass) (.step (i := pass)
      (.step (i := call) .init trivial rfl) ?_ rfl) (flushPerformed_of_nil rfl) rfl)
      (flushPerformed_of_nil rfl) rfl) (flushPerformed_of_nil rfl) rfl, rfl, rfl,
        ⟨_, rfl, rfl⟩, rfl⟩
    -- the FLUSH call
    intro s b rest s' hq _ hin _ hcall
    obtain rfl := Option.some.inj hq.encoder
    obtain ⟨rfl, -⟩ := List.cons.inj hin
    obtain ⟨-, rfl⟩ := Prod.mk.inj (Option.some.inj hcall)
    rfl
  obtain ⟨w, hw, hret, hin, hflush, hfed⟩ := hreach
  exact ⟨w, hret, hfed, flush_complete blockContract hw hret hin hflush⟩

/-- A flush buffer that crosses a block: its last byte stays in the encoder. -/
theorem flush_incomplete :
    ¬∀ (σ : Type) (enc : Encoder σ) (spec : enc.Contract) (conf : Conf) (headerOnly : Bool)
      (c : FilterCtx) (buffered : Bool) (w : World σ),
      Reachable (bodyStep enc conf headerOnly) (World.initial c buffered) w →
      w.phase = .returned NGX_OK → w.ctx.input = [] → LastFlush w.trace → Emitted spec w := by
  intro h
  let pass : Label := .pass ⟨64, NGX_OK⟩
  let labels := [.call .fine [⟨[1, 2, 3], true, false⟩]] ++ List.replicate 4 pass
  have hrun : ∃ w s, run (bodyStep blockEncoder .plain false) labels
      (World.initial ⟨-1, none⟩ false) = some w ∧ w.phase = .returned NGX_OK ∧ w.ctx.input = [] ∧
        LastFlush w.trace ∧ w.ctx.encoder = some s ∧ s.held = 1 :=
    ⟨_, _, rfl, rfl, rfl, ⟨_, rfl, rfl⟩, rfl, rfl⟩
  obtain ⟨w, s, hw, hret, hin, hflush, hs, hheld⟩ := hrun
  have hemitted := h _ blockEncoder blockContract .plain false ⟨-1, none⟩ false w
    (Reachable.run .init hw) hret hin hflush
  have : s.held = 0 := (hemitted.encoder s hs).2
  rw [hheld] at this
  cases this

end NgxBrotli
