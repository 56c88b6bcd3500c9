import NgxBrotli.StreamRuns

namespace NgxBrotli
open Runs

variable {σ : Type} {enc : Encoder σ} {conf : Conf} {headerOnly : Bool} {c : FilterCtx}
  {buffered : Bool} {w w' : World σ}

/-- Neither pending output nor input that was accepted and is not yet compressed. -/
def NothingHeld (spec : enc.Contract) (s : σ) : Prop :=
  enc.hasMoreOutput s = false ∧ spec.held s = 0

/-- What else is assumed of libbrotli: an instance starts with nothing, and TakeOutput takes all
that is pending. -/
structure Encoder.Contract.Drains (spec : enc.Contract) : Prop where
  created {s : σ} : enc.createInstance = some s → NothingHeld spec s
  parameter {p : Parameter} {v : ℕ} {s s' : σ} :
    enc.setParameter p v s = some s' → NothingHeld spec s → NothingHeld spec s'
  dictionary {d : Bytes} {q : Int} {s s' : σ} :
    enc.attachDictionary d q s = some s' → NothingHeld spec s → NothingHeld spec s'
  taken (s : σ) : enc.hasMoreOutput (enc.takeOutput s).2 = false

/-- The call of CompressStream that is due. -/
def CallDue (ctx : BodyCtx σ) (op : Operation) (input : Bytes) : Prop :=
  ctx.endOfInput = true ∧ op = .finish ∧ input = [] ∨
  ctx.endOfInput = false ∧ ∃ b rest, ctx.input = b :: rest ∧ op = b.operation ∧ input = b.bytes

/-- If this step calls CompressStream while `end_of_block` stands, or with the rest of a flush
buffer, and the call leaves output, then this is all of what the encoder took. -/
def MarkHonest (spec : enc.Contract) (l : Label) (w : World σ) : Prop :=
  match l with
  | .call .. => True
  | .pass _ => ∀ s op input n s', Quiet enc s w.ctx → CallDue w.ctx op input →
      enc.compressStream op input s = some (n, s') →
      w.ctx.endOfBlock = true ∨ op = .flush ∧ n = input.length →
      enc.hasMoreOutput s' = true → spec.held s' = 0

/-- What the bit and the marks say of the encoder. -/
structure BitKept (spec : enc.Contract) (w : World σ) : Prop where
  clear : w.buffered = false → ∀ s, w.ctx.encoder = some s → NothingHeld spec s
  mark : w.ctx.endOfBlock = true → ∀ s, w.ctx.encoder = some s → enc.hasMoreOutput s = true →
    spec.held s = 0
  ready : ∀ b ∈ readyBufs w.ctx, b.flush = true → ∀ s, w.ctx.encoder = some s → NothingHeld spec s
  returned : w.phase ≠ .running → w.ctx.closed = false → w.buffered = false → w.ctx.input = []

section

variable {spec : enc.Contract}

theorem BitKept.of_closed (hc : w.ctx.closed = true) (he : w.ctx.encoder = none) :
    BitKept spec w where
  clear _ s hs := by simp [he] at hs
  mark _ s hs := by simp [he] at hs
  ready _ _ _ s hs := by simp [he] at hs
  returned _ hopen := by simp [hc] at hopen

theorem openEncoder_nothingHeld (hdrains : spec.Drains) {contentLength : Int}
    {dcbDict : Option DcbDict} {s : σ} (h : openEncoder enc conf contentLength dcbDict = .ok s) :
    NothingHeld spec s :=
  openEncoder_invariant (fun _ => hdrains.created) (fun _ _ _ _ => hdrains.parameter)
    (fun _ _ _ _ => hdrains.dictionary) h

theorem BitKept.compressed {op : Operation} {input : Bytes} {n : ℕ} {s s' : σ} {ctx : BodyCtx σ}
    {d : Downstream} {tr : List (Event σ)} (hrun : w.phase = .running) (hq : Quiet enc s w.ctx)
    (hhonest : MarkHonest spec (.pass d) w) (hdue : CallDue w.ctx op input)
    (hcall : enc.compressStream op input s = some (n, s')) (hencoder : ctx.encoder = some s')
    (hready : ctx.outputReady = w.ctx.outputReady)
    (hmark : ctx.endOfBlock = true → w.ctx.endOfBlock = true ∨ op = .flush ∧ n = input.length) :
    BitKept spec ⟨ctx, true, w.phase, tr⟩ where
  clear := nofun
  mark hm t ht hmore := by
    obtain rfl := Option.some.inj (hencoder.symm.trans ht)
    exact hhonest s op input n s' hq hdue hcall (hmark hm) hmore
  ready b hb := by
    have hnone : readyBufs ctx = [] := by
      rw [readyBufs, hready, hq.ready, if_neg Bool.false_ne_true]
    simp [hnone] at hb
  returned hno := absurd hrun hno

theorem BitKept.call {bufs : List Buf} (hdrains : spec.Drains) (h : BitKept spec w)
    (ha : Account spec headerOnly w) (hcall : StartCase enc conf headerOnly bufs w w') :
    BitKept spec w' := by
  cases hcall with
  | @forwarded rc hgate =>
    refine ⟨h.clear, h.mark, h.ready, fun _ hc _ => ?_⟩
    have hopen : w.ctx.closed = false := hc
    cases ha with
    | fresh ha =>
      obtain ⟨c, hctx⟩ := ha.ctx
      change w.ctx.input = []
      rw [hctx]
      rfl
    | opened ho ha => simp [ho, hopen] at hgate
    | closed ha => simp [ha.closed] at hopen
  | initFailed => exact .of_closed rfl rfl
  | failed => exact .of_closed rfl rfl
  | @entered ctx w' hc ho hi hacc =>
    obtain ⟨added, bytesOut, sent, es, hctx, -, -⟩ := hacc.frame (.inr rfl)
    have hbit : w'.buffered = false → w.buffered = false := by
      cases hacc with
      | null => exact id
      | links => nofun
    have hkept : BitKept spec { w with ctx := ctx, phase := .running } := by
      cases hi with
      | already => exact ⟨h.clear, h.mark, h.ready, fun hno => absurd rfl hno⟩
      | @now s hi hopen =>
        have hs : NothingHeld spec s := openEncoder_nothingHeld hdrains hopen
        have hself (t : σ) (ht : some s = some t) : NothingHeld spec t := Option.some.inj ht ▸ hs
        exact ⟨fun _ => hself, fun _ t ht _ => (hself t ht).2, fun _ _ _ => hself,
          fun hno => absurd rfl hno⟩
    refine ⟨fun hb => ?_, ?_, ?_, fun hno => absurd rfl hno⟩
    · rw [hctx]
      exact hkept.clear (hbit hb)
    · rw [hctx]
      exact hkept.mark
    · rw [hctx]
      exact hkept.ready

theorem BitKept.pass {d : Downstream} (hdrains : spec.Drains) (h : BitKept spec w)
    (hrun : w.phase = .running) (hhonest : MarkHonest spec (.pass d) w)
    (hpass : PassCase enc conf d w w') (hsafe : w'.phase ≠ .fault) : BitKept spec w' := by
  cases hpass with
  | faulted => exact absurd rfl hsafe
  | offered => exact ⟨h.clear, h.mark, List.forall_mem_nil _, fun hno => absurd hrun hno⟩
  | @blocked b buffered hb hout hrest hbuffered =>
    refine ⟨fun hclear => ?_, h.mark, List.forall_mem_nil _, fun _ _ hclear => ?_⟩
    all_goals
      obtain hset | ⟨hin, hsame⟩ := hbuffered
      · rw [hset] at hclear
        cases hclear
    · exact h.clear (hsame ▸ hclear)
    · exact hin
  | offerFailed => exact .of_closed rfl rfl
  | @took s b hbusy hready hs hb hmore hout =>
    have hmore' := hdrains.taken s
    -- the mark is only set where the encoder has written everything
    have hflush (hf : flushMark enc w.ctx (enc.takeOutput s).2 = true) :
        NothingHeld spec (enc.takeOutput s).2 := by
      rw [flushMark, Bool.and_eq_true] at hf
      refine ⟨hmore', ?_⟩
      rw [spec.taken_held]
      exact h.mark hf.2 s hs hmore
    have hlast (hl : lastMark enc w.ctx (enc.takeOutput s).2 = true) :
        NothingHeld spec (enc.takeOutput s).2 := by
      rw [lastMark, Bool.and_eq_true, Bool.and_eq_true, spec.isFinished_iff] at hl
      exact ⟨hmore', spec.finished_held hl.1.2.1⟩
    refine ⟨fun hclear t ht => ?_, fun hm => absurd hm Bool.false_ne_true,
      fun b' hb' hf t ht => ?_, fun hno => absurd hrun hno⟩
    · obtain rfl := Option.some.inj ht
      cases hbit : w.buffered with
      | false =>
        have := (h.clear hbit s hs).1
        rw [hmore] at this
        cases this
      | true =>
        have hmarks : lastMark enc w.ctx (enc.takeOutput s).2 = true ∨
            flushMark enc w.ctx (enc.takeOutput s).2 = true := by
          simpa [hbit, ← Bool.not_eq_true, -not_or, imp_iff_not_or] using hclear
        exact hmarks.elim hlast hflush
    · obtain rfl := Option.some.inj ht
      obtain rfl := List.mem_singleton.mp hb'
      exact hflush hf
  | takeFailed => exact .of_closed rfl rfl
  | succeeded => exact .of_closed rfl rfl
  | finishing hq hend hcall =>
    exact .compressed hrun hq hhonest (.inl ⟨hend, rfl, rfl⟩) hcall rfl rfl .inl
  | callFailed => exact .of_closed rfl rfl
  | idle hq hend hin => exact ⟨h.clear, h.mark, h.ready, fun _ _ _ => hin⟩
  | skipped => exact ⟨h.clear, h.mark, h.ready, fun hno => absurd hrun hno⟩
  | @popped s s' b rest hq hend hin hcall hcap =>
    refine .compressed hrun hq hhonest (.inr ⟨hend, b, rest, hin, rfl, rfl⟩) hcall rfl rfl ?_
    intro hm
    obtain hm | hm := Bool.or_eq_true_iff.mp hm
    · exact .inl hm
    · rw [Bool.and_eq_true, Bool.not_eq_true'] at hm
      refine .inr ⟨?_, rfl⟩
      rw [Buf.operation, hm.1, hm.2, if_neg Bool.false_ne_true, if_pos rfl]
  | @pushed s s' b rest n hq hend hin hcall =>
    exact .compressed hrun hq hhonest (.inr ⟨hend, b, rest, hin, rfl, rfl⟩) hcall rfl rfl .inl
  | pushFailed => exact .of_closed rfl rfl

end

theorem bitKept_initial (spec : enc.Contract) (c : FilterCtx) (buffered : Bool) :
    BitKept spec (World.initial c buffered) := by
  refine ⟨fun _ s hs => ?_, fun hm => ?_, fun b hb => ?_, fun _ _ _ => rfl⟩
  · cases hs
  · cases hm
  · cases hb

/-- In every run whose calls write all that they took while `end_of_block` stands, a return with the
bit clear leaves nothing on the chain and nothing in an open stream's encoder; and a buffer marked
`flush` that is to be given to the next filter is all that the encoder took. -/
theorem buffered_honest (spec : enc.Contract) (hdrains : spec.Drains)
    (h : Reach (bodyStep enc conf headerOnly) (MarkHonest spec) (World.initial c buffered) w) :
    (w.phase = .returned NGX_OK ∨ w.phase = .returned NGX_AGAIN → w.ctx.closed = false →
      w.buffered = false → w.ctx.input = [] ∧ ∀ s, w.ctx.encoder = some s → NothingHeld spec s) ∧
    ∀ b ∈ readyBufs w.ctx, b.flush = true → ∀ s, w.ctx.encoder = some s → NothingHeld spec s := by
  have hinv : BitKept spec w := by
    refine invariant_of_reach spec (bitKept_initial spec c buffered) ?_ ?_ h
    · intro o bufs w w' ha _ hi hcase
      exact hi.call hdrains ha hcase
    · intro d w w' _ hrun hl hi hcase hsafe
      exact hi.pass hdrains hrun hl hcase hsafe
  refine ⟨fun hret hc hclear => ⟨hinv.returned ?_ hc hclear, hinv.clear hclear⟩, hinv.ready⟩
  obtain hret | hret := hret <;> rw [hret] <;> nofun

theorem markHonest_of_nil {spec : enc.Contract} {l : Label} (hin : w.ctx.input = [])
    (hend : w.ctx.endOfInput = false) : MarkHonest spec l w := by
  cases l with
  | call => trivial
  | pass =>
    rintro s op input n s' - (⟨hend', -⟩ | ⟨-, b, rest, hin', -⟩)
    · rw [hend] at hend'
      cases hend'
    · rw [hin] at hin'
      cases hin'

theorem blockContract_drains : blockContract.Drains where
  created h := by
    obtain rfl := Option.some.inj h
    exact ⟨rfl, rfl⟩
  parameter h hs := by
    obtain rfl := Option.some.inj h
    exact hs
  dictionary h hs := by
    obtain rfl := Option.some.inj h
    exact hs
  taken s := by cases s <;> rfl

/-- A flush buffer that fills a block, and is delivered. -/
theorem buffered_honest_sample :
    ∃ w : World BlockState, w.phase = .returned NGX_OK ∧ w.buffered = false ∧
      fedBytes w.trace = [1, 2] ∧ ∀ s, w.ctx.encoder = some s → NothingHeld blockContract s := by
  let step := bodyStep blockEncoder .plain false
  let call : Label := .call .fine [⟨[1, 2], true, false⟩]
  let pass : Label := .pass ⟨64, NGX_OK⟩
  have hreach : ∃ w, Reach step (MarkHonest blockContract) (World.initial ⟨-1, none⟩ false) w ∧
      w.phase = .returned NGX_OK ∧ w.ctx.closed = false ∧ w.buffered = false ∧
        fedBytes w.trace = [1, 2] := by
    refine ⟨_, .step (i := pass) (.step (i := pass) (.step (i := pass) (.step (i := pass)
      (.step (i := call) .init trivial rfl) ?_ rfl) (markHonest_of_nil rfl rfl) rfl)
      (markHonest_of_nil rfl rfl) rfl) (markHonest_of_nil rfl rfl) rfl, rfl, rfl, rfl, rfl⟩
    -- the FLUSH call
    rintro s op input n s' hq (⟨hend, -⟩ | ⟨-, b, rest, hin, rfl, rfl⟩) hcall - -
    · cases hend
    · obtain rfl := Option.some.inj hq.encoder
      obtain ⟨rfl, -⟩ := List.cons.inj hin
      obtain ⟨-, rfl⟩ := Prod.mk.inj (Option.some.inj hcall)
      rfl
  obtain ⟨w, hw, hret, hc, hclear, hfed⟩ := hreach
  exact ⟨w, hret, hclear, hfed,
    ((buffered_honest blockContract blockContract_drains hw).1 (.inl hret) hc hclear).2⟩

/-- A flush without output, then data that crosses a block: the output of the block is marked, and
the rest stays in the encoder behind a clear bit. -/
theorem buffered_underReports :
    ¬∀ (σ : Type) (enc : Encoder σ) (spec : enc.Contract) (_ : spec.Drains) (conf : Conf)
      (headerOnly : Bool) (c : FilterCtx) (buffered : Bool) (w : World σ),
      Reachable (bodyStep enc conf headerOnly) (World.initial c buffered) w →
      w.phase = .returned NGX_OK ∨ w.phase = .returned NGX_AGAIN → w.ctx.closed = false →
      w.buffered = false → w.ctx.input = [] ∧ ∀ s, w.ctx.encoder = some s → NothingHeld spec s := by
  intro h
  let pass : Label := .pass ⟨64, NGX_OK⟩
  let labels := [.call .fine [⟨[], true, false⟩], pass, pass,
    .call .fine [⟨[1, 2, 3], false, false⟩]] ++ List.replicate 4 pass
  have hrun : ∃ w s, run (bodyStep blockEncoder .plain false) labels
      (World.initial ⟨-1, none⟩ false) = some w ∧ w.phase = .returned NGX_OK ∧
        w.ctx.closed = false ∧ w.buffered = false ∧ w.ctx.encoder = some s ∧ s.held = 1 :=
    ⟨_, _, rfl, rfl, rfl, rfl, rfl, rfl⟩
  obtain ⟨w, s, hw, hret, hc, hclear, hs, hheld⟩ := hrun
  have hnothing := h _ blockEncoder blockContract blockContract_drains .plain false ⟨-1, none⟩ false
    w (Reachable.run .init hw) (.inl hret) hc hclear
  have : s.held = 0 := (hnothing.2 s hs).2
  rw [hheld] at this
  cases this

end NgxBrotli
