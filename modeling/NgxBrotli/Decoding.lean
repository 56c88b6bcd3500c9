import NgxBrotli.RatioCounters

namespace NgxBrotli
open Runs

variable {σ : Type}

namespace Encoder

/-- An instance by itself: the dictionary it was given, what it consumed, what was taken from it. -/
inductive Wrote (enc : Encoder σ) : Option Bytes → Bytes → Bytes → σ → Prop
  | created {s : σ} (h : enc.createInstance = some s) : Wrote enc none [] [] s
  | parameter {p : Parameter} {v : ℕ} {s s' : σ} (h : Wrote enc none [] [] s)
      (hp : enc.setParameter p v s = some s') : Wrote enc none [] [] s'
  | dictionary {d : Bytes} {q : Int} {s s' : σ} (h : Wrote enc none [] [] s)
      (hd : enc.attachDictionary d q s = some s') : Wrote enc (some d) [] [] s'
  | compressed {dict : Option Bytes} {fed given : Bytes} {op : Operation} {input : Bytes} {n : ℕ}
      {s s' : σ} (h : Wrote enc dict fed given s)
      (hc : enc.compressStream op input s = some (n, s')) :
      Wrote enc dict (fed ++ input.take n) given s'
  | taken {dict : Option Bytes} {fed given : Bytes} {s : σ} (h : Wrote enc dict fed given s)
      (hmore : enc.hasMoreOutput s = true) :
      Wrote enc dict fed (given ++ (enc.takeOutput s).1) (enc.takeOutput s).2

/-- The law: `dec` inverts what a finished instance wrote. -/
def DecodedBy (enc : Encoder σ) (dec : Option Bytes → Bytes → Option Bytes) : Prop :=
  ∀ ⦃dict : Option Bytes⦄ ⦃fed given : Bytes⦄ ⦃s : σ⦄,
    enc.Wrote dict fed given s → enc.isFinished s = true → dec dict given = some fed

end Encoder

section

variable {enc : Encoder σ} {spec : enc.Contract} {conf : Conf} {headerOnly : Bool} {c : FilterCtx}
  {buffered : Bool} {w w' : World σ} {s : σ} {b : Buf}

theorem openEncoder_wrote {contentLength : Int} {dict : Option DcbDict}
    (h : openEncoder enc conf contentLength dict = .ok s) :
    enc.Wrote (dict.map DcbDict.bytes) [] [] s := by
  unfold openEncoder at h
  split at h
  · cases h
  case h_2 s₀ h₀ =>
    split at h
    · cases h
    case h_2 s₁ h₁ =>
      split at h
      · cases h
      case h_2 s₂ h₂ =>
        have hparams : enc.Wrote none [] [] s₂ :=
          ((Encoder.Wrote.created h₀).parameter h₁).parameter h₂
        have hhint : enc.Wrote none [] [] (if contentLength > 0 then
            (enc.setParameter .sizeHint (min contentLength 0xffffffff).toNat s₂).getD s₂
              else s₂) := by
          split
          · cases hs : enc.setParameter .sizeHint (min contentLength 0xffffffff).toNat s₂ with
            | none => exact hparams
            | some s₃ => exact hparams.parameter hs
          · exact hparams
        dsimp only at h
        split at h
        · exact Except.ok.inj h ▸ hhint
        · split at h
          · cases h
          case h_2 s₄ h₄ => exact Except.ok.inj h ▸ hhint.dictionary h₄

/-- The instance of an open stream, or of one that succeeded, against the trace. -/
structure Written (enc : Encoder σ) (dict : Option Bytes) (ctx : BodyCtx σ) (tr : List (Event σ)) :
    Prop where
  opened : ctx.closed = false → ∀ s, ctx.encoder = some s →
    enc.Wrote dict (fedBytes tr) (takenBytes tr).flatten s
  done : ctx.success = true →
    ∃ s, enc.Wrote dict (fedBytes tr) (takenBytes tr).flatten s ∧ enc.isFinished s = true

variable {dict : Option Bytes} {ctx : BodyCtx σ} {tr es : List (Event σ)}

theorem Written.quiet (h : Written enc dict ctx tr) {ctx' : BodyCtx σ}
    (hc : ctx'.closed = ctx.closed) (hs : ctx'.encoder = ctx.encoder)
    (hsuccess : ctx'.success = ctx.success) (hfed : fedBytes es = [])
    (htaken : takenBytes es = []) :
    Written enc dict ctx' (tr ++ es) := by
  have hsame : fedBytes (tr ++ es) = fedBytes tr ∧ takenBytes (tr ++ es) = takenBytes tr := by
    rw [fedBytes_append, takenBytes_append, hfed, htaken, List.append_nil, List.append_nil]
    exact ⟨rfl, rfl⟩
  refine ⟨fun hopen s hs' => ?_, fun hdone => ?_⟩
  · rw [hsame.1, hsame.2]
    exact h.opened (hc ▸ hopen) s (hs ▸ hs')
  · rw [hsame.1, hsame.2]
    exact h.done (hsuccess ▸ hdone)

theorem written_fail (hsuccess : w.ctx.success = false) :
    Written enc dict w.fail.ctx w.fail.trace := by
  refine ⟨nofun, fun hdone => ?_⟩
  have hdone' : w.ctx.success = true := hdone
  rw [hsuccess] at hdone'
  cases hdone'

theorem Written.pass {d : Downstream} (h : Written enc dict w.ctx w.trace)
    (hopen : Opened spec s b w.ctx w.trace) (hpass : PassCase enc conf d w w')
    (hsafe : w'.phase ≠ .fault) : Written enc dict w'.ctx w'.trace := by
  have hwrote := h.opened hopen.closed s hopen.encoder
  have hoffer (b : Buf) :
      fedBytes [offerEvent w.ctx b] = [] ∧ takenBytes [offerEvent w.ctx b] = [] := by
    obtain he | he := offerEvent_cases w.ctx b <;> rw [he] <;> exact ⟨rfl, rfl⟩
  -- a stream that goes on
  have hgoes {s' : σ} {ctx' : BodyCtx σ} {tr' : List (Event σ)} (hs : ctx'.encoder = some s')
      (hsuccess : ctx'.success = w.ctx.success)
      (hw : enc.Wrote dict (fedBytes tr') (takenBytes tr').flatten s') :
        Written enc dict ctx' tr' := by
    refine ⟨fun _ s'' hs'' => Option.some.inj (hs.symm.trans hs'') ▸ hw, fun hdone => ?_⟩
    rw [hsuccess, hopen.success] at hdone
    cases hdone
  cases hpass with
  | faulted => exact absurd rfl hsafe
  | @offered b => exact h.quiet rfl rfl rfl (hoffer b).1 (hoffer b).2
  | @blocked b => exact h.quiet rfl rfl rfl (hoffer b).1 (hoffer b).2
  | offerFailed => exact written_fail hopen.success
  | took hbusy hready hs hb hmore hout =>
    obtain rfl := Option.some.inj (hopen.encoder.symm.trans hs)
    refine hgoes rfl rfl ?_
    have htaken := hwrote.taken hmore
    simpa [fedBytes, takenBytes, hout] using htaken
  | takeFailed => exact written_fail hopen.success
  | succeeded hbusy hready hs hmore hfinished =>
    obtain rfl := Option.some.inj (hopen.encoder.symm.trans hs)
    refine ⟨fun hc => (by cases hc), fun _ => ⟨s, ?_, hfinished⟩⟩
    rw [trace_succeed hopen.encoder]
    simpa [fedBytes, takenBytes] using hwrote
  | finishing hq hend hcall =>
    obtain rfl := Option.some.inj (hopen.encoder.symm.trans hq.encoder)
    refine hgoes rfl rfl ?_
    have hnext := hwrote.compressed hcall
    simpa [fedBytes, takenBytes] using hnext
  | callFailed => exact written_fail (w := { w with buffered := true }) hopen.success
  | idle => exact h
  | skipped => exact ⟨h.opened, h.done⟩
  | popped hq hend hin hcall =>
    obtain rfl := Option.some.inj (hopen.encoder.symm.trans hq.encoder)
    refine hgoes rfl rfl ?_
    have hnext := hwrote.compressed hcall
    simpa [fedBytes, takenBytes] using hnext
  | pushed hq hend hin hcall =>
    obtain rfl := Option.some.inj (hopen.encoder.symm.trans hq.encoder)
    refine hgoes rfl rfl ?_
    have hnext := hwrote.compressed hcall
    simpa [fedBytes, takenBytes] using hnext
  | pushFailed => exact written_fail hopen.success

theorem Written.initialized (ha : Account spec headerOnly w)
    (h : Written enc (w.ctx.dcbDict.map DcbDict.bytes) w.ctx w.trace) (hc : w.ctx.closed = false)
    (hi : Initialized enc conf w.ctx ctx) :
    Written enc (w.ctx.dcbDict.map DcbDict.bytes) ctx w.trace := by
  cases hi with
  | already => exact h
  | @now s hi hopen =>
    cases ha with
    | fresh hfresh =>
      refine ⟨fun _ s' hs' => ?_, fun hdone => ?_⟩
      · obtain rfl := Option.some.inj hs'
        rw [hfresh.fed, hfresh.taken]
        exact openEncoder_wrote hopen
      · obtain ⟨c, hctx⟩ := hfresh.ctx
        simp [hctx, BodyCtx.ofFilterCtx] at hdone
    | opened _ hopened => simp [hopened.initialized] at hi
    | closed hclosed => simp [hclosed.closed] at hc

theorem Written.call {bufs : List Buf} (ha : Account spec headerOnly w)
    (h : Written enc (w.ctx.dcbDict.map DcbDict.bytes) w.ctx w.trace)
    (hcall : StartCase enc conf headerOnly bufs w w') :
    Written enc (w.ctx.dcbDict.map DcbDict.bytes) w'.ctx w'.trace := by
  have hsuccess {ctx : BodyCtx σ} (hc : w.ctx.closed = false)
      (hi : Initialized enc conf w.ctx ctx) : ctx.success = false := by
    cases hi <;> exact ha.success_of_open hc
  cases hcall with
  | forwarded => exact h.quiet rfl rfl rfl rfl rfl
  | initFailed hc => exact written_fail (ha.success_of_open hc)
  | failed hc ho hi hacc =>
    obtain ⟨_, _, _, _, hctx, -⟩ := hacc.frame (.inl rfl)
    have hs := hsuccess hc hi
    exact written_fail (by rw [hctx]; exact hs)
  | @entered ctx w' hc ho hi hacc =>
    obtain ⟨_, _, _, es, hctx, htrace, hes⟩ := hacc.frame (.inr rfl)
    have hfed : fedBytes es = [] := flatMap_startEvents hes (fun _ => rfl) fun _ => rfl
    have htaken : takenBytes es = [] := flatMap_startEvents hes (fun _ => rfl) fun _ => rfl
    dsimp only
    rw [htrace, hctx, List.append_assoc]
    refine (h.initialized ha hc hi).quiet rfl rfl rfl ?_ ?_
    · rw [fedBytes_append, hfed]
      rfl
    · rw [takenBytes_append, htaken]
      rfl

theorem written_of_reach (spec : enc.Contract)
    (h : Reachable (bodyStep enc conf headerOnly) (World.initial c buffered) w) :
    Written enc (c.dcbDict.map DcbDict.bytes) w.ctx w.trace := by
  refine h.invariant (I := fun w => Written enc (c.dcbDict.map DcbDict.bytes) w.ctx w.trace)
    ⟨(fun _ _ hs => by cases hs), (fun hdone => by cases hdone)⟩ ?_
  intro l w w' hw _ hi hstep
  have ha := account_of_reach spec hw
  obtain ⟨-, -, o, bufs, rfl, hcase⟩ | ⟨hrun, d, rfl, hcase⟩ := bodyStep_cases hstep
  · rw [← (counted_of_reach spec hw).dict] at hi ⊢
    exact hi.call ha hcase
  · obtain ⟨-, s, b, hopen, -⟩ := ha.opened_of_running hrun
    exact hi.pass hopen hcase (phase_ne_fault spec (hw.step trivial hstep))

/-- Nothing is handed on before the end of a stream, and nothing but empty chains after success. -/
structure Silent (w : World σ) : Prop where
  opened : w.ctx.closed = false → ∀ bufs, .forward bufs ∉ w.trace
  done : w.ctx.success = true → FinalOnly (suppliedBufs w.trace) →
    ∀ bufs, .forward bufs ∈ w.trace → bufs = []

theorem Silent.forward {bufs : List Buf} {rc : Int} (h : Silent w) (ha : Account spec headerOnly w)
    (hc : w.ctx.closed = true) :
    Silent { w with phase := .returned rc, trace := w.trace ++ [.call bufs, .forward bufs] } where
  opened hopen := by cases hopen.symm.trans hc
  done hdone hfinal bufs' hmem := by
    rw [suppliedBufs_append] at hfinal
    obtain hmem | hmem := List.mem_append.mp hmem
    · exact h.done hdone hfinal.of_append bufs' hmem
    · obtain rfl : bufs' = bufs := by simpa using hmem
      -- nothing comes after the end of the body
      cases ha with
      | fresh hfresh =>
        obtain ⟨c, hctx⟩ := hfresh.ctx
        simp [hctx, BodyCtx.ofFilterCtx] at hc
      | opened _ hopened => cases hopened.closed.symm.trans hc
      | closed hclosed =>
        have hnil := (hclosed.success hdone hfinal.of_append).supplied.append_nil hfinal
        simpa [suppliedBufs] using hnil

theorem silent_of_reach (spec : enc.Contract)
    (h : Reachable (bodyStep enc conf false) (World.initial c buffered) w) : Silent w := by
  -- an open stream to which a step adds no chain that is handed on
  have hgrow {w w' : World σ} (hi : Silent w) (hc : w.ctx.closed = false)
      (hes : ∃ es, w'.trace = w.trace ++ es ∧ ∀ e ∈ es, ∀ bufs, e ≠ .forward bufs) : Silent w' := by
    obtain ⟨es, htrace, hes⟩ := hes
    have hno (bufs : List Buf) : .forward bufs ∉ w'.trace := by
      rw [htrace, List.mem_append, not_or]
      exact ⟨hi.opened hc bufs, fun hmem => hes _ hmem bufs rfl⟩
    exact ⟨fun _ => hno, fun _ _ bufs hmem => absurd hmem (hno bufs)⟩
  have hstart {bufs : List Buf} {es : List (Event σ)}
      (hes : ∀ e ∈ es, (∃ b, e = .header b) ∨ ∃ bufs, e = .append bufs) :
      ∀ e ∈ [.call bufs] ++ es, ∀ bufs', e ≠ .forward bufs' := by
    rintro e he bufs' rfl
    simpa using mem_startEvents hes he
  refine h.invariant
    ⟨fun _ _ => List.not_mem_nil, fun _ _ _ hmem => absurd hmem List.not_mem_nil⟩ ?_
  intro l w w' hw _ hi hstep
  have ha := account_of_reach spec hw
  obtain ⟨-, -, o, bufs, rfl, hcase⟩ | ⟨hrun, d, rfl, hcase⟩ := bodyStep_cases hstep
  · cases hcase with
    | forwarded hgate => exact hi.forward ha (hgate.resolve_right Bool.false_ne_true)
    | initFailed hc =>
      exact hgrow hi hc (trace_fail (p := fun e => ∀ bufs, e ≠ .forward bufs) (by simp) rfl
        (@hstart _ [] nofun))
    | failed hc ho hi' hacc =>
      obtain ⟨_, _, _, es, -, htrace, hes⟩ := hacc.frame (.inl rfl)
      exact hgrow hi hc (trace_fail (p := fun e => ∀ bufs, e ≠ .forward bufs) (by simp)
        (by rw [htrace]; exact List.append_assoc _ _ _) (hstart hes))
    | entered hc ho hi' hacc =>
      obtain ⟨_, _, _, es, -, htrace, hes⟩ := hacc.frame (.inr rfl)
      exact hgrow hi hc ⟨_, by rw [htrace]; exact List.append_assoc _ _ _, hstart hes⟩
  · obtain ⟨-, s, b, hopen, -⟩ := ha.opened_of_running hrun
    have hsafe := phase_ne_fault spec (hw.step trivial hstep)
    obtain ⟨es, htrace, hes⟩ := hcase.trace_append.resolve_left hsafe
    refine hgrow hi hopen.closed ⟨es, htrace, ?_⟩
    rintro e he bufs rfl
    exact hes _ he

theorem ownBufs_of_success (spec : enc.Contract)
    (h : Reachable (bodyStep enc conf headerOnly) (World.initial c buffered) w)
    (hdone : w.ctx.success = true) :
    ownBufs w.trace = (c.dcbDict.map headerBuf).toList ++ offeredBufs w.trace := by
  have hcounted := counted_of_reach spec h
  rw [hcounted.own (.inr hdone), BodyCtx.headerBufs, hcounted.dict]
  obtain hnone | hsent := hcounted.sent hdone
  · rw [hcounted.dict] at hnone
    simp [hnone]
  · rw [hsent, if_pos rfl]

theorem sent_of_success (spec : enc.Contract)
    (h : Reachable (bodyStep enc conf false) (World.initial c buffered) w)
    (hdone : w.ctx.success = true) (hfinal : FinalOnly (suppliedBufs w.trace)) :
    bodyBytes (sentBufs w.trace) =
      (c.dcbDict.map dcbHeader).getD [] ++ (takenBytes w.trace).flatten := by
  have hclosed := closed_of_success spec h hdone
  have hforward : ∀ bufs, .forward bufs ∈ w.trace → bodyBytes bufs = [] := fun bufs hmem => by
    rw [(silent_of_reach spec h).done hdone hfinal bufs hmem]
    rfl
  have htaken : (takenBytes w.trace).flatten = bodyBytes (offeredBufs w.trace) := by
    rw [hclosed.output, bodyBytes, List.flatMap_def]
  rw [bodyBytes_sentBufs hforward, ownBufs_of_success spec h hdone, bodyBytes_append, htaken]
  congr 1
  cases c.dcbDict with
  | none => rfl
  | some d => exact List.append_nil _

theorem wrote_of_success (spec : enc.Contract)
    (h : Reachable (bodyStep enc conf false) (World.initial c buffered) w)
    (hdone : w.ctx.success = true) (hfinal : FinalOnly (suppliedBufs w.trace)) :
    ∃ s, enc.Wrote (c.dcbDict.map DcbDict.bytes) (bodyBytes (suppliedBufs w.trace))
      (takenBytes w.trace).flatten s ∧ enc.isFinished s = true := by
  rw [← (complete_of_success spec h hdone hfinal).fed]
  exact (written_of_reach spec h).done hdone

/-- What was taken decodes to the body of the calls, with the dictionary. -/
theorem decoded_of_success (spec : enc.Contract) {dec : Option Bytes → Bytes → Option Bytes}
    (hdec : enc.DecodedBy dec)
    (h : Reachable (bodyStep enc conf false) (World.initial c buffered) w)
    (hdone : w.ctx.success = true) (hfinal : FinalOnly (suppliedBufs w.trace)) :
    dec (c.dcbDict.map DcbDict.bytes) (takenBytes w.trace).flatten =
      some (bodyBytes (suppliedBufs w.trace)) := by
  obtain ⟨s, hwrote, hfinished⟩ := wrote_of_success spec h hdone hfinal
  exact hdec hwrote hfinished

/-- A stream that succeeded is the dcb header where a dictionary was chosen, then a string that
decodes to the body of the calls with that dictionary. -/
theorem stream_decodes (spec : enc.Contract) {dec : Option Bytes → Bytes → Option Bytes}
    (hdec : enc.DecodedBy dec)
    (h : Reachable (bodyStep enc conf false) (World.initial c buffered) w)
    (hdone : w.ctx.success = true) (hfinal : FinalOnly (suppliedBufs w.trace)) :
    ∃ stream, bodyBytes (sentBufs w.trace) = (c.dcbDict.map dcbHeader).getD [] ++ stream ∧
      dec (c.dcbDict.map DcbDict.bytes) stream = some (bodyBytes (suppliedBufs w.trace)) :=
  ⟨_, sent_of_success spec h hdone hfinal, decoded_of_success spec hdec h hdone hfinal⟩

end

/-- Stored blocks are the body, behind which the last block has one byte. -/
def blockDecode (_ : Option Bytes) (stream : Bytes) : Option Bytes :=
  if stream.getLast? = some 0x03 then some stream.dropLast else none

namespace BlockState

def Holds (fed given : Bytes) : BlockState → Prop
  | coding block pending => given ++ pending ++ block = fed
  | finished pending => given ++ pending = fed ++ [0x03]

theorem Holds.perform {fed given block pending input : Bytes} {op : Operation}
    (h : Holds fed given (coding block pending)) :
    Holds (fed ++ input) given (perform op (block ++ input) pending) := by
  have hall : given ++ pending ++ (block ++ input) = fed ++ input := by
    rw [← List.append_assoc, show given ++ pending ++ block = fed from h]
  unfold BlockState.perform
  split
  · exact hall
  case isFalse hp =>
    rw [not_not] at hp
    rw [hp, List.append_nil] at hall
    cases op with
    | process =>
      change given ++ [] ++ (block ++ input) = fed ++ input
      rw [List.append_nil, hall]
    | flush =>
      change given ++ (block ++ input) ++ [] = fed ++ input
      rw [List.append_nil, hall]
    | finish =>
      change given ++ (block ++ input ++ [0x03]) = fed ++ input ++ [0x03]
      rw [← List.append_assoc, hall]

theorem Holds.compressStream {fed given input : Bytes} {op : Operation} {n : ℕ} {s s' : BlockState}
    (h : Holds fed given s) (hcall : compressStream op input s = some (n, s')) :
    Holds (fed ++ input.take n) given s' := by
  cases s with
  | finished => cases hcall
  | coding block pending =>
    have hheld : given ++ pending ++ block = fed := h
    rw [BlockState.compressStream] at hcall
    dsimp only at hcall
    split at hcall
    · cases hcall
      rw [List.take_length]
      exact h.perform
    split at hcall
    · cases hcall
      exact (List.append_assoc _ _ _).symm.trans (congrArg (· ++ _) hheld)
    case isFalse hp =>
      cases hcall
      rw [not_not] at hp
      rw [hp, List.append_nil] at hheld
      -- the block is filled up, and the next one is begun
      have hnext : input.take (2 - block.length + ((input.drop (2 - block.length)).take 2).length) =
          input.take (2 - block.length) ++ (input.drop (2 - block.length)).take 2 := by
        rw [List.take_add, List.append_cancel_left_eq, List.take_eq_take_iff, List.length_take]
        omega
      change given ++ (block ++ _) ++ _ = _
      rw [hnext, ← hheld]
      simp only [List.append_assoc]

end BlockState

theorem blockEncoder_wrote {dict : Option Bytes} {fed given : Bytes} {s : BlockState}
    (h : blockEncoder.Wrote dict fed given s) : s.Holds fed given := by
  induction h with
  | created h =>
    cases h
    rfl
  | parameter _ hp ih =>
    cases hp
    exact ih
  | dictionary _ hd ih =>
    cases hd
    exact ih
  | compressed _ hc ih => exact ih.compressStream hc
  | @taken _ _ _ s _ _ ih =>
    cases s with
    | coding block pending => exact congrArg (· ++ block) (List.append_nil _) |>.trans ih
    | finished pending => exact (List.append_nil _).trans ih

theorem blockEncoder_decodedBy : blockEncoder.DecodedBy blockDecode := by
  intro dict fed given s hwrote hfinished
  have hheld := blockEncoder_wrote hwrote
  cases s with
  | coding => cases hfinished
  | finished pending =>
    have hpending : pending = [] := List.isEmpty_iff.mp hfinished
    have hstream : given = fed ++ [0x03] := by
      rw [hpending] at hheld
      exact (List.append_nil given).symm.trans hheld
    rw [hstream, blockDecode, if_pos List.getLast?_concat, List.dropLast_concat]

/-- Three bytes, flushed once, to a client that takes one byte at a time. -/
theorem stream_decodes_sample :
    let pass : Label := .pass ⟨1, NGX_OK⟩
    let labels := [.call .fine [⟨[1, 2], true, false⟩]] ++ List.replicate 5 pass ++
      [.call .fine [⟨[3], false, true⟩]] ++ List.replicate 5 pass
    ∃ w stream, run (bodyStep blockEncoder .plain false) labels (World.initial ⟨-1, none⟩ false) =
      some w ∧ bodyBytes (sentBufs w.trace) = stream ∧
        blockDecode none stream = some [1, 2, 3] := by
  intro pass labels
  have hrun : (run (bodyStep blockEncoder .plain false) labels (World.initial ⟨-1, none⟩ false)).map
      (fun w => (w.ctx.success, suppliedBufs w.trace)) =
        some (true, [⟨[1, 2], true, false⟩, ⟨[3], false, true⟩]) := by decide +kernel
  obtain ⟨w, hw, hend⟩ := Option.map_eq_some_iff.mp hrun
  obtain ⟨hdone, hbufs⟩ := Prod.mk.inj hend
  obtain ⟨stream, hsent, hdecode⟩ := stream_decodes blockContract blockEncoder_decodedBy
    (Reachable.run .init hw) hdone (by rw [hbufs]; decide)
  rw [hbufs] at hdecode
  exact ⟨w, stream, hw, hsent, hdecode⟩

end NgxBrotli
