import NgxBrotli.BlockEncoder

namespace NgxBrotli
open Runs

variable {σ : Type} {enc : Encoder σ} {conf : Conf} {headerOnly : Bool} {c : FilterCtx}
  {buffered : Bool} {w : World σ}

theorem phase_ne_fault (spec : enc.Contract)
    (h : Reachable (bodyStep enc conf headerOnly) (World.initial c buffered) w) :
    w.phase ≠ .fault := by
  cases account_of_reach spec h with
  | fresh _ _ hfault => exact hfault
  | opened _ _ _ _ hphase => obtain hp | ⟨-, rc, hp⟩ := hphase <;> rw [hp] <;> nofun
  | closed _ hphase =>
    obtain ⟨rc, hp⟩ := hphase
    rw [hp]
    nofun

theorem closed_of_success (spec : enc.Contract)
    (h : Reachable (bodyStep enc conf headerOnly) (World.initial c buffered) w)
    (hdone : w.ctx.success = true) : Closed spec w.ctx w.trace := by
  cases account_of_reach spec h with
  | fresh hfresh =>
    obtain ⟨c', hctx⟩ := hfresh.ctx
    simp [hctx, BodyCtx.ofFilterCtx] at hdone
  | opened _ hopen => simp [hopen.success] at hdone
  | closed hclosed => exact hclosed

/-- The invariant rule of the body filter: calls and passes keep what holds, with the account of the
state before them at hand, and no pass uses a `NULL` pointer. -/
theorem invariant_of_reach {P : Label → World σ → Prop} {I : World σ → Prop} (spec : enc.Contract)
    (hinit : I (World.initial c buffered))
    (hcall : ∀ {o bufs w w'}, Account spec headerOnly w → P (.call o bufs) w → I w →
      StartCase enc conf headerOnly bufs w w' → I w')
    (hpass : ∀ {d w w'}, Account spec headerOnly w → w.phase = .running → P (.pass d) w → I w →
      PassCase enc conf d w w' → w'.phase ≠ .fault → I w')
    (h : Reach (bodyStep enc conf headerOnly) P (World.initial c buffered) w) : I w := by
  refine h.invariant hinit ?_
  intro l w w' hw hl hi hstep
  have ha := account_of_reach spec hw
  have hsafe := phase_ne_fault spec (hw.reachable.step trivial hstep)
  obtain ⟨-, -, o, bufs, rfl, hcase⟩ | ⟨hrun, d, rfl, hcase⟩ := bodyStep_cases hstep
  · exact hcall ha hl hi hcase
  · exact hpass ha hrun hl hi hcase hsafe

theorem encoder_of_closed (spec : enc.Contract)
    (h : Reachable (bodyStep enc conf headerOnly) (World.initial c buffered) w)
    (hc : w.ctx.closed = true) : w.ctx.encoder = none := by
  refine invariant_of_reach (I := fun w => w.ctx.closed = true → w.ctx.encoder = none) spec nofun
    ?_ ?_ h hc
  · intro o bufs w w' ha _ hi hcase hc'
    cases hcase with
    | forwarded => exact hi hc'
    | initFailed | failed => rfl
    | @entered ctx w' hc ho hinit hacc =>
      obtain ⟨_, _, _, _, hctx, -⟩ := hacc.frame (.inr rfl)
      have hopen : w'.ctx.closed = false := by
        rw [hctx]
        cases hinit <;> exact hc
      exact absurd (hopen.symm.trans hc') Bool.false_ne_true
  · intro d w w' ha hrun _ _ hcase hsafe hc'
    obtain ⟨-, s, b, hopen, -⟩ := ha.opened_of_running hrun
    have hgoes : w.ctx.closed = true → w'.ctx.encoder = none := fun hc =>
      absurd (hopen.closed.symm.trans hc) Bool.false_ne_true
    cases hcase with
    | faulted => exact absurd rfl hsafe
    | offerFailed | takeFailed | callFailed | pushFailed | succeeded => rfl
    | offered | blocked | took | finishing | idle | skipped | popped | pushed => exact hgoes hc'

/-- A call that returned `NGX_OK` on an open stream stopped for want of input. -/
theorem quiet_of_returned (spec : enc.Contract)
    (h : Reachable (bodyStep enc conf headerOnly) (World.initial c buffered) w)
    (hret : w.phase = .returned NGX_OK) {s : σ} (hs : w.ctx.encoder = some s) :
    Quiet enc s w.ctx ∧ w.ctx.endOfInput = false ∧ w.ctx.input = [] := by
  cases h with
  | init => cases hret
  | @step w₀ _ l hw _ hstep =>
    have ha := account_of_reach spec hw
    obtain ⟨-, -, o, bufs, rfl, hcase⟩ | ⟨hrun, d, rfl, hcase⟩ := bodyStep_cases hstep
    · cases hcase with
      | forwarded hgate =>
        -- there is no instance on this way
        cases ha with
        | fresh hfresh =>
          obtain ⟨c', hctx⟩ := hfresh.ctx
          simp [hctx, BodyCtx.ofFilterCtx] at hs
        | opened ho hopened => simp [ho, hopened.closed] at hgate
        | closed hclosed => simp [encoder_of_closed spec hw hclosed.closed] at hs
      | initFailed | failed => cases hs
      | entered => cases hret
    · have hno : w₀.phase ≠ .returned NGX_OK := by
        rw [hrun]
        exact Phase.noConfusion
      cases hcase with
      | faulted => cases hret
      | offerFailed | takeFailed | callFailed | pushFailed | succeeded => cases hs
      | blocked => cases hret
      | offered | took | finishing | skipped | popped | pushed => exact absurd hret hno
      | idle hq hend hin =>
        obtain rfl := Option.some.inj (hq.encoder.symm.trans hs)
        exact ⟨hq, hend, hin⟩

theorem fed_isPrefix (spec : enc.Contract)
    (h : Reachable (bodyStep enc conf headerOnly) (World.initial c buffered) w) :
    fedBytes w.trace <+: bodyBytes (suppliedBufs w.trace) := by
  cases account_of_reach spec h with
  | fresh hfresh =>
    rw [hfresh.fed]
    exact List.nil_prefix
  | opened _ hopened hsupplied =>
    rw [hsupplied, hopened.input]
    exact List.prefix_append _ _
  | closed hclosed => exact hclosed.input

theorem readyBufs_of_closed (spec : enc.Contract)
    (h : Reachable (bodyStep enc conf headerOnly) (World.initial c buffered) w)
    (hc : w.ctx.closed = true) : readyBufs w.ctx = [] := by
  cases account_of_reach spec h with
  | fresh hfresh =>
    obtain ⟨c', hctx⟩ := hfresh.ctx
    simp [hctx, BodyCtx.ofFilterCtx] at hc
  | opened _ hopened => simp [hopened.closed] at hc
  | closed hclosed =>
    rw [readyBufs, hclosed.outBuf]
    exact ite_self _

theorem taken_eq_offered (spec : enc.Contract)
    (h : Reachable (bodyStep enc conf headerOnly) (World.initial c buffered) w) :
    takenBytes w.trace = (offeredBufs w.trace ++ readyBufs w.ctx).map Buf.bytes ∧
      (w.phase ≠ .running → readyBufs w.ctx = []) := by
  cases account_of_reach spec h with
  | fresh hfresh =>
    obtain ⟨⟨c', hctx⟩, -, -, -, htaken, hoffered⟩ := hfresh
    rw [htaken, hoffered, hctx]
    exact ⟨rfl, fun _ => rfl⟩
  | opened _ hopened _ _ hphase =>
    refine ⟨hopened.output, fun hrun => ?_⟩
    rw [readyBufs, (hphase.resolve_left hrun).1, if_neg Bool.false_ne_true]
  | closed hclosed =>
    have hempty := readyBufs_of_closed spec h hclosed.closed
    refine ⟨?_, fun _ => hempty⟩
    rw [hempty, List.append_nil]
    exact hclosed.output

theorem complete_of_success (spec : enc.Contract)
    (h : Reachable (bodyStep enc conf headerOnly) (World.initial c buffered) w)
    (hdone : w.ctx.success = true) (hfinal : FinalOnly (suppliedBufs w.trace)) :
    Complete spec w.trace := (closed_of_success spec h hdone).success hdone hfinal

/-- In every run the encoder consumes a prefix of the body; every buffer taken is offered once, in
order; and success means that the whole body was consumed, FINISH was completed and exactly the last
buffer given to the next filter has `last_buf`. -/
theorem bodyFilter_streams (spec : enc.Contract)
    (h : Reachable (bodyStep enc conf headerOnly) (World.initial c buffered) w) :
    fedBytes w.trace <+: bodyBytes (suppliedBufs w.trace) ∧
    (takenBytes w.trace = (offeredBufs w.trace ++ readyBufs w.ctx).map Buf.bytes ∧
      (w.phase ≠ .running → readyBufs w.ctx = [])) ∧
    (w.ctx.success = true → FinalOnly (suppliedBufs w.trace) → Complete spec w.trace) :=
  ⟨fed_isPrefix spec h, taken_eq_offered spec h, complete_of_success spec h⟩

/-- The pool has memory, and the next filter takes what it is given. -/
def CallOracle.fine : CallOracle := ⟨true, true, true, NGX_OK, 64, NGX_OK⟩

/-- A location that compresses everything. -/
def Conf.plain : Conf := ⟨true, 0, -1, false, [], [], false, 6, 18⟩

/-- Two calls that stream three bytes; the next filter takes one byte at a time. -/
theorem bodyFilter_streams_sample :
    let pass : Label := .pass ⟨1, NGX_OK⟩
    let labels := [.call .fine [⟨[1, 2], false, false⟩]] ++ List.replicate 2 pass ++
      [.call .fine [⟨[3], false, true⟩]] ++ List.replicate 9 pass
    ∃ w, run (bodyStep blockEncoder .plain false) labels (World.initial ⟨-1, none⟩ false) = some w ∧
      (offeredBufs w.trace).map Buf.bytes = [[1, 2], [3, 3]] ∧ Complete blockContract w.trace := by
  intro pass labels
  have hrun : ∃ w, run (bodyStep blockEncoder .plain false) labels
      (World.initial ⟨-1, none⟩ false) = some w ∧ w.ctx.success = true ∧
        FinalOnly (suppliedBufs w.trace) ∧ (offeredBufs w.trace).map Buf.bytes = [[1, 2], [3, 3]] :=
    ⟨_, rfl, rfl, by decide, rfl⟩
  obtain ⟨w, hw, hsuccess, hfinal, hout⟩ := hrun
  exact ⟨w, hw, hout,
    (bodyFilter_streams blockContract (Reachable.run .init hw)).2.2 hsuccess hfinal⟩

end NgxBrotli
