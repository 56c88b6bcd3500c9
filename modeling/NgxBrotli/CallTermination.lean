import NgxBrotli.EncoderProtocol
import NgxBrotli.Halting

namespace NgxBrotli
open Runs Halting Relation

variable {σ : Type}

namespace Encoder

def Takes (enc : Encoder σ) (s t : σ) : Prop :=
  enc.hasMoreOutput s = true ∧ (enc.takeOutput s).1 ≠ [] ∧ t = (enc.takeOutput s).2

def Finishes (enc : Encoder σ) (s t : σ) : Prop :=
  enc.hasMoreOutput s = false ∧ enc.isFinished s = false ∧
    ∃ n, enc.compressStream .finish [] s = some (n, t)

/-- No call consumes more than its input, pending output is finite, and finitely many FINISH calls
with empty input, the output of each taken before the next, finish the stream or fail. -/
structure Halts (enc : Encoder σ) : Prop where
  consumed_le {op : Operation} {input : Bytes} {n : ℕ} {s s' : σ} :
    enc.compressStream op input s = some (n, s') → n ≤ input.length
  drains : WellFounded fun t s => enc.Takes s t
  finishes : WellFounded fun t s => ∃ u, enc.Finishes s u ∧ ReflTransGen enc.Takes u t

end Encoder

def inputRank (ctx : BodyCtx σ) : ℕ := (bodyBytes ctx.input).length + ctx.input.length

/-- The output buffer and the calls of the next filter that it still takes. -/
def outputRank (ctx : BodyCtx σ) : ℕ :=
  let size := ((ctx.outBuf.map Buf.bytes).getD []).length
  if ctx.outputReady then size + 2 else if ctx.outputBusy then size + 1 else 0

def rank (w : World σ) : ℕ × Option σ × ℕ := (inputRank w.ctx, w.ctx.encoder, outputRank w.ctx)

/-- Less input, or less to come of the encoder, or less output. -/
def Below (enc : Encoder σ) : ℕ × Option σ × ℕ → ℕ × Option σ × ℕ → Prop :=
  Prod.Lex (· < ·) (Prod.Lex (Lift fun t s => enc.Takes s t ∨ enc.Finishes s t) (· < ·))

section

variable {enc : Encoder σ} {conf : Conf} {headerOnly : Bool} {w w' : World σ}

theorem Encoder.Halts.wellFounded (hh : enc.Halts) :
    WellFounded fun w' w : World σ => Below enc (rank w') (rank w) := by
  have hencoder := wellFounded_lift (wellFounded_rounds hh.drains hh.finishes)
  exact InvImage.wf rank (WellFounded.prod_lex wellFounded_lt
    (WellFounded.prod_lex hencoder wellFounded_lt))

theorem below_input (h : inputRank w'.ctx < inputRank w.ctx) : Below enc (rank w') (rank w) :=
  Prod.Lex.left _ _ h

theorem below_encoder {s t : σ} (hin : w'.ctx.input = w.ctx.input) (hs : w.ctx.encoder = some s)
    (ht : w'.ctx.encoder = some t) (h : enc.Takes s t ∨ enc.Finishes s t) :
    Below enc (rank w') (rank w) := by
  have hsame : inputRank w'.ctx = inputRank w.ctx := by rw [inputRank, hin, inputRank]
  rw [rank, hsame]
  exact Prod.Lex.right _ (Prod.Lex.left _ _ ⟨t, s, ht, hs, h⟩)

theorem below_output (hin : w'.ctx.input = w.ctx.input) (hs : w'.ctx.encoder = w.ctx.encoder)
    (h : outputRank w'.ctx < outputRank w.ctx) : Below enc (rank w') (rank w) := by
  have hsame : inputRank w'.ctx = inputRank w.ctx := by rw [inputRank, hin, inputRank]
  rw [rank, hsame, hs]
  exact Prod.Lex.right _ (Prod.Lex.right _ h)

theorem outputRank_afterOffer {ctx : BodyCtx σ} {b : Buf} {consumed : ℕ} (hb : ctx.outBuf = some b)
    (hout : ctx.outputBusy = true ∨ ctx.outputReady = true)
    (hprogress : b.bytes.drop consumed = [] ∨ ctx.outputBusy = false ∨
      (b.bytes.drop consumed).length ≠ b.bytes.length) :
    outputRank (ctx.afterOffer b consumed) < outputRank ctx := by
  have hle : (b.bytes.drop consumed).length ≤ b.bytes.length := by
    rw [List.length_drop]
    omega
  have hafter : outputRank (ctx.afterOffer b consumed) =
      if b.bytes.drop consumed = [] then 0 else (b.bytes.drop consumed).length + 1 := by
    by_cases hrest : b.bytes.drop consumed = [] <;> simp [outputRank, BodyCtx.afterOffer, hrest]
  rw [hafter, outputRank, hb]
  by_cases hready : ctx.outputReady = true
  · rw [if_pos hready]
    split
    · exact Nat.succ_pos _
    · exact Nat.succ_lt_succ (Nat.lt_succ_of_le hle)
  · have hbusy : ctx.outputBusy = true := hout.resolve_right hready
    rw [if_neg hready, if_pos hbusy]
    split
    · exact Nat.succ_pos _
    case isFalse hrest =>
      have hlen : (b.bytes.drop consumed).length ≠ b.bytes.length := by
        simpa [hrest, hbusy] using hprogress
      exact Nat.succ_lt_succ (Nat.lt_of_le_of_ne hle hlen)

/-- A pass that goes on leaves less to do. -/
theorem PassCase.below {d : Downstream} (hh : enc.Halts) (h : PassCase enc conf d w w')
    (hrun : w'.phase = .running) : Below enc (rank w') (rank w) := by
  have hlinks {b : Buf} {rest : List Buf} (hin : w.ctx.input = b :: rest) :
      inputRank w.ctx = b.bytes.length + (bodyBytes rest).length + (rest.length + 1) := by
    rw [inputRank, hin, bodyBytes_cons, List.length_append, List.length_cons]
  cases h with
  | offered hb hout hprogress =>
    exact below_output rfl rfl (outputRank_afterOffer hb hout hprogress)
  | took hbusy hready hs hb hmore hout => exact below_encoder rfl hs rfl (.inl ⟨hmore, hout, rfl⟩)
  | finishing hq hend hcall =>
    exact below_encoder rfl hq.encoder rfl (.inr ⟨hq.more, hq.unfinished, _, hcall⟩)
  | @skipped s b rest hq hend hin hb =>
    apply below_input
    rw [hlinks hin, inputRank]
    dsimp only
    omega
  | @popped s s' b rest hq hend hin =>
    apply below_input
    rw [hlinks hin, inputRank]
    dsimp only
    omega
  | @pushed s s' b rest n hq hend hin hcall hcap hn hpart =>
    -- a part of the buffer was consumed, and not all of it
    have hle := hh.consumed_le hcall
    apply below_input
    rw [hlinks hin, inputRank, bodyBytes_cons, List.length_append, List.length_drop,
      List.length_cons]
    omega
  -- the others return, or use a `NULL` pointer
  | faulted => cases hrun
  | blocked => cases hrun
  | offerFailed => cases hrun
  | takeFailed => cases hrun
  | succeeded => cases hrun
  | callFailed => cases hrun
  | idle => cases hrun
  | pushFailed => cases hrun

theorem PassCase.phase_ne_start {d : Downstream} (h : PassCase enc conf d w w')
    (hrun : w.phase = .running) : w'.phase ≠ .start := by
  have hgoes {p : Phase} (hp : p = w.phase) : p ≠ .start := by
    rw [hp, hrun]
    exact Phase.noConfusion
  cases h with
  | offered => exact hgoes rfl
  | took => exact hgoes rfl
  | finishing => exact hgoes rfl
  | skipped => exact hgoes rfl
  | popped => exact hgoes rfl
  | pushed => exact hgoes rfl
  | faulted => exact Phase.noConfusion
  | blocked => exact Phase.noConfusion
  | offerFailed => exact Phase.noConfusion
  | takeFailed => exact Phase.noConfusion
  | succeeded => exact Phase.noConfusion
  | callFailed => exact Phase.noConfusion
  | idle => exact Phase.noConfusion
  | pushFailed => exact Phase.noConfusion

theorem StartCase.phase_ne_start {bufs : List Buf} (h : StartCase enc conf headerOnly bufs w w') :
    w'.phase ≠ .start := by
  cases h <;> exact Phase.noConfusion

theorem returned_of_reach {c : FilterCtx} {buffered : Bool}
    (h : Reachable (bodyStep enc conf headerOnly) (World.initial c buffered) w)
    (hstart : w.phase ≠ .start) (hrun : w.phase ≠ .running) : ∃ rc, w.phase = .returned rc := by
  have hfault : w.phase ≠ .fault := by
    cases wired_of_reach h with
    | fresh _ _ _ _ _ hphase => exact hphase.2
    | opened _ _ _ _ hphase => exact hphase
    | closed _ _ hphase =>
      obtain ⟨rc, hrc⟩ := hphase
      rw [hrc]
      exact Phase.noConfusion
  cases hp : w.phase with
  | start => exact absurd hp hstart
  | running => exact absurd hp hrun
  | returned rc => exact ⟨rc, rfl⟩
  | fault => exact absurd hp hfault

/-- From every state that a run reaches, a call with any chain returns after finitely many passes,
whatever the next filter does in each of them. -/
theorem call_returns (hh : enc.Halts) {c : FilterCtx} {buffered : Bool}
    (h : Reachable (bodyStep enc conf headerOnly) (World.initial c buffered) w)
    (hcall : w.phase ≠ .running) (o : CallOracle) (bufs : List Buf) (ds : ℕ → Downstream) :
    ∃ n w' rc, run (bodyStep enc conf headerOnly)
        (.call o bufs :: (List.range n).map fun k => .pass (ds k)) w = some w' ∧
      w'.phase = .returned rc := by
  let I (v : World σ) : Prop :=
    Reachable (bodyStep enc conf headerOnly) (World.initial c buffered) v ∧ v.phase ≠ .start
  -- the start of the call
  have hstep : bodyStep enc conf headerOnly (.call o bufs) w =
      some (startCall enc conf headerOnly o bufs w) := by
    by_cases hstart : w.phase = .start
    · rw [bodyStep, hstart]
    · obtain ⟨rc, hrc⟩ := returned_of_reach h hstart hcall
      rw [bodyStep, hrc]
  have hI : I (startCall enc conf headerOnly o bufs w) :=
    ⟨h.step trivial hstep, (startCall_cases o bufs w).phase_ne_start⟩
  -- a pass of it
  have hpass (k : ℕ) (v : World σ) (hv : I v) (hrun : v.phase = .running) :
      ∃ v', bodyStep enc conf headerOnly (.pass (ds k)) v = some v' ∧ I v' ∧
        (v'.phase = .running → Below enc (rank v') (rank v)) := by
    have hnext : bodyStep enc conf headerOnly (.pass (ds k)) v = some (pass enc conf (ds k) v) := by
      rw [bodyStep, hrun]
    have hcase : PassCase enc conf (ds k) v _ := pass_cases (ds k) v
    exact ⟨_, hnext, ⟨hv.1.step trivial hnext, hcase.phase_ne_start hrun⟩, hcase.below hh⟩
  obtain ⟨n, w', hrun, ⟨hreach, hstart⟩, hstop⟩ := exists_stop hh.wellFounded
    (fun v => v.phase = .running) (fun k => Label.pass (ds k)) hpass hI
  obtain ⟨rc, hrc⟩ := returned_of_reach hreach hstart hstop
  refine ⟨n, w', rc, ?_, hrc⟩
  rw [run, hstep]
  exact hrun

end

def BlockState.toFinish : BlockState → ℕ
  | coding .. => 1
  | finished _ => 0

theorem blockEncoder_halts : blockEncoder.Halts where
  consumed_le := blockContract.consumed_le
  drains := by
    refine Subrelation.wf ?_ (measure fun s : BlockState => s.pending.length).wf
    rintro t s ⟨hmore, -, rfl⟩
    have hpending : s.pending ≠ [] := by simpa [blockEncoder] using hmore
    have hnone : (s.takeOutput).2.pending = [] := by cases s <;> rfl
    change (s.takeOutput).2.pending.length < s.pending.length
    rw [hnone]
    exact List.length_pos_iff.mpr hpending
  finishes := by
    have hfinished {u t : BlockState} (h : ReflTransGen blockEncoder.Takes u t)
        (hu : ∃ p, u = .finished p) : ∃ p, t = .finished p := by
      induction h with
      | refl => exact hu
      | tail _ ht ih =>
        obtain ⟨p, rfl⟩ := ih
        obtain ⟨-, -, rfl⟩ := ht
        exact ⟨[], rfl⟩
    refine Subrelation.wf ?_ (measure BlockState.toFinish).wf
    rintro t s ⟨u, ⟨hmore, -, n, hcall⟩, htakes⟩
    obtain ⟨block, pending, rfl, hleft⟩ := BlockState.compressStream_cases hcall
    obtain rfl : pending = [] := by simpa [blockEncoder, BlockState.pending] using hmore
    -- all of the empty input fits into the block
    have hu : ∃ p, u = .finished p := by
      have hfits : BlockState.compressStream .finish [] (.coding block []) =
          some (0, .finished (block ++ [] ++ [0x03])) := by
        rw [BlockState.compressStream]
        exact if_pos (Nat.zero_le _)
      obtain ⟨-, hstate⟩ := Prod.mk.inj (Option.some.inj (hfits.symm.trans hcall))
      exact ⟨_, hstate.symm⟩
    obtain ⟨p, rfl⟩ := hfinished htakes hu
    exact Nat.zero_lt_one

/-- A next filter that takes nothing, and a chain with an empty link and two marks. -/
theorem call_returns_stalled :
    ∃ n w' rc, run (bodyStep blockEncoder .plain false)
        (.call .fine [⟨[], false, false⟩, ⟨[1, 2, 3], true, false⟩, ⟨[], false, true⟩] ::
          (List.range n).map fun _ => .pass ⟨0, NGX_OK⟩)
            (World.initial ⟨-1, none⟩ false) = some w' ∧
      w'.phase = .returned rc :=
  call_returns blockEncoder_halts .init Phase.noConfusion .fine _ fun _ => ⟨0, NGX_OK⟩

end NgxBrotli
