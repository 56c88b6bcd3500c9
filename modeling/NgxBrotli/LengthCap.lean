import NgxBrotli.StreamRuns

namespace NgxBrotli
open Runs

variable {σ : Type} {enc : Encoder σ} {conf : Conf} {headerOnly : Bool} {c : FilterCtx}
  {buffered : Bool} {w w' : World σ}

/-- The last call failed, over the cap. -/
def CapAborted (conf : Conf) (w : World σ) : Prop :=
  w.phase = .returned NGX_ERROR ∧ conf.maxLength < w.ctx.bytesIn.toNat

def Conf.uncapped (conf : Conf) : Conf := { conf with maxLength := NGX_CONF_UNSET }

/-- `bytes_in` counts what the encoder consumed; where the stream goes on or succeeded it is within
the cap. -/
structure Capped (conf : Conf) (ctx : BodyCtx σ) (tr : List (Event σ)) : Prop where
  bytesIn : ctx.bytesIn = UInt64.ofNat (fedBytes tr).length
  cap : ctx.closed = false ∨ ctx.success = true → overCap conf ctx.bytesIn = false

theorem toInt_bytesIn {n : ℕ} (h : n < 2 ^ 63) : (UInt64.ofNat n).toInt64.toInt = n := by
  have hn : (n : ℤ).bmod (2 ^ 64) = n := Int.bmod_eq_of_le (by omega) (by omega)
  simpa [Int64.size] using hn

theorem overCap_eq_false_iff {n : ℕ} (hcap : 0 ≤ conf.maxLength) (h : n < 2 ^ 63) :
    overCap conf (UInt64.ofNat n) = false ↔ (n : ℤ) ≤ conf.maxLength := by
  have hset : (conf.maxLength != NGX_CONF_UNSET) = true := by
    rw [bne_iff_ne, NGX_CONF_UNSET]
    omega
  rw [overCap, toInt_bytesIn h, hset, Bool.true_and, decide_eq_false_iff_not, not_lt]

theorem overCap_uncapped (n : UInt64) : overCap conf.uncapped n = false := rfl

theorem Account.success_of_open {spec : enc.Contract} (h : Account spec headerOnly w)
    (hc : w.ctx.closed = false) : w.ctx.success = false := by
  cases h with
  | fresh h =>
    obtain ⟨c, hctx⟩ := h.ctx
    rw [hctx]
    rfl
  | opened _ h => exact h.success
  | closed h => simp [h.closed] at hc

theorem Capped.fail (hsuccess : w.ctx.success = false)
    (hcount : w.ctx.bytesIn = UInt64.ofNat (fedBytes w.trace).length) :
    Capped conf w.fail.ctx w.fail.trace where
  bytesIn := by
    rw [fedBytes, flatMap_fail w fun _ => rfl]
    exact hcount
  cap h := by
    obtain hopen | hdone := h
    · cases hopen
    · have hdone' : w.ctx.success = true := hdone
      rw [hsuccess] at hdone'
      cases hdone'

theorem Capped.quiet {ctx : BodyCtx σ} {tr es : List (Event σ)} (h : Capped conf ctx tr)
    (hes : fedBytes es = []) : Capped conf ctx (tr ++ es) where
  bytesIn := by rw [fedBytes_append, hes, List.append_nil, h.bytesIn]
  cap := h.cap

theorem Capped.count (spec : enc.Contract) {tr : List (Event σ)} {s s' : σ} {op : Operation}
    {input : Bytes} {n : ℕ} {bytesIn : UInt64} (h : bytesIn = UInt64.ofNat (fedBytes tr).length)
    (hcall : enc.compressStream op input s = some (n, s')) :
    bytesIn + UInt64.ofNat n =
      UInt64.ofNat (fedBytes (tr ++ [Event.compress op input n s'])).length := by
  have hfed : fedBytes [Event.compress op input n s'] = input.take n := by simp [fedBytes]
  rw [fedBytes_append, hfed, List.length_append, List.length_take,
    Nat.min_eq_left (spec.consumed_le hcall), UInt64.ofNat_add, h]

theorem Capped.call {spec : enc.Contract} {bufs : List Buf} (h : Capped conf w.ctx w.trace)
    (ha : Account spec headerOnly w) (hcall : StartCase enc conf headerOnly bufs w w') :
    Capped conf w'.ctx w'.trace := by
  have hquiet {es : List (Event σ)}
      (hes : ∀ e ∈ es, (∃ b, e = .header b) ∨ ∃ bufs, e = .append bufs) : fedBytes es = [] :=
    flatMap_startEvents hes (fun _ => rfl) fun _ => rfl
  have hinit {ctx : BodyCtx σ} (hi : Initialized enc conf w.ctx ctx) :
      ctx.bytesIn = w.ctx.bytesIn ∧ ctx.closed = w.ctx.closed ∧ ctx.success = w.ctx.success := by
    cases hi <;> exact ⟨rfl, rfl, rfl⟩
  have hnoted : Capped conf w.ctx (w.trace ++ [Event.call bufs]) := h.quiet rfl
  cases hcall with
  | forwarded => exact h.quiet rfl
  | initFailed hc => exact Capped.fail (ha.success_of_open hc) hnoted.bytesIn
  | @failed ctx w' hc ho hi hacc =>
    obtain ⟨added, bytesOut, sent, es, hctx, htrace, hes⟩ := hacc.frame (.inl rfl)
    obtain ⟨hb, -, hs⟩ := hinit hi
    apply Capped.fail
    · rw [hctx]
      exact hs.trans (ha.success_of_open hc)
    · rw [hctx, htrace, fedBytes_append, hquiet hes, List.append_nil]
      exact hb.trans hnoted.bytesIn
  | @entered ctx w' hc ho hi hacc =>
    obtain ⟨added, bytesOut, sent, es, hctx, htrace, hes⟩ := hacc.frame (.inr rfl)
    obtain ⟨hb, hcl, hs⟩ := hinit hi
    rw [hctx, htrace]
    have := hnoted.quiet (hquiet hes)
    exact ⟨hb.trans this.bytesIn, by rw [hb, hcl, hs]; exact this.cap⟩

theorem Capped.pass (spec : enc.Contract) {d : Downstream} (h : Capped conf w.ctx w.trace)
    (hc : w.ctx.closed = false) (hs : w.ctx.success = false) (hpass : PassCase enc conf d w w') :
    Capped conf w'.ctx w'.trace ∨ w'.phase = .fault := by
  have hoffer (b : Buf) : fedBytes [offerEvent w.ctx b] = [] := by
    obtain he | he := offerEvent_cases w.ctx b <;> rw [he] <;> rfl
  cases hpass with
  | faulted => exact .inr rfl
  | @offered b => exact .inl ⟨(h.quiet (hoffer b)).bytesIn, h.cap⟩
  | @blocked b => exact .inl ⟨(h.quiet (hoffer b)).bytesIn, h.cap⟩
  | @offerFailed b => exact .inl (Capped.fail hs (h.quiet (hoffer b)).bytesIn)
  | took => exact .inl ⟨(h.quiet rfl).bytesIn, h.cap⟩
  | takeFailed => exact .inl (Capped.fail hs (h.quiet rfl).bytesIn)
  | succeeded _ _ he =>
    left
    rw [trace_succeed he]
    exact ⟨(h.quiet rfl).bytesIn, fun _ => h.cap (.inl hc)⟩
  | finishing => exact .inl ⟨(h.quiet (by simp [fedBytes])).bytesIn, h.cap⟩
  | callFailed => exact .inl (Capped.fail (w := { w with buffered := true }) hs h.bytesIn)
  | idle => exact .inl ⟨h.bytesIn, h.cap⟩
  | skipped => exact .inl ⟨h.bytesIn, h.cap⟩
  | popped hq hend hin hcall hcap =>
    -- the cap is checked after the count, before the buffer leaves the chain
    left
    have hcount := Capped.count spec h.bytesIn hcall
    refine ⟨?_, fun _ => hcap⟩
    rw [hcount, fedBytes_append, fedBytes_append]
    rfl
  | pushed hq hend hin hcall hcap =>
    exact .inl ⟨Capped.count spec h.bytesIn hcall, fun _ => hcap⟩
  | pushFailed hq hend hin hcall hwhy =>
    exact .inl (Capped.fail hs (Capped.count spec h.bytesIn hcall))

theorem capped_of_reach (spec : enc.Contract) (hcap : 0 ≤ conf.maxLength)
    (h : Reachable (bodyStep enc conf headerOnly) (World.initial c buffered) w) :
    Capped conf w.ctx w.trace := by
  refine invariant_of_reach (I := fun w => Capped conf w.ctx w.trace) spec
    ⟨rfl, fun _ => ?_⟩ ?_ ?_ h
  · exact (overCap_eq_false_iff (n := 0) hcap (by decide)).mpr (by simpa using hcap)
  · intro o bufs w w' ha _ hi hcase
    exact hi.call ha hcase
  · intro d w w' ha hrun _ hi hcase hsafe
    obtain ⟨-, s, b, ho, -⟩ := ha.opened_of_running hrun
    exact (hi.pass spec ho.closed ho.success hcase).resolve_right hsafe

theorem overCap_step {l : Label} (hstep : bodyStep enc conf headerOnly l w = some w')
    (hover : overCap conf w'.ctx.bytesIn = true) :
    overCap conf w.ctx.bytesIn = true ∨ w'.phase = .returned NGX_ERROR ∨ w'.phase = .fault := by
  obtain ⟨-, -, o, bufs, rfl, hcase⟩ | ⟨-, d, rfl, hcase⟩ := bodyStep_cases hstep
  · cases hcase with
    | forwarded => exact .inl hover
    | initFailed => exact .inl hover
    | failed => exact .inr (.inl rfl)
    | @entered ctx w' hc ho hi hacc =>
      left
      obtain ⟨added, bytesOut, sent, es, hctx, -, -⟩ := hacc.frame (.inr rfl)
      rw [hctx] at hover
      cases hi <;> exact hover
  · cases hcase with
    | faulted => exact .inr (.inr rfl)
    | offerFailed => exact .inr (.inl rfl)
    | takeFailed => exact .inr (.inl rfl)
    | callFailed => exact .inr (.inl rfl)
    | pushFailed => exact .inr (.inl rfl)
    | popped hq hend hin hcall hcap => exact absurd hover (Bool.not_eq_true _ ▸ hcap)
    | pushed hq hend hin hcall hcap => exact absurd hover (Bool.not_eq_true _ ▸ hcap)
    | offered => exact .inl hover
    | blocked => exact .inl hover
    | took => exact .inl hover
    | succeeded => exact .inl hover
    | finishing => exact .inl hover
    | idle => exact .inl hover
    | skipped => exact .inl hover

theorem pushInput_uncapped {s : σ} {b : Buf} {rest : List Buf}
    (h : overCap conf (pushInput enc conf s b rest w).ctx.bytesIn = false) :
    pushInput enc conf.uncapped s b rest w = pushInput enc conf s b rest w := by
  unfold pushInput at h ⊢
  cases hcall : enc.compressStream b.operation b.bytes s with
  | none => rfl
  | some r =>
    rw [hcall] at h
    dsimp only at h ⊢
    by_cases hover : overCap conf (w.ctx.bytesIn + UInt64.ofNat r.1) = true
    · rw [if_pos hover] at h
      cases hover.symm.trans h
    · rw [if_neg hover, overCap_uncapped, if_neg Bool.false_ne_true]

theorem pass_uncapped {d : Downstream} (h : overCap conf (pass enc conf d w).ctx.bytesIn = false) :
    pass enc conf.uncapped d w = pass enc conf d w := by
  unfold pass at h ⊢
  split
  · rfl
  case isFalse hout =>
    rw [if_neg hout] at h
    split
    · rfl
    case h_2 s hs =>
      rw [hs] at h
      dsimp only at h
      split
      · rfl
      case isFalse hmore =>
        rw [if_neg hmore] at h
        split
        · rfl
        case isFalse hfinished =>
          rw [if_neg hfinished] at h
          split
          · rfl
          case isFalse hend =>
            rw [if_neg hend] at h
            split
            · rfl
            case h_2 b rest hin =>
              rw [hin] at h
              dsimp only at h
              split
              · rfl
              case isFalse hempty =>
                rw [if_neg hempty] at h
                exact pushInput_uncapped h

theorem bodyStep_uncapped {l : Label} (h : bodyStep enc conf headerOnly l w = some w')
    (hcap : overCap conf w'.ctx.bytesIn = false) :
    bodyStep enc conf.uncapped headerOnly l w = some w' := by
  cases l with
  | call o bufs => exact h
  | pass d =>
    cases hp : w.phase with
    | running =>
      rw [bodyStep, hp] at h ⊢
      obtain rfl := Option.some.inj h
      exact congrArg some (pass_uncapped hcap)
    | start => simp [bodyStep, hp] at h
    | returned rc => simp [bodyStep, hp] at h
    | fault => simp [bodyStep, hp] at h

def bodyLength (w : World σ) : ℕ := (bodyBytes (suppliedBufs w.trace)).length

theorem fed_le_bodyLength (spec : enc.Contract)
    (h : Reachable (bodyStep enc conf headerOnly) (World.initial c buffered) w) :
    (fedBytes w.trace).length ≤ bodyLength w :=
  (fed_isPrefix spec h).length_le

theorem bodyLength_step (spec : enc.Contract) {l : Label}
    (hw : Reachable (bodyStep enc conf headerOnly) (World.initial c buffered) w)
    (h : bodyStep enc conf headerOnly l w = some w') : bodyLength w ≤ bodyLength w' := by
  have hsafe := phase_ne_fault spec (hw.step trivial h)
  have htrace : w.trace <+: w'.trace := by
    obtain ⟨-, -, o, bufs, -, hcase⟩ | ⟨-, d, -, hcase⟩ := bodyStep_cases h
    · exact hcase.trace_prefix
    · obtain ⟨es, htrace, -⟩ := hcase.trace_append.resolve_left hsafe
      exact ⟨es, htrace.symm⟩
  obtain ⟨es, hes⟩ := htrace
  rw [bodyLength, bodyLength, ← hes, suppliedBufs_append, bodyBytes_append, List.length_append]
  exact Nat.le_add_right _ _

section

variable (spec : enc.Contract) (hcap : 0 ≤ conf.maxLength)
include spec hcap

theorem overCap_iff_fed (h : Reachable (bodyStep enc conf headerOnly) (World.initial c buffered) w)
    (htotal : bodyLength w < 2 ^ 63) :
    overCap conf w.ctx.bytesIn = false ↔ ((fedBytes w.trace).length : ℤ) ≤ conf.maxLength := by
  rw [(capped_of_reach spec hcap h).bytesIn]
  exact overCap_eq_false_iff hcap ((fed_le_bodyLength spec h).trans_lt htotal)

theorem toNat_bytesIn (h : Reachable (bodyStep enc conf headerOnly) (World.initial c buffered) w)
    (htotal : bodyLength w < 2 ^ 63) : w.ctx.bytesIn.toNat = (fedBytes w.trace).length := by
  have hfed := fed_le_bodyLength spec h
  rw [(capped_of_reach spec hcap h).bytesIn, UInt64.toNat_ofNat']
  exact Nat.mod_eq_of_lt (by omega)

theorem returned_error_of_overCap
    (h : Reach (bodyStep enc conf headerOnly) (fun _ w => ¬CapAborted conf w)
      (World.initial c buffered) w)
    (htotal : bodyLength w < 2 ^ 63) (hover : conf.maxLength < w.ctx.bytesIn.toNat) :
    w.phase = .returned NGX_ERROR := by
  induction h with
  | init =>
    have : conf.maxLength < 0 := hover
    omega
  | @step w w' l hw hno hstep ih =>
    have hw' := hw.reachable.step trivial hstep
    have htotal' := (bodyLength_step spec hw.reachable hstep).trans_lt htotal
    have hover' : overCap conf w'.ctx.bytesIn = true := by
      rw [← Bool.not_eq_false, overCap_iff_fed spec hcap hw' htotal,
        ← toNat_bytesIn spec hcap hw' htotal]
      omega
    obtain hbefore | herror | hfault := overCap_step hstep hover'
    · -- the call before failed over the cap, and none follows it
      rw [← Bool.not_eq_false, overCap_iff_fed spec hcap hw.reachable htotal',
        ← toNat_bytesIn spec hcap hw.reachable htotal', not_le] at hbefore
      exact absurd ⟨ih htotal' hbefore, hbefore⟩ hno
    · exact herror
    · exact absurd hfault (phase_ne_fault spec hw')

end

/-- In runs that end with the call that failed over the cap, if there is one, every call that
returns `NGX_OK` or `NGX_AGAIN` leaves `bytes_in` within the cap.  A body that is longer than the
cap never succeeds; with a body within the cap a run is the run without the cap. -/
theorem maxLength_caps (spec : enc.Contract) (hcap : 0 ≤ conf.maxLength) :
    (∀ w, Reach (bodyStep enc conf headerOnly) (fun _ w => ¬CapAborted conf w)
        (World.initial c buffered) w →
      bodyLength w < 2 ^ 63 → w.phase = .returned NGX_OK ∨ w.phase = .returned NGX_AGAIN →
      (w.ctx.bytesIn.toNat : ℤ) ≤ conf.maxLength) ∧
    (∀ w, Reachable (bodyStep enc conf headerOnly) (World.initial c buffered) w →
      bodyLength w < 2 ^ 63 → FinalOnly (suppliedBufs w.trace) → conf.maxLength < bodyLength w →
      w.ctx.success = false) ∧
    ∀ labels w, run (bodyStep enc conf headerOnly) labels (World.initial c buffered) = some w →
      bodyLength w < 2 ^ 63 → (bodyLength w : ℤ) ≤ conf.maxLength →
      run (bodyStep enc conf.uncapped headerOnly) labels (World.initial c buffered) = some w := by
  refine ⟨fun w h htotal hret => ?_, fun w h htotal hfinal hlong => ?_,
    fun labels w hrun htotal hshort => ?_⟩
  · by_contra hover
    have herror := returned_error_of_overCap spec hcap h htotal (not_le.mp hover)
    rw [herror] at hret
    obtain hret | hret := hret <;> cases hret
  · rw [← Bool.not_eq_true]
    intro hs
    have hfed := (complete_of_success spec h hs hfinal).fed
    have hwithin := (overCap_iff_fed spec hcap h htotal).mp
      ((capped_of_reach spec hcap h).cap (.inr hs))
    rw [hfed] at hwithin
    exact absurd hwithin (not_le.mpr hlong)
  · -- the body only grows, so every state of the run is within the cap
    let J (w : World σ) : Prop := bodyLength w < 2 ^ 63 ∧ (bodyLength w : ℤ) ≤ conf.maxLength
    refine (run_transfer (J := J) ?_ ?_ .init hrun ⟨htotal, hshort⟩).1
    · intro l s t hs hstep hJ
      have hle := bodyLength_step spec hs hstep
      obtain ⟨ht, hm⟩ := hJ
      exact ⟨by omega, by omega⟩
    · intro l s t hs hstep hJ
      have ht := hs.step trivial hstep
      obtain ⟨htotal, hshort⟩ := hJ
      apply bodyStep_uncapped hstep
      rw [overCap_iff_fed spec hcap ht htotal]
      have := fed_le_bodyLength spec ht
      omega

/-- Three bytes against a cap of two. -/
theorem maxLength_caps_sample :
    let conf : Conf := { Conf.plain with maxLength := 2 }
    let labels : List Label := [.call .fine [⟨[1, 2, 3], false, true⟩], .pass ⟨64, NGX_OK⟩]
    ∃ w : World BlockState,
      run (bodyStep blockEncoder conf false) labels (World.initial ⟨-1, none⟩ false) = some w ∧
        w.ctx.success = false := by
  intro conf labels
  have hrun : ∃ w : World BlockState,
      run (bodyStep blockEncoder conf false) labels (World.initial ⟨-1, none⟩ false) = some w ∧
        FinalOnly (suppliedBufs w.trace) ∧ bodyLength w = 3 := ⟨_, rfl, by decide, rfl⟩
  obtain ⟨w, hw, hfinal, hlength⟩ := hrun
  have hcap : 0 ≤ conf.maxLength := by decide
  refine ⟨w, hw, (maxLength_caps blockContract hcap).2.1 w (Reachable.run .init hw) ?_ hfinal ?_⟩
  · omega
  · rw [hlength]
    decide

/-- A call after the one that failed over the cap is handed on, and may return `NGX_OK`. -/
theorem maxLength_exceeded :
    ¬∀ (σ : Type) (enc : Encoder σ) (_ : enc.Contract) (conf : Conf) (headerOnly : Bool)
      (c : FilterCtx) (buffered : Bool) (w : World σ), 0 ≤ conf.maxLength →
      Reachable (bodyStep enc conf headerOnly) (World.initial c buffered) w →
      bodyLength w < 2 ^ 63 → w.phase = .returned NGX_OK ∨ w.phase = .returned NGX_AGAIN →
      (w.ctx.bytesIn.toNat : ℤ) ≤ conf.maxLength := by
  intro h
  let conf : Conf := { Conf.plain with maxLength := 0 }
  let labels : List Label := [.call .fine [⟨[1], false, false⟩], .pass ⟨64, NGX_OK⟩, .call .fine []]
  have hrun : ∃ w, run (bodyStep blockEncoder conf false) labels
      (World.initial ⟨-1, none⟩ false) = some w ∧ w.phase = .returned NGX_OK ∧
        bodyLength w = 1 ∧ w.ctx.bytesIn.toNat = 1 := ⟨_, rfl, rfl, rfl, rfl⟩
  obtain ⟨w, hw, hret, hlength, hin⟩ := hrun
  have hle := h _ blockEncoder blockContract conf false ⟨-1, none⟩ false w le_rfl
    (Reachable.run .init hw) (by omega) (.inl hret)
  rw [hin] at hle
  exact absurd hle (by decide)

end NgxBrotli
