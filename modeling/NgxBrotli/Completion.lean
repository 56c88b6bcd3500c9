import NgxBrotli.CallTermination
import NgxBrotli.RatioCounters
import NgxBrotli.Schedule

namespace NgxBrotli
open Runs Halting Feed

variable {σ : Type}

theorem Coder.push_cases {enc : Encoder σ} {conf : Conf} {k k' : Coder σ} {b : Buf}
    {rest q' out : List Buf} (h : k.push enc conf b rest = some (k', q', out)) :
    k'.endOfInput = b.lastBuf ∧ q' = rest ∨
      ∃ n, k'.endOfInput = k.endOfInput ∧ q' = { b with bytes := b.bytes.drop n } :: rest := by
  unfold Coder.push at h
  split at h
  · cases h
  case h_2 n s hcall =>
    dsimp only at h
    split at h
    · cases h
    split at h
    · cases h
      exact .inl ⟨rfl, rfl⟩
    split at h
    · cases h
    · cases h
      exact .inr ⟨n, rfl, rfl⟩

theorem Coder.step_cases {enc : Encoder σ} {conf : Conf} {k k' : Coder σ} {q q' out : List Buf}
    (h : k.step enc conf q = some (k', q', out)) :
    k'.endOfInput = k.endOfInput ∧ q' = q ∨ k.endOfInput = false ∧ ∃ b rest, q = b :: rest ∧
      (k'.endOfInput = b.lastBuf ∧ q' = rest ∨
        ∃ n, k'.endOfInput = k.endOfInput ∧ q' = { b with bytes := b.bytes.drop n } :: rest) := by
  unfold Coder.step at h
  split at h
  · split at h
    · cases h
    · cases h
      exact .inl ⟨rfl, rfl⟩
  split at h
  · cases h
  split at h
  · split at h
    · cases h
    · cases h
      exact .inl ⟨rfl, rfl⟩
  case isFalse hend =>
    cases q with
    | nil => cases h
    | cons b rest =>
      exact .inr ⟨Bool.eq_false_of_not_eq_true hend, b, rest, rfl, Coder.push_cases h⟩

def Coder.SeesEnd (k : Coder σ) (q : List Buf) : Prop :=
  k.endOfInput = true ∨ ∃ b ∈ q, b.lastBuf = true

theorem Coder.SeesEnd.step {enc : Encoder σ} {conf : Conf} {k k' : Coder σ} {q q' out : List Buf}
    (hend : k.SeesEnd q) (h : k.step enc conf q = some (k', q', out)) : k'.SeesEnd q' := by
  obtain ⟨hsame, rfl⟩ | ⟨hopen, b, rest, rfl, hread⟩ := Coder.step_cases h
  · rwa [Coder.SeesEnd, hsame]
  obtain hdone | ⟨m, hm, hmark⟩ := hend
  · rw [hopen] at hdone
    cases hdone
  obtain ⟨hlast, rfl⟩ | ⟨n, -, rfl⟩ := hread
  · obtain rfl | hm := List.mem_cons.mp hm
    · exact .inl (hlast.trans hmark)
    · exact .inr ⟨m, hm, hmark⟩
  · obtain rfl | hm := List.mem_cons.mp hm
    · exact .inr ⟨_, List.mem_cons_self, hmark⟩
    · exact .inr ⟨m, List.mem_cons_of_mem _ hm, hmark⟩

section

variable {enc : Encoder σ} {spec : enc.Contract} {conf : Conf} {headerOnly : Bool} {c : FilterCtx}
  {buffered : Bool} {w w' : World σ} {s : σ} {b : Buf}

theorem Follows.opens {c : FilterCtx} (ha : Account spec headerOnly w) (h : Follows enc conf c w)
    (hc : w.ctx.closed = false)
    (hopens : ∃ s, openEncoder enc conf c.contentLength c.dcbDict = .ok s) :
    w.ctx.initialized = true ∨
      ∃ s, openEncoder enc conf w.ctx.contentLength w.ctx.dcbDict = .ok s := by
  cases h with
  | fresh hctx =>
    rw [hctx]
    exact .inr hopens
  | opened _ hs => exact .inl (ha.of_encoder hc hs).2
  | unopened hclosed => simp [hclosed] at hc
  | closed hclosed => simp [hclosed] at hc

end

end NgxBrotli
