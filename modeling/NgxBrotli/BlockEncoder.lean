import NgxBrotli.StreamAccount

/-!
# An encoder that meets the contract

Blocks of two bytes, stored.  As in `BrotliEncoderCompressStream`, input is copied to the block as
long as there is room, and a block is compressed only when no output is pending; a FLUSH that fills
a block on its way leaves its rest in the next block and has to be called again.
-/

namespace NgxBrotli

/-- The block being filled and the output that is pending. -/
inductive BlockState
  | coding (block pending : Bytes)
  | finished (pending : Bytes)
  deriving DecidableEq, Repr

namespace BlockState

def pending : BlockState → Bytes
  | coding _ pending => pending
  | finished pending => pending

def held : BlockState → ℕ
  | coding block _ => block.length
  | finished _ => 0

def isFinished : BlockState → Bool
  | coding .. => false
  | finished pending => pending.isEmpty

def takeOutput : BlockState → Bytes × BlockState
  | coding block pending => (pending, coding block [])
  | finished pending => (pending, finished [])

def perform (op : Operation) (block pending : Bytes) : BlockState :=
  if pending ≠ [] then coding block pending
  else
    match op with
    | .process => coding block []
    | .flush => coding [] block
    | .finish => finished (block ++ [0x03])

def compressStream (op : Operation) (input : Bytes) : BlockState → Option (ℕ × BlockState)
  | finished _ => none
  | coding block pending =>
    let room := 2 - block.length
    if input.length ≤ room then some (input.length, perform op (block ++ input) pending)
    else if pending ≠ [] then some (room, coding (block ++ input.take room) pending)
    else
      let rest := input.drop room
      some (room + (rest.take 2).length, coding (rest.take 2) (block ++ input.take room))

end BlockState

def blockEncoder : Encoder BlockState where
  createInstance := some (.coding [] [])
  setParameter _ _ s := some s
  attachDictionary _ _ s := some s
  compressStream := BlockState.compressStream
  hasMoreOutput s := !s.pending.isEmpty
  takeOutput := BlockState.takeOutput
  isFinished := BlockState.isFinished

namespace BlockState

variable {op : Operation} {input : Bytes} {n : ℕ} {s s' : BlockState}

/-- What a call leaves: everything taken, or a full block as output. -/
theorem compressStream_cases (h : compressStream op input s = some (n, s')) :
    ∃ block pending, s = coding block pending ∧
      (n = input.length ∧ s' = perform op (block ++ input) pending ∨
        n ≤ input.length ∧ ∃ block' pending', s' = coding block' pending' ∧ pending' ≠ []) := by
  cases s with
  | finished pending => simp [compressStream] at h
  | coding block pending =>
    refine ⟨block, pending, rfl, ?_⟩
    simp only [compressStream] at h
    split at h
    · obtain ⟨rfl, rfl⟩ := Prod.mk.inj (Option.some.inj h)
      exact .inl ⟨rfl, rfl⟩
    case isFalse hroom =>
      right
      split at h
      case isTrue hp =>
        obtain ⟨rfl, rfl⟩ := Prod.mk.inj (Option.some.inj h)
        exact ⟨by omega, _, _, rfl, hp⟩
      case isFalse =>
        obtain ⟨rfl, rfl⟩ := Prod.mk.inj (Option.some.inj h)
        refine ⟨by rw [List.length_take, List.length_drop]; omega, _, _, rfl, fun hnil => ?_⟩
        have := congrArg List.length hnil
        rw [List.length_append, List.length_take, List.length_nil] at this
        omega

theorem perform_finished {block pending pending' : Bytes}
    (h : perform op block pending = finished pending') : op = .finish ∧ pending' ≠ [] := by
  unfold perform at h
  split at h
  · cases h
  · cases op with
    | process => cases h
    | flush => cases h
    | finish => exact ⟨rfl, finished.inj h ▸ List.append_ne_nil_of_right_ne_nil _ (by decide)⟩

end BlockState

def blockContract : blockEncoder.Contract where
  finished s := ∃ pending, s = .finished pending
  held := BlockState.held
  isFinished_iff s := by
    cases s <;> simp [blockEncoder, BlockState.isFinished, BlockState.pending]
  created h := by
    obtain rfl := Option.some.inj h
    simp
  parameter h := by
    obtain rfl := Option.some.inj h
    exact id
  dictionary h := by
    obtain rfl := Option.some.inj h
    exact id
  consumed_le h := by
    obtain ⟨_, _, -, ⟨rfl, -⟩ | ⟨hn, -⟩⟩ := BlockState.compressStream_cases h
    · exact le_rfl
    · exact hn
  finishes h := by
    rintro ⟨pending, rfl⟩
    right
    obtain ⟨_, _, -, ⟨rfl, hs⟩ | ⟨-, _, _, hs, -⟩⟩ := BlockState.compressStream_cases h
    · obtain ⟨rfl, hp⟩ := BlockState.perform_finished hs.symm
      exact ⟨rfl, rfl, by simpa [blockEncoder, BlockState.pending] using hp⟩
    · cases hs
  flushes h hn hmore := by
    obtain ⟨block, pending, -, ⟨-, rfl⟩ | ⟨-, _, _, rfl, hp⟩⟩ := BlockState.compressStream_cases h
    · by_cases hp : pending = []
      · simp [BlockState.perform, hp, BlockState.held]
      · simp [blockEncoder, BlockState.perform, hp, BlockState.pending] at hmore
    · simp [blockEncoder, BlockState.pending, hp] at hmore
  progress h hmore := by
    right
    obtain ⟨block, pending, rfl, ⟨hn, rfl⟩ | ⟨-, _, _, rfl, hp⟩⟩ :=
      BlockState.compressStream_cases h
    · refine .inr ⟨hn, ?_⟩
      rintro rfl
      have hp : pending = [] := by simpa [blockEncoder, BlockState.pending] using hmore
      exact ⟨_, by rw [BlockState.perform, if_neg (not_not.mpr hp)]⟩
    · exact .inl (by simpa [blockEncoder, BlockState.pending] using hp)
  taken_finished s := by cases s <;> simp [blockEncoder, BlockState.takeOutput]
  taken_held s := by cases s <;> rfl
  finished_held := by
    rintro s ⟨pending, rfl⟩
    rfl

end NgxBrotli
