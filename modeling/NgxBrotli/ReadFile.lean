import NgxBrotli.Kernel

/-- Bytes by their address. -/
abbrev Memory := ℕ → UInt8

namespace Memory

/-- `chunk` written from `p` on. -/
def store (m : Memory) (p : ℕ) (chunk : List UInt8) : Memory := fun i =>
  if p ≤ i then (chunk[i - p]?).getD (m i) else m i

/-- The `n` bytes from `p` on. -/
def load (m : Memory) (p n : ℕ) : List UInt8 := (List.range n).map fun i => m (p + i)

variable {m : Memory} {p n i : ℕ} {a b : List UInt8}

@[simp] theorem length_load : (m.load p n).length = n := by
  rw [load, List.length_map, List.length_range]

@[simp] theorem store_nil : m.store p [] = m := by
  funext i
  simp [store]

theorem store_of_lt (hi : i < p) : m.store p a i = m i := if_neg (by omega)

theorem store_add (hi : i < a.length) : m.store p a (p + i) = a[i] := by
  rw [store, if_pos (by omega), Nat.add_sub_cancel_left, List.getElem?_eq_getElem hi,
    Option.getD_some]

theorem store_of_ge (hi : p + a.length ≤ i) : m.store p a i = m i := by
  rw [store, if_pos (by omega), List.getElem?_eq_none (by omega), Option.getD_none]

theorem store_append : (m.store p a).store (p + a.length) b = m.store p (a ++ b) := by
  funext i
  obtain hlt | hge := Nat.lt_or_ge i (p + a.length)
  · rw [store_of_lt hlt]
    obtain hp | hp := Nat.lt_or_ge i p
    · rw [store_of_lt hp, store_of_lt hp]
    · rw [store, store, if_pos hp, if_pos hp, List.getElem?_append_left (by omega)]
  · rw [store, if_pos hge, store_of_ge hge, store, if_pos (by omega),
      List.getElem?_append_right (by omega), Nat.sub_sub]

theorem load_add (k : ℕ) : m.load p (n + k) = m.load p n ++ m.load (p + n) k := by
  rw [load, List.range_add, List.map_append, List.map_map]
  apply congrArg
  exact List.map_congr_left fun i _ => congrArg m (Nat.add_assoc p n i).symm

theorem load_store : (m.store p a).load p a.length = a := by
  apply List.ext_getElem length_load
  intro i hi hia
  rw [length_load] at hi
  simp only [load, List.getElem_map, List.getElem_range]
  exact store_add hi

theorem load_store_of_le (h : p + n ≤ i) : (m.store i a).load p n = m.load p n := by
  apply List.map_congr_left
  intro k hk
  exact store_of_lt (by have := List.mem_range.mp hk; omega)

end Memory

namespace NgxBrotli

/-- `ngx_http_brotli_read_dict_file` from the turn at `done` on, with what it returns, the memory
then and the answers that were not asked for; `none` where the answers do not reach its end. -/
def readDictFileInto (buf size : ℕ) :
    ℕ → Memory → List ReadAnswer → Option (Int × Memory × List ReadAnswer)
  | done, mem, [] => if done < size then none else some (done, mem, [])
  | done, mem, a :: as =>
    if done < size then
      match a with
      | .interrupted => readDictFileInto buf size done mem as
      | .failed => some (-1, mem, as)
      | .data chunk =>
        if chunk = [] then some (done, mem, as)
        else readDictFileInto buf size (done + chunk.length) (mem.store (buf + done) chunk) as
    else some (done, mem, a :: as)

def ReadAnswer.bytes : ReadAnswer → Bytes
  | .data chunk => chunk
  | _ => []

/-- The bytes of all answers, in order. -/
def delivered (answers : List ReadAnswer) : Bytes := answers.flatMap ReadAnswer.bytes

/-- The end of file and the errors that are not an interrupt. -/
def ReadAnswer.stops : ReadAnswer → Bool
  | .data chunk => chunk.isEmpty
  | .interrupted => false
  | .failed => true

/-- The bytes of the reads before any end of file or hard error. -/
def successes (answers : List ReadAnswer) : Bytes := delivered (answers.takeWhile fun a => !a.stops)

@[simp] theorem successes_nil : successes [] = [] := rfl

theorem successes_stop {a : ReadAnswer} (h : a.stops = true) (as : List ReadAnswer) :
    successes (a :: as) = [] := by
  rw [successes, List.takeWhile_cons_of_neg (by simp [h])]
  rfl

theorem successes_cons {a : ReadAnswer} (h : a.stops = false) (as : List ReadAnswer) :
    successes (a :: as) = a.bytes ++ successes as := by
  rw [successes, List.takeWhile_cons_of_pos (by simp [h])]
  exact List.flatMap_cons

theorem stops_data {chunk : Bytes} (h : chunk ≠ []) : (ReadAnswer.data chunk).stops = false :=
  List.isEmpty_eq_false_iff.mpr h

/-- From `done` on, no read is answered with more than it asks for. -/
def Fits (size : ℕ) : ℕ → List ReadAnswer → Prop
  | _, [] => True
  | done, .interrupted :: as => Fits size done as
  | _, .failed :: _ => True
  | done, .data chunk :: as =>
    done < size → chunk.length ≤ size - done ∧ (chunk ≠ [] → Fits size (done + chunk.length) as)

/-- How the loop ended after the answers `used`, which brought the total to `total`. -/
inductive ReadEnd (size total : ℕ) (used : List ReadAnswer) : Int → Prop
  | complete (hsize : total = size) (heof : .data [] ∉ used) (herr : .failed ∉ used) :
    ReadEnd size total used size
  | eof (hsize : total < size) (heof : .data [] ∈ used) (herr : .failed ∉ used) :
    ReadEnd size total used total
  | failed (hsize : total < size) (heof : .data [] ∉ used) (herr : .failed ∈ used) :
    ReadEnd size total used (-1)

theorem ReadEnd.cons {size total : ℕ} {used : List ReadAnswer} {rc : Int} {a : ReadAnswer}
    (h : ReadEnd size total used rc) (heof : a ≠ .data []) (herr : a ≠ .failed) :
    ReadEnd size total (a :: used) rc := by
  have hiff {x : ReadAnswer} (hx : a ≠ x) : x ∈ a :: used ↔ x ∈ used := by
    rw [List.mem_cons, or_iff_right hx.symm]
  cases h with
  | complete hs h₁ h₂ => exact .complete hs (mt (hiff heof).mp h₁) (mt (hiff herr).mp h₂)
  | eof hs h₁ h₂ => exact .eof hs ((hiff heof).mpr h₁) (mt (hiff herr).mp h₂)
  | failed hs h₁ h₂ => exact .failed hs (mt (hiff heof).mp h₁) ((hiff herr).mpr h₂)

section

variable {buf size done : ℕ} {mem mem' : Memory} {as rest : List ReadAnswer} {rc : Int}

/-- Offset and rest stay in step: what was read so far is in the buffer, and nothing else was
written. -/
theorem readDictFileInto_spec (hfit : Fits size done as) (hdone : done ≤ size)
    (h : readDictFileInto buf size done mem as = some (rc, mem', rest)) :
    ∃ used, as = used ++ rest ∧ mem' = mem.store (buf + done) (delivered used) ∧
      delivered used = (successes as).take (size - done) ∧
      ReadEnd size (done + (delivered used).length) used rc := by
  induction as generalizing done mem with
  | nil =>
    rw [readDictFileInto] at h
    split at h
    · cases h
    case isFalse hge =>
      obtain ⟨rfl, rfl, rfl⟩ : (done : Int) = rc ∧ mem = mem' ∧ [] = rest := by simpa using h
      obtain rfl : done = size := by omega
      exact ⟨[], rfl, Memory.store_nil.symm, by simp [delivered], .complete rfl (by simp) (by simp)⟩
  | cons a as ih =>
    rw [readDictFileInto.eq_def] at h
    dsimp only at h
    split at h
    case isFalse hge =>
      obtain ⟨rfl, rfl, rfl⟩ : (done : Int) = rc ∧ mem = mem' ∧ a :: as = rest := by simpa using h
      obtain rfl : done = size := by omega
      exact ⟨[], rfl, Memory.store_nil.symm, by simp [delivered], .complete rfl (by simp) (by simp)⟩
    case isTrue hlt =>
    cases a with
    | interrupted =>
      obtain ⟨used, rfl, hmem, htake, hend⟩ := ih hfit hdone h
      exact ⟨.interrupted :: used, rfl, hmem, htake, hend.cons (by simp) (by simp)⟩
    | failed =>
      obtain ⟨rfl, rfl, rfl⟩ : -1 = rc ∧ mem = mem' ∧ as = rest := by simpa using h
      rw [successes_stop rfl, List.take_nil]
      exact ⟨[.failed], rfl, Memory.store_nil.symm, rfl, .failed hlt (by simp) (by simp)⟩
    | data chunk =>
      obtain ⟨hlen, hrest⟩ := hfit hlt
      dsimp only at h
      split at h
      case isTrue hnil =>
        obtain ⟨rfl, rfl, rfl⟩ : (done : Int) = rc ∧ mem = mem' ∧ as = rest := by simpa using h
        subst hnil
        rw [successes_stop rfl, List.take_nil]
        exact ⟨[.data []], rfl, Memory.store_nil.symm, rfl, .eof hlt (by simp) (by simp)⟩
      case isFalse hne =>
        obtain ⟨used, rfl, hmem, htake, hend⟩ := ih (hrest hne) (by omega) h
        have hcons : delivered (.data chunk :: used) = chunk ++ delivered used := List.flatMap_cons
        refine ⟨.data chunk :: used, rfl, ?_, ?_, ?_⟩
        · rw [hmem, ← Nat.add_assoc, Memory.store_append, hcons]
        · rw [hcons, successes_cons (stops_data hne), List.take_append, htake, Nat.sub_sub]
          exact congrArg (· ++ _) (List.take_of_length_le hlen).symm
        · rw [hcons, List.length_append, ← Nat.add_assoc]
          exact hend.cons (by simpa using hne) (by simp)

/-- The outcomes are enough where they fill the buffer, or end the loop before. -/
theorem readDictFileInto_enough :
    (∃ r, readDictFileInto buf size done mem as = some r) ↔
      size ≤ done + (successes as).length ∨ ∃ a ∈ as, a.stops = true := by
  induction as generalizing done mem with
  | nil =>
    rw [readDictFileInto]
    split
    case isTrue hlt => exact iff_of_false (by simp) (by simp; omega)
    case isFalse hge => exact iff_of_true ⟨_, rfl⟩ (.inl (by simp; omega))
  | cons a as ih =>
    rw [readDictFileInto.eq_def]
    dsimp only
    split
    case isFalse hge => exact iff_of_true ⟨_, rfl⟩ (.inl (by omega))
    case isTrue hlt =>
    cases a with
    | interrupted =>
      rw [List.exists_mem_cons_iff, successes_cons rfl]
      exact ih.trans (or_congr_right (or_iff_right Bool.false_ne_true).symm)
    | failed => exact iff_of_true ⟨_, rfl⟩ (.inr ⟨_, List.mem_cons_self, rfl⟩)
    | data chunk =>
      dsimp only
      split
      case isTrue hnil =>
        exact iff_of_true ⟨_, rfl⟩ (.inr ⟨_, List.mem_cons_self, List.isEmpty_iff.mpr hnil⟩)
      case isFalse hne =>
        rw [List.exists_mem_cons_iff, successes_cons (stops_data hne), List.length_append,
          ← Nat.add_assoc, stops_data hne, ih]
        exact or_congr_right (or_iff_right Bool.false_ne_true).symm

theorem readDictFileInto_filter (as : List ReadAnswer) :
    (readDictFileInto buf size done mem as).map (fun r => (r.1, r.2.1)) =
      (readDictFileInto buf size done mem (as.filter (· ≠ .interrupted))).map
        fun r => (r.1, r.2.1) := by
  induction as generalizing done mem with
  | nil => rfl
  | cons a as ih =>
    by_cases hlt : done < size
    · cases a with
      | interrupted =>
        rw [List.filter_cons_of_neg (by simp), ← ih, readDictFileInto.eq_def]
        dsimp only
        rw [if_pos hlt]
      | failed =>
        rw [List.filter_cons_of_pos (by simp), readDictFileInto, readDictFileInto, if_pos hlt,
          if_pos hlt]
        rfl
      | data chunk =>
        rw [List.filter_cons_of_pos (by simp), readDictFileInto, readDictFileInto, if_pos hlt,
          if_pos hlt]
        split
        · rfl
        · exact ih
    · -- the loop has ended, whatever answers are left
      have hstop (l : List ReadAnswer) :
          readDictFileInto buf size done mem l = some ((done : Int), mem, l) := by
        cases l <;> rw [readDictFileInto.eq_def] <;> exact if_neg hlt
      rw [hstop, hstop]
      rfl

/-- The bytes of the loader's model are those in the buffer. -/
theorem readDictFile_eq_load (hfit : Fits size done as) :
    readDictFile size (mem.load buf done) as =
      (readDictFileInto buf size done mem as).map fun r =>
        if r.1 < 0 then none else some (r.2.1.load buf r.1.toNat) := by
  have hret (d : ℕ) (m : Memory) (l : List ReadAnswer) :
      (some ((d : Int), m, l)).map (fun r : Int × Memory × List ReadAnswer =>
        if r.1 < 0 then none else some (r.2.1.load buf r.1.toNat)) =
          some (some (m.load buf d)) := by
    rw [Option.map_some, if_neg (by simp), Int.toNat_natCast]
  induction as generalizing done mem with
  | nil =>
    rw [readDictFile, readDictFileInto, Memory.length_load]
    split
    · rfl
    · exact (hret done mem []).symm
  | cons a as ih =>
    rw [readDictFile.eq_def, readDictFileInto.eq_def, Memory.length_load]
    dsimp only
    split
    case isFalse => exact (hret done mem _).symm
    case isTrue hlt =>
    cases a with
    | interrupted => exact ih hfit
    | failed => rfl
    | data chunk =>
      obtain ⟨hlen, hrest⟩ := hfit hlt
      dsimp only
      split
      · exact (hret done mem as).symm
      case isFalse hne =>
        rw [← ih (hrest hne), List.take_of_length_le hlen, Memory.load_add,
          Memory.load_store_of_le (Nat.le_refl _), Memory.load_store]

/-- Over any outcomes: they are enough where the reads before an end of file or an error fill the
buffer, or where there is one of the two.  Then the total is `size` exactly where these reads add up
to it, an early end of file gives the part that was read, and an error -1; the buffer holds what was
read and no other byte is written; interrupts change nothing. -/
theorem read_dict_file_exact (hfit : Fits size 0 as) :
    ((∃ r, readDictFileInto buf size 0 mem as = some r) ↔
      size ≤ (successes as).length ∨ ∃ a ∈ as, a.stops = true) ∧
    ∀ rc mem' rest, readDictFileInto buf size 0 mem as = some (rc, mem', rest) →
      ∃ used, as = used ++ rest ∧ delivered used = (successes as).take size ∧
        ReadEnd size (delivered used).length used rc ∧
        (rc = size ↔ size ≤ (successes as).length) ∧
        mem'.load buf (delivered used).length = delivered used ∧
        (∀ i, i < buf ∨ buf + size ≤ i → mem' i = mem i) ∧
        ∀ as' : List ReadAnswer, as'.filter (· ≠ .interrupted) = as.filter (· ≠ .interrupted) →
          ∃ rest', readDictFileInto buf size 0 mem as' = some (rc, mem', rest') := by
  refine ⟨by rw [readDictFileInto_enough, Nat.zero_add], fun rc mem' rest h => ?_⟩
  obtain ⟨used, hused, rfl, htake, hend⟩ := readDictFileInto_spec hfit (Nat.zero_le size) h
  rw [Nat.zero_add] at hend
  rw [Nat.sub_zero] at htake
  rw [Nat.add_zero] at *
  have hlen : (delivered used).length = min size (successes as).length := by
    rw [htake, List.length_take]
  refine ⟨used, hused, htake, hend, ?_, Memory.load_store, ?_, ?_⟩
  · cases hend <;> omega
  · rintro i (hi | hi)
    · exact Memory.store_of_lt hi
    · exact Memory.store_of_ge (by omega)
  · intro as' has'
    have heq : (readDictFileInto buf size 0 mem as').map (fun r => (r.1, r.2.1)) = _ :=
      readDictFileInto_filter as'
    rw [has', ← readDictFileInto_filter, h, Option.map_some, Option.map_eq_some_iff] at heq
    obtain ⟨⟨rc', mem'', rest'⟩, hr, he⟩ := heq
    obtain ⟨hrc, hmem⟩ := Prod.mk.inj he
    dsimp only at hrc hmem
    exact ⟨rest', by rw [hr, hrc, hmem]⟩

theorem read_dict_file_exact_interrupted :
    let as : List ReadAnswer := [.data [0, 1], .interrupted, .data [2], .failed]
    ∃ mem' rest, readDictFileInto 100 3 0 (fun _ => 0xee) as = some (3, mem', rest) ∧
      mem'.load 100 3 = [0, 1, 2] := by
  intro as
  have hfit : Fits 3 0 as := by simp [as, Fits]
  have hgood : successes as = [0, 1, 2] := by decide
  obtain ⟨henough, hexact⟩ := @read_dict_file_exact 100 3 (fun _ => 0xee) as hfit
  obtain ⟨⟨rc, mem', rest⟩, h⟩ := henough.mpr (.inl (by rw [hgood]; rfl))
  obtain ⟨used, -, htake, -, hrc, hload, -⟩ := hexact rc mem' rest h
  rw [hgood] at htake hrc
  obtain rfl : rc = 3 := hrc.mpr (le_refl 3)
  rw [htake] at hload
  exact ⟨mem', rest, h, hload⟩

end

end NgxBrotli
