import NgxBrotli.Bytes
import NgxBrotli.Programs
import NgxBrotli.Segments

namespace NgxBrotli

abbrev Fd := ℕ

abbrev S_IWGRP : ℕ := 0o20
abbrev S_IWOTH : ℕ := 0o2
abbrev S_IFMT : ℕ := 0o170000
abbrev S_IFREG : ℕ := 0o100000

/-- `struct stat`, as far as it is read. -/
structure Stat where
  uid : ℕ
  mode : ℕ
  size : ℕ
  deriving DecidableEq, Repr

/-- The flags of an open file beside `O_RDONLY`. -/
structure OpenFlags where
  directory : Bool
  nofollow : Bool
  nonblock : Bool
  cloexec : Bool
  deriving DecidableEq, Repr

/-- What `read` answers; no bytes are the end of the file. -/
inductive ReadAnswer
  | interrupted
  | failed
  | data (chunk : Bytes)
  deriving DecidableEq, Repr

/-- `ngx_http_brotli_read_dict_file`: `none` where the answers do not reach its end, `some none`
where it fails.  A call is given at most what it asked for. -/
def readDictFile (size : ℕ) (done : Bytes) : List ReadAnswer → Option (Option Bytes)
  | [] => if done.length < size then none else some (some done)
  | a :: as =>
    if done.length < size then
      match a with
      | .interrupted => readDictFile size done as
      | .failed => some none
      | .data chunk =>
        if chunk = [] then some (some done)
        else readDictFile size (done ++ chunk.take (size - done.length)) as
    else some (some done)

/-- The system calls; `read` stands for all calls of the loop. -/
inductive SysCall
  | open (path : Bytes) (flags : OpenFlags)
  | openat (base : Fd) (name : Bytes) (flags : OpenFlags)
  | fstat (fd : Fd)
  | getfl (fd : Fd)
  | setfl (fd : Fd) (flags : OpenFlags)
  | read (fd : Fd) (size : ℕ)
  | close (fd : Fd)
  deriving DecidableEq, Repr

/-- What a call is answered; `none` and `false` are errors. -/
abbrev SysCall.Answer : SysCall → Type
  | .open .. => Option Fd
  | .openat .. => Option Fd
  | .fstat _ => Option Stat
  | .getfl _ => Option OpenFlags
  | .setfl .. => Bool
  | .read _ size => { answers : List ReadAnswer // (readDictFile size [] answers).isSome }
  | .close _ => Bool

def failing : (c : SysCall) → c.Answer
  | .open .. => none
  | .openat .. => none
  | .fstat _ => none
  | .getfl _ => none
  | .setfl .. => false
  | .read .. => ⟨[.failed], by rw [readDictFile]; split <;> rfl⟩
  | .close _ => false

abbrev SysProg := Prog SysCall SysCall.Answer

abbrev SysHistory := Prog.History SysCall SysCall.Answer

def cString (s : Bytes) : Bytes := s.takeWhile (· != 0)

theorem bne_zero_of_mem {s : Bytes} (hnul : 0 ∉ s) (b : UInt8) (hb : b ∈ s) : (b != 0) = true := by
  rw [bne_iff_ne]
  rintro rfl
  exact hnul hb

@[simp] theorem cString_eq {s : Bytes} (hnul : 0 ∉ s) : cString s = s :=
  List.takeWhile_eq_self_iff.mpr (bne_zero_of_mem hnul)

theorem cString_append {s : Bytes} (hnul : 0 ∉ s) (t : Bytes) :
    cString (s ++ t) = s ++ cString t :=
  List.takeWhile_append_of_pos (bne_zero_of_mem hnul)

theorem cString_append_of_mem {s : Bytes} (hnul : 0 ∈ s) (t : Bytes) :
    cString (s ++ t) = cString s := by
  rw [cString, List.takeWhile_append, if_neg, ← cString]
  intro hlen
  have hself := (List.takeWhile_prefix (· != 0) (l := s)).eq_of_length hlen
  simpa using List.takeWhile_eq_self_iff.mp hself 0 hnul

def opens : (Σ c, SysCall.Answer c) → Option Fd
  | ⟨.open .., fd⟩ => fd
  | ⟨.openat .., fd⟩ => fd
  | _ => none

def openatName : (Σ c, SysCall.Answer c) → Option Bytes
  | ⟨.openat _ name _, _⟩ => some name
  | _ => none

/-- The descriptor was returned, and not closed since. -/
def IsOpen (h : SysHistory) (fd : Fd) : Prop :=
  ∃ (pre mid : SysHistory) (e : Σ c, SysCall.Answer c),
    h = pre ++ e :: mid ∧ opens e = some fd ∧ ∀ x ∈ mid, x.1 ≠ .close fd

/-- No call returns a descriptor that is open. -/
def FreshFds (answer : SysHistory → (c : SysCall) → c.Answer) : Prop :=
  ∀ h c fd, opens ⟨c, answer h c⟩ = some fd → ¬IsOpen h fd

section

variable {h : SysHistory} {x : Σ c, SysCall.Answer c} {fd : Fd}

theorem isOpen_opened (hx : opens x = some fd) : IsOpen (h ++ [x]) fd :=
  ⟨h, [], x, rfl, hx, by simp⟩

theorem IsOpen.append_of_ne (hopen : IsOpen h fd) (hx : x.1 ≠ .close fd) :
    IsOpen (h ++ [x]) fd := by
  obtain ⟨pre, mid, e, rfl, he, hmid⟩ := hopen
  refine ⟨pre, mid ++ [x], e, by simp, he, fun y hy => ?_⟩
  rcases List.mem_append.mp hy with hy | hy
  · exact hmid y hy
  · rw [List.mem_singleton.mp hy]
    exact hx

end

end NgxBrotli
