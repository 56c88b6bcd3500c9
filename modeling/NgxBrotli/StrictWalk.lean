import NgxBrotli.Kernel

namespace NgxBrotli
open Prog Segments

/-- Why a directory is refused. -/
inductive DirError
  | fstat
  | owner
  | writable
  deriving DecidableEq, Repr

/-- Why a path is refused. -/
inductive WalkError
  | notAbsolute
  | openRoot
  | directory (label : Bytes) (e : DirError)
  | namesDirectory
  | componentTooLong
  | dots (name : Bytes)
  | openat (name : Bytes)
  deriving DecidableEq, Repr

section

variable (maxPath : ℕ) (haveCloexec : Bool) (euid : ℕ)

/-- `ngx_http_brotli_check_strict_dir` -/
def checkStrictDir (fd : Fd) : SysProg (Option DirError) := do
  match ← ask (SysCall.fstat fd) with
  | none => pure (some .fstat)
  | some st =>
    if st.uid ≠ 0 ∧ st.uid ≠ euid then pure (some .owner)
    else if st.mode &&& (S_IWGRP ||| S_IWOTH) ≠ 0 then pure (some .writable)
    else pure none

/-- The descriptor is closed, and the path refused. -/
def refuse (fd : Fd) (e : WalkError) : SysProg (Except WalkError Fd) := do
  let _ ← ask (SysCall.close fd)
  pure (.error e)

/-- The flags of an `openat`. -/
def walkFlags (flags : OpenFlags) (last : Bool) : OpenFlags :=
  let oflags := if last then { flags with nofollow := true } else ⟨true, true, false, false⟩
  { oflags with cloexec := oflags.cloexec || haveCloexec }

@[simp] theorem walkFlags_nofollow (flags : OpenFlags) (last : Bool) :
    (walkFlags haveCloexec flags last).nofollow = true := by
  rw [walkFlags]
  split <;> rfl

@[simp] theorem walkFlags_directory (flags : OpenFlags) (last : Bool) :
    (walkFlags haveCloexec flags last).directory = if last then flags.directory else true := by
  rw [walkFlags]
  split <;> rfl

/-- The loop over the components; `rest` is what follows the component of `fd`. -/
def walk (flags : OpenFlags) (fd : Fd) (rest : Bytes) : SysProg (Except WalkError Fd) :=
  let start := rest.dropWhile (· == SLASH)
  if _h : start = [] then refuse fd .namesDirectory
  else
    let comp := start.takeWhile (· != SLASH)
    let after := start.dropWhile (· != SLASH)
    if comp.length ≥ maxPath then refuse fd .componentTooLong
    else
      let last := after.all (· == SLASH)
      let name := cString comp
      -- a NUL in the path would end the name early, so the names compared are C strings
      if name = ascii "." ∨ name = ascii ".." then refuse fd (.dots name)
      else do
        match ← ask (SysCall.openat fd name (walkFlags haveCloexec flags last)) with
        | none => refuse fd (.openat name)
        | some next => do
          -- the base is closed as soon as its child is open
          let _ ← ask (SysCall.close fd)
          if last then pure (.ok next)
          else do
            match ← checkStrictDir euid next with
            | some e => refuse next (.directory name e)
            | none => walk flags next after
termination_by rest.length
decreasing_by exact (cut_scan _h).length_lt

/-- `ngx_http_brotli_open_dict_strict` -/
def openDictStrict (path : Bytes) (flags : OpenFlags) : SysProg (Except WalkError Fd) :=
  if path.head? ≠ some SLASH then pure (.error .notAbsolute)
  else do
    match ← ask (SysCall.open [SLASH] ⟨true, false, false, haveCloexec⟩) with
    | none => pure (.error .openRoot)
    | some fd => do
      match ← checkStrictDir euid fd with
      | some e => refuse fd (.directory [SLASH] e)
      | none => walk maxPath haveCloexec euid flags fd path.tail

end

/-- `O_RDONLY | NGX_FILE_NONBLOCK` -/
def dictFlags : OpenFlags := ⟨false, false, true, false⟩

/-- `ngx_open_file(path.data, …)`, the other mode. -/
def openDefault (path : Bytes) : SysProg (Option Fd) :=
  ask (SysCall.open (cString path) dictFlags)

def Trusted (euid : ℕ) (st : Stat) : Prop :=
  (st.uid = 0 ∨ st.uid = euid) ∧ st.mode &&& (S_IWGRP ||| S_IWOTH) = 0

/-- The descriptor was opened, and since then its own `fstat` answered with a trusted owner and
mode. -/
def Vetted (euid : ℕ) (h : SysHistory) (fd : Fd) : Prop :=
  ∃ (pre mid : SysHistory) (e : Σ c, SysCall.Answer c) (st : Stat),
    h = pre ++ e :: mid ∧ opens e = some fd ∧ (∀ x ∈ mid, opens x ≠ some fd) ∧
      ⟨.fstat fd, some st⟩ ∈ mid ∧ Trusted euid st

/-- The names of the `openat` calls, in order. -/
def namesUsed (h : SysHistory) : List Bytes := h.filterMap openatName

section

variable (maxPath euid : ℕ) (answer : SysHistory → (c : SysCall) → c.Answer) (path : Bytes)

/-- What the walk promises of an `openat`, after the calls `h`. -/
structure SafeOpenat (h : SysHistory) (base : Fd) (name : Bytes) (flags : OpenFlags) : Prop where
  vetted : Vetted euid h base
  isOpen : FreshFds answer → IsOpen h base
  nofollow : flags.nofollow = true
  directory : namesUsed h ++ [name] = segments SLASH path ∨ flags.directory = true
  component : namesUsed h ++ [name] <+: segments SLASH path
  nonempty : name ≠ []
  no_slash : SLASH ∉ name
  short : name.length < maxPath
  no_dots : name ≠ ascii "." ∧ name ≠ ascii ".."

def SafeCall (h : SysHistory) (c : SysCall) : Prop :=
  ∀ base name flags, c = .openat base name flags →
    SafeOpenat maxPath euid answer path h base name flags

def AllNamed (r : Except WalkError Fd) (h : SysHistory) : Prop :=
  ∀ fd, r = .ok fd → namesUsed h = segments SLASH path

/-- The invariant of the loop. -/
structure AtBase (h : SysHistory) (fd : Fd) (rest : Bytes) : Prop where
  vetted : Vetted euid h fd
  isOpen : FreshFds answer → IsOpen h fd
  names : namesUsed h ++ segments SLASH rest = segments SLASH path
  no_nul : 0 ∉ rest

end

section

variable {maxPath euid : ℕ} {haveCloexec : Bool} {flags : OpenFlags}
  {answer : SysHistory → (c : SysCall) → c.Answer} {path rest : Bytes} {h : SysHistory} {fd : Fd}
  {Q : Option DirError → SysHistory → Prop}

theorem wp_checkStrictDir (herr : ∀ (e : DirError) ans, Q (some e) (h ++ [⟨.fstat fd, ans⟩]))
    (hok : ∀ st, Trusted euid st → Q none (h ++ [⟨.fstat fd, some st⟩])) :
    Wp (recorded answer) (SafeCall maxPath euid answer path) Q (checkStrictDir euid fd) h := by
  rw [checkStrictDir, wp_bind, wp_ask]
  refine ⟨fun _ _ _ hc => SysCall.noConfusion hc, ?_⟩
  simp only [recorded]
  cases hans : answer h (.fstat fd) with
  | none => exact herr _ _
  | some st =>
    dsimp only
    split
    case isTrue => exact herr _ _
    case isFalse huid =>
      split
      case isTrue => exact herr _ _
      case isFalse hmode => exact hok st ⟨by tauto, not_not.mp hmode⟩

theorem wp_refuse (e : WalkError) :
    Wp (recorded answer) (SafeCall maxPath euid answer path) (AllNamed path) (refuse fd e) h := by
  rw [refuse, wp_bind, wp_ask]
  refine ⟨fun _ _ _ hc => SysCall.noConfusion hc, fun _ hr => ?_⟩
  cases hr

theorem Vetted.of_opened (pre mid : SysHistory) {e : Σ c, SysCall.Answer c} {st : Stat}
    (he : opens e = some fd) (hmid : ∀ x ∈ mid, opens x = none) (hst : Trusted euid st) :
    Vetted euid (pre ++ e :: mid ++ [⟨.fstat fd, some st⟩]) fd := by
  refine ⟨pre, mid ++ [⟨.fstat fd, some st⟩], e, st, by simp, he, fun x hx => ?_, by simp, hst⟩
  rcases List.mem_append.mp hx with hx | hx
  · simp [hmid x hx]
  · simp [List.mem_singleton.mp hx, opens]

namespace AtBase

variable {comp after : Bytes} {next : Fd} {st : Stat}

theorem names_cons (hbase : AtBase euid answer path h fd rest) (hcut : Cut SLASH rest comp after) :
    namesUsed h ++ comp :: segments SLASH after = segments SLASH path := by
  rw [← hcut.segments_eq, hbase.names]

theorem no_nul_piece (hbase : AtBase euid answer path h fd rest)
    (hcut : Cut SLASH rest comp after) : 0 ∉ comp := fun hmem =>
  hbase.no_nul (hcut.suffix.subset (List.mem_append_left _ hmem))

theorem last_iff (hbase : AtBase euid answer path h fd rest) (hcut : Cut SLASH rest comp after) :
    after.all (· == SLASH) = true ↔ namesUsed h ++ [comp] = segments SLASH path := by
  rw [← segments_eq_nil_iff, ← hbase.names_cons hcut]
  simp

/-- The call of one iteration. -/
theorem safeOpenat (hbase : AtBase euid answer path h fd rest) (hcut : Cut SLASH rest comp after)
    (hshort : comp.length < maxPath) (hdots : comp ≠ ascii "." ∧ comp ≠ ascii "..") :
    SafeOpenat maxPath euid answer path h fd comp
      (walkFlags haveCloexec flags (after.all (· == SLASH))) where
  vetted := hbase.vetted
  isOpen := hbase.isOpen
  nofollow := walkFlags_nofollow _ _ _
  directory := by
    rw [← hbase.last_iff hcut]
    by_cases hall : after.all (· == SLASH) = true
    · exact .inl hall
    · simp [walkFlags, hall]
  component := ⟨segments SLASH after, by rw [← hbase.names_cons hcut]; simp⟩
  nonempty := hcut.ne_nil
  no_slash := hcut.not_mem
  short := hshort
  no_dots := hdots

/-- The directory that was opened is the base of the next iteration. -/
theorem step (hbase : AtBase euid answer path h fd rest) (hcut : Cut SLASH rest comp after)
    {fl : OpenFlags} (hnext : answer h (.openat fd comp fl) = some next) (closed : Bool)
    (hst : Trusted euid st) :
    AtBase euid answer path (h ++ [⟨.openat fd comp fl, some next⟩] ++ [⟨.close fd, closed⟩] ++
      [⟨.fstat next, some st⟩]) next after where
  vetted := by
    have hvetted := Vetted.of_opened h [⟨.close fd, closed⟩]
      (e := ⟨.openat fd comp fl, some next⟩) rfl (fun x hx => by
        rw [List.mem_singleton.mp hx]
        rfl) hst
    simpa using hvetted
  isOpen hfresh := by
    -- the base was open until now, so the call returned another descriptor
    have hne : fd ≠ next := by
      rintro rfl
      exact hfresh h (.openat fd comp fl) fd hnext (hbase.isOpen hfresh)
    apply IsOpen.append_of_ne _ (fun hc => SysCall.noConfusion hc)
    apply IsOpen.append_of_ne _ (fun hc => hne (SysCall.close.inj hc))
    exact isOpen_opened rfl
  names := by
    rw [← hbase.names_cons hcut]
    simp [namesUsed, openatName]
  no_nul hmem := hbase.no_nul (hcut.suffix.subset (List.mem_append_right _ hmem))

end AtBase

theorem wp_walk (hbase : AtBase euid answer path h fd rest) :
    Wp (recorded answer) (SafeCall maxPath euid answer path) (AllNamed path)
      (walk maxPath haveCloexec euid flags fd rest) h := by
  -- by the length of what is left; `AtBase` is the invariant, for every history and base
  induction hn : rest.length using Nat.strong_induction_on generalizing rest fd h with
  | _ n ih =>
  subst hn
  rw [walk]
  dsimp only
  split
  case isTrue => exact wp_refuse _
  case isFalse hstart =>
  have hcut := cut_scan hstart
  rw [cString_eq (hbase.no_nul_piece hcut)]
  generalize (rest.dropWhile (· == SLASH)).takeWhile (· != SLASH) = comp at *
  generalize (rest.dropWhile (· == SLASH)).dropWhile (· != SLASH) = after at *
  split
  case isTrue => exact wp_refuse _
  case isFalse hshort =>
  split
  case isTrue => exact wp_refuse _
  case isFalse hdots =>
  rw [wp_bind, wp_ask]
  constructor
  · rintro base name fl hc
    obtain ⟨rfl, rfl, rfl⟩ := SysCall.openat.inj hc
    exact hbase.safeOpenat hcut (Nat.lt_of_not_le hshort) (not_or.mp hdots)
  simp only [recorded]
  cases hans : answer h
    (.openat fd comp (walkFlags haveCloexec flags (after.all (· == SLASH)))) with
  | none => exact wp_refuse _
  | some next =>
    rw [wp_bind, wp_ask]
    refine ⟨fun _ _ _ hc => SysCall.noConfusion hc, ?_⟩
    split
    case isTrue hall =>
      intro _ _
      rw [← (hbase.last_iff hcut).mp hall]
      simp [namesUsed, openatName, recorded]
    case isFalse hall =>
      rw [wp_bind]
      exact wp_checkStrictDir (fun e ans => wp_refuse _) fun st hst =>
        ih _ hcut.length_lt (hbase.step hcut hans _ hst) rfl

theorem wp_openDictStrict (hnul : 0 ∉ path) :
    Wp (recorded answer) (SafeCall maxPath euid answer path) (AllNamed path)
      (openDictStrict maxPath haveCloexec euid path flags) [] := by
  rw [openDictStrict]
  split
  case isTrue =>
    intro _ hr
    cases hr
  case isFalse hhead =>
    obtain ⟨tail, rfl⟩ : ∃ tail, path = SLASH :: tail :=
      ⟨path.tail, (List.cons_head?_tail (by simpa using hhead)).symm⟩
    rw [wp_bind, wp_ask]
    refine ⟨fun _ _ _ hc => SysCall.noConfusion hc, ?_⟩
    simp only [recorded]
    cases hans : answer [] (.open [SLASH] ⟨true, false, false, haveCloexec⟩) with
    | none =>
      intro _ hr
      cases hr
    | some fd =>
      rw [wp_bind]
      refine wp_checkStrictDir (fun e ans => wp_refuse _) fun st hst => wp_walk ?_
      exact {
        vetted := Vetted.of_opened [] [] rfl (by simp) hst
        isOpen := fun _ => (isOpen_opened rfl).append_of_ne fun hc => SysCall.noConfusion hc
        names := by simp [namesUsed, openatName]
        no_nul := fun hmem => hnul (List.mem_cons_of_mem _ hmem) }

/-- Whatever the calls are answered, every `openat` is safe, and a descriptor is returned only after
all components of the path. -/
theorem strictWalk_safe (maxPath euid : ℕ) (haveCloexec : Bool)
    (answer : SysHistory → (c : SysCall) → c.Answer) (path : Bytes) (flags : OpenFlags)
    (hnul : 0 ∉ path) :
    let run := exec (recorded answer) (openDictStrict maxPath haveCloexec euid path flags) []
    (∀ h base name fl ans post, run.2 = h ++ ⟨.openat base name fl, ans⟩ :: post →
      SafeOpenat maxPath euid answer path h base name fl) ∧
    ∀ fd, run.1 = .ok fd → namesUsed run.2 = segments SLASH path := by
  have hwp : Wp (recorded answer) (SafeCall maxPath euid answer path) (AllNamed path)
      (openDictStrict maxPath haveCloexec euid path flags) [] := wp_openDictStrict hnul
  constructor
  · intro h base name fl ans post htrace
    exact hwp.calls htrace (Nat.zero_le _) base name fl rfl
  · exact hwp.result

end

def plainAnswer (h : SysHistory) : (c : SysCall) → c.Answer
  | .open .. => some 3
  | .openat .. => some (h.length + 4)
  | .fstat _ => some ⟨0, 0o100644, 3⟩
  | .read _ size => ⟨[.data (ascii "abc"), .data []], by
      simp only [readDictFile, List.nil_append]
      split_ifs <;> rfl⟩
  | .close _ => true
  | c => failing c

/-- The file `f` of the directory `d`. -/
def plainRun : Except WalkError Fd × SysHistory :=
  exec (recorded plainAnswer)
    (openDictStrict 4096 true 0 (ascii "/d/f") dictFlags) []

theorem plainRun_ok : plainRun.1 = .ok 9 := by
  have hpath : ascii "/d/f" = [0x2f, 0x64, 0x2f, 0x66] := by decide
  have hdot : ascii "." = [0x2e] ∧ ascii ".." = [0x2e, 0x2e] := by decide
  have hmode : 33188 &&& (S_IWGRP ||| S_IWOTH) = 0 := by decide
  simp only [plainRun, openDictStrict, hpath]
  simp [checkStrictDir, recorded, plainAnswer, hmode]
  rw [walk]
  simp [checkStrictDir, recorded, plainAnswer, hmode, hdot, cString, SLASH]
  rw [walk]
  simp [recorded, plainAnswer, hdot, cString, SLASH]

theorem strictWalk_safe_plain :
    plainRun.1 = .ok 9 ∧ namesUsed plainRun.2 = segments SLASH (ascii "/d/f") :=
  ⟨plainRun_ok, (strictWalk_safe 4096 0 true plainAnswer (ascii "/d/f") dictFlags
    (by decide)).2 9 plainRun_ok⟩

end NgxBrotli
