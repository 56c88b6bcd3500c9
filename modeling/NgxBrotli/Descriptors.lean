import NgxBrotli.DictPolicy

namespace NgxBrotli
open Prog

def SysCall.fd : SysCall → Option Fd
  | .open .. => none
  | .openat base _ _ => some base
  | .fstat fd => some fd
  | .getfl fd => some fd
  | .setfl fd _ => some fd
  | .read fd _ => some fd
  | .close fd => some fd

def ledgerStep (m : Multiset Fd) : (Σ c, SysCall.Answer c) → Multiset Fd
  | ⟨.open .., some fd⟩ => fd ::ₘ m
  | ⟨.openat .., some fd⟩ => fd ::ₘ m
  | ⟨.close fd, _⟩ => m.erase fd
  | _ => m

/-- The descriptors that are held after the calls `h`. -/
def held (h : SysHistory) : Multiset Fd := h.foldl ledgerStep 0

@[simp] theorem held_nil : held [] = 0 := rfl

@[simp] theorem held_append_singleton (h : SysHistory) (x : Σ c, SysCall.Answer c) :
    held (h ++ [x]) = ledgerStep (held h) x := List.foldl_concat _ _ _ _

/-- A call is given a descriptor that is held. -/
def UsesHeld (h : SysHistory) (c : SysCall) : Prop := ∀ fd, c.fd = some fd → fd ∈ held h

def Owned {ε : Type} (r : Except ε Fd) (h : SysHistory) : Prop :=
  held h = match r with
    | .ok fd => {fd}
    | .error _ => 0

section

variable {p : Platform} {host : Host} {main : MainConf} {strict : Bool} {maxPath euid size : ℕ}
  {haveCloexec : Bool} {flags : OpenFlags} {answer : SysHistory → (c : SysCall) → c.Answer}
  {path rest : Bytes} {h : SysHistory} {fd : Fd}

theorem usesHeld_of_held {c : SysCall} (hh : held h = {fd}) (hc : c.fd = some fd) :
    UsesHeld h c := by
  intro fd' hfd
  obtain rfl := Option.some.inj (hc.symm.trans hfd)
  rw [hh]
  exact Multiset.mem_singleton_self fd

theorem held_next {m m' : Multiset Fd} {x : Σ c, SysCall.Answer c} (hh : held h = m)
    (hx : ledgerStep m x = m') : held (h ++ [x]) = m' := by
  rw [held_append_singleton, hh, hx]

theorem held_close (hh : held h = {fd}) (closed : Bool) :
    held (h ++ [⟨.close fd, closed⟩]) = 0 := held_next hh (Multiset.erase_singleton fd)

theorem owned_refuse (hh : held h = {fd}) (e : WalkError) :
    Wp (recorded answer) UsesHeld Owned (refuse fd e) h := by
  rw [refuse, wp_bind, wp_ask]
  exact ⟨usesHeld_of_held hh rfl, held_close hh _⟩

theorem held_checkStrictDir (hh : held h = {fd}) :
    Wp (recorded answer) UsesHeld (fun _ h' => held h' = {fd}) (checkStrictDir euid fd) h := by
  rw [checkStrictDir, wp_bind, wp_ask]
  refine ⟨usesHeld_of_held hh rfl, ?_⟩
  have hstat (ans : Option Stat) : held (h ++ [⟨.fstat fd, ans⟩]) = {fd} := held_next hh rfl
  simp only [recorded]
  cases answer h (.fstat fd) with
  | none => exact hstat none
  | some st =>
    dsimp only
    split
    · exact hstat _
    · split <;> exact hstat _

theorem held_step (hh : held h = {fd}) (name : Bytes) (fl : OpenFlags) (next : Fd) :
    held (h ++ [⟨.openat fd name fl, some next⟩]) = {next, fd} ∧ ∀ closed : Bool,
      held (h ++ [⟨.openat fd name fl, some next⟩] ++ [⟨.close fd, closed⟩]) = {next} := by
  have hopen : held (h ++ [⟨.openat fd name fl, some next⟩]) = {next, fd} := held_next hh rfl
  refine ⟨hopen, fun closed => ?_⟩
  -- also where the child got the number of the base, which then counts twice
  rw [Multiset.pair_comm] at hopen
  exact held_next hopen (Multiset.erase_cons_head fd {next})

theorem owned_walk (hh : held h = {fd}) :
    Wp (recorded answer) UsesHeld Owned (walk maxPath haveCloexec euid flags fd rest) h := by
  -- by the length of what is left; between two turns only the base is held
  induction hn : rest.length using Nat.strong_induction_on generalizing rest fd h with
  | _ n ih =>
  subst hn
  rw [walk]
  dsimp only
  split
  case isTrue => exact owned_refuse hh _
  case isFalse hstart =>
  have hlt := (Segments.cut_scan hstart).length_lt
  generalize cString ((rest.dropWhile (· == SLASH)).takeWhile (· != SLASH)) = name at *
  generalize (rest.dropWhile (· == SLASH)).dropWhile (· != SLASH) = after at *
  split
  case isTrue => exact owned_refuse hh _
  case isFalse =>
  split
  case isTrue => exact owned_refuse hh _
  case isFalse =>
  rw [wp_bind, wp_ask]
  refine ⟨usesHeld_of_held hh rfl, ?_⟩
  simp only [recorded]
  cases answer h (.openat fd name (walkFlags haveCloexec flags (after.all (· == SLASH)))) with
  | none => exact owned_refuse (held_next hh rfl) _
  | some next =>
    obtain ⟨hopen, hclosed⟩ := held_step hh name
      (walkFlags haveCloexec flags (after.all (· == SLASH))) next
    rw [wp_bind, wp_ask]
    refine ⟨?_, ?_⟩
    · intro fd' hfd
      obtain rfl := Option.some.inj hfd
      rw [hopen]
      simp
    · split
      case isTrue => exact hclosed _
      case isFalse =>
        rw [wp_bind]
        apply (held_checkStrictDir (hclosed _)).mono
        rintro (_ | e) h' hh'
        · exact ih _ hlt hh' rfl
        · exact owned_refuse hh' _

theorem owned_openDictStrict (hh : held h = 0) :
    Wp (recorded answer) UsesHeld Owned (openDictStrict maxPath haveCloexec euid path flags) h := by
  rw [openDictStrict]
  split
  case isTrue => exact hh
  case isFalse =>
    rw [wp_bind, wp_ask]
    refine ⟨fun fd hfd => (by cases hfd), ?_⟩
    simp only [recorded]
    cases answer h (.open [SLASH] ⟨true, false, false, haveCloexec⟩) with
    | none => exact held_next hh rfl
    | some fd =>
      rw [wp_bind]
      apply (held_checkStrictDir (held_next hh rfl)).mono
      rintro (_ | e) h' hh'
      · exact owned_walk hh'
      · exact owned_refuse hh' _

theorem held_loadFailed {α : Type} (hh : held h = {fd}) (e : LoadError) :
    Wp (recorded answer) UsesHeld (fun _ h' => held h' = 0)
      (loadFailed fd e : SysProg (Except LoadError α)) h := by
  rw [loadFailed, wp_bind, wp_ask]
  exact ⟨usesHeld_of_held hh rfl, held_close hh _⟩

theorem owned_openDict (hh : held h = 0) :
    Wp (recorded answer) UsesHeld Owned (openDict p strict path) h := by
  rw [openDict]
  split
  · split
    · rw [wp_bind]
      apply (owned_openDictStrict hh).mono
      rintro (e | fd) h' hh'
      · exact hh'
      · exact hh'
    · exact hh
  · rw [openDefault, wp_bind]
    refine ⟨fun fd hfd => (by cases hfd), ?_⟩
    simp only [recorded]
    cases answer h (.open (cString path) dictFlags) with
    | none => exact held_next hh rfl
    | some fd => exact held_next hh rfl

theorem held_clearNonblock (hh : held h = {fd}) :
    Wp (recorded answer) UsesHeld (fun _ h' => held h' = {fd}) (clearNonblock fd) h := by
  rw [clearNonblock, wp_bind, wp_ask]
  refine ⟨usesHeld_of_held hh rfl, ?_⟩
  have hget (ans : Option OpenFlags) : held (h ++ [⟨.getfl fd, ans⟩]) = {fd} := held_next hh rfl
  simp only [recorded]
  cases answer h (.getfl fd) with
  | none => exact hget none
  | some fl =>
    rw [wp_bind, wp_ask]
    exact ⟨usesHeld_of_held (hget _) rfl, held_next (hget _) rfl⟩

theorem held_readDict (hh : held h = {fd}) :
    Wp (recorded answer) UsesHeld (fun _ h' => held h' = 0) (readDict host fd size) h := by
  rw [readDict]
  split
  · exact held_loadFailed hh _
  split
  · exact held_loadFailed hh _
  split
  · exact held_loadFailed hh _
  rw [wp_bind, wp_ask]
  refine ⟨usesHeld_of_held hh rfl, ?_⟩
  have hread (ans : (SysCall.read fd size).Answer) : held (h ++ [⟨.read fd size, ans⟩]) = {fd} :=
    held_next hh rfl
  dsimp only [recorded]
  split
  · exact held_loadFailed (hread _) _
  · split
    · exact held_loadFailed (hread _) _
    · rw [wp_bind, wp_ask]
      refine ⟨usesHeld_of_held (hread _) rfl, ?_⟩
      split <;> exact held_close (hread _) _

theorem held_fetchDict (hh : held h = 0) :
    Wp (recorded answer) UsesHeld (fun _ h' => held h' = 0) (fetchDict p host strict path) h := by
  rw [fetchDict, wp_bind]
  apply (owned_openDict hh).mono
  rintro (e | fd) h' hh'
  · exact hh'
  rw [wp_bind, wp_ask]
  refine ⟨usesHeld_of_held hh' rfl, ?_⟩
  have hstat (ans : Option Stat) : held (h' ++ [⟨.fstat fd, ans⟩]) = {fd} := held_next hh' rfl
  simp only [recorded]
  cases answer h' (.fstat fd) with
  | none => exact held_loadFailed (hstat none) _
  | some st =>
    dsimp only
    cases checkLeaf p strict st with
    | some e => exact held_loadFailed (hstat _) _
    | none =>
      rw [wp_bind]
      exact (held_clearNonblock (hstat _)).mono fun _ h'' hh'' => held_readDict hh''

theorem held_dcbDictFile {dicts : Option (List DcbDict)} {args : DictArgs} (hh : held h = 0) :
    Wp (recorded answer) UsesHeld (fun _ h' => held h' = 0)
      (dcbDictFile host main p dicts args) h := by
  rw [dcbDictFile]
  cases host.fullName args.path with
  | none => exact hh
  | some path =>
    cases args.hash.mapM parseHash with
    | error e => exact hh
    | ok hash =>
      dsimp only
      split
      · exact hh
      · rw [wp_bind]
        apply (held_fetchDict hh).mono
        rintro (e | bytes) h' hh'
        · exact hh'
        · exact hh'

end

/-- Each descriptor that was returned has been closed once, and until the kernel returns its number
again no call is given it after that. -/
def ClosedOnce (h : SysHistory) : Prop :=
  ∀ pre e post fd, h = pre ++ e :: post → opens e = some fd →
    ∃ mid closed rest, post = mid ++ ⟨.close fd, closed⟩ :: rest ∧ (∀ x ∈ mid, x.1 ≠ .close fd) ∧
      ∀ a x b, rest = a ++ x :: b → (∀ y ∈ a, opens y ≠ some fd) → x.1.fd ≠ some fd

/-- Calls that are given what is held, and answered by `answer`. -/
def Kept (answer : SysHistory → (c : SysCall) → c.Answer) (h : SysHistory) : Prop :=
  ∀ pre x post, h = pre ++ x :: post → UsesHeld pre x.1 ∧ x = ⟨x.1, answer pre x.1⟩

section

variable {answer : SysHistory → (c : SysCall) → c.Answer} {m : Multiset Fd} {h h' : SysHistory}
  {x : Σ c, SysCall.Answer c} {fd : Fd}

theorem Kept.of_append (hk : Kept answer (h ++ h')) : Kept answer h := fun pre x post hpre =>
  hk pre x (post ++ h') (by rw [hpre, List.append_assoc, List.cons_append])

theorem ledgerStep_cases (m : Multiset Fd) (x : Σ c, SysCall.Answer c) :
    (∃ fd, opens x = some fd ∧ (∀ fd, x.1 ≠ .close fd) ∧ ledgerStep m x = fd ::ₘ m) ∨
    (∃ fd, opens x = none ∧ x.1 = .close fd ∧ ledgerStep m x = m.erase fd) ∨
    (opens x = none ∧ (∀ fd, x.1 ≠ .close fd) ∧ ledgerStep m x = m) := by
  obtain ⟨c, ans⟩ := x
  cases c with
  | «open» path fl =>
    cases ans with
    | none => exact .inr (.inr ⟨rfl, nofun, rfl⟩)
    | some fd => exact .inl ⟨fd, rfl, nofun, rfl⟩
  | openat base name fl =>
    cases ans with
    | none => exact .inr (.inr ⟨rfl, nofun, rfl⟩)
    | some fd => exact .inl ⟨fd, rfl, nofun, rfl⟩
  | close fd => exact .inr (.inl ⟨fd, rfl, rfl, rfl⟩)
  | _ => exact .inr (.inr ⟨rfl, nofun, rfl⟩)

theorem mem_ledgerStep (hfd : fd ∈ m) (hx : x.1 ≠ .close fd) : fd ∈ ledgerStep m x := by
  obtain ⟨fd', -, -, hs⟩ | ⟨fd', -, hc, hs⟩ | ⟨-, -, hs⟩ := ledgerStep_cases m x <;> rw [hs]
  · exact Multiset.mem_cons_of_mem hfd
  · have hne : fd ≠ fd' := fun e => hx (e ▸ hc)
    exact (Multiset.mem_erase_of_ne hne).mpr hfd
  · exact hfd

theorem mem_of_mem_ledgerStep (hfd : fd ∈ ledgerStep m x) (hx : opens x ≠ some fd) : fd ∈ m := by
  obtain ⟨fd', ho, -, hs⟩ | ⟨fd', -, -, hs⟩ | ⟨-, -, hs⟩ := ledgerStep_cases m x <;> rw [hs] at hfd
  · have hne : fd ≠ fd' := fun e => hx (e ▸ ho)
    exact (Multiset.mem_cons.mp hfd).resolve_left hne
  · exact Multiset.mem_of_mem_erase hfd
  · exact hfd

theorem isOpen_append_singleton_iff :
    IsOpen (h ++ [x]) fd ↔ opens x = some fd ∨ IsOpen h fd ∧ x.1 ≠ .close fd := by
  constructor
  · rintro ⟨pre, mid, e, heq, he, hmid⟩
    rcases List.eq_nil_or_concat mid with rfl | ⟨mid, y, rfl⟩
    · obtain ⟨-, hx⟩ := List.append_inj' heq rfl
      rw [List.singleton_inj.mp hx]
      exact .inl he
    · rw [List.concat_eq_append] at heq hmid
      rw [← List.cons_append, ← List.append_assoc] at heq
      obtain ⟨rfl, hx⟩ := List.append_inj' heq rfl
      obtain rfl := List.singleton_inj.mp hx
      exact .inr ⟨⟨pre, mid, e, rfl, he, fun z hz => hmid z (List.mem_append_left _ hz)⟩,
        hmid x (List.mem_append_right _ (List.mem_singleton_self x))⟩
  · rintro (hx | ⟨hopen, hx⟩)
    · exact isOpen_opened hx
    · exact hopen.append_of_ne hx

theorem Kept.held_iff (hfresh : FreshFds answer) (hk : Kept answer h) :
    (held h).Nodup ∧ ∀ fd, fd ∈ held h ↔ IsOpen h fd := by
  induction h using List.reverseRecOn with
  | nil =>
    refine ⟨Multiset.nodup_zero, fun fd => iff_of_false (Multiset.notMem_zero fd) ?_⟩
    rintro ⟨pre, mid, e, heq, -⟩
    simp at heq
  | append_singleton h x ih =>
    obtain ⟨hnodup, hiff⟩ := ih hk.of_append
    obtain ⟨huses, hx⟩ := hk h x [] rfl
    simp only [held_append_singleton, isOpen_append_singleton_iff]
    obtain ⟨fd', ho, hc, hs⟩ | ⟨fd', ho, hc, hs⟩ | ⟨ho, hc, hs⟩ := ledgerStep_cases (held h) x <;>
      rw [hs, ho]
    · have hnew : fd' ∉ held h := by
        rw [hiff]
        apply hfresh h x.1
        rw [← hx, ho]
      refine ⟨Multiset.nodup_cons.mpr ⟨hnew, hnodup⟩, fun fd => ?_⟩
      simp [Multiset.mem_cons, hiff, hc, eq_comm]
    · refine ⟨hnodup.erase fd', fun fd => ?_⟩
      simp [hnodup.mem_erase_iff, hiff, hc, and_comm, eq_comm]
    · simp [hnodup, hiff, hc]

theorem exists_close {post : SysHistory} (hfd : fd ∈ held h) (hend : fd ∉ held (h ++ post)) :
    ∃ mid closed rest, post = mid ++ ⟨.close fd, closed⟩ :: rest ∧ ∀ x ∈ mid, x.1 ≠ .close fd := by
  induction post generalizing h with
  | nil =>
    rw [List.append_nil] at hend
    exact absurd hfd hend
  | cons x post ih =>
    by_cases hx : x.1 = .close fd
    · obtain ⟨c, closed⟩ := x
      obtain rfl : c = .close fd := hx
      exact ⟨[], closed, post, rfl, List.forall_mem_nil _⟩
    · have hstep : fd ∈ held (h ++ [x]) := by
        rw [held_append_singleton]
        exact mem_ledgerStep hfd hx
      rw [List.append_cons] at hend
      obtain ⟨mid, closed, rest, rfl, hmid⟩ := ih hstep hend
      exact ⟨x :: mid, closed, rest, rfl, List.forall_mem_cons.mpr ⟨hx, hmid⟩⟩

theorem notMem_held_append {a : SysHistory} (hfd : fd ∉ held h) (ha : ∀ y ∈ a, opens y ≠ some fd) :
    fd ∉ held (h ++ a) := by
  induction a using List.reverseRecOn with
  | nil => rwa [List.append_nil]
  | append_singleton a y ih =>
    rw [← List.append_assoc, held_append_singleton]
    intro hmem
    have hy : opens y ≠ some fd := ha y (List.mem_append_right _ (List.mem_singleton_self y))
    exact ih (fun z hz => ha z (List.mem_append_left _ hz)) (mem_of_mem_ledgerStep hmem hy)

theorem Kept.closedOnce (hfresh : FreshFds answer) (hk : Kept answer h) (hend : held h = 0) :
    ClosedOnce h := by
  intro pre e post fd heq he
  have hopened : fd ∈ held (pre ++ [e]) := by
    have hpre : Kept answer (pre ++ [e]) := by
      rw [heq, List.append_cons] at hk
      exact hk.of_append
    rw [(hpre.held_iff hfresh).2]
    exact isOpen_opened he
  have hnone : fd ∉ held (pre ++ [e] ++ post) := by
    rw [List.append_assoc, List.singleton_append, ← heq, hend]
    exact Multiset.notMem_zero fd
  obtain ⟨mid, closed, rest, rfl, hmid⟩ := exists_close hopened hnone
  refine ⟨mid, closed, rest, rfl, hmid, ?_⟩
  rintro a x b rfl ha hx
  -- the close took the only one
  have hsplit : h = (pre ++ e :: mid ++ [⟨.close fd, closed⟩] ++ a) ++ x :: b := by
    rw [heq]
    simp
  have hclosed : Kept answer (pre ++ e :: mid ++ [⟨.close fd, closed⟩]) := by
    rw [hsplit, List.append_assoc] at hk
    exact hk.of_append
  have hgone : fd ∉ held (pre ++ e :: mid ++ [⟨.close fd, closed⟩]) := by
    rw [(hclosed.held_iff hfresh).2, isOpen_append_singleton_iff]
    simp [opens]
  exact notMem_held_append hgone ha ((hk _ x b hsplit).1 fd hx)

end

/-- The calls of a program that is given what is held. -/
theorem kept_of_wp {α : Type} {answer : SysHistory → (c : SysCall) → c.Answer}
    {Q : α → SysHistory → Prop} {prog : SysProg α} (hwp : Wp (recorded answer) UsesHeld Q prog []) :
    Kept answer (exec (recorded answer) prog []).2 := by
  intro pre x post htrace
  exact hwp.event htrace (Nat.zero_le _)

/-- Whatever the calls are answered, each is given a descriptor that is held, the loader leaves none
held and the strict walk the one it returns; where no call returns a descriptor that is open, what
was opened was closed once and not used after that. -/
theorem descriptors_balanced (answer : SysHistory → (c : SysCall) → c.Answer) :
    (∀ (p : Platform) (host : Host) (main : MainConf) (dicts : Option (List DcbDict))
        (args : DictArgs),
      let run := exec (recorded answer) (dcbDictFile host main p dicts args) []
      (∀ pre x post, run.2 = pre ++ x :: post → UsesHeld pre x.1) ∧ held run.2 = 0 ∧
        (FreshFds answer → ClosedOnce run.2)) ∧
    ∀ (maxPath euid : ℕ) (haveCloexec : Bool) (path : Bytes) (flags : OpenFlags),
      let run := exec (recorded answer) (openDictStrict maxPath haveCloexec euid path flags) []
      (∀ pre x post, run.2 = pre ++ x :: post → UsesHeld pre x.1) ∧ Owned run.1 run.2 ∧
        (FreshFds answer → ∀ fd, IsOpen run.2 fd ↔ run.1 = .ok fd) := by
  constructor
  · intro p host main dicts args run
    have hwp : Wp (recorded answer) UsesHeld (fun _ h => held h = 0)
        (dcbDictFile host main p dicts args) [] := held_dcbDictFile held_nil
    have hk : Kept answer run.2 := kept_of_wp hwp
    exact ⟨fun pre x post htrace => (hk pre x post htrace).1, hwp.result,
      fun hfresh => hk.closedOnce hfresh hwp.result⟩
  · intro maxPath euid haveCloexec path flags run
    have hwp : Wp (recorded answer) UsesHeld Owned
        (openDictStrict maxPath haveCloexec euid path flags) [] := owned_openDictStrict held_nil
    have hk : Kept answer run.2 := kept_of_wp hwp
    have howned : Owned run.1 run.2 := hwp.result
    refine ⟨fun pre x post htrace => (hk pre x post htrace).1, howned, fun hfresh fd => ?_⟩
    rw [← (hk.held_iff hfresh).2, howned]
    cases run.1 <;> simp [eq_comm]

def nextFd (h : SysHistory) : Fd := (h.filterMap opens).foldr max 2 + 1

def freshAnswer (h : SysHistory) : (c : SysCall) → c.Answer
  | .open .. => some (nextFd h)
  | .openat .. => some (nextFd h)
  | c => plainAnswer h c

theorem freshFds_freshAnswer : FreshFds freshAnswer := by
  have hle {l : List ℕ} {a : ℕ} (ha : a ∈ l) : a ≤ l.foldr max 2 := by
    induction l with
    | nil => cases ha
    | cons b l ih =>
      rcases List.mem_cons.mp ha with rfl | ha
      · exact Nat.le_max_left _ _
      · exact (ih ha).trans (Nat.le_max_right _ _)
  rintro h c fd hopen ⟨pre, mid, e, heq, he, -⟩
  have hfd : fd ≤ (h.filterMap opens).foldr max 2 := by
    apply hle
    rw [heq]
    exact List.mem_filterMap.mpr ⟨e, List.mem_append_right _ List.mem_cons_self, he⟩
  have hnext : nextFd h = fd := by
    cases c with
    | «open» => exact Option.some.inj hopen
    | openat => exact Option.some.inj hopen
    | _ => cases hopen
  rw [← hnext] at hfd
  exact Nat.not_succ_le_self _ hfd

theorem descriptors_balanced_plain :
    ClosedOnce (exec (recorded freshAnswer) (dcbDictFile plainHost ⟨1, none, 0, none, 0, none⟩
      plainPlatform none ⟨ascii "/d/f", none⟩) []).2 ∧
    ∀ fd, IsOpen (exec (recorded freshAnswer)
        (openDictStrict 4096 true 0 (ascii "/d/f") dictFlags) []).2 fd ↔
      (exec (recorded freshAnswer)
        (openDictStrict 4096 true 0 (ascii "/d/f") dictFlags) []).1 = .ok fd :=
  ⟨((descriptors_balanced freshAnswer).1 _ _ _ _ _).2.2 freshFds_freshAnswer,
    ((descriptors_balanced freshAnswer).2 _ _ _ _ _).2.2 freshFds_freshAnswer⟩

end NgxBrotli
