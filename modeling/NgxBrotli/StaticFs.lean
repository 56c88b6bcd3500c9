import NgxBrotli.FileTree
import NgxBrotli.StrictWalk

namespace NgxBrotli
open Prog Segments FileTree

structure FileWorld where
  tree : Tree
  stat : Ino → Stat
  other : (c : SysCall) → c.Answer

/-- The files by descriptor; a closed descriptor has none. -/
abbrev Files := List (Option Ino)

def Files.file (s : Files) (fd : Fd) : Option Ino := (s[fd]?).join

def Files.push (s : Files) : Option Ino → Option Fd × Files
  | none => (none, s)
  | some ino => (some s.length, s ++ [some ino])

section

variable (pathMax : Option ℕ) (w : FileWorld)

/-- The kernel over a static tree. -/
def serve (s : Files) : (c : SysCall) → c.Answer × Files
  | .open path flags =>
    s.push (w.tree.openAt pathMax flags.directory flags.nofollow w.tree.cwd path)
  | .openat base name flags =>
    s.push ((s.file base).bind fun cur =>
      w.tree.openAt pathMax flags.directory flags.nofollow cur name)
  | .fstat fd => ((s.file fd).map w.stat, s)
  | .close fd => ((s.file fd).isSome, s.set fd none)
  | c => (w.other c, s)

def Returns (p : SysProg (Except WalkError Fd)) (s : Files) (ino : Ino) : Prop :=
  ∃ fd, (exec (serve pathMax w) p s).1 = .ok fd ∧
    Files.file (exec (serve pathMax w) p s).2 fd = some ino

def Steps (maxPath euid : ℕ) (flags : OpenFlags) : Ino → List Bytes → Ino → Prop
  | _, [], _ => False
  | cur, comp :: comps, ino =>
    comp.length < maxPath ∧ ¬(cString comp = ascii "." ∨ cString comp = ascii "..") ∧
      ∃ next,
        w.tree.openAt pathMax (if comps = [] then flags.directory else true) true cur
          (cString comp) = some next ∧
        if comps = [] then next = ino
        else Trusted euid (w.stat next) ∧ Steps maxPath euid flags next comps ino

end

section

variable {pathMax : Option ℕ} {w : FileWorld} {maxPath euid : ℕ} {haveCloexec : Bool}
  {flags : OpenFlags} {s : Files} {fd : Fd} {cur ino : Ino} {rest : Bytes}

theorem Files.lt_of_file (hfd : s.file fd = some cur) : fd < s.length := by
  by_contra hge
  rw [Files.file, List.getElem?_eq_none (Nat.le_of_not_lt hge)] at hfd
  cases hfd

theorem Files.file_opened (hfd : s.file fd = some cur) (next : Ino) :
    Files.file ((s ++ [some next]).set fd none) s.length = some next := by
  have hlt := Files.lt_of_file hfd
  rw [Files.file, List.getElem?_set_ne hlt.ne, List.getElem?_concat_length]
  rfl

theorem returns_bind {α : Type} {p : SysProg α} {f : α → SysProg (Except WalkError Fd)} :
    Returns pathMax w (p >>= f) s ino ↔
      Returns pathMax w (f (exec (serve pathMax w) p s).1) (exec (serve pathMax w) p s).2 ino := by
  rw [Returns, exec_bind, Returns]

theorem not_returns_error (e : WalkError) : ¬Returns pathMax w (pure (.error e)) s ino := by
  rintro ⟨_, hr, _⟩
  cases hr

theorem not_returns_refuse (e : WalkError) : ¬Returns pathMax w (refuse fd e) s ino := by
  rw [refuse, returns_bind]
  exact not_returns_error e

theorem returns_checkStrictDir_iff (hfd : s.file fd = some cur)
    {f : Option DirError → SysProg (Except WalkError Fd)}
    (herr : ∀ e, ¬Returns pathMax w (f (some e)) s ino) :
    Returns pathMax w (checkStrictDir euid fd >>= f) s ino ↔
      Trusted euid (w.stat cur) ∧ Returns pathMax w (f none) s ino := by
  rw [checkStrictDir, bind_assoc, returns_bind, exec_ask, serve, hfd, Option.map_some]
  dsimp only
  split
  case isTrue huid => exact iff_of_false (herr _) fun h => by rw [Trusted] at h; tauto
  case isFalse huid =>
    split
    case isTrue hmode => exact iff_of_false (herr _) fun h => hmode h.1.2
    case isFalse hmode => exact (and_iff_right ⟨by tauto, not_not.mp hmode⟩).symm

theorem returns_walk_iff (hfd : s.file fd = some cur) :
    Returns pathMax w (walk maxPath haveCloexec euid flags fd rest) s ino ↔
      Steps pathMax w maxPath euid flags cur (segments SLASH rest) ino := by
  -- both sides take the same component; the descriptor of the base changes with each
  induction hn : rest.length using Nat.strong_induction_on generalizing rest fd s cur with
  | _ n ih =>
  subst hn
  rw [walk]
  dsimp only
  split
  case isTrue hstart =>
    rw [← segments_dropWhile, hstart, segments_nil]
    exact iff_of_false (not_returns_refuse _) id
  case isFalse hstart =>
  have hcut := cut_scan hstart
  rw [hcut.segments_eq]
  generalize (rest.dropWhile (· == SLASH)).takeWhile (· != SLASH) = comp at *
  generalize (rest.dropWhile (· == SLASH)).dropWhile (· != SLASH) = after at *
  rw [Steps]
  split
  case isTrue hlong => exact iff_of_false (not_returns_refuse _) fun h => absurd h.1 (by omega)
  case isFalse hshort =>
  split
  case isTrue hdots => exact iff_of_false (not_returns_refuse _) fun h => h.2.1 hdots
  case isFalse hdots =>
  rw [and_iff_right (Nat.lt_of_not_le hshort), and_iff_right hdots, returns_bind, exec_ask, serve,
    hfd, Option.bind_some, walkFlags_nofollow, walkFlags_directory]
  simp only [← segments_eq_nil_iff]
  cases hopen : w.tree.openAt pathMax (if segments SLASH after = [] then flags.directory else true)
      true cur (cString comp) with
  | none => exact iff_of_false (not_returns_refuse _) (by simp)
  | some next =>
    have hnext := Files.file_opened hfd next
    rw [Files.push, returns_bind, exec_ask, serve]
    simp only [Option.some.injEq, exists_eq_left']
    split
    case isTrue hlast =>
      -- the leaf is returned without a check of its owner and mode
      constructor
      · rintro ⟨_, hfd', hino⟩
        obtain rfl := Except.ok.inj hfd'
        exact Option.some_inj.mp (hnext.symm.trans hino)
      · rintro rfl
        exact ⟨s.length, rfl, hnext⟩
    case isFalse hlast =>
      rw [returns_checkStrictDir_iff hnext fun e => not_returns_refuse _]
      exact and_congr_right fun _ => ih _ hcut.length_lt hnext rfl

/-- The strict open of a path, in a tree. -/
theorem returns_openDictStrict_iff {path : Bytes} :
    Returns pathMax w (openDictStrict maxPath haveCloexec euid path flags) s ino ↔
      path.head? = some SLASH ∧ ∃ root,
        w.tree.openAt pathMax true false w.tree.cwd [SLASH] = some root ∧
          Trusted euid (w.stat root) ∧
            Steps pathMax w maxPath euid flags root (segments SLASH path) ino := by
  rw [openDictStrict]
  split
  case isTrue hrel =>
    exact iff_of_false (not_returns_error _) fun h => hrel h.1
  case isFalse habs =>
    have habs := not_not.mp habs
    obtain ⟨tail, rfl⟩ : ∃ tail, path = SLASH :: tail :=
      ⟨path.tail, (List.cons_head?_tail habs).symm⟩
    rw [returns_bind, exec_ask, serve, and_iff_right habs, List.tail_cons, segments_sep]
    dsimp only
    cases w.tree.openAt pathMax true false w.tree.cwd [SLASH] with
    | none =>
      exact iff_of_false (not_returns_error _) (by simp)
    | some root =>
      have hroot : Files.file (s ++ [some root]) s.length = some root := by
        rw [Files.file, List.getElem?_concat_length]
        rfl
      simp only [Option.some.injEq, exists_eq_left']
      rw [Files.push, returns_checkStrictDir_iff hroot fun e => not_returns_refuse _]
      exact and_congr_right fun _ => returns_walk_iff hroot

theorem segments_cString {path : Bytes} (hne : ∀ comp ∈ segments SLASH path, cString comp ≠ []) :
    segments SLASH (cString path) <+: (segments SLASH path).map cString := by
  induction hn : path.length using Nat.strong_induction_on generalizing path with
  | _ n ih =>
  have hno : ∀ seps : Bytes, (∀ x ∈ seps, x = SLASH) → 0 ∉ seps := fun seps h hmem =>
    absurd (h 0 hmem) (by decide)
  by_cases hstart : path.dropWhile (· == SLASH) = []
  · have hall : ∀ x ∈ path, x = SLASH := by simpa using hstart
    rw [cString_eq (hno path hall), ← segments_dropWhile, hstart]
    exact List.nil_prefix
  have hcut := cut_scan hstart
  generalize (path.dropWhile (· == SLASH)).takeWhile (· != SLASH) = comp at *
  generalize (path.dropWhile (· == SLASH)).dropWhile (· != SLASH) = after at *
  rw [hcut.segments_eq] at hne ⊢
  obtain ⟨seps, hseps, hpath⟩ := hcut.scanned
  rw [hpath, cString_append (hno seps hseps), segments_append_seps hseps, List.map_cons]
  by_cases hnul : 0 ∈ comp
  · -- nothing is left behind the NUL
    have hslash : SLASH ∉ cString comp := fun hmem =>
      hcut.not_mem ((List.takeWhile_prefix _).subset hmem)
    rw [cString_append_of_mem hnul, segments_singleton (hne comp List.mem_cons_self) hslash]
    exact ⟨_, rfl⟩
  · have hstop : ∀ x, (cString after).head? = some x → x = SLASH := fun x hx => by
      cases after with
      | nil => cases hx
      | cons y after =>
        obtain rfl := hcut.stop y rfl
        exact (Option.some_inj.mp hx).symm
    rw [cString_append hnul, segments_append hcut.ne_nil hcut.not_mem hstop, cString_eq hnul]
    exact (List.prefix_cons_inj comp).mpr
      (ih _ (hn ▸ hcut.length_lt) (fun c hc => hne c (List.mem_cons_of_mem _ hc)) rfl)

def OpenedByName (maxPath : ℕ) (pathMax : Option ℕ) (comp : Bytes) : Prop :=
  comp.length < maxPath ∧ ¬(cString comp = ascii "." ∨ cString comp = ascii "..") ∧
    cString comp ≠ [] ∧ fits pathMax (cString comp) = true

theorem Steps.openedByName {comps : List Bytes}
    (h : Steps pathMax w maxPath euid flags cur comps ino) :
    comps ≠ [] ∧ ∀ comp ∈ comps, OpenedByName maxPath pathMax comp := by
  induction comps generalizing cur with
  | nil => exact h.elim
  | cons comp comps ih =>
    obtain ⟨hshort, hdots, next, hopen, hrest⟩ := h
    obtain ⟨hne, hfits, -⟩ := Tree.openAt_eq_some_iff.mp hopen
    refine ⟨List.cons_ne_nil _ _, List.forall_mem_cons.mpr ⟨⟨hshort, hdots, hne, hfits⟩, ?_⟩⟩
    split at hrest
    case isTrue hnil =>
      rw [hnil]
      exact List.forall_mem_nil _
    case isFalse => exact (ih hrest.2).2

theorem Steps.descends {comps : List Bytes} (hslash : ∀ comp ∈ comps, SLASH ∉ comp)
    (h : Steps pathMax w maxPath euid flags cur comps ino) :
    w.tree.Descends cur (comps.map cString) ino ∧ ∃ directory,
      w.tree.opens directory ino = true := by
  induction comps generalizing cur with
  | nil => exact h.elim
  | cons comp comps ih =>
    obtain ⟨-, hdots, next, hopen, hrest⟩ := h
    obtain ⟨hdot, hdotDot⟩ := not_or.mp hdots
    have hno : SLASH ∉ cString comp := fun hmem =>
      hslash comp List.mem_cons_self ((List.takeWhile_prefix _).subset hmem)
    obtain ⟨-, hchild, hopens⟩ :=
      (Tree.openAt_name (Tree.openAt_eq_some_iff.mp hopen).1 hno hdot hdotDot).mp hopen
    have hlink := Tree.opens_ne_symlink hopens
    split at hrest
    case isTrue hnil =>
      subst hnil hrest
      exact ⟨⟨hdot, hdotDot, next, hchild, hlink, rfl⟩, _, hopens⟩
    case isFalse =>
      obtain ⟨hdesc, hopen'⟩ := ih (fun c hc => hslash c (List.mem_cons_of_mem _ hc)) hrest.2
      exact ⟨⟨hdot, hdotDot, next, hchild, hlink, hdesc⟩, hopen'⟩

theorem Files.file_push {o : Option Ino} (h : (s.push o).1 = some fd) :
    Files.file (s.push o).2 fd = o := by
  cases o with
  | none => cases h
  | some next =>
    obtain rfl := Option.some_inj.mp h
    rw [Files.push, Files.file, List.getElem?_concat_length]
    rfl

end

section

variable (maxPath : ℕ) (haveCloexec : Bool) (pathMax : Option ℕ) (path : Bytes)

/-- In every tree, where the strict walk returns a regular file a plain `open` returns the same. -/
def Narrows : Prop :=
  ∀ (w : FileWorld) (euid : ℕ) (s t : Files) (ino : Ino), w.tree.kind ino = .regular →
    Returns pathMax w (openDictStrict maxPath haveCloexec euid path dictFlags) s ino →
      ∃ fd, (exec (serve pathMax w) (openDefault path) t).1 = some fd ∧
        Files.file (exec (serve pathMax w) (openDefault path) t).2 fd = some ino

/-- The walk opens each component by its name. -/
structure Walkable : Prop where
  absolute : path.head? = some SLASH
  nonempty : segments SLASH path ≠ []
  byName : ∀ comp ∈ segments SLASH path, OpenedByName maxPath pathMax comp

/-- The whole path, as the kernel reads it, ends in the name of a file. -/
structure NamesLeaf : Prop where
  no_slash : (cString path).getLast? ≠ some SLASH
  /-- no component is behind the first NUL -/
  all : (segments SLASH (cString path)).length = (segments SLASH path).length
  fits : fits pathMax (cString path) = true

end

section

variable {maxPath euid : ℕ} {haveCloexec : Bool} {pathMax : Option ℕ} {path : Bytes}

theorem head?_cString (h : path.head? = some SLASH) : (cString path).head? = some SLASH := by
  cases path with
  | nil => cases h
  | cons x path =>
    obtain rfl := Option.some_inj.mp h
    rfl

theorem Walkable.segments_prefix (h : Walkable maxPath pathMax path) :
    segments SLASH (cString path) <+: (segments SLASH path).map cString :=
  segments_cString fun comp hcomp => (h.byName comp hcomp).2.2.1

theorem fits_singleton {b : UInt8} {name : Bytes} (hne : name ≠ []) (h : fits pathMax name = true) :
    fits pathMax [b] = true := by
  have hpos := List.length_pos_iff.mpr hne
  cases pathMax with
  | none => rfl
  | some n =>
    simp only [fits, Option.all_some, decide_eq_true_eq, List.length_singleton] at h ⊢
    omega

theorem narrows_of_leaf (hleaf : Walkable maxPath pathMax path → NamesLeaf pathMax path) :
    Narrows maxPath haveCloexec pathMax path := by
  intro w euid s t ino hkind hstrict
  obtain ⟨habs, root, hroot, -, hsteps⟩ := returns_openDictStrict_iff.mp hstrict
  obtain rfl := Tree.openAt_root hroot
  have hwalk : Walkable maxPath pathMax path :=
    ⟨habs, hsteps.openedByName.1, hsteps.openedByName.2⟩
  obtain ⟨hslash, hall, hfits⟩ := hleaf hwalk
  obtain ⟨hdesc, _, hopens⟩ := hsteps.descends fun comp hcomp => (of_mem_segments hcomp).2
  have hnames := hwalk.segments_prefix.eq_of_length (by rw [hall, List.length_map])
  have hopen : w.tree.openAt pathMax false false w.tree.cwd (cString path) = some ino := by
    rw [Tree.openAt_absolute (head?_cString habs) hslash]
    refine ⟨hfits, ?_, Tree.opens_regular hopens hkind⟩
    rw [hnames]
    exact hdesc.resolve_eq
  have hpush : exec (serve pathMax w) (openDefault path) t = t.push (some ino) := by
    rw [openDefault, exec_ask, serve, dictFlags, hopen]
  rw [hpush]
  exact ⟨t.length, rfl, Files.file_push rfl⟩

def chainWorld (names : List Bytes) : FileWorld := ⟨chain names, fun _ => ⟨0, 0o755, 1⟩, failing⟩

theorem chainWorld_trusted (names : List Bytes) (ino : Ino) :
    Trusted euid ((chainWorld names).stat ino) := by
  refine ⟨.inl rfl, ?_⟩
  change 0o755 &&& (S_IWGRP ||| S_IWOTH) = 0
  decide

theorem steps_chain {names comps : List Bytes} {i : ℕ} (hnames : comps.map cString = names.drop i)
    (hne : comps ≠ [])
    (hbyName : ∀ comp ∈ comps, OpenedByName maxPath pathMax comp ∧ SLASH ∉ comp) :
    Steps pathMax (chainWorld names) maxPath euid dictFlags i comps names.length := by
  induction comps generalizing i with
  | nil => exact absurd rfl hne
  | cons comp comps ih =>
    obtain ⟨⟨hshort, hdots, hnil, hfits⟩, hslash⟩ := hbyName comp List.mem_cons_self
    obtain ⟨hdot, hdotDot⟩ := not_or.mp hdots
    have hno : SLASH ∉ cString comp := fun hmem => hslash ((List.takeWhile_prefix _).subset hmem)
    have hget : names[i]? = some (cString comp) := by
      rw [← List.head?_drop, ← hnames]
      rfl
    have hrest : comps.map cString = names.drop (i + 1) := by
      rw [← List.tail_drop, ← hnames]
      rfl
    have hlen := congrArg List.length hrest
    rw [List.length_map, List.length_drop] at hlen
    have hlt := (List.getElem?_eq_some_iff.mp hget).1
    refine ⟨hshort, hdots, i + 1, (Tree.openAt_name hnil hno hdot hdotDot).mpr
      ⟨hfits, chain_child hget, ?_⟩, ?_⟩
    · split
      case isTrue => exact chain_opens _
      case isFalse hmore =>
        have := List.length_pos_iff.mpr hmore
        exact chain_opens_directory (by omega)
    · split
      case isTrue hlast =>
        rw [hlast, List.length_nil] at hlen
        have hend : i + 1 = names.length := by omega
        exact hend
      case isFalse hmore =>
        exact ⟨chainWorld_trusted _ _,
          ih hrest hmore fun c hc => hbyName c (List.mem_cons_of_mem _ hc)⟩

theorem not_narrows (hwalk : Walkable maxPath pathMax path) (hleaf : ¬NamesLeaf pathMax path) :
    ¬Narrows maxPath haveCloexec pathMax path := by
  intro hnarrows
  -- the walk succeeds in the tree of directories that the components name
  set names := (segments SLASH path).map cString with hnames
  have hlength : names.length = (segments SLASH path).length := List.length_map _
  have hstrict : Returns pathMax (chainWorld names)
      (openDictStrict maxPath haveCloexec 0 path dictFlags) [] names.length := by
    obtain ⟨comp, hcomp⟩ := List.exists_mem_of_ne_nil _ hwalk.nonempty
    obtain ⟨-, -, hne, hfits⟩ := hwalk.byName comp hcomp
    have hpos : 0 < names.length := by
      rw [hlength]
      exact List.length_pos_of_mem hcomp
    refine returns_openDictStrict_iff.mpr ⟨hwalk.absolute, 0, ?_, chainWorld_trusted _ _,
      steps_chain hnames.symm hwalk.nonempty fun c hc =>
        ⟨hwalk.byName c hc, (of_mem_segments hc).2⟩⟩
    rw [Tree.openAt_eq_some_iff]
    refine ⟨List.cons_ne_nil _ _, fits_singleton hne hfits, ?_, chain_opens_directory hpos⟩
    rw [Tree.start, if_pos List.head?_cons, components, if_pos List.getLast?_singleton,
      segments_sep, segments_nil, List.nil_append, Tree.resolve_dot]
    exact if_pos ((chain_searchable 0).mpr hpos)
  obtain ⟨fd, hfd, hino⟩ :=
    hnarrows (chainWorld names) 0 [] [] names.length chain_kind_length hstrict
  -- and there the kernel stops before the file, or finds a directory
  rw [openDefault, exec_ask, serve] at hfd hino
  rw [Files.file_push hfd] at hino
  obtain ⟨-, hfits, hres, -⟩ := Tree.openAt_eq_some_iff.mp hino
  have hpre := hwalk.segments_prefix
  have hdesc : (chain names).Descends 0 (segments SLASH (cString path))
      (segments SLASH (cString path)).length := by
    have := chain_descends (i := 0) hpre fun name hname => by
      obtain ⟨comp, hcomp, rfl⟩ := List.mem_map.mp (hpre.subset hname)
      exact not_or.mp (hwalk.byName comp hcomp).2.1
    rwa [Nat.zero_add] at this
  rw [Tree.start, if_pos (head?_cString hwalk.absolute), components] at hres
  split at hres
  case isTrue =>
    -- the slash asks for a directory, and the file is none
    change (chain names).resolve _ _ 0 (segments SLASH (cString path) ++ [dot]) = _ at hres
    rw [hdesc.resolve_append, Tree.resolve_dot] at hres
    split at hres
    case isTrue hdir =>
      have hlt := (chain_searchable _).mp hdir
      exact hlt.ne (Option.some_inj.mp hres)
    case isFalse => cases hres
  case isFalse hslash =>
    rw [List.append_nil] at hres
    change (chain names).resolve _ _ 0 (segments SLASH (cString path)) = _ at hres
    rw [hdesc.resolve_eq] at hres
    exact hleaf ⟨hslash, (Option.some_inj.mp hres).trans hlength, hfits⟩

/-- Strict mode only narrows where the path names a leaf, or the walk cannot open it by its
names. -/
theorem narrows_iff (maxPath : ℕ) (haveCloexec : Bool) (pathMax : Option ℕ) (path : Bytes) :
    Narrows maxPath haveCloexec pathMax path ↔
      (Walkable maxPath pathMax path → NamesLeaf pathMax path) := by
  constructor
  · intro hnarrows hwalk
    by_contra hleaf
    exact not_narrows hwalk hleaf hnarrows
  · exact narrows_of_leaf

/-- The walk opens `/d` for `/d/`, and the kernel wants a directory there. -/
theorem not_narrows_slash : ¬Narrows 4096 true (some 4096) (ascii "/d/") := by
  have hpath : segments SLASH (ascii "/d/") = [[0x64]] := by decide
  refine not_narrows ⟨rfl, by simp [hpath], ?_⟩ fun h => h.no_slash rfl
  rw [hpath]
  exact List.forall_mem_singleton.mpr ⟨by decide, by decide, by decide, rfl⟩

end

end NgxBrotli
