import NgxBrotli.Segments

/-!
# Path names in a tree of files

POSIX path resolution: a name is looked up in a directory that may be searched, symbolic links are
followed up to a limit, and a trailing slash asks for a directory.
-/

namespace FileTree
open Segments

abbrev Ino := ℕ

abbrev PathName := List UInt8

abbrev slash : UInt8 := 0x2f
abbrev dot : PathName := [0x2e]
abbrev dotDot : PathName := [0x2e, 0x2e]

inductive Kind
  | directory (entries : List (PathName × Ino)) (parent : Ino)
  | regular
  | symlink (target : PathName)
  deriving DecidableEq, Repr

/-- Files, and what a process may do with them. -/
structure Tree where
  kind : Ino → Kind
  root : Ino
  cwd : Ino
  maySearch : Ino → Bool
  mayRead : Ino → Bool
  symloopMax : ℕ

def fits (pathMax : Option ℕ) (path : PathName) : Bool := pathMax.all (path.length < ·)

def components (path : PathName) : List PathName :=
  segments slash path ++ if path.getLast? = some slash then [dot] else []

namespace Tree

variable (t : Tree)

def searchable (cur : Ino) : Bool :=
  match t.kind cur with
  | .directory .. => t.maySearch cur
  | _ => false

def child (cur : Ino) (name : PathName) : Option Ino :=
  match t.kind cur with
  | .directory entries _ => if t.maySearch cur then entries.lookup name else none
  | _ => none

def parent (cur : Ino) : Option Ino :=
  match t.kind cur with
  | .directory _ parent => if t.maySearch cur then some parent else none
  | _ => none

/-- Where the resolution of a path starts. -/
def start (cur : Ino) (path : PathName) : Ino :=
  if path.head? = some slash then t.root else cur

/-- Resolution of the names below `cur`; `fuel` symbolic links are followed, the last name's only
where `follow` is set. -/
def resolve (follow : Bool) : ℕ → Ino → List PathName → Option Ino
  | _, cur, [] => some cur
  | fuel, cur, name :: rest =>
    if name = dot then if t.searchable cur then resolve follow fuel cur rest else none
    else if name = dotDot then (t.parent cur).bind fun up => resolve follow fuel up rest
    else
      match t.child cur name with
      | none => none
      | some next =>
        match t.kind next, fuel with
        | .symlink target, fuel =>
          if rest = [] ∧ !follow then some next
          else if target = [] then none
          else
            -- the names of the target come before those that are left
            match fuel with
            | 0 => none
            | fuel + 1 => resolve follow fuel (t.start cur target) (components target ++ rest)
        | _, fuel => resolve follow fuel next rest
termination_by fuel _ names => (fuel, names.length)

def opens (directory : Bool) (ino : Ino) : Bool :=
  match t.kind ino with
  | .symlink _ => false
  | .regular => !directory && t.mayRead ino
  | .directory .. => t.mayRead ino

def openAt (pathMax : Option ℕ) (directory nofollow : Bool) (base : Ino) (path : PathName) :
    Option Ino :=
  if path = [] ∨ !fits pathMax path then none
  else
    (t.resolve (!nofollow) t.symloopMax (t.start base path) (components path)).filter
      (t.opens directory)

/-- The names lead from `cur` to `ino`, and none is a symbolic link. -/
def Descends : Ino → List PathName → Ino → Prop
  | cur, [], ino => cur = ino
  | cur, name :: rest, ino =>
    name ≠ dot ∧ name ≠ dotDot ∧
      ∃ next, t.child cur name = some next ∧ (∀ target, t.kind next ≠ .symlink target) ∧
        Descends next rest ino

variable {t} {follow : Bool} {fuel : ℕ} {cur next ino : Ino} {name : PathName}
  {names rest : List PathName}

theorem resolve_child (hdot : name ≠ dot) (hdots : name ≠ dotDot)
    (hchild : t.child cur name = some next) (hkind : ∀ target, t.kind next ≠ .symlink target) :
    t.resolve follow fuel cur (name :: rest) = t.resolve follow fuel next rest := by
  rw [resolve, if_neg hdot, if_neg hdots, hchild]
  dsimp only
  split
  case h_1 target hlink => exact absurd hlink (hkind target)
  case h_2 => rfl

theorem Descends.resolve_append (h : t.Descends cur names ino) :
    t.resolve follow fuel cur (names ++ rest) = t.resolve follow fuel ino rest := by
  induction names generalizing cur with
  | nil => rw [List.nil_append, show cur = ino from h]
  | cons name names ih =>
    obtain ⟨hdot, hdots, next, hchild, hkind, hrest⟩ := h
    rw [List.cons_append, resolve_child hdot hdots hchild hkind, ih hrest]

theorem Descends.resolve_eq (h : t.Descends cur names ino) :
    t.resolve follow fuel cur names = some ino := by
  have happ : t.resolve follow fuel cur (names ++ []) = t.resolve follow fuel ino [] :=
    h.resolve_append
  rwa [List.append_nil, resolve] at happ

theorem resolve_dot :
    t.resolve follow fuel cur [dot] = if t.searchable cur then some cur else none := by
  rw [resolve, if_pos rfl]
  split
  · rw [resolve]
  · rfl

theorem components_name (hne : name ≠ []) (hslash : slash ∉ name) :
    components name = [name] := by
  have hlast : name.getLast? ≠ some slash := fun h => hslash (List.mem_of_getLast? h)
  rw [components, if_neg hlast, List.append_nil, segments, List.splitOn_eq_singleton hslash]
  simpa using hne

theorem start_name (hslash : slash ∉ name) : t.start cur name = cur :=
  if_neg fun h => hslash (List.mem_of_head? h)

theorem resolve_name (hdot : name ≠ dot) (hdots : name ≠ dotDot) :
    t.resolve false fuel cur [name] = t.child cur name := by
  rw [resolve, if_neg hdot, if_neg hdots]
  split
  case h_1 hchild => rw [hchild]
  case h_2 next hchild =>
    rw [hchild]
    split
    case h_1 => simp
    case h_2 => rw [resolve]

section

variable {pathMax : Option ℕ} {directory nofollow : Bool} {path : PathName}

theorem openAt_eq_some_iff :
    t.openAt pathMax directory nofollow cur path = some ino ↔
      path ≠ [] ∧ fits pathMax path = true ∧
        t.resolve (!nofollow) t.symloopMax (t.start cur path) (components path) = some ino ∧
          t.opens directory ino = true := by
  rw [openAt]
  split
  case isTrue h =>
    refine iff_of_false (Option.some_ne_none ino).symm ?_
    rintro ⟨hne, hfits, -⟩
    simp [hne, hfits] at h
  case isFalse h =>
    obtain ⟨hne, hfits⟩ : path ≠ [] ∧ fits pathMax path = true := by simpa using h
    rw [Option.filter_eq_some_iff, and_iff_right hne, and_iff_right hfits]

theorem openAt_name (hne : name ≠ []) (hslash : slash ∉ name) (hdot : name ≠ dot)
    (hdots : name ≠ dotDot) :
    t.openAt pathMax directory true cur name = some ino ↔
      fits pathMax name = true ∧ t.child cur name = some ino ∧ t.opens directory ino = true := by
  rw [openAt_eq_some_iff, components_name hne hslash, start_name hslash, Bool.not_true,
    resolve_name hdot hdots, and_iff_right hne]

theorem openAt_absolute (hhead : path.head? = some slash) (hlast : path.getLast? ≠ some slash) :
    t.openAt pathMax directory nofollow cur path = some ino ↔
      fits pathMax path = true ∧
        t.resolve (!nofollow) t.symloopMax t.root (segments slash path) = some ino ∧
          t.opens directory ino = true := by
  have hne : path ≠ [] := by
    rintro rfl
    cases hhead
  rw [openAt_eq_some_iff, and_iff_right hne, start, if_pos hhead, components, if_neg hlast,
    List.append_nil]

theorem openAt_root (h : t.openAt pathMax directory false cur [slash] = some ino) :
    ino = t.root := by
  obtain ⟨-, -, hres, -⟩ := openAt_eq_some_iff.mp h
  rw [start, if_pos List.head?_cons, components, if_pos List.getLast?_singleton, segments_sep,
    segments_nil, List.nil_append, resolve_dot] at hres
  split at hres
  · exact (Option.some_inj.mp hres).symm
  · cases hres

end

theorem opens_ne_symlink {directory : Bool} (h : t.opens directory ino = true) (target : PathName) :
    t.kind ino ≠ .symlink target := by
  intro hkind
  simp [opens, hkind] at h

theorem opens_regular {directory : Bool} (h : t.opens directory ino = true)
    (hkind : t.kind ino = .regular) : t.opens false ino = true := by
  simp only [opens, hkind] at h ⊢
  simpa using And.right (by simpa using h)

end Tree

def chain (names : List PathName) : Tree where
  kind i := (names[i]?).elim .regular fun name => .directory [(name, i + 1)] (i - 1)
  root := 0
  cwd := 0
  maySearch _ := true
  mayRead _ := true
  symloopMax := 0

section

variable {names pre rest : List PathName} {name : PathName} {i : ℕ}

theorem chain_kind_ne_symlink (i : ℕ) (target : PathName) :
    (chain names).kind i ≠ .symlink target := by
  simp only [chain]
  cases names[i]? <;> exact Kind.noConfusion

theorem chain_kind_length : (chain names).kind names.length = .regular := by
  simp [chain]

@[simp] theorem chain_opens (i : ℕ) : (chain names).opens false i = true := by
  simp only [Tree.opens, chain]
  cases names[i]? <;> rfl

theorem chain_opens_directory (h : i < names.length) : (chain names).opens true i = true := by
  simp [Tree.opens, chain, List.getElem?_eq_getElem h]

theorem chain_child (h : names[i]? = some name) : (chain names).child i name = some (i + 1) := by
  simp [Tree.child, chain, h]

theorem chain_searchable (i : ℕ) : (chain names).searchable i = true ↔ i < names.length := by
  simp only [Tree.searchable, chain]
  cases h : names[i]? with
  | none => simpa using List.getElem?_eq_none_iff.mp h
  | some name => simpa using (List.getElem?_eq_some_iff.mp h).1

theorem chain_descends (hpre : pre <+: names.drop i)
    (hplain : ∀ name ∈ pre, name ≠ dot ∧ name ≠ dotDot) :
    (chain names).Descends i pre (i + pre.length) := by
  -- directory `i` has the one entry `names[i]`, which is directory `i + 1`
  induction pre generalizing i with
  | nil => rfl
  | cons name pre ih =>
    obtain ⟨rest, hrest⟩ := hpre
    have hname : names[i]? = some name := by
      rw [← List.head?_drop, ← hrest]
      rfl
    refine ⟨(hplain name List.mem_cons_self).1, (hplain name List.mem_cons_self).2, i + 1,
      chain_child hname, chain_kind_ne_symlink _, ?_⟩
    have htail : pre <+: names.drop (i + 1) :=
      ⟨rest, by rw [← List.tail_drop, ← hrest]; rfl⟩
    have := ih htail fun n hn => hplain n (List.mem_cons_of_mem _ hn)
    rwa [List.length_cons, Nat.add_comm pre.length, ← Nat.add_assoc]

end

end FileTree
