import NgxBrotli.StaticFs
import NgxBrotli.TrustedHashes

namespace NgxBrotli
open Prog FileTree Segments Directive

/-- Answers of `read` with this much of the file ahead: pieces of it, and interrupts. -/
inductive Reads : Bytes → List ReadAnswer → Prop
  | nil (rest : Bytes) : Reads rest []
  | interrupted {rest : Bytes} {answers : List ReadAnswer} (h : Reads rest answers) :
    Reads rest (.interrupted :: answers)
  | piece {chunk rest : Bytes} {answers : List ReadAnswer} (hne : chunk ≠ [])
      (h : Reads rest answers) : Reads (chunk ++ rest) (.data chunk :: answers)
  | eof (answers : List ReadAnswer) : Reads [] (.data [] :: answers)

theorem take_append_take {size : ℕ} {done : Bytes} (hdone : done.length ≤ size)
    (chunk rest : Bytes) : (done ++ chunk.take (size - done.length) ++ rest).take size =
      (done ++ (chunk ++ rest)).take size := by
  obtain hle | hgt := Nat.le_total chunk.length (size - done.length)
  · rw [List.take_of_length_le hle, List.append_assoc]
  · have hlen : (done ++ chunk.take (size - done.length)).length = size := by
      rw [List.length_append, List.length_take]
      omega
    rw [List.take_left' hlen, List.take_append, List.take_of_length_le hdone,
      List.take_append_of_le_length hgt]

theorem Reads.readDictFile_eq {size : ℕ} {done rest : Bytes} {answers : List ReadAnswer}
    {read : Option Bytes} (h : Reads rest answers) (hdone : done.length ≤ size)
    (hsize : size ≤ done.length + rest.length)
    (hread : readDictFile size done answers = some read) :
    read = some ((done ++ rest).take size) := by
  have hfull {done : Bytes} (hdone : done.length ≤ size) (hge : ¬done.length < size)
      (h : some (some done) = some read) (rest : Bytes) :
        read = some ((done ++ rest).take size) := by
    rw [← Option.some.inj h, List.take_left' (by omega)]
  induction h generalizing done with
  | nil rest =>
    rw [readDictFile] at hread
    split at hread
    · cases hread
    case isFalse hge => exact hfull hdone hge hread rest
  | @interrupted rest answers h ih =>
    rw [readDictFile] at hread
    split at hread
    case isTrue => exact ih hdone hsize hread
    case isFalse hge => exact hfull hdone hge hread rest
  | @piece chunk rest answers hne h ih =>
    rw [readDictFile] at hread
    split at hread
    case isFalse hge => exact hfull hdone hge hread _
    case isTrue hlt =>
      rw [List.length_append] at hsize
      have hlen : (done ++ chunk.take (size - done.length)).length =
          done.length + min (size - done.length) chunk.length := by
        rw [List.length_append, List.length_take]
      rw [ih (by omega) (by omega) hread, take_append_take hdone]
  | eof answers =>
    rw [List.length_nil] at hsize
    rw [readDictFile, if_neg (by omega)] at hread
    exact hfull hdone (by omega) hread []

/-- Files with content, and what `fstat` says of them. -/
structure Disk where
  world : FileWorld
  content : Ino → Bytes
  size (ino : Ino) : (world.stat ino).size = (content ino).length
  regular (ino : Ino) :
    (world.stat ino).mode &&& S_IFMT = S_IFREG ↔ world.tree.kind ino = .regular

/-- How the reads of each file are cut. -/
structure Cut (disk : Disk) where
  answers (fd : Fd) (size : ℕ) (ino : Ino) : (SysCall.read fd size).Answer
  reads (fd : Fd) (size : ℕ) (ino : Ino) : Reads (disk.content ino) (answers fd size ino).val

section

variable (pathMax : Option ℕ) (disk : Disk) (cut : Cut disk)

/-- The kernel over a disk. -/
def serveDisk (s : Files) : (c : SysCall) → c.Answer × Files
  | .read fd size => ((s.file fd).elim (failing (.read fd size)) (cut.answers fd size), s)
  | c => serve pathMax disk.world s c

/-- The path names the file, in the mode. -/
def Names (p : Platform) (strict : Bool) (path : Bytes) (ino : Ino) : Prop :=
  let t := disk.world.tree
  if strict then
    p.haveStrictWalk = true ∧ path.head? = some SLASH ∧ ∃ root,
      t.openAt pathMax true false t.cwd [SLASH] = some root ∧
        Trusted p.euid (disk.world.stat root) ∧
          Steps pathMax disk.world p.maxPath p.euid dictFlags root (segments SLASH path) ino
  else t.openAt pathMax false false t.cwd (cString path) = some ino

/-- What is asked of the file itself, and of the pool. -/
structure Loadable (p : Platform) (host : Host) (strict : Bool) (ino : Ino) : Prop where
  leaf : checkLeaf p strict (disk.world.stat ino) = none
  nonempty : disk.content ino ≠ []
  bounded : (disk.content ino).length ≤ NGX_HTTP_BROTLI_MAX_DICT_SIZE
  arrayPush : host.arrayPush = true
  palloc : host.palloc (disk.content ino).length = true

end

section

variable {pathMax : Option ℕ} {disk : Disk} {cut : Cut disk} {p : Platform} {host : Host}
  {strict : Bool} {path bytes : Bytes} {s : Files} {ino : Ino} {fd : Fd}

theorem serveDisk_eq (s : Files) (c : SysCall) (hc : ∀ fd size, c ≠ .read fd size) :
    serveDisk pathMax disk cut s c = serve pathMax disk.world s c := by
  cases c with
  | read fd size => exact absurd rfl (hc fd size)
  | _ => rfl

def NotRead (_ : Files) (c : SysCall) : Prop := ∀ fd size, c ≠ .read fd size

theorem wp_refuse_notRead (e : WalkError) :
    Wp (serve pathMax disk.world) NotRead (fun _ _ => True) (refuse fd e) s := by
  rw [refuse, wp_bind, wp_ask]
  exact ⟨fun _ _ h => SysCall.noConfusion h, trivial⟩

theorem wp_checkStrictDir_notRead {euid : ℕ} {Q : Option DirError → Files → Prop}
    (hQ : ∀ e s, Q e s) :
    Wp (serve pathMax disk.world) NotRead Q (checkStrictDir euid fd) s := by
  rw [checkStrictDir, wp_bind, wp_ask]
  refine ⟨fun _ _ h => SysCall.noConfusion h, ?_⟩
  split
  · exact hQ _ _
  split
  · exact hQ _ _
  split
  · exact hQ _ _
  · exact hQ _ _

theorem wp_walk_notRead {maxPath euid : ℕ} {haveCloexec : Bool} {flags : OpenFlags} {rest : Bytes} :
    Wp (serve pathMax disk.world) NotRead (fun _ _ => True)
      (walk maxPath haveCloexec euid flags fd rest) s := by
  induction hn : rest.length using Nat.strong_induction_on generalizing rest fd s with
  | _ n ih =>
  subst hn
  rw [walk]
  dsimp only
  split
  case isTrue => exact wp_refuse_notRead _
  case isFalse hstart =>
  split
  case isTrue => exact wp_refuse_notRead _
  split
  case isTrue => exact wp_refuse_notRead _
  rw [wp_bind, wp_ask]
  refine ⟨fun _ _ h => SysCall.noConfusion h, ?_⟩
  split
  case h_1 => exact wp_refuse_notRead _
  case h_2 next hnext =>
    rw [wp_bind, wp_ask]
    refine ⟨fun _ _ h => SysCall.noConfusion h, ?_⟩
    split
    case isTrue => trivial
    case isFalse =>
      rw [wp_bind]
      refine wp_checkStrictDir_notRead fun e t => ?_
      cases e with
      | some e => exact wp_refuse_notRead _
      | none => exact ih _ (cut_scan hstart).length_lt rfl

theorem wp_openDictStrict_notRead {maxPath euid : ℕ} {haveCloexec : Bool} {flags : OpenFlags} :
    Wp (serve pathMax disk.world) NotRead (fun _ _ => True)
      (openDictStrict maxPath haveCloexec euid path flags) s := by
  rw [openDictStrict]
  split
  case isTrue => trivial
  case isFalse =>
    rw [wp_bind, wp_ask]
    refine ⟨fun _ _ h => SysCall.noConfusion h, ?_⟩
    split
    case h_1 => trivial
    case h_2 =>
      rw [wp_bind]
      refine wp_checkStrictDir_notRead fun e t => ?_
      cases e with
      | some e => exact wp_refuse_notRead _
      | none => exact wp_walk_notRead

theorem openDict_strict_iff :
    (∃ fd, (exec (serveDisk pathMax disk cut) (openDict p true path) s).1 = .ok fd ∧
      Files.file (exec (serveDisk pathMax disk cut) (openDict p true path) s).2 fd = some ino) ↔
        Names pathMax disk p true path ino := by
  rw [openDict, Names, if_pos rfl, if_pos rfl]
  split
  case isFalse hno =>
    refine iff_of_false ?_ fun h => hno h.1
    rintro ⟨fd, hfd, -⟩
    cases hfd
  case isTrue hhave =>
    have hrun : exec (serveDisk pathMax disk cut)
        (openDictStrict p.maxPath p.haveCloexec p.euid path dictFlags) s =
          exec (serve pathMax disk.world)
            (openDictStrict p.maxPath p.haveCloexec p.euid path dictFlags) s :=
      wp_openDictStrict_notRead.exec_congr serveDisk_eq
    have hreturns : Returns pathMax disk.world
        (openDictStrict p.maxPath p.haveCloexec p.euid path dictFlags) s ino ↔ _ :=
      returns_openDictStrict_iff
    rw [and_iff_right hhave, ← hreturns, Returns, exec_bind, hrun]
    generalize exec (serve pathMax disk.world) _ s = r
    obtain ⟨r | fd, t⟩ := r
    · simp
    · simp

theorem openDict_default_iff :
    (∃ fd, (exec (serveDisk pathMax disk cut) (openDict p false path) s).1 = .ok fd ∧
      Files.file (exec (serveDisk pathMax disk cut) (openDict p false path) s).2 fd = some ino) ↔
        Names pathMax disk p false path ino := by
  have hrun : exec (serveDisk pathMax disk cut) (openDefault path) s =
      s.push (disk.world.tree.openAt pathMax false false disk.world.tree.cwd (cString path)) := rfl
  rw [openDict, Names, if_neg Bool.false_ne_true, if_neg Bool.false_ne_true, exec_bind, hrun]
  cases disk.world.tree.openAt pathMax false false disk.world.tree.cwd (cString path) with
  | none =>
    refine iff_of_false ?_ (by simp)
    rintro ⟨fd, hfd, -⟩
    cases hfd
  | some ino' =>
    have hfile : Files.file (s.push (some ino')).2 s.length = some ino' := Files.file_push rfl
    constructor
    · rintro ⟨fd, hfd, hino⟩
      obtain rfl := Except.ok.inj hfd
      exact hfile.symm.trans hino
    · rintro h
      exact ⟨s.length, rfl, hfile.trans h⟩

theorem openDict_iff :
    (∃ fd, (exec (serveDisk pathMax disk cut) (openDict p strict path) s).1 = .ok fd ∧
      Files.file (exec (serveDisk pathMax disk cut) (openDict p strict path) s).2 fd = some ino) ↔
        Names pathMax disk p strict path ino := by
  cases strict with
  | true => exact openDict_strict_iff
  | false => exact openDict_default_iff

theorem exec_loadFailed {α : Type} (e : LoadError) :
    (exec (serveDisk pathMax disk cut) (loadFailed fd e : SysProg (Except LoadError α)) s).1 =
      .error e := rfl

theorem readDictFile_answers (disk : Disk) (cut : Cut disk) (fd : Fd) (ino : Ino) :
    (readDictFile (disk.content ino).length []
      (cut.answers fd (disk.content ino).length ino).val).get
        (cut.answers fd (disk.content ino).length ino).property = some (disk.content ino) := by
  rw [(cut.reads fd _ ino).readDictFile_eq (Nat.zero_le _) (by simp)
    (Option.some_get (cut.answers fd (disk.content ino).length ino).property).symm]
  simp

theorem readDict_iff (hfd : s.file fd = some ino) :
    (exec (serveDisk pathMax disk cut) (readDict host fd (disk.content ino).length) s).1 =
      .ok bytes ↔
      (disk.content ino ≠ [] ∧ (disk.content ino).length ≤ NGX_HTTP_BROTLI_MAX_DICT_SIZE ∧
        host.arrayPush = true ∧ host.palloc (disk.content ino).length = true) ∧
          bytes = disk.content ino := by
  have hread (size : ℕ) : serveDisk pathMax disk cut s (.read fd size) =
      (cut.answers fd size ino, s) := by
    rw [serveDisk, hfd]
    rfl
  have hclose : (serveDisk pathMax disk cut s (.close fd)).1 = true := by
    show (s.file fd).isSome = true
    rw [hfd]
    rfl
  rw [readDict]
  split
  case isTrue hlarge =>
    rw [exec_loadFailed]
    exact iff_of_false (by simp) fun h => absurd h.1.2.1 (Nat.not_le_of_lt hlarge)
  case isFalse hsize =>
  split
  case isTrue hempty =>
    rw [exec_loadFailed]
    exact iff_of_false (by simp) fun h => h.1.1 (List.length_eq_zero_iff.mp hempty)
  case isFalse hne =>
  split
  case isTrue hmemory =>
    rw [exec_loadFailed]
    refine iff_of_false (by simp) fun h => ?_
    rw [h.1.2.2.1, h.1.2.2.2] at hmemory
    cases hmemory
  case isFalse hmemory =>
    obtain ⟨hpush, hpalloc⟩ :
        host.arrayPush = true ∧ host.palloc (disk.content ino).length = true := by
      simpa using hmemory
    rw [exec_bind, exec_ask, hread]
    dsimp only
    rw [readDictFile_answers]
    dsimp only
    rw [if_neg (not_not.mpr rfl), exec_bind, exec_ask, hclose]
    have hcan : disk.content ino ≠ [] ∧
        (disk.content ino).length ≤ NGX_HTTP_BROTLI_MAX_DICT_SIZE ∧ host.arrayPush = true ∧
          host.palloc (disk.content ino).length = true :=
      ⟨mt List.length_eq_zero_iff.mpr hne, Nat.le_of_not_lt hsize, hpush, hpalloc⟩
    rw [and_iff_right hcan]
    exact ⟨fun h => (Except.ok.inj h).symm, fun h => congrArg Except.ok h.symm⟩

theorem exec_clearNonblock :
    (exec (serveDisk pathMax disk cut) (clearNonblock fd) s).2 = s := by
  have hgetfl : serveDisk pathMax disk cut s (.getfl fd) = (disk.world.other (.getfl fd), s) := rfl
  rw [clearNonblock, exec_bind, exec_ask, hgetfl]
  dsimp only
  split <;> rfl

/-- The bytes of a path are the content of the file that it names. -/
theorem fetchDict_iff :
    (exec (serveDisk pathMax disk cut) (fetchDict p host strict path) s).1 = .ok bytes ↔
      ∃ ino, Names pathMax disk p strict path ino ∧ Loadable disk p host strict ino ∧
        bytes = disk.content ino := by
  have hopen (ino : Ino) := @openDict_iff pathMax disk cut p strict path s ino
  rw [fetchDict, exec_bind]
  generalize exec (serveDisk pathMax disk cut) (openDict p strict path) s = r at hopen
  obtain ⟨r | fd, t⟩ := r
  · refine iff_of_false (by simp) ?_
    rintro ⟨ino, hname, -⟩
    obtain ⟨fd, hfd, -⟩ := (hopen ino).mpr hname
    cases hfd
  have hnames (ino : Ino) : t.file fd = some ino ↔ Names pathMax disk p strict path ino := by
    rw [← hopen ino]
    simp
  simp only [← hnames]
  have hstat : serveDisk pathMax disk cut t (.fstat fd) = ((t.file fd).map disk.world.stat, t) :=
    rfl
  rw [exec_bind, exec_ask, hstat]
  cases hfile : t.file fd with
  | none => exact iff_of_false (by simp [exec_loadFailed]) (by simp)
  | some ino =>
    simp only [Option.map_some, Option.some.injEq, exists_eq_left']
    cases hleaf : checkLeaf p strict (disk.world.stat ino) with
    | some e =>
      refine iff_of_false (by simp [exec_loadFailed]) fun h => ?_
      rw [h.1.leaf] at hleaf
      cases hleaf
    | none =>
      dsimp only
      rw [exec_bind, exec_clearNonblock, disk.size, readDict_iff hfile]
      exact and_congr_left fun _ => ⟨fun h => ⟨hleaf, h.1, h.2.1, h.2.2.1, h.2.2.2⟩,
        fun h => ⟨h.nonempty, h.bounded, h.arrayPush, h.palloc⟩⟩

theorem fetch_iff {line : DictLine} (hline : line.answer = replay (serveDisk pathMax disk cut) s) :
    (∃ calls, line.fetch p strict path = (.ok bytes, calls)) ↔
      ∃ ino, Names pathMax disk p strict path ino ∧ Loadable disk p line.host strict ino ∧
        bytes = disk.content ino := by
  have hrun : (line.fetch p strict path).1 =
      (exec (serveDisk pathMax disk cut) (fetchDict p line.host strict path) s).1 := by
    rw [DictLine.fetch, hline]
    exact exec_replay _ _ _ []
  have hfetch : (exec (serveDisk pathMax disk cut) (fetchDict p line.host strict path) s).1 =
      .ok bytes ↔ _ := fetchDict_iff
  rw [← hfetch, ← hrun]
  constructor
  · rintro ⟨calls, h⟩
    exact congrArg Prod.fst h
  · intro h
    exact ⟨_, Prod.ext h rfl⟩

/-- A line on a disk is loaded where its path names a file that passes the checks; the entry holds
the content of this file, with its digest or the trusted literal, however the reads were cut. -/
theorem dict_file_exact (pathMax : Option ℕ) (disk : Disk) (cut : Cut disk) (s : Files)
    (p : Platform) (main : MainConf) (args : DictArgs) {host : Host} (hevp : DigestsSha256 host)
    (before : Option (List DcbDict)) (dicts : List DcbDict) :
    let strict := main.dictStrictPath == 1
    (∃ main', (exec (serveDisk pathMax disk cut) (dcbDictFile host main p before args) s).1 =
      .ok (main', dicts)) ↔
      (before = none → host.arrayCreate = true) ∧ ∃ hash ino d,
        host.fullName args.path = some d.file ∧ args.hash.mapM parseHash = .ok hash ∧
        Names pathMax disk p strict d.file ino ∧ Loadable disk p host strict ino ∧
        d.bytes = disk.content ino ∧ HasKey main.dcbDictTrustHashes hash d.bytes d.hash ∧
        d.hash ∉ (before.getD []).map DcbDict.hash ∧ dicts = before.getD [] ++ [d] := by
  intro strict
  let line : DictLine := ⟨args, host, replay (serveDisk pathMax disk cut) s⟩
  have hrun : (line.load p main before).1 =
      (exec (serveDisk pathMax disk cut) (dcbDictFile host main p before args) s).1 :=
    exec_replay _ _ _ []
  have hload :
      (∃ main', (exec (serveDisk pathMax disk cut) (dcbDictFile host main p before args) s).1 =
        .ok (main', dicts)) ↔
      ∃ main' calls, line.load p main before = (.ok (main', dicts), calls) := by
    rw [← hrun]
    refine exists_congr fun main' => ⟨fun h => ⟨_, Prod.ext h rfl⟩, ?_⟩
    rintro ⟨calls, h⟩
    exact congrArg Prod.fst h
  rw [hload, load_iff hevp]
  refine and_congr_right fun _ => ?_
  have hfetched (path bytes : Bytes) :
      (∃ calls, line.fetch p strict path = (.ok bytes, calls)) ↔ _ := fetch_iff rfl
  constructor
  · rintro ⟨d, ⟨hash, calls, hfile, hhash, hfetch, hkey⟩, hnew, rfl⟩
    obtain ⟨ino, hnames, hloads, hbytes⟩ := (hfetched _ _).mp ⟨calls, hfetch⟩
    exact ⟨hash, ino, d, hfile, hhash, hnames, hloads, hbytes, hkey, hnew, rfl⟩
  · rintro ⟨hash, ino, d, hfile, hhash, hnames, hloads, hbytes, hkey, hnew, rfl⟩
    obtain ⟨calls, hfetch⟩ := (hfetched _ _).mpr ⟨ino, hnames, hloads, hbytes⟩
    exact ⟨d, ⟨hash, calls, hfile, hhash, hfetch, hkey⟩, hnew, rfl⟩

/-- The line is answered by a disk, and a path that the walk opens by its names ends in one. -/
def OnDisk (pathMax : Option ℕ) (p : Platform) (line : DictLine) : Prop :=
  (∃ (disk : Disk) (cut : Cut disk) (s : Files),
    line.answer = replay (serveDisk pathMax disk cut) s) ∧
    ∀ path, line.host.fullName line.args.path = some path →
      Walkable p.maxPath pathMax path → NamesLeaf pathMax path

theorem Names.default (hleaf : Walkable p.maxPath pathMax path → NamesLeaf pathMax path)
    (hkind : disk.world.tree.kind ino = .regular) (h : Names pathMax disk p true path ino) :
    Names pathMax disk p false path ino := by
  rw [Names, if_pos rfl] at h
  rw [Names, if_neg Bool.false_ne_true]
  have hreturns : Returns pathMax disk.world
      (openDictStrict p.maxPath p.haveCloexec p.euid path dictFlags) [] ino :=
    returns_openDictStrict_iff.mpr h.2
  obtain ⟨fd, hfd, hfile⟩ := narrows_of_leaf hleaf disk.world p.euid [] [] ino hkind hreturns
  exact (Files.file_push hfd).symm.trans hfile

theorem Loadable.default (h : Loadable disk p host true ino) :
    Loadable disk p host false ino ∧ disk.world.tree.kind ino = .regular := by
  have hleaf := h.leaf
  rw [checkLeaf] at hleaf
  split at hleaf
  · cases hleaf
  case isFalse hmode =>
    refine ⟨⟨?_, h.nonempty, h.bounded, h.arrayPush, h.palloc⟩,
      (disk.regular ino).mp (not_not.mp hmode)⟩
    rw [checkLeaf, if_neg hmode]
    simp

theorem loadsTo_default {line : DictLine} {d : DcbDict} {strict trust : Int}
    (hdisk : OnDisk pathMax p line) (hoff : strict ≠ 1) (h : LoadsTo p (.flags 1 trust) line d) :
    LoadsTo p (.flags strict trust) line d := by
  obtain ⟨hash, calls, hfile, hparse, hfetch, hkey⟩ := h
  obtain ⟨⟨disk, cut, s, hanswer⟩, hleaf⟩ := hdisk
  obtain ⟨ino, hnames, hloads, hbytes⟩ := (fetch_iff hanswer).mp ⟨calls, hfetch⟩
  obtain ⟨hloads, hkind⟩ := Loadable.default hloads
  obtain ⟨calls, hfetch⟩ := (fetch_iff hanswer).mpr
    ⟨ino, Names.default (hleaf _ hfile) hkind hnames, hloads, hbytes⟩
  have hflag : (strict == 1) = false := by simpa using hoff
  exact ⟨hash, calls, hfile, hparse, by rw [← hfetch, ← hflag]; rfl, hkey⟩

theorem Loads.default {ds : List Directive} {out dicts : ℕ → Option (List DcbDict)}
    {strict trust : Int} (hdisk : ∀ label line, .dictFile label line ∈ ds → OnDisk pathMax p line)
    (hno : ds.countP isStrict = 0) (hoff : strict ≠ 1) (h : Loads p out 1 trust dicts ds) :
    Loads p out strict trust dicts ds := by
  induction ds generalizing trust dicts with
  | nil => exact h
  | cons e ds ih =>
    obtain ⟨he, hno⟩ := countP_cons_eq_zero hno
    have ih {trust : Int} {dicts : ℕ → Option (List DcbDict)} :=
      @ih dicts trust (fun label line hl => hdisk label line (List.mem_cons_of_mem e hl)) hno
    cases e with
    | strictPath on => cases he
    | trustHashes on => exact ⟨h.1, ih h.2⟩
    | dictFile label line =>
      obtain ⟨hcreate, d, hd, hnew, hrest⟩ := h
      exact ⟨hcreate, d, loadsTo_default (hdisk label line List.mem_cons_self) hoff hd,
        hnew, ih hrest⟩

end

/-- With the flag in front, a configuration over disks that is accepted has the dictionaries that it
has without it. -/
theorem strict_agrees (p : Platform) {pathMax : Option ℕ} {ds : List Directive}
    (hevp : ∀ label line, .dictFile label line ∈ ds → DigestsSha256 line.host)
    (hdisk : ∀ label line, .dictFile label line ∈ ds → OnDisk pathMax p line)
    (hno : ds.countP isStrict = 0) {s : Parse} (h : configure p (.strictPath true :: ds) = .ok s) :
    ∃ t, configure p ds = .ok t ∧ t.dicts = s.dicts ∧
      t.main.dcbDictsHashed = s.main.dcbDictsHashed := by
  have hevp' : ∀ label line, .dictFile label line ∈ Directive.strictPath true :: ds →
      DigestsSha256 line.host := fun label line hmem =>
    hevp label line ((List.mem_cons.mp hmem).resolve_left fun h => Directive.noConfusion h)
  have hoff : ds.any strictOn = false := by
    rw [List.countP_eq_zero] at hno
    rw [List.any_eq_false]
    intro e he
    have hkind := hno e he
    cases e with
    | strictPath on => exact absurd rfl hkind
    | _ => exact Bool.false_ne_true
  obtain ⟨horder, hunset, hloads⟩ := (configure_iff_loads hevp').mp ⟨s, h, rfl⟩
  have horder' : InOrder ds := by
    refine ⟨fun hany => ?_, fun hany => ?_⟩
    · rw [hoff] at hany
      cases hany
    · have := horder.trust hany
      rwa [linesBefore_cons] at this
  obtain ⟨t, ht, hdicts⟩ := (configure_iff_loads hevp).mpr
    ⟨horder', hloads.default hdisk hno (by decide)⟩
  refine ⟨t, ht, hdicts, ?_⟩
  rw [dcbDictsHashed_eq hevp ht, dcbDictsHashed_eq hevp' h]
  rfl

/-- Every byte in a read of its own, after an interrupt. -/
def bytewise (content : Bytes) : List ReadAnswer :=
  content.flatMap (fun b => [.interrupted, .data [b]]) ++ [.data []]

theorem reads_bytewise (content : Bytes) : Reads content (bytewise content) := by
  induction content with
  | nil => exact .eof []
  | cons b content ih => exact .interrupted (.piece (List.cons_ne_nil b []) ih)

theorem readDictFile_bytewise (size : ℕ) (done content : Bytes) :
    (readDictFile size done (bytewise content)).isSome = true := by
  induction content generalizing done with
  | nil =>
    show (readDictFile size done [.data []]).isSome = true
    rw [readDictFile]
    split <;> rfl
  | cons b content ih =>
    show (readDictFile size done (.interrupted :: .data [b] :: bytewise content)).isSome = true
    rw [readDictFile]
    split
    case isFalse => rfl
    case isTrue hlt =>
      rw [readDictFile, if_pos hlt, if_neg (List.cons_ne_nil b [])]
      exact ih _

def Disk.bytewise (disk : Disk) : Cut disk where
  answers _ size ino := ⟨_, readDictFile_bytewise size [] (disk.content ino)⟩
  reads _ _ ino := reads_bytewise (disk.content ino)

def abcDisk : Disk where
  world := ⟨chain [ascii "d", ascii "f"],
    fun ino => if ino < 2 then ⟨0, 0o040755, 0⟩ else ⟨0, 0o100644, 3⟩, failing⟩
  content ino := if ino < 2 then [] else ascii "abc"
  size ino := by
    by_cases h : ino < 2 <;> simp only [h, if_true, if_false] <;> rfl
  regular ino := by
    match ino with
    | 0 => exact iff_of_false (by decide) Kind.noConfusion
    | 1 => exact iff_of_false (by decide) Kind.noConfusion
    | ino + 2 => exact iff_of_true (by simp; decide) rfl

theorem Steps.of_trusted {pathMax : Option ℕ} {w w' : FileWorld} {maxPath euid : ℕ}
    {flags : OpenFlags} {cur ino : Ino} {comps : List Bytes}
    (h : Steps pathMax w maxPath euid flags cur comps ino) (htree : w'.tree = w.tree)
    (htrusted : ∀ ino, Trusted euid (w'.stat ino)) :
    Steps pathMax w' maxPath euid flags cur comps ino := by
  induction comps generalizing cur with
  | nil => exact h
  | cons comp comps ih =>
    obtain ⟨hshort, hdots, next, hopen, hrest⟩ := h
    refine ⟨hshort, hdots, next, by rw [htree]; exact hopen, ?_⟩
    split at hrest
    case isTrue hnil => rwa [if_pos hnil]
    case isFalse hne =>
      rw [if_neg hne]
      exact ⟨htrusted next, ih hrest.2⟩

theorem abcDisk_trusted (ino : Ino) : Trusted 0 (abcDisk.world.stat ino) := by
  show Trusted 0 (if ino < 2 then ⟨0, 0o040755, 0⟩ else ⟨0, 0o100644, 3⟩)
  split <;> exact ⟨.inl rfl, by decide⟩

theorem abcDisk_names : Names (some 4096) abcDisk plainPlatform true (ascii "/d/f") 2 := by
  have hsegments : segments SLASH (ascii "/d/f") = [ascii "d", ascii "f"] := by decide
  rw [Names, if_pos rfl]
  refine ⟨rfl, rfl, 0, ?_, abcDisk_trusted 0, ?_⟩
  · rw [Tree.openAt_eq_some_iff]
    refine ⟨List.cons_ne_nil _ _, by decide, ?_, by decide⟩
    rw [Tree.start, if_pos List.head?_cons, components, if_pos List.getLast?_singleton,
      segments_sep, segments_nil, List.nil_append, Tree.resolve_dot]
    rfl
  · rw [hsegments]
    have hsteps : Steps (some 4096) (chainWorld [ascii "d", ascii "f"]) 4096 0 dictFlags 0
        [ascii "d", ascii "f"] 2 := by
      refine steps_chain (by decide) (List.cons_ne_nil _ _) fun comp hcomp => ?_
      have hall : ∀ comp ∈ [ascii "d", ascii "f"], (comp.length < 4096 ∧
          ¬(cString comp = ascii "." ∨ cString comp = ascii "..") ∧ cString comp ≠ [] ∧
            fits (some 4096) (cString comp) = true) ∧ SLASH ∉ comp := by decide
      exact hall comp hcomp
    exact hsteps.of_trusted rfl abcDisk_trusted

theorem abcDisk_loadable : Loadable abcDisk plainPlatform plainHost true 2 :=
  ⟨by decide, by decide, by decide, rfl, rfl⟩

/-- The file is read byte by byte. -/
theorem dict_file_exact_bytewise :
    ∃ main', (exec (serveDisk (some 4096) abcDisk abcDisk.bytewise)
      (dcbDictFile plainHost (.flags 1 NGX_CONF_UNSET) plainPlatform none ⟨ascii "/d/f", none⟩)
        []).1 = .ok (main', [abcDict]) :=
  (dict_file_exact (some 4096) abcDisk abcDisk.bytewise [] plainPlatform (.flags 1 NGX_CONF_UNSET)
    ⟨ascii "/d/f", none⟩ plainHost_digests none [abcDict]).mpr
      ⟨fun _ => rfl, none, 2, abcDict, rfl, rfl,
      abcDisk_names, abcDisk_loadable, rfl, by simp [HasKey, abcDict, digest_abc], by simp, rfl⟩

def abcLine : DictLine :=
  ⟨⟨ascii "/d/f", none⟩, plainHost, replay (serveDisk (some 4096) abcDisk abcDisk.bytewise) []⟩

theorem strict_agrees_sample :
    ∃ s t, configure plainPlatform [.strictPath true, .dictFile 0 abcLine] = .ok s ∧
      configure plainPlatform [.dictFile 0 abcLine] = .ok t ∧ t.dicts = s.dicts ∧
        t.dicts 0 = some [abcDict] := by
  have hloads : LoadsTo plainPlatform (.flags 1 NGX_CONF_UNSET) abcLine abcDict := by
    obtain ⟨calls, hfetch⟩ : ∃ calls, abcLine.fetch plainPlatform true (ascii "/d/f") =
        (.ok (ascii "abc"), calls) := (fetch_iff rfl).mpr ⟨2, abcDisk_names, abcDisk_loadable, rfl⟩
    exact ⟨none, calls, rfl, rfl, hfetch, by simp [HasKey, abcDict, digest_abc]⟩
  have hdisk : OnDisk (some 4096) plainPlatform abcLine := by
    refine ⟨⟨abcDisk, abcDisk.bytewise, [], rfl⟩, fun path hpath _ => ?_⟩
    obtain rfl := Option.some.inj hpath
    exact ⟨by decide, by decide, by decide⟩
  have hevp := digests_of_plainHost [.strictPath true, .dictFile 0 abcLine]
    (by simp [dictLines, abcLine])
  obtain ⟨s, hs, hdicts⟩ := (configure_iff_loads (p := plainPlatform) hevp).mpr
    ⟨⟨fun _ => rfl, fun h => by cases h⟩, rfl, fun _ => rfl, abcDict, hloads, by simp, rfl⟩
  obtain ⟨t, ht, hsame, -⟩ := strict_agrees plainPlatform
    (digests_of_plainHost [.dictFile 0 abcLine] (by simp [dictLines, abcLine]))
    (by simpa using hdisk) (by decide) hs
  exact ⟨s, t, hs, ht, hsame, by rw [hsame, hdicts]; rfl⟩

end NgxBrotli
