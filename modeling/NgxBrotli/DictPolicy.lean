import NgxBrotli.DictLoad

namespace NgxBrotli
open Prog

/-- The directives that load dictionaries or say how.  A label is a `server` or `location` block, or
`http` itself. -/
inductive Directive
  | dictFile (label : ℕ) (line : DictLine)
  | strictPath (on : Bool)
  | trustHashes (on : Bool)

inductive ConfError
  | isDuplicate
  | load (e : LoadError)
  | strictAfter (file : Bytes)
  | trustAfter (file : Bytes)
  deriving DecidableEq, Repr

/-- What a loaded line left: its entry, its calls, and whether it was hashed. -/
structure Load where
  label : ℕ
  line : DictLine
  dict : DcbDict
  calls : SysHistory
  hashed : Bool

/-- The state of the parse; `loads` keeps what the configuration does not. -/
structure Parse where
  main : MainConf
  dicts : ℕ → Option (List DcbDict)
  loads : List Load

/-- `ngx_http_brotli_create_main_conf` -/
def createMainConf : MainConf := ⟨NGX_CONF_UNSET, none, NGX_CONF_UNSET, none, 0, none⟩

/-- `ngx_conf_set_flag_slot` -/
def setFlagSlot (flag : Int) (on : Bool) : Except ConfError Int :=
  if flag ≠ NGX_CONF_UNSET then .error .isDuplicate else .ok (if on then 1 else 0)

/-- `ngx_conf_init_value` -/
def initValue (flag default : Int) : Int := if flag = NGX_CONF_UNSET then default else flag

/-- `ngx_http_brotli_init_main_conf` -/
def initMainConf (main : MainConf) : Except ConfError MainConf :=
  let main : MainConf := { main with dictStrictPath := initValue main.dictStrictPath 0 }
  match if main.dictStrictPath = 1 then main.dictLoadedBeforeStrictOn else none with
  | some file => .error (.strictAfter file)
  | none =>
    let main : MainConf := { main with dcbDictTrustHashes := initValue main.dcbDictTrustHashes 0 }
    match if main.dcbDictTrustHashes = 1 then main.dcbDictVerifiedBeforeTrustOn else none with
    | some file => .error (.trustAfter file)
    | none => .ok main

section

variable (p : Platform)

/-- One directive. -/
def Directive.run (s : Parse) : Directive → Except ConfError Parse
  | .strictPath on => do
    let flag ← setFlagSlot s.main.dictStrictPath on
    pure { s with main := { s.main with dictStrictPath := flag } }
  | .trustHashes on => do
    let flag ← setFlagSlot s.main.dcbDictTrustHashes on
    pure { s with main := { s.main with dcbDictTrustHashes := flag } }
  | .dictFile label line =>
    match line.load p s.main (s.dicts label) with
    | (.error e, _) => .error (.load e)
    | (.ok (main, dicts), calls) =>
      .ok {
        main := main
        dicts := Function.update s.dicts label (some dicts)
        loads := s.loads ++ dicts.getLast?.toList.map fun dict =>
          ⟨label, line, dict, calls, main.dcbDictsHashed != s.main.dcbDictsHashed⟩ }

/-- The whole parse. -/
def configure (ds : List Directive) : Except ConfError Parse := do
  let s ← ds.foldlM (Directive.run p) ⟨createMainConf, fun _ => none, []⟩
  let main ← initMainConf s.main
  pure { s with main }

def dictLines (ds : List Directive) : List (ℕ × DictLine) :=
  ds.filterMap fun
    | .dictFile label line => some (label, line)
    | _ => none

/-- The walk opened the file, its owner and mode are trusted, and the bytes are from it. -/
def StrictlyLoaded (l : Load) : Prop :=
  ∃ (fd : Fd) (h₁ h₂ : SysHistory) (st : Stat) (answers : (SysCall.read fd st.size).Answer),
    exec (recorded l.line.answer)
        (openDictStrict p.maxPath p.haveCloexec p.euid l.dict.file dictFlags) [] = (.ok fd, h₁) ∧
      l.calls = h₁ ++ ⟨.fstat fd, some st⟩ :: h₂ ∧ Trusted p.euid st ∧
        ⟨.read fd st.size, answers⟩ ∈ h₂ ∧
          readDictFile st.size [] answers.val = some (some l.dict.bytes)

/-- What holds of a dictionary under the final flags. -/
structure LoadPolicy (main : MainConf) (l : Load) : Prop where
  strict : main.dictStrictPath = 1 → StrictlyLoaded p l
  trusted : main.dcbDictTrustHashes = 1 → ∀ literal, l.line.args.hash = some literal →
    EqNoCase literal (hexDump l.dict.hash) ∧ l.hashed = false
  computed : main.dcbDictTrustHashes ≠ 1 ∨ l.line.args.hash = none →
    l.hashed = true ∧ l.dict.hash = Sha2.digest l.dict.bytes ∧
      ∀ literal, l.line.args.hash = some literal → EqNoCase literal (hexDump l.dict.hash)
  nonempty : 1 ≤ l.dict.bytes.length
  bounded : l.dict.bytes.length ≤ 10485760

/-- What the parse keeps. -/
structure Parsed (done : List Directive) (s : Parse) : Prop where
  dicts : ∀ label, (s.dicts label).getD [] = (s.loads.filter (·.label == label)).map (·.dict)
  lines : s.loads.map (fun l => (l.label, l.line)) = dictLines done
  strict : s.main.dictLoadedBeforeStrictOn = none → ∀ l ∈ s.loads, StrictlyLoaded p l
  verified : s.main.dcbDictVerifiedBeforeTrustOn = none →
    ∀ l ∈ s.loads, l.line.args.hash ≠ none → l.hashed = false
  renders : ∀ l ∈ s.loads, ∀ literal, l.line.args.hash = some literal →
    EqNoCase literal (hexDump l.dict.hash)
  digest : ∀ l ∈ s.loads, l.hashed = true → l.dict.hash = Sha2.digest l.dict.bytes
  skipped : ∀ l ∈ s.loads, l.hashed = false →
    l.line.args.hash ≠ none ∧ s.main.dcbDictTrustHashes = 1
  size : ∀ l ∈ s.loads, 0 < l.dict.bytes.length ∧
    l.dict.bytes.length ≤ NGX_HTTP_BROTLI_MAX_DICT_SIZE
  hashed : s.main.dcbDictsHashed = s.loads.countP (·.hashed)

end

section

variable {p : Platform} {done : List Directive} {s s' : Parse} {main main' : MainConf}
  {line : DictLine} {dicts : List DcbDict} {before : Option (List DcbDict)} {calls : SysHistory}

theorem openDict_strict {answer : SysHistory → (c : SysCall) → c.Answer} {path : Bytes} {fd : Fd}
    {h h₁ : SysHistory} :
    exec (recorded answer) (openDict p true path) h = (.ok fd, h₁) ↔
      p.haveStrictWalk = true ∧ exec (recorded answer)
        (openDictStrict p.maxPath p.haveCloexec p.euid path dictFlags) h = (.ok fd, h₁) := by
  rw [openDict, if_pos rfl]
  split
  case isFalse hno => exact iff_of_false (fun h => by cases h) fun h => hno h.1
  case isTrue hhave =>
    rw [exec_bind, and_iff_right hhave]
    rcases exec (recorded answer)
      (openDictStrict p.maxPath p.haveCloexec p.euid path dictFlags) h with ⟨r, h₂⟩
    cases r with
    | error e => exact iff_of_false (fun h => by cases h) fun h => by cases h
    | ok fd' => simp

theorem checkLeaf_strict {st : Stat} (h : checkLeaf p true st = none) : Trusted p.euid st := by
  have hmask :
      (st.mode &&& 0o777) &&& (S_IWGRP ||| S_IWOTH) = st.mode &&& (S_IWGRP ||| S_IWOTH) := by
    rw [Nat.and_assoc]
    rfl
  simp only [checkLeaf, true_and, hmask] at h
  split at h
  case isTrue => cases h
  case isFalse =>
    split at h
    case isTrue => cases h
    case isFalse howner =>
      split at h
      case isTrue => cases h
      case isFalse hmode => exact ⟨by tauto, not_not.mp hmode⟩

theorem FetchedFrom.strictly {l : Load}
    (h : FetchedFrom p true l.dict.file l.line.answer l.dict.bytes l.calls) :
    StrictlyLoaded p l := by
  obtain ⟨fd, h₁, h₂, st, answers, hopen, hcalls, hleaf, hread, hbytes, -⟩ := h
  exact ⟨fd, h₁, h₂, st, answers, (openDict_strict.mp hopen).2, hcalls,
    checkLeaf_strict hleaf, hread, hbytes⟩

structure LoadedAs (p : Platform) (main main' : MainConf) (line : DictLine) (d : DcbDict)
    (calls : SysHistory) : Prop where
  fetched : FetchedFrom p (main.dictStrictPath == 1) d.file line.answer d.bytes calls
  renders : ∀ literal, line.args.hash = some literal → EqNoCase literal (hexDump d.hash)
  strictPath : main'.dictStrictPath = main.dictStrictPath
  trustHashes : main'.dcbDictTrustHashes = main.dcbDictTrustHashes
  loaded : main'.dictLoadedBeforeStrictOn = none →
    main.dictStrictPath = 1 ∧ main.dictLoadedBeforeStrictOn = none
  verified : main'.dcbDictVerifiedBeforeTrustOn = none →
    main.dcbDictVerifiedBeforeTrustOn = none ∧
      (line.args.hash ≠ none → main.dcbDictTrustHashes = 1)
  hashed : (main'.dcbDictsHashed = main.dcbDictsHashed ∧ line.args.hash ≠ none ∧
      main.dcbDictTrustHashes = 1) ∨
    (main'.dcbDictsHashed = main.dcbDictsHashed + 1 ∧ d.hash = Sha2.digest d.bytes ∧
      (line.args.hash ≠ none → main.dcbDictTrustHashes ≠ 1))

theorem load_ok (hevp : DigestsSha256 line.host)
    (h : line.load p main before = (.ok (main', dicts), calls)) :
    ∃ d, dicts = before.getD [] ++ [d] ∧ LoadedAs p main main' line d calls := by
  obtain ⟨path, hash, bytes, hpath, hhash, -, hfetch, henter⟩ := load_ok_iff.mp h
  obtain ⟨key, hkey, hadd⟩ := enterDict_ok_iff.mp henter
  obtain ⟨-, rfl⟩ := addDict_ok_iff.mp hadd
  obtain ⟨hsome, hrenders⟩ := parseHash_mapM_ok hhash
  have hfrom := fetchDict_ok hfetch
  have hlen := length_lt_of_fetch hfetch
  have hverified (h : (recordOrder main path hash.isSome).dcbDictVerifiedBeforeTrustOn = none) :
      main.dcbDictVerifiedBeforeTrustOn = none ∧
        (line.args.hash ≠ none → main.dcbDictTrustHashes = 1) := by
    refine ⟨(recordOrder_verified h).1, fun hlit => (recordOrder_verified h).2 ?_⟩
    rw [Option.isSome_iff_ne_none]
    exact fun hnone => hlit (hsome.mp hnone)
  refine ⟨_, rfl, ?_⟩
  by_cases htrust : hash ≠ none ∧ main.dcbDictTrustHashes = 1
  · -- the literal is the key
    obtain ⟨literal, rfl⟩ := Option.ne_none_iff_exists'.mp htrust.1
    rw [dictKey_trusted literal (by simpa using htrust.2)] at hkey
    obtain ⟨rfl, rfl⟩ := Prod.mk.inj (Except.ok.inj hkey)
    exact {
      fetched := hfrom
      renders := fun value hvalue => hrenders value literal hvalue rfl
      strictPath := recordOrder_dictStrictPath _
      trustHashes := recordOrder_dcbDictTrustHashes _
      loaded := recordOrder_loaded
      verified := hverified
      hashed := .inl ⟨recordOrder_dcbDictsHashed _, fun h => htrust.1 (hsome.mpr h), htrust.2⟩ }
  · -- the bytes are hashed
    have hcomputed : hash = none ∨ (recordOrder main path hash.isSome).dcbDictTrustHashes ≠ 1 := by
      rw [recordOrder_dcbDictTrustHashes]
      tauto
    obtain ⟨hsame, rfl, rfl⟩ := (dictKey_computed hcomputed).mp hkey
    exact {
      fetched := hfrom
      renders := fun value hvalue => by
        cases hash with
        | none => cases (hsome.mp rfl).symm.trans hvalue
        | some literal =>
          rw [← hsame literal rfl]
          exact hrenders value literal hvalue rfl
      strictPath := recordOrder_dictStrictPath _
      trustHashes := recordOrder_dcbDictTrustHashes _
      loaded := recordOrder_loaded
      verified := hverified
      hashed := .inr ⟨congrArg (· + 1) (recordOrder_dcbDictsHashed _), hashDict_val hevp _ hlen,
        fun hlit htr => htrust ⟨fun h => hlit (hsome.mp h), htr⟩⟩ }

theorem Parsed.dictFile (hs : Parsed p done s) (label : ℕ) {d : DcbDict}
    (hload : LoadedAs p s.main main line d calls) {hashed : Bool}
    (hhashed : hashed = (main.dcbDictsHashed != s.main.dcbDictsHashed)) :
    Parsed p (done ++ [.dictFile label line])
      ⟨main, Function.update s.dicts label (some ((s.dicts label).getD [] ++ [d])),
        s.loads ++ [⟨label, line, d, calls, hashed⟩]⟩ := by
  -- the counter says whether this line was hashed
  have hflag : (hashed = false → line.args.hash ≠ none ∧ s.main.dcbDictTrustHashes = 1) ∧
      (hashed = true → d.hash = Sha2.digest d.bytes ∧
        (line.args.hash ≠ none → s.main.dcbDictTrustHashes ≠ 1)) ∧
      main.dcbDictsHashed = s.main.dcbDictsHashed + if hashed then 1 else 0 := by
    rcases hload.hashed with ⟨heq, htrust⟩ | ⟨heq, hcomputed⟩
    · rw [hhashed, heq, bne_self_eq_false]
      exact ⟨fun _ => htrust, fun h => Bool.noConfusion h, rfl⟩
    · have hne : (main.dcbDictsHashed != s.main.dcbDictsHashed) = true := by
        rw [heq]
        simp
      rw [hhashed, hne]
      exact ⟨fun h => Bool.noConfusion h, fun _ => hcomputed, heq⟩
  obtain ⟨hskipped, hcomputed, hcount⟩ := hflag
  obtain ⟨_, _, _, _, _, -, -, -, -, -, hlen, hpos, hmax⟩ := hload.fetched
  constructor
  case dicts =>
    intro label'
    rw [List.filter_append, List.map_append, ← hs.dicts label']
    by_cases hlabel : label = label'
    · subst hlabel
      simp
    · simp [Function.update_of_ne (Ne.symm hlabel), hlabel]
  case lines => simp [hs.lines, dictLines]
  case strict =>
    intro hnone
    -- no record was made, so this line and all before it were strict
    obtain ⟨hstrict, hbefore⟩ := hload.loaded hnone
    refine List.forall_mem_append.mpr ⟨hs.strict hbefore, List.forall_mem_singleton.mpr ?_⟩
    apply FetchedFrom.strictly
    have hfrom := hload.fetched
    rwa [hstrict, beq_self_eq_true] at hfrom
  case verified =>
    intro hnone
    obtain ⟨hbefore, htrust⟩ := hload.verified hnone
    refine List.forall_mem_append.mpr ⟨hs.verified hbefore, List.forall_mem_singleton.mpr ?_⟩
    intro hlit
    by_contra hne
    exact (hcomputed (Bool.eq_true_of_not_eq_false hne)).2 hlit (htrust hlit)
  case renders =>
    exact List.forall_mem_append.mpr ⟨hs.renders, List.forall_mem_singleton.mpr hload.renders⟩
  case digest =>
    exact List.forall_mem_append.mpr ⟨hs.digest,
      List.forall_mem_singleton.mpr fun h => (hcomputed h).1⟩
  case skipped =>
    rw [hload.trustHashes]
    exact List.forall_mem_append.mpr ⟨hs.skipped, List.forall_mem_singleton.mpr hskipped⟩
  case size =>
    refine List.forall_mem_append.mpr ⟨hs.size, List.forall_mem_singleton.mpr ?_⟩
    rw [hlen]
    exact ⟨hpos, hmax⟩
  case hashed =>
    rw [hcount, hs.hashed, List.countP_append]
    simp [List.countP_cons]

theorem Parsed.run {d : Directive} (hs : Parsed p done s) (h : d.run p s = .ok s')
    (hevp : ∀ label line, d = .dictFile label line → DigestsSha256 line.host) :
    Parsed p (done ++ [d]) s' := by
  cases d with
  | strictPath on =>
    rw [Directive.run, setFlagSlot] at h
    split at h
    case isTrue => cases h
    case isFalse =>
      obtain rfl := Except.ok.inj h
      exact { hs with lines := by simpa [dictLines] using hs.lines }
  | trustHashes on =>
    rw [Directive.run, setFlagSlot] at h
    split at h
    case isTrue => cases h
    case isFalse hunset =>
      obtain rfl := Except.ok.inj h
      -- a literal that was trusted shows that the flag was set before
      have hskipped : ∀ l ∈ s.loads, l.hashed ≠ false := fun l hl hfalse => by
        rw [(hs.skipped l hl hfalse).2] at hunset
        exact hunset (by decide)
      exact { hs with
        lines := by simpa [dictLines] using hs.lines
        skipped := fun l hl hfalse => absurd hfalse (hskipped l hl) }
  | dictFile label line =>
    rw [Directive.run] at h
    rcases hload : line.load p s.main (s.dicts label) with ⟨r, calls⟩
    rw [hload] at h
    cases r with
    | error e => cases h
    | ok after =>
      obtain ⟨main, dicts⟩ := after
      obtain ⟨d, rfl, hloaded⟩ := load_ok (hevp label line rfl) hload
      obtain rfl := Except.ok.inj h
      have hparsed := hs.dictFile label hloaded rfl
      simpa using hparsed

theorem Parsed.foldlM {ds : List Directive} (hs : Parsed p done s)
    (h : ds.foldlM (Directive.run p) s = .ok s')
    (hevp : ∀ label line, .dictFile label line ∈ ds → DigestsSha256 line.host) :
    Parsed p (done ++ ds) s' := by
  induction ds generalizing done s with
  | nil =>
    obtain rfl := Except.ok.inj h
    rwa [List.append_nil]
  | cons d ds ih =>
    rw [List.foldlM_cons] at h
    cases hd : d.run p s with
    | error e =>
      rw [hd] at h
      cases h
    | ok t =>
      rw [hd] at h
      have ht := hs.run hd fun label line heq => hevp label line (heq ▸ List.mem_cons_self)
      have := ih ht h fun label line hmem => hevp label line (List.mem_cons_of_mem _ hmem)
      rwa [List.append_assoc, List.singleton_append] at this

theorem parsed_start : Parsed p [] ⟨createMainConf, fun _ => none, []⟩ where
  dicts _ := rfl
  lines := rfl
  strict _ := List.forall_mem_nil _
  verified _ := List.forall_mem_nil _
  renders := List.forall_mem_nil _
  digest := List.forall_mem_nil _
  skipped := List.forall_mem_nil _
  size := List.forall_mem_nil _
  hashed := rfl

theorem initMainConf_ok (h : initMainConf main = .ok main') :
    main' = { main with
      dictStrictPath := initValue main.dictStrictPath 0
      dcbDictTrustHashes := initValue main.dcbDictTrustHashes 0 } ∧
    (main'.dictStrictPath = 1 → main.dictLoadedBeforeStrictOn = none) ∧
    (main'.dcbDictTrustHashes = 1 → main.dcbDictVerifiedBeforeTrustOn = none) := by
  rw [initMainConf] at h
  dsimp only at h
  split at h
  case h_1 => cases h
  case h_2 hstrict =>
    split at h
    case h_1 => cases h
    case h_2 htrust =>
      obtain rfl := Except.ok.inj h
      refine ⟨rfl, fun hon => ?_, fun hon => ?_⟩
      · rwa [if_pos hon] at hstrict
      · rwa [if_pos hon] at htrust

theorem initValue_eq_one_iff {flag : Int} : initValue flag 0 = 1 ↔ flag = 1 := by
  rw [initValue]
  split
  case isTrue h =>
    rw [h]
    decide
  case isFalse => rfl

/-- Over all directives that are accepted, every dictionary meets the policy of the final flags. -/
theorem configure_policy (p : Platform) {ds : List Directive} {s : Parse}
    (hevp : ∀ label line, .dictFile label line ∈ ds → DigestsSha256 line.host)
    (h : configure p ds = .ok s) :
    (∀ label, (s.dicts label).getD [] = (s.loads.filter (·.label == label)).map (·.dict)) ∧
      s.loads.map (fun l => (l.label, l.line)) = dictLines ds ∧
        (∀ l ∈ s.loads, LoadPolicy p s.main l) ∧
          s.main.dcbDictsHashed = s.loads.countP (·.hashed) := by
  rw [configure] at h
  cases hfold : ds.foldlM (Directive.run p) ⟨createMainConf, fun _ => none, []⟩ with
  | error e =>
    rw [hfold] at h
    cases h
  | ok t =>
    rw [hfold] at h
    change initMainConf t.main >>= _ = _ at h
    cases hinit : initMainConf t.main with
    | error e =>
      rw [hinit] at h
      cases h
    | ok main =>
      rw [hinit] at h
      obtain rfl := Except.ok.inj h
      have hparsed : Parsed p ds t := parsed_start.foldlM hfold hevp
      obtain ⟨hmain, hstrict, htrust⟩ := initMainConf_ok hinit
      -- a key that was not computed belongs to a trusted literal
      have hcomputed (l : Load) (hl : l ∈ t.loads)
          (hoff : main.dcbDictTrustHashes ≠ 1 ∨ l.line.args.hash = none) : l.hashed = true := by
        by_contra hne
        obtain ⟨hlit, hone⟩ := hparsed.skipped l hl (Bool.eq_false_of_not_eq_true hne)
        rcases hoff with hoff | hnone
        · rw [hmain] at hoff
          exact hoff (initValue_eq_one_iff.mpr hone)
        · exact hlit hnone
      refine ⟨hparsed.dicts, hparsed.lines, fun l hl => ?_, ?_⟩
      · exact {
          strict := fun hon => hparsed.strict (hstrict hon) l hl
          trusted := fun hon literal hlit => ⟨hparsed.renders l hl literal hlit,
            hparsed.verified (htrust hon) l hl (hlit ▸ Option.some_ne_none literal)⟩
          computed := fun hoff => ⟨hcomputed l hl hoff, hparsed.digest l hl (hcomputed l hl hoff),
            hparsed.renders l hl⟩
          nonempty := (hparsed.size l hl).1
          bounded := (hparsed.size l hl).2 }
      · rw [hmain]
        exact hparsed.hashed

end

def plainPlatform : Platform := ⟨4096, true, true, 0⟩

def plainHost : Host where
  fullName := some
  arrayCreate := true
  arrayPush := true
  palloc _ := true
  evpMdCtx := false
  evpDigest _ := none
  stack := ⟨.replicate 8 0, 0, ⟨.replicate 64 0, List.length_replicate⟩, 0⟩

def plainHash : Bytes := .replicate 64 0x41

def plainLine (hash : Option Bytes) : DictLine := ⟨⟨ascii "/d/f", hash⟩, plainHost, plainAnswer⟩

theorem plainLine_fetch (hash : Option Bytes) :
    ∃ calls,
      (plainLine hash).fetch plainPlatform true (ascii "/d/f") = (.ok (ascii "abc"), calls) := by
  have hopen : exec (recorded plainAnswer) (openDict plainPlatform true (ascii "/d/f")) [] =
      (.ok 9, plainRun.2) := openDict_strict.mpr ⟨rfl, Prod.ext plainRun_ok rfl⟩
  rw [DictLine.fetch, fetchDict, exec_bind,
    show (plainLine hash).answer = plainAnswer from rfl, hopen]
  exact ⟨_, rfl⟩

def plainDirectives : List Directive :=
  [.strictPath true, .trustHashes true, .dictFile 0 (plainLine (some plainHash)),
    .dictFile 1 (plainLine none)]

theorem plainLine_trusted : ∃ d calls,
    (plainLine (some plainHash)).load plainPlatform ⟨1, none, 1, none, 0, none⟩ none =
      (.ok (⟨1, none, 1, none, 0, none⟩, [d]), calls) := by
  let key : Key := ⟨.replicate 32 0xaa, by decide⟩
  have hparse : parseHash plainHash = .ok key := parseHash_eq_ok_iff.mpr (by decide)
  obtain ⟨calls, hfetch⟩ := plainLine_fetch (some plainHash)
  refine ⟨_, calls, load_ok_iff.mpr ⟨ascii "/d/f", some key, ascii "abc", rfl,
    congrArg (some <$> ·) hparse, fun _ => rfl, hfetch, enterDict_ok_iff.mpr ⟨key,
      dictKey_trusted key rfl, addDict_ok_iff.mpr ⟨List.forall_mem_nil _, rfl⟩⟩⟩⟩

theorem plainLine_hashed : ∃ d calls,
    (plainLine none).load plainPlatform ⟨1, none, 1, none, 0, none⟩ none =
      (.ok (⟨1, none, 1, none, 1, some false⟩, [d]), calls) := by
  obtain ⟨calls, hfetch⟩ := plainLine_fetch none
  exact ⟨_, calls, load_ok_iff.mpr ⟨ascii "/d/f", none, ascii "abc", rfl, rfl, fun _ => rfl, hfetch,
    enterDict_ok_iff.mpr ⟨_, (dictKey_computed (.inl rfl)).mpr ⟨by simp, rfl, rfl⟩,
      addDict_ok_iff.mpr ⟨List.forall_mem_nil _, rfl⟩⟩⟩⟩

theorem plainDirectives_configure : ∃ s, configure plainPlatform plainDirectives = .ok s ∧
    s.main.dictStrictPath = 1 ∧ s.main.dcbDictTrustHashes = 1 ∧
      s.loads.map (·.hashed) = [false, true] := by
  obtain ⟨d₀, calls₀, hload₀⟩ := plainLine_trusted
  obtain ⟨d₁, calls₁, hload₁⟩ := plainLine_hashed
  have hset : ¬(1 : Int) = NGX_CONF_UNSET := by decide
  simp [configure, plainDirectives, Directive.run, setFlagSlot, createMainConf, initMainConf,
    initValue, bind, Except.bind, pure, Except.pure, hload₀, hload₁, hset]

/-- A trusted line costs no hash, and both files are strictly loaded. -/
theorem configure_policy_plain : ∃ s, configure plainPlatform plainDirectives = .ok s ∧
    (∀ l ∈ s.loads, StrictlyLoaded plainPlatform l) ∧ s.main.dcbDictsHashed = 1 := by
  obtain ⟨s, hs, hstrict, htrust, hloads⟩ := plainDirectives_configure
  have hevp : ∀ label line, .dictFile label line ∈ plainDirectives → DigestsSha256 line.host := by
    intro label line hmem
    simp only [plainDirectives, List.mem_cons, reduceCtorEq, Directive.dictFile.injEq,
      List.not_mem_nil, or_false, false_or] at hmem
    rcases hmem with ⟨-, rfl⟩ | ⟨-, rfl⟩ <;> exact fun _ _ h => by cases h
  obtain ⟨-, -, hpolicy, hcount⟩ := configure_policy plainPlatform hevp hs
  refine ⟨s, hs, fun l hl => (hpolicy l hl).strict hstrict, ?_⟩
  have hmap : s.loads.countP (·.hashed) = (s.loads.map (·.hashed)).countP id := by
    rw [List.countP_map]
    rfl
  rw [hcount, hmap, hloads]
  rfl

end NgxBrotli
