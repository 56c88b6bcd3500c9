import NgxBrotli.DictOrder
import NgxBrotli.Scopes

namespace NgxBrotli
open Prog DistinctKeys Scopes

namespace Directive

def isStrict : Directive → Bool
  | .strictPath _ => true
  | _ => false

def isTrust : Directive → Bool
  | .trustHashes _ => true
  | _ => false

def strictOn : Directive → Bool
  | .strictPath on => on
  | _ => false

def trustOn : Directive → Bool
  | .trustHashes on => on
  | _ => false

end Directive

open Directive

/-- The dictionary lines before the first directive of a kind. -/
def linesBefore (q : Directive → Bool) (ds : List Directive) : List DictLine :=
  (dictLines (ds.takeWhile fun d => !q d)).map Prod.snd

/-- The order rules: no line before `strict_path on`, and none with a literal before
`trust_hashes on`. -/
structure InOrder (ds : List Directive) : Prop where
  strict : ds.any strictOn = true → linesBefore strictOn ds = []
  trust : ds.any trustOn = true → ∀ line ∈ linesBefore trustOn ds, line.args.hash = none

theorem linesBefore_cons (q : Directive → Bool) (d : Directive) (ds : List Directive) :
    linesBefore q (d :: ds) =
      if q d then [] else (dictLines [d]).map Prod.snd ++ linesBefore q ds := by
  cases hq : q d with
  | true => simp [linesBefore, hq, dictLines]
  | false => cases d <;> simp [linesBefore, hq, dictLines]

theorem linesBefore_append_singleton {q : Directive → Bool}
    (hq : ∀ label line, q (.dictFile label line) = false) (ds : List Directive) (d : Directive) :
    linesBefore q (ds ++ [d]) =
      linesBefore q ds ++ if ds.any q then [] else (dictLines [d]).map Prod.snd := by
  induction ds with
  | nil =>
    rw [List.nil_append, linesBefore_cons]
    cases d with
    | dictFile label line => simp [hq, linesBefore, dictLines]
    | _ => simp [linesBefore, dictLines]
  | cons e ds ih =>
    rw [List.cons_append, linesBefore_cons, linesBefore_cons, ih, List.any_cons]
    cases q e <;> simp

def MainConf.flags (strict trust : Int) : MainConf :=
  { createMainConf with dictStrictPath := strict, dcbDictTrustHashes := trust }

def Loads (p : Platform) (out : ℕ → Option (List DcbDict)) :
    Int → Int → (ℕ → Option (List DcbDict)) → List Directive → Prop
  | _, _, dicts, [] => dicts = out
  | strict, trust, dicts, .strictPath on :: ds =>
    strict = NGX_CONF_UNSET ∧ Loads p out (if on then 1 else 0) trust dicts ds
  | strict, trust, dicts, .trustHashes on :: ds =>
    trust = NGX_CONF_UNSET ∧ Loads p out strict (if on then 1 else 0) dicts ds
  | strict, trust, dicts, .dictFile label line :: ds =>
    (dicts label = none → line.host.arrayCreate = true) ∧
      ∃ d, LoadsTo p (.flags strict trust) line d ∧
        d.hash ∉ ((dicts label).getD []).map DcbDict.hash ∧
          Loads p out strict trust
            (Function.update dicts label (some ((dicts label).getD [] ++ [d]))) ds

section

variable {p : Platform} {ds : List Directive} {s s' : Parse} {out : ℕ → Option (List DcbDict)}

theorem setFlagSlot_ok_iff {flag flag' : Int} {on : Bool} :
    setFlagSlot flag on = .ok flag' ↔ flag = NGX_CONF_UNSET ∧ flag' = if on then 1 else 0 := by
  rw [setFlagSlot]
  split
  case isTrue hset => exact iff_of_false (fun h => by cases h) fun h => hset h.1
  case isFalse hunset =>
    rw [Except.ok.injEq, and_iff_right (not_not.mp hunset)]
    exact eq_comm

theorem run_strictPath_iff {on : Bool} : Directive.run p s (.strictPath on) = .ok s' ↔
    s.main.dictStrictPath = NGX_CONF_UNSET ∧
      s' = { s with main := { s.main with dictStrictPath := if on then 1 else 0 } } := by
  simp only [Directive.run, bind_eq_ok_iff, setFlagSlot_ok_iff, and_assoc, exists_and_left,
    exists_eq_left, pure, Except.pure, Except.ok.injEq, eq_comm (b := s')]

theorem run_trustHashes_iff {on : Bool} : Directive.run p s (.trustHashes on) = .ok s' ↔
    s.main.dcbDictTrustHashes = NGX_CONF_UNSET ∧
      s' = { s with main := { s.main with dcbDictTrustHashes := if on then 1 else 0 } } := by
  simp only [Directive.run, bind_eq_ok_iff, setFlagSlot_ok_iff, and_assoc, exists_and_left,
    exists_eq_left, pure, Except.pure, Except.ok.injEq, eq_comm (b := s')]

theorem run_dictFile {label : ℕ} {line : DictLine} (hevp : DigestsSha256 line.host)
    (h : Directive.run p s (.dictFile label line) = .ok s') :
    ∃ main calls d, line.load p s.main (s.dicts label) =
        (.ok (main, (s.dicts label).getD [] ++ [d]), calls) ∧ LoadedAs p s.main main line d calls ∧
      s' = ⟨main, Function.update s.dicts label (some ((s.dicts label).getD [] ++ [d])),
        s.loads ++ [⟨label, line, d, calls, main.dcbDictsHashed != s.main.dcbDictsHashed⟩]⟩ := by
  rw [Directive.run] at h
  rcases hload : line.load p s.main (s.dicts label) with ⟨r, calls⟩
  rw [hload] at h
  cases r with
  | error e => cases h
  | ok after =>
    obtain ⟨main, dicts⟩ := after
    obtain ⟨d, rfl, hloaded⟩ := load_ok hevp hload
    refine ⟨main, calls, d, rfl, hloaded, ?_⟩
    simpa using (Except.ok.inj h).symm

theorem foldlM_run_iff (hevp : ∀ label line, .dictFile label line ∈ ds → DigestsSha256 line.host) :
    (∃ s', ds.foldlM (Directive.run p) s = .ok s' ∧ s'.dicts = out) ↔
      Loads p out s.main.dictStrictPath s.main.dcbDictTrustHashes s.dicts ds := by
  induction ds generalizing s with
  | nil =>
    constructor
    · rintro ⟨s', h, rfl⟩
      cases h
      rfl
    · exact fun h => ⟨s, rfl, h⟩
  | cons d ds ih =>
    have ih (t : Parse) :=
      @ih t fun label line hmem => hevp label line (List.mem_cons_of_mem d hmem)
    simp only [List.foldlM_cons, bind_eq_ok_iff]
    cases d with
    | strictPath on =>
      simp only [run_strictPath_iff, and_assoc, exists_and_left, exists_eq_left, Loads]
      exact and_congr_right fun _ => ih _
    | trustHashes on =>
      simp only [run_trustHashes_iff, and_assoc, exists_and_left, exists_eq_left, Loads]
      exact and_congr_right fun _ => ih _
    | dictFile label line =>
      have hevp₀ := hevp label line List.mem_cons_self
      have hflags : LoadsTo p (.flags s.main.dictStrictPath s.main.dcbDictTrustHashes) =
          LoadsTo p s.main := loadsTo_congr rfl rfl
      rw [Loads, hflags]
      constructor
      · rintro ⟨s', ⟨t, ht, h⟩, hout⟩
        obtain ⟨main, calls, d, hload, hloaded, rfl⟩ := run_dictFile hevp₀ ht
        obtain ⟨hcreate, d', hd', hnew, hdicts⟩ := (load_iff hevp₀).mp ⟨main, calls, hload⟩
        obtain rfl := List.singleton_inj.mp (List.append_cancel_left hdicts)
        have hrest := (ih _).mp ⟨s', h, hout⟩
        rw [hloaded.strictPath, hloaded.trustHashes] at hrest
        exact ⟨hcreate, d, hd', hnew, hrest⟩
      · rintro ⟨hcreate, d, hd, hnew, hrest⟩
        obtain ⟨main, calls, hload⟩ := (load_iff hevp₀).mpr ⟨hcreate, d, hd, hnew, rfl⟩
        obtain ⟨_, -, hloaded⟩ := load_ok hevp₀ hload
        rw [← hloaded.strictPath, ← hloaded.trustHashes] at hrest
        obtain ⟨s', h, hout⟩ := (ih ⟨main,
          Function.update s.dicts label (some ((s.dicts label).getD [] ++ [d])), _⟩).mpr hrest
        exact ⟨s', ⟨_, by rw [Directive.run, hload], h⟩, hout⟩

end

def finalFlag (flag : Int) (on : Directive → Bool) (ds : List Directive) : Int :=
  if flag = 1 ∨ ds.any on then 1 else 0

def SlotTakes (flag : Int) (kind : Directive → Bool) (ds : List Directive) : Prop :=
  ds.countP kind ≤ if flag = NGX_CONF_UNSET then 1 else 0

/-- The lines of one block by themselves. -/
structure BlockLoads (p : Platform) (main : MainConf) (before : Option (List DcbDict))
    (lines : List DictLine) (after : Option (List DcbDict)) : Prop where
  create : before = none → ∀ line ∈ lines.head?, line.host.arrayCreate = true
  enters : Enters (LoadsTo p main) DcbDict.hash (before.getD []) lines (after.getD [])
  unset : after = none ↔ before = none ∧ lines = []

section

variable {p : Platform} {main main' : MainConf} {before after : Option (List DcbDict)}
  {line : DictLine} {lines : List DictLine} {ds : List Directive}
  {dicts out : ℕ → Option (List DcbDict)} {strict trust : Int}

theorem blockLoads_nil : BlockLoads p main before [] after ↔ after = before := by
  constructor
  · intro h
    have henters : after.getD [] = before.getD [] := h.enters
    have hunset := h.unset
    cases after <;> cases before <;> simp_all
  · rintro rfl
    exact ⟨fun _ => nofun, rfl, by simp⟩

theorem blockLoads_cons : BlockLoads p main before (line :: lines) after ↔
    (before = none → line.host.arrayCreate = true) ∧
      ∃ d, LoadsTo p main line d ∧ d.hash ∉ (before.getD []).map DcbDict.hash ∧
        BlockLoads p main (some (before.getD [] ++ [d])) lines after := by
  constructor
  · rintro ⟨hcreate, ⟨d, hd, hnew, henters⟩, hunset⟩
    refine ⟨fun h => hcreate h line rfl, d, hd, hnew, nofun, henters, ?_⟩
    simpa using hunset
  · rintro ⟨hcreate, d, hd, hnew, hrest⟩
    refine ⟨fun h l hl => Option.some.inj hl ▸ hcreate h, ⟨d, hd, hnew, hrest.enters⟩, ?_⟩
    simpa using hrest.unset

theorem loadsTo_flags {d : DcbDict} (hstrict : main'.dictStrictPath = 1 ↔ main.dictStrictPath = 1)
    (htrust : line.args.hash ≠ none →
      (main'.dcbDictTrustHashes = 1 ↔ main.dcbDictTrustHashes = 1)) :
    LoadsTo p main' line d ↔ LoadsTo p main line d := by
  have hbeq : (main'.dictStrictPath == 1) = (main.dictStrictPath == 1) := by
    rw [Bool.eq_iff_iff, beq_iff_eq, beq_iff_eq, hstrict]
  have hkey (hash : Option Key) (hparse : line.args.hash.mapM parseHash = .ok hash) :
      HasKey main'.dcbDictTrustHashes hash d.bytes d.hash ↔
        HasKey main.dcbDictTrustHashes hash d.bytes d.hash := by
    have hsame : hash ≠ none ∧ main'.dcbDictTrustHashes = 1 ↔
        hash ≠ none ∧ main.dcbDictTrustHashes = 1 :=
      and_congr_right fun hne => htrust fun hnone => hne ((parseHash_mapM_ok hparse).1.mpr hnone)
    simp only [HasKey, hsame]
  rw [LoadsTo, LoadsTo, hbeq]
  exact exists_congr fun hash => exists_congr fun calls => and_congr_right fun _ =>
    and_congr_right fun hparse => and_congr_right fun _ => hkey hash hparse

structure InOrderFrom (strict trust : Int) (ds : List Directive) : Prop where
  strict : strict ≠ 1 → ds.any strictOn = true → linesBefore strictOn ds = []
  trust : trust ≠ 1 → ds.any trustOn = true → ∀ line ∈ linesBefore trustOn ds, line.args.hash = none

theorem finalFlag_cons {flag : Int} {on : Directive → Bool} {d : Directive} (h : on d = false) :
    finalFlag flag on (d :: ds) = finalFlag flag on ds := by
  rw [finalFlag, finalFlag, List.any_cons, h, Bool.false_or]

theorem finalFlag_set {on : Directive → Bool} {d : Directive} :
    finalFlag NGX_CONF_UNSET on (d :: ds) = finalFlag (if on d then 1 else 0) on ds := by
  have hunset : ¬NGX_CONF_UNSET = 1 := by decide
  cases h : on d <;> simp [finalFlag, h, hunset]

theorem slotTakes_cons {flag : Int} {kind : Directive → Bool} {d : Directive} (h : kind d = false) :
    SlotTakes flag kind (d :: ds) ↔ SlotTakes flag kind ds := by
  rw [SlotTakes, SlotTakes, List.countP_cons, h]
  simp

theorem slotTakes_set {flag : Int} (on : Bool) (kind : Directive → Bool) {d : Directive}
    (h : kind d = true) :
    SlotTakes flag kind (d :: ds) ↔
      flag = NGX_CONF_UNSET ∧ SlotTakes (if on then 1 else 0) kind ds := by
  have hset : ¬(if on then (1 : Int) else 0) = NGX_CONF_UNSET := by cases on <;> decide
  rw [SlotTakes, SlotTakes, List.countP_cons, if_pos h, if_neg hset]
  split
  case isTrue hunset => exact ⟨fun hle => ⟨hunset, Nat.le_of_succ_le_succ hle⟩, fun hle => by omega⟩
  case isFalse hunset => exact iff_of_false (by omega) fun hle => hunset hle.1

theorem finalFlag_eq_one_iff {flag : Int} {on : Directive → Bool} :
    finalFlag flag on ds = 1 ↔ flag = 1 ∨ ds.any on = true := by
  rw [finalFlag]
  split
  case isTrue hon => exact iff_of_true rfl hon
  case isFalse hoff => exact iff_of_false Int.zero_ne_one hoff

theorem finalFlag_of_off {flag : Int} {on : Directive → Bool} (h : flag ≠ 1 → ds.any on = false) :
    finalFlag flag on ds = 1 ↔ flag = 1 := by
  rw [finalFlag_eq_one_iff]
  refine ⟨fun hon => ?_, .inl⟩
  by_contra hne
  rw [h hne] at hon
  simp [hne] at hon

theorem InOrderFrom.afterStrictPath {on : Bool}
    (h : InOrderFrom NGX_CONF_UNSET trust (.strictPath on :: ds)) :
    InOrderFrom (if on then 1 else 0) trust ds := by
  obtain ⟨hstrict, htrust⟩ := h
  rw [List.any_cons, linesBefore_cons] at hstrict htrust
  refine ⟨fun hoff hany => ?_, htrust⟩
  cases on with
  | true => exact absurd rfl hoff
  | false => exact hstrict (by decide) hany

theorem InOrderFrom.afterTrustHashes {on : Bool}
    (h : InOrderFrom strict NGX_CONF_UNSET (.trustHashes on :: ds)) :
    InOrderFrom strict (if on then 1 else 0) ds := by
  obtain ⟨hstrict, htrust⟩ := h
  rw [List.any_cons, linesBefore_cons] at hstrict htrust
  refine ⟨hstrict, fun hoff hany => ?_⟩
  cases on with
  | true => exact absurd rfl hoff
  | false => exact htrust (by decide) hany

section

variable {label : ℕ}

theorem InOrderFrom.strict_off (h : InOrderFrom strict trust (.dictFile label line :: ds))
    (hoff : strict ≠ 1) : ds.any strictOn = false := by
  refine Bool.eq_false_of_not_eq_true fun hany => ?_
  have hlines := h.strict hoff hany
  rw [linesBefore_cons] at hlines
  exact List.cons_ne_nil _ _ hlines

theorem InOrderFrom.trust_off (h : InOrderFrom strict trust (.dictFile label line :: ds))
    (hlit : line.args.hash ≠ none) (hoff : trust ≠ 1) : ds.any trustOn = false := by
  refine Bool.eq_false_of_not_eq_true fun hany => hlit (h.trust hoff hany line ?_)
  rw [linesBefore_cons]
  exact List.mem_cons_self

theorem InOrderFrom.afterDictFile (h : InOrderFrom strict trust (.dictFile label line :: ds)) :
    InOrderFrom strict trust ds := by
  refine ⟨fun hoff hany => ?_, fun hoff hany l hl => h.trust hoff hany l ?_⟩
  · rw [h.strict_off hoff] at hany
    cases hany
  · rw [linesBefore_cons]
    exact List.mem_cons_of_mem line hl

theorem InOrderFrom.loadsTo_iff (h : InOrderFrom strict trust (.dictFile label line :: ds))
    (d : DcbDict) : LoadsTo p (.flags strict trust) line d ↔
      LoadsTo p (.flags (finalFlag strict strictOn ds) (finalFlag trust trustOn ds)) line d := by
  refine loadsTo_flags (finalFlag_of_off h.strict_off).symm fun hlit => ?_
  exact (finalFlag_of_off (h.trust_off hlit)).symm

theorem linesOf_dictFile (label' : ℕ) :
    linesOf label' (dictLines (.dictFile label line :: ds)) =
      if label = label' then line :: linesOf label' (dictLines ds)
      else linesOf label' (dictLines ds) := by
  by_cases h : label = label' <;> simp [linesOf, dictLines, h]

theorem blockLoads_dictFile :
    (∀ label', BlockLoads p main (dicts label')
        (linesOf label' (dictLines (.dictFile label line :: ds))) (out label')) ↔
      (dicts label = none → line.host.arrayCreate = true) ∧
        ∃ d, LoadsTo p main line d ∧ d.hash ∉ ((dicts label).getD []).map DcbDict.hash ∧
          ∀ label', BlockLoads p main
            (Function.update dicts label (some ((dicts label).getD [] ++ [d])) label')
            (linesOf label' (dictLines ds)) (out label') := by
  have hupdate (v : Option (List DcbDict)) := Function.forall_update_iff dicts (a := label) (b := v)
    fun label' before => BlockLoads p main before (linesOf label' (dictLines ds)) (out label')
  simp only [linesOf_dictFile, hupdate]
  constructor
  · intro hblocks
    have hblock := hblocks label
    rw [if_pos rfl] at hblock
    obtain ⟨hcreate, d, hd, hnew, hrest⟩ := blockLoads_cons.mp hblock
    refine ⟨hcreate, d, hd, hnew, hrest, fun label' hne => ?_⟩
    have hother := hblocks label'
    rwa [if_neg (Ne.symm hne)] at hother
  · rintro ⟨hcreate, d, hd, hnew, hrest, hothers⟩ label'
    by_cases h : label = label'
    · subst h
      rw [if_pos rfl]
      exact blockLoads_cons.mpr ⟨hcreate, d, hd, hnew, hrest⟩
    · rw [if_neg h]
      exact hothers label' (Ne.symm h)

end

/-- In order the flags in force give each line what the final ones give it, so that every block has
its own lines only. -/
theorem loads_iff_blocks (horder : InOrderFrom strict trust ds) :
    Loads p out strict trust dicts ds ↔
      SlotTakes strict isStrict ds ∧ SlotTakes trust isTrust ds ∧
        ∀ label, BlockLoads p (.flags (finalFlag strict strictOn ds) (finalFlag trust trustOn ds))
          (dicts label) (linesOf label (dictLines ds)) (out label) := by
  induction ds generalizing strict trust dicts with
  | nil =>
    simp only [Loads, SlotTakes, dictLines, linesOf, List.filterMap_nil, List.filter_nil,
      List.map_nil, blockLoads_nil, List.countP_nil, Nat.zero_le, true_and]
    exact ⟨fun h label => h ▸ rfl, fun h => funext fun label => (h label).symm⟩
  | cons d ds ih =>
    cases d with
    | strictPath on =>
      rw [Loads, slotTakes_set on isStrict rfl, slotTakes_cons rfl, and_assoc]
      refine and_congr_right fun hunset => ?_
      subst hunset
      rw [finalFlag_set, finalFlag_cons rfl]
      exact ih horder.afterStrictPath
    | trustHashes on =>
      rw [Loads, slotTakes_set on isTrust rfl, slotTakes_cons rfl, and_assoc, and_left_comm]
      refine and_congr_right fun hunset => ?_
      subst hunset
      rw [finalFlag_set, finalFlag_cons rfl]
      exact ih horder.afterTrustHashes
    | dictFile label line =>
      rw [Loads, slotTakes_cons rfl, slotTakes_cons rfl, finalFlag_cons rfl, finalFlag_cons rfl,
        blockLoads_dictFile]
      simp only [horder.loadsTo_iff, ih horder.afterDictFile]
      constructor
      · rintro ⟨hcreate, d, hd, hnew, hs, ht, hblocks⟩
        exact ⟨hs, ht, hcreate, d, hd, hnew, hblocks⟩
      · rintro ⟨hs, ht, hcreate, d, hd, hnew, hblocks⟩
        exact ⟨hcreate, d, hd, hnew, hs, ht, hblocks⟩

end

def DictLine.file (line : DictLine) : Option Bytes := line.host.fullName line.args.path

def firstFile (lines : List DictLine) : Option Bytes := lines.head?.bind DictLine.file

def withLiteral (lines : List DictLine) : List DictLine :=
  lines.filter fun line => line.args.hash.isSome

theorem recordOrder_loaded_eq {main : MainConf} {path : Bytes} {haveHash : Bool} :
    (recordOrder main path haveHash).dictLoadedBeforeStrictOn =
      if main.dictStrictPath = 1 then main.dictLoadedBeforeStrictOn
      else some (main.dictLoadedBeforeStrictOn.getD path) := by
  simp only [recordOrder, apply_ite MainConf.dictLoadedBeforeStrictOn, ite_self]
  by_cases hs : main.dictStrictPath = 1 <;> cases main.dictLoadedBeforeStrictOn <;> simp [hs]

theorem recordOrder_verified_eq {main : MainConf} {path : Bytes} {haveHash : Bool} :
    (recordOrder main path haveHash).dcbDictVerifiedBeforeTrustOn =
      if main.dcbDictTrustHashes = 1 ∨ haveHash = false then main.dcbDictVerifiedBeforeTrustOn
      else some (main.dcbDictVerifiedBeforeTrustOn.getD path) := by
  simp only [recordOrder, apply_ite MainConf.dcbDictVerifiedBeforeTrustOn,
    apply_ite MainConf.dcbDictTrustHashes, ite_self]
  by_cases ht : main.dcbDictTrustHashes = 1 <;> cases main.dcbDictVerifiedBeforeTrustOn <;>
    cases haveHash <;> simp [ht]

section

variable {p : Platform} {done ds : List Directive} {s s' : Parse} {main main' : MainConf}
  {line : DictLine} {before : Option (List DcbDict)} {dicts : List DcbDict} {calls : SysHistory}

theorem load_recorded (h : line.load p main before = (.ok (main', dicts), calls)) :
    ∃ path, line.file = some path ∧
      main'.dictLoadedBeforeStrictOn =
        (recordOrder main path line.args.hash.isSome).dictLoadedBeforeStrictOn ∧
      main'.dcbDictVerifiedBeforeTrustOn =
        (recordOrder main path line.args.hash.isSome).dcbDictVerifiedBeforeTrustOn := by
  obtain ⟨path, hash, bytes, hpath, hhash, -, -, henter⟩ := load_ok_iff.mp h
  obtain ⟨key, hkey, -⟩ := enterDict_ok_iff.mp henter
  have hsome : hash.isSome = line.args.hash.isSome := by
    rw [Bool.eq_iff_iff, Option.isSome_iff_ne_none, Option.isSome_iff_ne_none, ne_eq, ne_eq,
      (parseHash_mapM_ok hhash).1]
  rw [hsome] at hkey
  refine ⟨path, hpath, ?_⟩
  by_cases htrust : hash ≠ none ∧ main.dcbDictTrustHashes = 1
  · obtain ⟨literal, rfl⟩ := Option.ne_none_iff_exists'.mp htrust.1
    rw [dictKey_trusted literal (by simpa using htrust.2)] at hkey
    obtain ⟨rfl, -⟩ := Prod.mk.inj (Except.ok.inj hkey)
    exact ⟨rfl, rfl⟩
  · have hcomputed : hash = none ∨
        (recordOrder main path line.args.hash.isSome).dcbDictTrustHashes ≠ 1 := by
      rw [recordOrder_dcbDictTrustHashes]
      tauto
    obtain ⟨-, -, rfl⟩ := (dictKey_computed hcomputed).mp hkey
    exact ⟨rfl, rfl⟩

/-- The flags and the records of the parse, by the directives that were run. -/
structure Recorded (done : List Directive) (s : Parse) : Prop where
  strict : s.main.dictStrictPath = 1 ↔ done.any strictOn = true
  trust : s.main.dcbDictTrustHashes = 1 ↔ done.any trustOn = true
  named : ∀ line ∈ (dictLines done).map Prod.snd, line.file ≠ none
  loaded : s.main.dictLoadedBeforeStrictOn = firstFile (linesBefore strictOn done)
  verified : s.main.dcbDictVerifiedBeforeTrustOn =
    firstFile (withLiteral (linesBefore trustOn done))

theorem firstFile_append {lines : List DictLine} (hnamed : ∀ line ∈ lines, line.file ≠ none)
    {path : Bytes} (hpath : line.file = some path) :
    firstFile (lines ++ [line]) = some ((firstFile lines).getD path) := by
  cases lines with
  | nil => simp [firstFile, hpath]
  | cons l lines =>
    obtain ⟨file, hfile⟩ := Option.ne_none_iff_exists'.mp (hnamed l List.mem_cons_self)
    simp [firstFile, hfile]

theorem linesBefore_subset (q : Directive → Bool) (ds : List Directive) :
    linesBefore q ds ⊆ (dictLines ds).map Prod.snd :=
  List.map_subset _ ((List.takeWhile_sublist _).filterMap _).subset

theorem lines_snoc (done : List Directive) {d : Directive} (hd : dictLines [d] = []) :
    dictLines (done ++ [d]) = dictLines done ∧
      linesBefore strictOn (done ++ [d]) = linesBefore strictOn done ∧
        linesBefore trustOn (done ++ [d]) = linesBefore trustOn done := by
  have hbefore (q : Directive → Bool) (hq : ∀ label line, q (.dictFile label line) = false) :
      linesBefore q (done ++ [d]) = linesBefore q done := by
    rw [linesBefore_append_singleton hq, hd, List.map_nil, ite_self, List.append_nil]
  refine ⟨?_, hbefore strictOn fun _ _ => rfl, hbefore trustOn fun _ _ => rfl⟩
  rw [dictLines, List.filterMap_append]
  exact (congrArg (dictLines done ++ ·) hd).trans (List.append_nil _)

theorem Recorded.file_of_linesBefore (hs : Recorded done s) (q : Directive → Bool) :
    ∀ line ∈ linesBefore q done, line.file ≠ none :=
  fun l hl => hs.named l (linesBefore_subset q done hl)

theorem Recorded.loaded_dictFile (hs : Recorded done s) {label : ℕ} {path : Bytes} {haveHash : Bool}
    (hpath : line.file = some path) :
    (recordOrder s.main path haveHash).dictLoadedBeforeStrictOn =
      firstFile (linesBefore strictOn (done ++ [.dictFile label line])) := by
  rw [recordOrder_loaded_eq, hs.loaded, linesBefore_append_singleton fun _ _ => rfl]
  by_cases hon : done.any strictOn = true
  · rw [if_pos (hs.strict.mpr hon), if_pos hon, List.append_nil]
  · rw [if_neg (hs.strict.not.mpr hon), if_neg hon]
    exact (firstFile_append (hs.file_of_linesBefore strictOn) hpath).symm

theorem Recorded.verified_dictFile (hs : Recorded done s) {label : ℕ} {path : Bytes}
    (hpath : line.file = some path) :
    (recordOrder s.main path line.args.hash.isSome).dcbDictVerifiedBeforeTrustOn =
      firstFile (withLiteral (linesBefore trustOn (done ++ [.dictFile label line]))) := by
  rw [recordOrder_verified_eq, hs.verified, linesBefore_append_singleton fun _ _ => rfl]
  by_cases hon : done.any trustOn = true
  · rw [if_pos (.inl (hs.trust.mpr hon)), if_pos hon, List.append_nil]
  · rw [if_neg hon, withLiteral, withLiteral, List.filter_append]
    cases hlit : line.args.hash.isSome with
    | false => simp [dictLines, hlit]
    | true =>
      have hnot : ¬(s.main.dcbDictTrustHashes = 1 ∨ true = false) := by simp [hs.trust.not.mpr hon]
      have hlast : ((dictLines [.dictFile label line]).map Prod.snd).filter
          (fun l => l.args.hash.isSome) = [line] := by simp [dictLines, hlit]
      rw [if_neg hnot, hlast]
      refine (firstFile_append (fun l hl => ?_) hpath).symm
      exact hs.file_of_linesBefore trustOn l (List.mem_of_mem_filter hl)

theorem Recorded.run (hs : Recorded done s) {d : Directive} (h : d.run p s = .ok s')
    (hevp : ∀ label line, d = .dictFile label line → DigestsSha256 line.host) :
    Recorded (done ++ [d]) s' := by
  have hunset (flag : Int) (h : flag = NGX_CONF_UNSET) : flag ≠ 1 := by
    rw [h]
    decide
  cases d with
  | strictPath on =>
    obtain ⟨hstrict, rfl⟩ := run_strictPath_iff.mp h
    obtain ⟨hall, hbefore, hbefore'⟩ := lines_snoc done (d := .strictPath on) rfl
    have hoff : done.any strictOn = false :=
      Bool.eq_false_of_not_eq_true fun hany => hunset _ hstrict (hs.strict.mpr hany)
    exact {
      strict := by cases on <;> simp [strictOn, hoff]
      trust := by simpa [trustOn] using hs.trust
      named := hall ▸ hs.named
      loaded := hbefore ▸ hs.loaded
      verified := hbefore' ▸ hs.verified }
  | trustHashes on =>
    obtain ⟨htrust, rfl⟩ := run_trustHashes_iff.mp h
    obtain ⟨hall, hbefore, hbefore'⟩ := lines_snoc done (d := .trustHashes on) rfl
    have hoff : done.any trustOn = false :=
      Bool.eq_false_of_not_eq_true fun hany => hunset _ htrust (hs.trust.mpr hany)
    exact {
      strict := by simpa [strictOn] using hs.strict
      trust := by cases on <;> simp [trustOn, hoff]
      named := hall ▸ hs.named
      loaded := hbefore ▸ hs.loaded
      verified := hbefore' ▸ hs.verified }
  | dictFile label line =>
    obtain ⟨main, calls, d, hload, hloaded, rfl⟩ := run_dictFile (hevp label line rfl) h
    obtain ⟨path, hpath, hrecord, hrecord'⟩ := load_recorded hload
    constructor
    case strict => simpa [strictOn, hloaded.strictPath] using hs.strict
    case trust => simpa [trustOn, hloaded.trustHashes] using hs.trust
    case named =>
      intro l hl
      rw [dictLines, List.filterMap_append, List.map_append, List.mem_append] at hl
      obtain hl | hl := hl
      · exact hs.named l hl
      · obtain rfl : l = line := by simpa using hl
        rw [hpath]
        exact Option.some_ne_none path
    case loaded => exact hrecord.trans (hs.loaded_dictFile hpath)
    case verified => exact hrecord'.trans (hs.verified_dictFile hpath)

theorem Recorded.foldlM (hs : Recorded done s) (h : ds.foldlM (Directive.run p) s = .ok s')
    (hevp : ∀ label line, .dictFile label line ∈ ds → DigestsSha256 line.host) :
    Recorded (done ++ ds) s' := by
  induction ds generalizing done s with
  | nil =>
    cases h
    rwa [List.append_nil]
  | cons d ds ih =>
    rw [List.foldlM_cons] at h
    obtain ⟨t, ht, h⟩ := bind_eq_ok_iff.mp h
    have := ih (hs.run ht fun label line heq => hevp label line (heq ▸ List.mem_cons_self)) h
      fun label line hmem => hevp label line (List.mem_cons_of_mem _ hmem)
    rwa [List.append_assoc, List.singleton_append] at this

theorem recorded_start : Recorded [] ⟨createMainConf, fun _ => none, []⟩ where
  strict := iff_of_false (by decide) (by simp)
  trust := iff_of_false (by decide) (by simp)
  named := List.forall_mem_nil _
  loaded := rfl
  verified := rfl

theorem firstFile_eq_none_iff {lines : List DictLine} (hnamed : ∀ line ∈ lines, line.file ≠ none) :
    firstFile lines = none ↔ lines = [] := by
  cases lines with
  | nil => exact iff_of_true rfl rfl
  | cons l lines => exact iff_of_false (hnamed l List.mem_cons_self) (List.cons_ne_nil l lines)

theorem withLiteral_eq_nil_iff {lines : List DictLine} :
    withLiteral lines = [] ↔ ∀ line ∈ lines, line.args.hash = none := by
  rw [withLiteral, List.filter_eq_nil_iff]
  exact forall₂_congr fun line _ => by rw [Option.not_isSome_iff_eq_none]

theorem Recorded.strict_eq_none_iff (hs : Recorded ds s) :
    (if s.main.dictStrictPath = 1 then s.main.dictLoadedBeforeStrictOn else none) = none ↔
      (ds.any strictOn = true → linesBefore strictOn ds = []) := by
  rw [hs.loaded, ← firstFile_eq_none_iff (hs.file_of_linesBefore strictOn)]
  simp [hs.strict]

theorem Recorded.trust_eq_none_iff (hs : Recorded ds s) :
    (if s.main.dcbDictTrustHashes = 1 then s.main.dcbDictVerifiedBeforeTrustOn else none) = none ↔
      (ds.any trustOn = true → ∀ line ∈ linesBefore trustOn ds, line.args.hash = none) := by
  have hnamed : ∀ line ∈ withLiteral (linesBefore trustOn ds), line.file ≠ none :=
    fun l hl => hs.file_of_linesBefore trustOn l (List.mem_of_mem_filter hl)
  rw [hs.verified, ← withLiteral_eq_nil_iff, ← firstFile_eq_none_iff hnamed]
  simp [hs.trust]

theorem configure_of_fold {t : Parse}
    (h : ds.foldlM (Directive.run p) ⟨createMainConf, fun _ => none, []⟩ = .ok t) :
    configure p ds =
      match if t.main.dictStrictPath = 1 then t.main.dictLoadedBeforeStrictOn else none with
      | some file => .error (.strictAfter file)
      | none =>
        match
          if t.main.dcbDictTrustHashes = 1 then t.main.dcbDictVerifiedBeforeTrustOn else none
        with
        | some file => .error (.trustAfter file)
        | none => .ok { t with main := { t.main with
            dictStrictPath := initValue t.main.dictStrictPath 0
            dcbDictTrustHashes := initValue t.main.dcbDictTrustHashes 0 } } := by
  rw [configure, h]
  show (initMainConf t.main >>= fun main => pure { t with main }) = _
  simp only [initMainConf, initValue_eq_one_iff]
  generalize (if t.main.dictStrictPath = 1 then t.main.dictLoadedBeforeStrictOn else none) = loaded
  generalize (if t.main.dcbDictTrustHashes = 1 then t.main.dcbDictVerifiedBeforeTrustOn
    else none) = verified
  cases loaded with
  | some file => rfl
  | none => cases verified <;> rfl

theorem configure_iff_loads {out : ℕ → Option (List DcbDict)}
    (hevp : ∀ label line, .dictFile label line ∈ ds → DigestsSha256 line.host) :
    (∃ s, configure p ds = .ok s ∧ s.dicts = out) ↔
      InOrder ds ∧ Loads p out NGX_CONF_UNSET NGX_CONF_UNSET (fun _ => none) ds := by
  have hfold : (∃ t, ds.foldlM (Directive.run p) ⟨createMainConf, fun _ => none, []⟩ = .ok t ∧
      t.dicts = out) ↔ Loads p out NGX_CONF_UNSET NGX_CONF_UNSET (fun _ => none) ds :=
    foldlM_run_iff hevp
  rw [← hfold]
  constructor
  · rintro ⟨s, h, rfl⟩
    obtain ⟨t, ht, hend⟩ := bind_eq_ok_iff.mp h
    obtain ⟨main, -, hend⟩ := bind_eq_ok_iff.mp hend
    cases hend
    have hs : Recorded ds t := recorded_start.foldlM ht hevp
    rw [configure_of_fold ht] at h
    refine ⟨⟨hs.strict_eq_none_iff.mp ?_, hs.trust_eq_none_iff.mp ?_⟩, t, ht, rfl⟩
    · revert h
      split <;> simp [*]
    · revert h
      split
      · simp
      · split <;> simp [*]
  · rintro ⟨horder, t, ht, rfl⟩
    have hs : Recorded ds t := recorded_start.foldlM ht hevp
    rw [configure_of_fold ht, hs.strict_eq_none_iff.mpr horder.strict,
      hs.trust_eq_none_iff.mpr horder.trust]
    exact ⟨_, rfl, rfl⟩

end

def abcKey : Key :=
  ⟨[0xba, 0x78, 0x16, 0xbf, 0x8f, 0x01, 0xcf, 0xea, 0x41, 0x41, 0x40, 0xde, 0x5d, 0xae, 0x22, 0x23,
    0xb0, 0x03, 0x61, 0xa3, 0x96, 0x17, 0x7a, 0x9c, 0xb4, 0x10, 0xff, 0x61, 0xf2, 0x00, 0x15, 0xad],
    by decide⟩

def abcDict : DcbDict := ⟨ascii "/d/f", ascii "abc", abcKey.val, abcKey.property⟩

theorem plainHost_digests : DigestsSha256 plainHost := fun _ _ h => by cases h

theorem digests_of_plainHost (ds : List Directive) (h : ∀ l ∈ dictLines ds, l.2.host = plainHost)
    (label : ℕ) (line : DictLine) (hmem : .dictFile label line ∈ ds) : DigestsSha256 line.host := by
  rw [h (label, line) (List.mem_filterMap.mpr ⟨_, hmem, rfl⟩)]
  exact plainHost_digests

theorem digest_abc : Sha2.digest (ascii "abc") = abcKey.val := by
  have hkey : hashDict plainHost false (ascii "abc") = abcKey := by decide +kernel
  rw [← hkey, hashDict_val plainHost_digests false (by decide)]

theorem abc_loadsTo {hash : Option Bytes} (hhash : hash = none ∨ hash = some (hexDump abcKey.val))
    (trust : Int) : LoadsTo plainPlatform (.flags 1 trust) (plainLine hash) abcDict := by
  obtain ⟨calls, hfetch⟩ := plainLine_fetch hash
  obtain ⟨key, hparse, hsame⟩ : ∃ key, hash.mapM parseHash = .ok key ∧
      ∀ literal, key = some literal → literal.val = abcKey.val := by
    obtain rfl | rfl := hhash
    · exact ⟨none, rfl, nofun⟩
    · refine ⟨some abcKey, congrArg (some <$> ·) (parseHash_eq_ok_iff.mpr .rfl), ?_⟩
      rintro literal h
      rw [Option.some.inj h]
  refine ⟨key, calls, rfl, hparse, hfetch, ?_⟩
  rw [HasKey]
  split
  case isTrue htrust =>
    obtain ⟨literal, rfl⟩ := Option.ne_none_iff_exists'.mp htrust.1
    exact congrArg some (hsame literal rfl)
  case isFalse => exact ⟨digest_abc.symm, hsame⟩

/-- The meaning of a configuration: it is accepted where both flags are set once at most and in
order, and the lines of each block load by themselves under the flags as they end; what a block has
does not depend on the other blocks, nor on where its lines stand among theirs. -/
theorem configure_iff (p : Platform) {ds : List Directive} {out : ℕ → Option (List DcbDict)}
    (hevp : ∀ label line, .dictFile label line ∈ ds → DigestsSha256 line.host) :
    (∃ s, configure p ds = .ok s ∧ s.dicts = out) ↔
      InOrder ds ∧ ds.countP isStrict ≤ 1 ∧ ds.countP isTrust ≤ 1 ∧
        ∀ label, BlockLoads p
          (.flags (if ds.any strictOn then 1 else 0) (if ds.any trustOn then 1 else 0))
          none (linesOf label (dictLines ds)) (out label) := by
  rw [configure_iff_loads hevp]
  refine and_congr_right fun horder => ?_
  have hflag (on : Directive → Bool) :
      finalFlag NGX_CONF_UNSET on ds = if ds.any on then 1 else 0 := by
    have hunset : ¬NGX_CONF_UNSET = 1 := by decide
    simp [finalFlag, hunset]
  rw [loads_iff_blocks ⟨fun _ => horder.strict, fun _ => horder.trust⟩, hflag, hflag]
  rfl

/-- The same file in two blocks. -/
theorem configure_iff_sample :
    ∃ s, configure plainPlatform [.strictPath true, .dictFile 0 (plainLine none),
      .dictFile 1 (plainLine (some (hexDump abcKey.val)))] = .ok s ∧
      s.dicts = fun label => if label = 0 ∨ label = 1 then some [abcDict] else none := by
  refine (configure_iff plainPlatform (digests_of_plainHost _ (by simp [dictLines, plainLine]))).mpr
    ⟨⟨fun _ => rfl, fun h => by cases h⟩, by decide, by decide, fun label => ?_⟩
  have hblock {hash : Option Bytes} (hhash : hash = none ∨ hash = some (hexDump abcKey.val)) :
      BlockLoads plainPlatform (.flags 1 0) none [plainLine hash] (some [abcDict]) :=
    blockLoads_cons.mpr
      ⟨fun _ => rfl, abcDict, abc_loadsTo hhash 0, by simp, blockLoads_nil.mpr rfl⟩
  by_cases h₀ : label = 0
  · subst h₀
    exact hblock (.inl rfl)
  by_cases h₁ : label = 1
  · subst h₁
    exact hblock (.inr rfl)
  have hnone : linesOf label (dictLines [.strictPath true, .dictFile 0 (plainLine none),
      .dictFile 1 (plainLine (some (hexDump abcKey.val)))]) = [] := by
    simp [linesOf, dictLines, Ne.symm h₀, Ne.symm h₁]
  rw [hnone, blockLoads_nil]
  simp [h₀, h₁]

end NgxBrotli
