import NgxBrotli.DictPolicy

namespace NgxBrotli
open Prog DistinctKeys

def loadNext (p : Platform) (s : MainConf × Option (List DcbDict)) (line : DictLine) :
    Except LoadError (MainConf × Option (List DcbDict)) :=
  match (line.load p s.1 s.2).1 with
  | .error e => .error e
  | .ok (main, dicts) => .ok (main, some dicts)

def loadLines (p : Platform) (s : MainConf × Option (List DcbDict)) (lines : List DictLine) :
    Except LoadError (MainConf × Option (List DcbDict)) :=
  lines.foldlM (loadNext p) s

/-- The key of a line with these bytes. -/
def HasKey (trust : Int) (hash : Option Key) (bytes key : Bytes) : Prop :=
  if hash ≠ none ∧ trust = 1 then hash.map (·.val) = some key
  else key = Sha2.digest bytes ∧ ∀ literal, hash = some literal → literal.val = key

def LoadsTo (p : Platform) (main : MainConf) (line : DictLine) (d : DcbDict) : Prop :=
  ∃ (hash : Option Key) (calls : SysHistory),
    line.host.fullName line.args.path = some d.file ∧ line.args.hash.mapM parseHash = .ok hash ∧
      line.fetch p (main.dictStrictPath == 1) d.file = (.ok d.bytes, calls) ∧
        HasKey main.dcbDictTrustHashes hash d.bytes d.hash

section

variable {p : Platform} {main main' : MainConf} {line : DictLine} {d d' : DcbDict}
  {before : Option (List DcbDict)} {dicts : List DcbDict}

theorem HasKey.unique {trust : Int} {hash : Option Key} {bytes key key' : Bytes}
    (h : HasKey trust hash bytes key) (h' : HasKey trust hash bytes key') : key = key' := by
  rw [HasKey] at h h'
  split at h
  case isTrue htrust =>
    rw [if_pos htrust] at h'
    exact Option.some_inj.mp (h.symm.trans h')
  case isFalse htrust =>
    rw [if_neg htrust] at h'
    exact h.1.trans h'.1.symm

theorem exists_dictKey_iff {host : Host} (hevp : DigestsSha256 host) {hash : Option Key}
    {bytes : Bytes} (hlen : bytes.length < 2 ^ 61) {key : Key} :
    (∃ main', dictKey host main hash bytes = .ok (main', key)) ↔
      HasKey main.dcbDictTrustHashes hash bytes key.val := by
  rw [HasKey]
  split
  case isTrue htrust =>
    obtain ⟨literal, rfl⟩ := Option.ne_none_iff_exists'.mp htrust.1
    rw [dictKey_trusted literal htrust.2]
    simp [Subtype.ext_iff]
  case isFalse hcomputed =>
    have hcomputed : hash = none ∨ main.dcbDictTrustHashes ≠ 1 := by tauto
    simp only [dictKey_computed hcomputed]
    have hval := hashDict_val hevp (main.dcbEvpMdCtx.getD host.evpMdCtx) hlen
    constructor
    · rintro ⟨_, hsame, rfl, -⟩
      exact ⟨hval, fun literal hlit => congrArg Subtype.val (hsame literal hlit)⟩
    · rintro ⟨hkey, hsame⟩
      exact ⟨_, fun literal hlit => Subtype.ext (hsame literal hlit),
        Subtype.ext (hkey.trans hval.symm), rfl⟩

theorem loadsTo_unique : Relator.RightUnique (LoadsTo p main) := by
  rintro line ⟨file, bytes, key, hlen⟩ ⟨file', bytes', key', hlen'⟩
  rintro ⟨hash, calls, hfile, hhash, hfetch, hkey⟩ ⟨hash', calls', hfile', hhash', hfetch', hkey'⟩
  obtain rfl : file = file' := Option.some_inj.mp (hfile.symm.trans hfile')
  obtain rfl := Except.ok.inj (hhash.symm.trans hhash')
  obtain ⟨hbytes, -⟩ := Prod.mk.inj (hfetch.symm.trans hfetch')
  obtain rfl : bytes = bytes' := Except.ok.inj hbytes
  obtain rfl : key = key' := hkey.unique hkey'
  rfl

theorem loadsTo_congr (hstrict : main'.dictStrictPath = main.dictStrictPath)
    (htrust : main'.dcbDictTrustHashes = main.dcbDictTrustHashes) :
    LoadsTo p main' = LoadsTo p main := by
  funext line d
  rw [LoadsTo, LoadsTo, hstrict, htrust]

theorem load_iff (hevp : DigestsSha256 line.host) :
    (∃ main' calls, line.load p main before = (.ok (main', dicts), calls)) ↔
      (before = none → line.host.arrayCreate = true) ∧
        ∃ d, LoadsTo p main line d ∧ d.hash ∉ (before.getD []).map DcbDict.hash ∧
          dicts = before.getD [] ++ [d] := by
  simp only [load_ok_iff, enterDict_ok_iff, addDict_ok_iff]
  constructor
  · rintro ⟨main', calls, path, hash, bytes, hpath, hhash, hcreate, hfetch, key, hkey, hnew, rfl⟩
    have hlen := length_lt_of_fetch hfetch
    have hhas := (exists_dictKey_iff hevp hlen).mp ⟨main', hkey⟩
    rw [recordOrder_dcbDictTrustHashes] at hhas
    refine ⟨hcreate, ⟨path, bytes, key.val, key.property⟩,
      ⟨hash, calls, hpath, hhash, hfetch, hhas⟩, ?_, rfl⟩
    simpa using hnew
  · rintro ⟨hcreate, d, ⟨hash, calls, hpath, hhash, hfetch, hhas⟩, hnew, rfl⟩
    have hlen := length_lt_of_fetch hfetch
    let key : Key := ⟨d.hash, d.hash_length⟩
    have htrust : (recordOrder main d.file hash.isSome).dcbDictTrustHashes =
        main.dcbDictTrustHashes := recordOrder_dcbDictTrustHashes _
    have hhas : HasKey (recordOrder main d.file hash.isSome).dcbDictTrustHashes hash d.bytes
        key.val := htrust ▸ hhas
    obtain ⟨main', hkey⟩ := (exists_dictKey_iff hevp hlen).mpr hhas
    exact ⟨main', calls, d.file, hash, d.bytes, hpath, hhash, hcreate, hfetch, key, hkey,
      by simpa using hnew, rfl⟩

theorem loadLines_iff {create : Bool} {lines : List DictLine} {out : List DcbDict}
    (hevp : ∀ line ∈ lines, DigestsSha256 line.host)
    (hcreate : ∀ line ∈ lines, line.host.arrayCreate = create) :
    (∃ s, loadLines p (main, before) lines = .ok s ∧ s.2.getD [] = out) ↔
      (lines ≠ [] → before = none → create = true) ∧
        Enters (LoadsTo p main) DcbDict.hash (before.getD []) lines out := by
  -- a line changes the records and counters of `main`, and `LoadsTo` sees only its flags
  induction lines generalizing main before with
  | nil => simp [loadLines, Enters, pure, Except.pure, eq_comm]
  | cons line lines ih =>
    have hevp₀ := hevp line List.mem_cons_self
    have ih (main' : MainConf) (dicts : List DcbDict) :=
      @ih main' (some dicts) (fun l hl => hevp l (List.mem_cons_of_mem _ hl))
        fun l hl => hcreate l (List.mem_cons_of_mem _ hl)
    rw [Enters, loadLines, List.foldlM_cons]
    constructor
    · rintro ⟨s, hrun, rfl⟩
      rcases hload : line.load p main before with ⟨r, calls⟩
      rw [loadNext, hload] at hrun
      cases r with
      | error e => cases hrun
      | ok after =>
        obtain ⟨main', dicts⟩ := after
        obtain ⟨hsome, d, hd, hnew, rfl⟩ := (load_iff hevp₀).mp ⟨main', calls, hload⟩
        obtain ⟨_, -, hloaded⟩ := load_ok hevp₀ hload
        obtain ⟨-, hrest⟩ := (ih main' _).mp ⟨s, hrun, rfl⟩
        rw [loadsTo_congr hloaded.strictPath hloaded.trustHashes] at hrest
        exact ⟨fun _ hb => hcreate line List.mem_cons_self ▸ hsome hb, d, hd, hnew, hrest⟩
    · rintro ⟨hsome, d, hd, hnew, hrest⟩
      obtain ⟨main', calls, hload⟩ := (load_iff hevp₀).mpr
        ⟨fun hb => (hcreate line List.mem_cons_self).trans (hsome (List.cons_ne_nil _ _) hb), d, hd,
          hnew, rfl⟩
      obtain ⟨_, -, hloaded⟩ := load_ok hevp₀ hload
      rw [← loadsTo_congr hloaded.strictPath hloaded.trustHashes] at hrest
      obtain ⟨s, hrun, hs⟩ := (ih main' (before.getD [] ++ [d])).mpr
        ⟨fun _ h => absurd h (Option.some_ne_none _), hrest⟩
      refine ⟨s, ?_, hs⟩
      rw [loadNext, hload]
      exact hrun

theorem exists_loadLines_of_perm {create : Bool} {lines lines' : List DictLine}
    (hperm : lines'.Perm lines) (hevp : ∀ line ∈ lines, DigestsSha256 line.host)
    (hcreate : ∀ line ∈ lines, line.host.arrayCreate = create)
    (h : ∃ s, loadLines p (main, none) lines = .ok s) :
    ∃ s, loadLines p (main, none) lines' = .ok s := by
  obtain ⟨s, hs⟩ := h
  obtain ⟨hsome, henters⟩ := (loadLines_iff hevp hcreate).mp ⟨s, hs, rfl⟩
  obtain ⟨out, hout, -⟩ := henters.perm hperm
  have hnil : lines' ≠ [] → lines ≠ [] := by
    rintro hne rfl
    exact hne hperm.eq_nil
  obtain ⟨t, ht, -⟩ := (loadLines_iff (fun l hl => hevp l (hperm.subset hl))
    fun l hl => hcreate l (hperm.subset hl)).mpr ⟨fun hne => hsome (hnil hne), hout⟩
  exact ⟨t, ht⟩

end

/-- In another order the lines of a block load if they do in this one, with distinct keys, and every
request selects the same dictionary. -/
theorem loadLines_perm (p : Platform) (main : MainConf) {create : Bool}
    {lines lines' : List DictLine}
    (hperm : lines'.Perm lines) (hevp : ∀ line ∈ lines, DigestsSha256 line.host)
    (hcreate : ∀ line ∈ lines, line.host.arrayCreate = create) :
    ((∃ s, loadLines p (main, none) lines' = .ok s) ↔ ∃ s, loadLines p (main, none) lines = .ok s) ∧
      ∀ s s', loadLines p (main, none) lines = .ok s → loadLines p (main, none) lines' = .ok s' →
        ((s.2.getD []).map DcbDict.hash).Nodup ∧ ((s'.2.getD []).map DcbDict.hash).Nodup ∧
          ∀ build decodeBase64 (conf : Conf) (r : Request),
            dcbNegotiate build decodeBase64 { conf with dcbDicts := s'.2.getD [] } r =
              dcbNegotiate build decodeBase64 { conf with dcbDicts := s.2.getD [] } r := by
  have hevp' : ∀ line ∈ lines', DigestsSha256 line.host := fun l hl => hevp l (hperm.subset hl)
  have hcreate' : ∀ line ∈ lines', line.host.arrayCreate = create := fun l hl =>
    hcreate l (hperm.subset hl)
  refine ⟨⟨exists_loadLines_of_perm hperm.symm hevp' hcreate',
    exists_loadLines_of_perm hperm hevp hcreate⟩, fun s s' hs hs' => ?_⟩
  obtain ⟨-, henters⟩ := (loadLines_iff hevp hcreate).mp ⟨s, hs, rfl⟩
  obtain ⟨-, henters'⟩ := (loadLines_iff hevp' hcreate').mp ⟨s', hs', rfl⟩
  obtain ⟨out, hout, hoperm⟩ := henters.perm hperm
  rw [hout.unique loadsTo_unique henters'] at hoperm
  have hnodup := (enters_nil_iff.mp henters).2
  have hnodup' := (enters_nil_iff.mp henters').2
  refine ⟨hnodup, hnodup', fun build decodeBase64 conf r => ?_⟩
  rw [dcbNegotiate_eq_bind, dcbNegotiate_eq_bind]
  simp only [find?_perm hoperm hnodup']

theorem plainLine_loadsTo {hash : Bytes} {key : Key} (hparse : parseHash hash = .ok key) :
    LoadsTo plainPlatform ⟨1, none, 1, none, 0, none⟩ (plainLine (some hash))
      ⟨ascii "/d/f", ascii "abc", key.val, key.property⟩ := by
  obtain ⟨calls, hfetch⟩ := plainLine_fetch (some hash)
  refine ⟨some key, calls, rfl, congrArg (some <$> ·) hparse, hfetch, ?_⟩
  rw [HasKey, if_pos ⟨Option.some_ne_none key, rfl⟩]
  rfl

/-- Two trusted lines, in both orders. -/
theorem loadLines_perm_plain :
    let lines := [plainLine (some (.replicate 64 0x41)), plainLine (some (.replicate 64 0x42))]
    let start : MainConf × Option (List DcbDict) := (⟨1, none, 1, none, 0, none⟩, none)
    ∃ s s', loadLines plainPlatform start lines = .ok s ∧
      loadLines plainPlatform start lines.reverse = .ok s' ∧
        ∀ build decodeBase64 (conf : Conf) (r : Request),
          dcbNegotiate build decodeBase64 { conf with dcbDicts := s'.2.getD [] } r =
            dcbNegotiate build decodeBase64 { conf with dcbDicts := s.2.getD [] } r := by
  intro lines start
  have hevp : ∀ line ∈ lines, DigestsSha256 line.host := by
    simp [lines, plainLine, plainHost, DigestsSha256]
  have hcreate : ∀ line ∈ lines, line.host.arrayCreate = true := by
    simp [lines, plainLine, plainHost]
  have hparse (c : UInt8) (key : Key) (h : EqNoCase (.replicate 64 c) (hexDump key.val)) :
      parseHash (.replicate 64 c) = .ok key := parseHash_eq_ok_iff.mpr h
  have hA := plainLine_loadsTo (hparse 0x41 ⟨.replicate 32 0xaa, by decide⟩ (by decide))
  have hB := plainLine_loadsTo (hparse 0x42 ⟨.replicate 32 0xbb, by decide⟩ (by decide))
  obtain ⟨s, hs, -⟩ := (@loadLines_iff plainPlatform start.1 none _ _ _ hevp hcreate).mpr
    ⟨fun _ _ => rfl, enters_nil_iff.mpr ⟨.cons hA (.cons hB .nil), by decide⟩⟩
  have hperm := loadLines_perm plainPlatform start.1 lines.reverse_perm hevp hcreate
  obtain ⟨s', hs'⟩ := hperm.1.mpr ⟨s, hs⟩
  exact ⟨s, s', hs, hs', (hperm.2 s s' hs hs').2.2⟩

end NgxBrotli
