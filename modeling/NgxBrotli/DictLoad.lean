import NgxBrotli.HexLiteral
import NgxBrotli.Negotiate
import NgxBrotli.Sha256
import NgxBrotli.StrictWalk

namespace NgxBrotli
open Prog

abbrev NGX_HTTP_BROTLI_MAX_DICT_SIZE : ℕ := 10485760

/-- The 32 bytes that select a dictionary. -/
abbrev Key := { key : Bytes // key.length = NGX_HTTP_BROTLI_SHA256_DIGEST_LEN }

/-- What the build and the process fix. -/
structure Platform where
  maxPath : ℕ
  haveCloexec : Bool
  haveStrictWalk : Bool
  euid : ℕ

/-- `ngx_conf_full_name`, the pool and libcrypto while a line is loaded; `stack` is what the hash
finds in memory. -/
structure Host where
  fullName : Bytes → Option Bytes
  arrayCreate : Bool
  arrayPush : Bool
  palloc : ℕ → Bool
  /-- `EVP_MD_CTX_new` and the cleanup that frees it -/
  evpMdCtx : Bool
  evpDigest : Bytes → Option Key
  stack : Sha256

/-- `ngx_http_brotli_main_conf_t`, as far as dictionaries need it.  The files of the two records
stand for their flags, and `dcbEvpMdCtx` is `none` before the context was attempted. -/
structure MainConf where
  dictStrictPath : Int
  dictLoadedBeforeStrictOn : Option Bytes
  dcbDictTrustHashes : Int
  dcbDictVerifiedBeforeTrustOn : Option Bytes
  dcbDictsHashed : ℕ
  dcbEvpMdCtx : Option Bool

/-- The arguments of `brotli_dcb_dict_file`. -/
structure DictArgs where
  path : Bytes
  hash : Option Bytes

inductive LoadError
  | fullName
  | hashLength
  | hashHex
  | memory
  | walk (e : WalkError)
  | noStrictWalk
  | open
  | fstat
  | notRegular
  | owner
  | writable
  | tooLarge
  | empty
  | read
  | incomplete
  | close
  | mismatch
  | sameHash (file : Bytes)
  deriving DecidableEq, Repr

theorem length_key {value hash : Bytes}
    (hlen : ¬value.length ≠ 2 * NGX_HTTP_BROTLI_SHA256_DIGEST_LEN)
    (hhex : hexBytes value = some hash) :
    hash.length = NGX_HTTP_BROTLI_SHA256_DIGEST_LEN := by
  have := length_of_hexBytes hhex
  omega

/-- The optional hash. -/
def parseHash (value : Bytes) : Except LoadError Key :=
  if hlen : value.length ≠ 2 * NGX_HTTP_BROTLI_SHA256_DIGEST_LEN then .error .hashLength
  else
    match hhex : hexBytes value with
    | none => .error .hashHex
    | some hash => .ok ⟨hash, length_key hlen hhex⟩

section

variable (p : Platform) (host : Host) (strict : Bool)

/-- The file is closed, and the line refused. -/
def loadFailed {α : Type} (fd : Fd) (e : LoadError) : SysProg (Except LoadError α) := do
  let _ ← ask (SysCall.close fd)
  pure (.error e)

/-- The file by its path, in the mode that the flag asks for. -/
def openDict (path : Bytes) : SysProg (Except LoadError Fd) :=
  if strict then
    if p.haveStrictWalk then do
      match ← openDictStrict p.maxPath p.haveCloexec p.euid path dictFlags with
      | .error e => pure (.error (.walk e))
      | .ok fd => pure (.ok fd)
    else pure (.error .noStrictWalk)
  else do
    match ← openDefault path with
    | none => pure (.error .open)
    | some fd => pure (.ok fd)

/-- The checks of the file itself. -/
def checkLeaf (st : Stat) : Option LoadError :=
  if st.mode &&& S_IFMT ≠ S_IFREG then some .notRegular
  else if strict ∧ st.uid ≠ p.euid ∧ st.uid ≠ 0 then some .owner
  else if strict ∧ (st.mode &&& 0o777) &&& (S_IWGRP ||| S_IWOTH) ≠ 0 then some .writable
  else none

/-- `O_NONBLOCK` is cleared, as far as that goes. -/
def clearNonblock (fd : Fd) : SysProg Unit := do
  match ← ask (SysCall.getfl fd) with
  | none => pure ()
  | some fl => do
    let _ ← ask (SysCall.setfl fd { fl with nonblock := false })
    pure ()

/-- The array entry, the memory and the bytes for a file of this size. -/
def readDict (fd : Fd) (size : ℕ) : SysProg (Except LoadError Bytes) :=
  if size > NGX_HTTP_BROTLI_MAX_DICT_SIZE then loadFailed fd .tooLarge
  else if size = 0 then loadFailed fd .empty
  else if !host.arrayPush || !host.palloc size then loadFailed fd .memory
  else do
    let answers ← ask (SysCall.read fd size)
    match (readDictFile size [] answers.val).get answers.property with
    | none => loadFailed fd .read
    | some bytes =>
      if bytes.length ≠ size then loadFailed fd .incomplete
      else do
        if ← ask (SysCall.close fd) then pure (.ok bytes) else pure (.error .close)

/-- From the path to the bytes. -/
def fetchDict (path : Bytes) : SysProg (Except LoadError Bytes) := do
  match ← openDict p strict path with
  | .error e => pure (.error e)
  | .ok fd => do
    match ← ask (SysCall.fstat fd) with
    | none => loadFailed fd .fstat
    | some st =>
      match checkLeaf p strict st with
      | some e => loadFailed fd e
      | none => do
        clearNonblock fd
        readDict host fd st.size

end

section

variable (host : Host) (main : MainConf)

/-- The records of the two orders, before the line is loaded. -/
def recordOrder (path : Bytes) (haveHash : Bool) : MainConf :=
  let main :=
    if main.dictStrictPath ≠ 1 ∧ main.dictLoadedBeforeStrictOn = none then
      { main with dictLoadedBeforeStrictOn := some path }
    else main
  if haveHash ∧ main.dcbDictTrustHashes ≠ 1 ∧ main.dcbDictVerifiedBeforeTrustOn = none then
    { main with dcbDictVerifiedBeforeTrustOn := some path }
  else main

/-- `ngx_http_brotli_sha256` with the context of the configuration. -/
def hashDict (ctx : Bool) (bytes : Bytes) : Key :=
  match if ctx then host.evpDigest bytes else none with
  | some digest => ⟨sha256 host.stack (some digest.val) bytes, digest.property⟩
  | none => ⟨sha256 host.stack none bytes, Sha256.length_final _⟩

/-- The key: the trusted literal, or else the hash, with which a literal is compared. -/
def dictKey (hash : Option Key) (bytes : Bytes) : Except LoadError (MainConf × Key) :=
  match if main.dcbDictTrustHashes = 1 then hash else none with
  | some literal => .ok (main, literal)
  | none =>
    -- the context is attempted once in a configuration
    let ctx := main.dcbEvpMdCtx.getD host.evpMdCtx
    let main := { main with dcbEvpMdCtx := some ctx, dcbDictsHashed := main.dcbDictsHashed + 1 }
    let key := hashDict host ctx bytes
    if hash.any (· != key) then .error .mismatch else .ok (main, key)

/-- The entry joins the others, if its key is new. -/
def addDict (dicts : List DcbDict) (path bytes : Bytes) (key : Key) :
    Except LoadError (List DcbDict) :=
  match dicts.find? fun d => d.hash == key.val with
  | some d => .error (.sameHash d.file)
  | none => .ok (dicts ++ [⟨path, bytes, key.val, key.property⟩])

/-- From the bytes to the entry. -/
def enterDict (dicts : List DcbDict) (path : Bytes) (hash : Option Key) (bytes : Bytes) :
    Except LoadError (MainConf × List DcbDict) := do
  let (main, key) ← dictKey host main hash bytes
  let dicts ← addDict dicts path bytes key
  pure (main, dicts)

/-- `ngx_http_brotli_dcb_dict_file`; `dicts` is `none` for `NGX_CONF_UNSET_PTR`. -/
def dcbDictFile (p : Platform) (dicts : Option (List DcbDict)) (args : DictArgs) :
    SysProg (Except LoadError (MainConf × List DcbDict)) :=
  match host.fullName args.path with
  | none => pure (.error .fullName)
  | some path =>
    match args.hash.mapM parseHash with
    | .error e => pure (.error e)
    | .ok hash =>
      if dicts = none ∧ !host.arrayCreate then pure (.error .memory)
      else do
        let main := recordOrder main path hash.isSome
        match ← fetchDict p host (main.dictStrictPath == 1) path with
        | .error e => pure (.error e)
        | .ok bytes => pure (enterDict host main (dicts.getD []) path hash bytes)

end

theorem parseHash_eq_ok_iff {value : Bytes} {key : Key} :
    parseHash value = .ok key ↔ EqNoCase value (hexDump key.val) := by
  rw [← hexBytes_eq_some_iff, parseHash]
  split
  case isTrue hlen =>
    refine iff_of_false (by simp) fun hkey => hlen ?_
    rw [length_of_hexBytes hkey, key.property]
  case isFalse =>
    split
    case h_1 hnone => simp [hnone]
    case h_2 hash hhash => simp [hhash, Subtype.ext_iff]

theorem parseHash_mapM_ok {literal : Option Bytes} {hash : Option Key}
    (h : literal.mapM parseHash = .ok hash) :
    (hash = none ↔ literal = none) ∧ ∀ value key, literal = some value → hash = some key →
      EqNoCase value (hexDump key.val) := by
  cases literal with
  | none =>
    obtain rfl := Except.ok.inj h
    simp
  | some value =>
    cases hparse : parseHash value with
    | error e =>
      rw [Option.mapM_some, hparse] at h
      cases h
    | ok key =>
      rw [Option.mapM_some, hparse] at h
      obtain rfl := Except.ok.inj h
      simp only [reduceCtorEq, Option.some.injEq, true_and]
      rintro _ _ rfl rfl
      exact parseHash_eq_ok_iff.mp hparse

/-- The digest of libcrypto, where it gives one, is SHA-256. -/
def DigestsSha256 (host : Host) : Prop :=
  ∀ data digest, host.evpDigest data = some digest → digest.val = Sha2.digest data

theorem hashDict_val {host : Host} (hevp : DigestsSha256 host) (ctx : Bool) {bytes : Bytes}
    (hlen : bytes.length < 2 ^ 61) : (hashDict host ctx bytes).val = Sha2.digest bytes := by
  rw [hashDict]
  split
  case h_1 digest hdigest =>
    split at hdigest
    case isTrue => exact hevp bytes digest hdigest
    case isFalse => cases hdigest
  case h_2 => exact sha256_none _ hlen

/-- The bytes were read in full from the file that was opened, after it passed its checks. -/
def FetchedFrom (p : Platform) (strict : Bool) (path : Bytes)
    (answer : SysHistory → (c : SysCall) → c.Answer) (bytes : Bytes) (calls : SysHistory) : Prop :=
  ∃ (fd : Fd) (h₁ h₂ : SysHistory) (st : Stat) (answers : (SysCall.read fd st.size).Answer),
    exec (recorded answer) (openDict p strict path) [] = (.ok fd, h₁) ∧
      calls = h₁ ++ ⟨.fstat fd, some st⟩ :: h₂ ∧ checkLeaf p strict st = none ∧
        ⟨.read fd st.size, answers⟩ ∈ h₂ ∧ readDictFile st.size [] answers.val = some (some bytes) ∧
          bytes.length = st.size ∧ 0 < st.size ∧ st.size ≤ NGX_HTTP_BROTLI_MAX_DICT_SIZE

section

variable {p : Platform} {host : Host} {strict : Bool} {path bytes : Bytes} {fd : Fd} {size : ℕ}
  {answer : SysHistory → (c : SysCall) → c.Answer} {h calls : SysHistory}

theorem exec_loadFailed_ne {α : Type} (e : LoadError) (a : α) :
    exec (recorded answer) (loadFailed fd e) h ≠ (.ok a, calls) := by
  intro hr
  cases congrArg Prod.fst hr

theorem readDict_ok (hr : exec (recorded answer) (readDict host fd size) h = (.ok bytes, calls)) :
    ∃ (h₂ : SysHistory) (answers : (SysCall.read fd size).Answer), calls = h ++ h₂ ∧
      ⟨.read fd size, answers⟩ ∈ h₂ ∧ readDictFile size [] answers.val = some (some bytes) ∧
        bytes.length = size ∧ 0 < size ∧ size ≤ NGX_HTTP_BROTLI_MAX_DICT_SIZE := by
  rw [readDict] at hr
  split at hr
  case isTrue => exact absurd hr (exec_loadFailed_ne _ _)
  case isFalse hmax =>
  split at hr
  case isTrue => exact absurd hr (exec_loadFailed_ne _ _)
  case isFalse hzero =>
  split at hr
  case isTrue => exact absurd hr (exec_loadFailed_ne _ _)
  case isFalse =>
  -- the answers are long enough for the read to return
  rw [exec_bind, exec_ask, recorded] at hr
  generalize answer h (.read fd size) = answers at hr
  dsimp only at hr
  cases hget : (readDictFile size [] answers.val).get answers.property with
  | none =>
    rw [hget] at hr
    exact absurd hr (exec_loadFailed_ne _ _)
  | some read =>
    rw [hget] at hr
    dsimp only at hr
    split at hr
    case isTrue => exact absurd hr (exec_loadFailed_ne _ _)
    case isFalse hlen =>
      rw [exec_bind, exec_ask, recorded] at hr
      dsimp only at hr
      split at hr
      case isFalse => cases hr
      case isTrue =>
        obtain ⟨hbytes, rfl⟩ := Prod.mk.inj hr
        obtain rfl := Except.ok.inj hbytes
        refine ⟨_, answers, List.append_assoc _ _ _, List.mem_cons_self, ?_, not_not.mp hlen,
          Nat.pos_of_ne_zero hzero, Nat.le_of_not_lt hmax⟩
        rw [← hget, Option.some_get]

theorem fetchDict_ok
    (hr : exec (recorded answer) (fetchDict p host strict path) [] = (.ok bytes, calls)) :
    FetchedFrom p strict path answer bytes calls := by
  rw [fetchDict, exec_bind] at hr
  rcases hopen : exec (recorded answer) (openDict p strict path) [] with ⟨r, h₁⟩
  rw [hopen] at hr
  cases r with
  | error e => cases hr
  | ok fd =>
    dsimp only at hr
    rw [exec_bind, exec_ask, recorded] at hr
    cases hst : answer h₁ (.fstat fd) with
    | none =>
      rw [hst] at hr
      exact absurd hr (exec_loadFailed_ne _ _)
    | some st =>
      rw [hst] at hr
      dsimp only at hr
      cases hleaf : checkLeaf p strict st with
      | some e =>
        rw [hleaf] at hr
        exact absurd hr (exec_loadFailed_ne _ _)
      | none =>
        rw [hleaf] at hr
        dsimp only at hr
        rw [exec_bind] at hr
        -- whatever the two `fcntl` calls answer, the load goes on
        obtain ⟨clear, hclear⟩ : h₁ ++ [⟨.fstat fd, some st⟩] <+: (exec (recorded answer)
            (clearNonblock fd) (h₁ ++ [⟨.fstat fd, some st⟩])).2 := prefix_exec _ _
        rw [← hclear] at hr
        obtain ⟨h₂, answers, hcalls, hmem, hread, hsize⟩ := readDict_ok hr
        refine ⟨fd, h₁, clear ++ h₂, st, answers, hopen, ?_, hleaf, List.mem_append_right _ hmem,
          hread, hsize⟩
        rw [hcalls]
        simp

end

/-- A line, with what it is answered. -/
structure DictLine where
  args : DictArgs
  host : Host
  answer : SysHistory → (c : SysCall) → c.Answer

def DictLine.load (p : Platform) (main : MainConf) (dicts : Option (List DcbDict))
    (line : DictLine) : Except LoadError (MainConf × List DcbDict) × SysHistory :=
  exec (recorded line.answer) (dcbDictFile line.host main p dicts line.args) []

def DictLine.fetch (p : Platform) (strict : Bool) (path : Bytes) (line : DictLine) :
    Except LoadError Bytes × SysHistory :=
  exec (recorded line.answer) (fetchDict p line.host strict path) []

section

variable {p : Platform} {host : Host} {main main' : MainConf} {dicts dicts' : List DcbDict}
  {line : DictLine} {path bytes : Bytes} {hash : Option Key} {key : Key} {calls : SysHistory}

@[simp] theorem recordOrder_dictStrictPath (haveHash : Bool) :
    (recordOrder main path haveHash).dictStrictPath = main.dictStrictPath := by
  simp only [recordOrder]
  split <;> split <;> rfl

@[simp] theorem recordOrder_dcbDictTrustHashes (haveHash : Bool) :
    (recordOrder main path haveHash).dcbDictTrustHashes = main.dcbDictTrustHashes := by
  simp only [recordOrder]
  split <;> split <;> rfl

@[simp] theorem recordOrder_dcbDictsHashed (haveHash : Bool) :
    (recordOrder main path haveHash).dcbDictsHashed = main.dcbDictsHashed := by
  simp only [recordOrder]
  split <;> split <;> rfl

theorem recordOrder_loaded {haveHash : Bool}
    (h : (recordOrder main path haveHash).dictLoadedBeforeStrictOn = none) :
    main.dictStrictPath = 1 ∧ main.dictLoadedBeforeStrictOn = none := by
  simp only [recordOrder] at h
  grind

theorem recordOrder_verified {haveHash : Bool}
    (h : (recordOrder main path haveHash).dcbDictVerifiedBeforeTrustOn = none) :
    main.dcbDictVerifiedBeforeTrustOn = none ∧ (haveHash = true → main.dcbDictTrustHashes = 1) := by
  simp only [recordOrder] at h
  grind

theorem dictKey_trusted (literal : Key) (htrust : main.dcbDictTrustHashes = 1) :
    dictKey host main (some literal) bytes = .ok (main, literal) := by
  simp [dictKey, htrust]

theorem dictKey_computed (hhash : hash = none ∨ main.dcbDictTrustHashes ≠ 1) :
    dictKey host main hash bytes = .ok (main', key) ↔
      (∀ literal, hash = some literal → literal = key) ∧
        key = hashDict host (main.dcbEvpMdCtx.getD host.evpMdCtx) bytes ∧
          main' = { main with
            dcbEvpMdCtx := some (main.dcbEvpMdCtx.getD host.evpMdCtx)
            dcbDictsHashed := main.dcbDictsHashed + 1 } := by
  have hnone : (if main.dcbDictTrustHashes = 1 then hash else none) = none := by
    rcases hhash with rfl | htrust
    · exact ite_self none
    · exact if_neg htrust
  rw [dictKey, hnone]
  dsimp only
  generalize hashDict host (main.dcbEvpMdCtx.getD host.evpMdCtx) bytes = digest
  cases hash with
  | none => simp [eq_comm, and_comm]
  | some literal =>
    by_cases hsame : literal = digest
    · simp [hsame, eq_comm, and_comm]
    · have hany : (some literal).any (· != digest) = true := by simpa using hsame
      rw [if_pos hany]
      refine iff_of_false (by simp) fun h => hsame ?_
      rw [h.1 literal rfl, h.2.1]

theorem addDict_ok_iff : addDict dicts path bytes key = .ok dicts' ↔
    (∀ d ∈ dicts, d.hash ≠ key.val) ∧ dicts' = dicts ++ [⟨path, bytes, key.val, key.property⟩] := by
  rw [addDict]
  cases hfind : dicts.find? fun d => d.hash == key.val with
  | none =>
    have hnew : ∀ d ∈ dicts, d.hash ≠ key.val := by simpa using List.find?_eq_none.mp hfind
    rw [and_iff_right hnew, Except.ok.injEq]
    exact eq_comm
  | some d =>
    have hsame : d.hash = key.val := by simpa using List.find?_some hfind
    exact iff_of_false (by simp) fun h => h.1 d (List.mem_of_find?_eq_some hfind) hsame

theorem enterDict_ok_iff : enterDict host main dicts path hash bytes = .ok (main', dicts') ↔
    ∃ key, dictKey host main hash bytes = .ok (main', key) ∧
      addDict dicts path bytes key = .ok dicts' := by
  have heq : enterDict host main dicts path hash bytes =
      (dictKey host main hash bytes).bind fun after =>
        (addDict dicts path bytes after.2).bind fun ds => .ok (after.1, ds) := rfl
  rw [heq]
  cases dictKey host main hash bytes with
  | error e => simp [Except.bind]
  | ok after =>
    rw [Except.bind]
    cases hadd : addDict dicts path bytes after.2 with
    | error e =>
      refine iff_of_false (by simp [Except.bind]) ?_
      rintro ⟨key, hkey, hds⟩
      obtain rfl := Except.ok.inj hkey
      rw [hadd] at hds
      cases hds
    | ok ds =>
      simp only [Except.bind, Except.ok.injEq, Prod.ext_iff]
      constructor
      · rintro ⟨rfl, rfl⟩
        exact ⟨after.2, ⟨rfl, rfl⟩, hadd⟩
      · rintro ⟨key, ⟨rfl, rfl⟩, hds⟩
        exact ⟨rfl, Except.ok.inj (hadd.symm.trans hds)⟩

theorem length_lt_of_fetch {strict : Bool}
    (h : line.fetch p strict path = (.ok bytes, calls)) : bytes.length < 2 ^ 61 := by
  obtain ⟨_, _, _, _, _, -, -, -, -, -, hsize, -, hmax⟩ := fetchDict_ok h
  exact (hsize.trans_le hmax).trans_lt (by norm_num)

/-- A line is loaded where every part of the loader succeeds. -/
theorem load_ok_iff {before : Option (List DcbDict)} :
    line.load p main before = (.ok (main', dicts'), calls) ↔
      ∃ path hash bytes, line.host.fullName line.args.path = some path ∧
        line.args.hash.mapM parseHash = .ok hash ∧
          (before = none → line.host.arrayCreate = true) ∧
            line.fetch p (main.dictStrictPath == 1) path = (.ok bytes, calls) ∧
              enterDict line.host (recordOrder main path hash.isSome) (before.getD []) path hash
                bytes = .ok (main', dicts') := by
  rw [DictLine.load, dcbDictFile]
  cases hpath : line.host.fullName line.args.path with
  | none => simp
  | some path =>
    cases hhash : line.args.hash.mapM parseHash with
    | error e => simp
    | ok hash =>
      dsimp only
      split
      case isTrue hcreate =>
        refine iff_of_false (fun h => by cases h) ?_
        rintro ⟨_, _, _, -, -, hsome, -⟩
        have hno := hcreate.2
        rw [hsome hcreate.1] at hno
        cases hno
      case isFalse hcreate =>
        have hsome : before = none → line.host.arrayCreate = true := fun hb => by
          by_contra hno
          exact hcreate ⟨hb, by simpa using hno⟩
        rw [exec_bind, recordOrder_dictStrictPath]
        rcases hfetch : exec (recorded line.answer)
          (fetchDict p line.host (main.dictStrictPath == 1) path) [] with ⟨r, calls'⟩
        dsimp only
        constructor
        · intro h
          cases r with
          | error e => cases h
          | ok bytes =>
            obtain ⟨henter, rfl⟩ := Prod.mk.inj h
            exact ⟨path, hash, bytes, rfl, rfl, hsome, hfetch, henter⟩
        · rintro ⟨path', hash', bytes, hpath', hhash', -, hfetch', henter⟩
          obtain rfl := Option.some_inj.mp hpath'
          obtain rfl := Except.ok.inj hhash'
          obtain ⟨rfl, rfl⟩ := Prod.mk.inj (hfetch.symm.trans hfetch')
          exact Prod.ext henter rfl

end

end NgxBrotli
