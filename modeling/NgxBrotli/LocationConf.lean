import NgxBrotli.Declined
import NgxBrotli.DictPolicy
import NgxBrotli.Scopes

namespace NgxBrotli
open Runs Scopes

abbrev NGX_CONF_UNSET_SIZE : ℕ := 2 ^ 64 - 1

abbrev BROTLI_MIN_QUALITY : ℕ := 0
abbrev BROTLI_MAX_QUALITY : ℕ := 11
abbrev BROTLI_MAX_WINDOW_BITS : ℕ := 24

/-- What a slot answers; the core has texts of its own but for the last one. -/
inductive SlotError
  | isDuplicate
  | invalidValue
  | outOfBounds
  | text (s : String)
  deriving DecidableEq, Repr

/-- `ngx_conf_set_flag_slot` with its argument. -/
def setFlagValue (flag : Int) (value : Bytes) : Except SlotError Int :=
  if flag ≠ NGX_CONF_UNSET then .error .isDuplicate
  else if matchesName value (ascii "on") then .ok 1
  else if matchesName value (ascii "off") then .ok 0
  else .error .invalidValue

/-- `ngx_conf_set_num_slot` with `ngx_http_brotli_comp_level_bounds`, on the number that was
read. -/
def setCompLevel (quality : Int) (level : ℕ) : Except SlotError Int :=
  if quality ≠ NGX_CONF_UNSET then .error .isDuplicate
  else if BROTLI_MIN_QUALITY ≤ level ∧ level ≤ BROTLI_MAX_QUALITY then .ok level
  else .error .outOfBounds

/-- `ngx_http_brotli_parse_wbits` -/
def parseWbits (parameter : ℕ) : Except SlotError ℕ :=
  match (List.range' BROTLI_MIN_WINDOW_BITS 15).find? fun bits => parameter == 1 <<< bits with
  | some bits => .ok bits
  | none =>
    .error (.text "must be 1k, 2k, 4k, 8k, 16k, 32k, 64k, 128k, 256k, 512k, 1m, 2m, 4m, 8m or 16m")

/-- `ngx_conf_set_size_slot` with `ngx_http_brotli_parse_wbits`, on the size that was read. -/
def setWindow (lgWin : ℕ) (size : ℕ) : Except SlotError ℕ :=
  if lgWin ≠ NGX_CONF_UNSET_SIZE then .error .isDuplicate else parseWbits size

/-- `ngx_conf_set_size_slot` on the size that was read. -/
def setSize (length : Int) (size : ℕ) : Except SlotError Int :=
  if length ≠ NGX_CONF_UNSET then .error .isDuplicate else .ok size

/-- `ngx_conf_set_str_slot` -/
def setStr (s : Option Bytes) (value : Bytes) : Except SlotError (Option Bytes) :=
  if s ≠ none then .error .isDuplicate else .ok (some value)

/-- `ngx_http_brotli_conf_t` while the configuration is read, but for the MIME types.  An array is
`none` for `NGX_CONF_UNSET_PTR` and empty for `NULL`, and a string is `none` without data. -/
@[ext]
structure LocConf where
  enable : Int
  quality : Int
  lgWin : ℕ
  minLength : Int
  maxLength : Int
  bypass : Option (List Bytes)
  bypassVary : Option Bytes
  dcbDicts : Option (List DcbDict)
  dcbAssumeSecure : Int

/-- `ngx_http_brotli_create_conf` -/
def createConf : LocConf where
  enable := NGX_CONF_UNSET
  quality := NGX_CONF_UNSET
  lgWin := NGX_CONF_UNSET_SIZE
  minLength := NGX_CONF_UNSET
  maxLength := NGX_CONF_UNSET
  bypass := none
  bypassVary := none
  dcbDicts := none
  dcbAssumeSecure := NGX_CONF_UNSET

/-- The directives of a block, but for `brotli_dcb_dict_file` and the MIME types. -/
inductive LocLine
  | enable (value : Bytes)
  | compLevel (level : ℕ)
  | window (size : ℕ)
  | minLength (size : ℕ)
  | maxLength (size : ℕ)
  | bypass (predicates : List Bytes)
  | bypassVary (name : Bytes)
  | assumeSecure (value : Bytes)
  deriving DecidableEq, Repr

/-- The slot of a directive. -/
def LocLine.set (conf : LocConf) : LocLine → Except SlotError LocConf
  | .enable value => return { conf with enable := ← setFlagValue conf.enable value }
  | .compLevel level => return { conf with quality := ← setCompLevel conf.quality level }
  | .window size => return { conf with lgWin := ← setWindow conf.lgWin size }
  | .minLength size => return { conf with minLength := ← setSize conf.minLength size }
  | .maxLength size => return { conf with maxLength := ← setSize conf.maxLength size }
  | .bypass predicates => return { conf with bypass := some (conf.bypass.getD [] ++ predicates) }
  | .bypassVary name => return { conf with bypassVary := ← setStr conf.bypassVary name }
  | .assumeSecure value =>
    return { conf with dcbAssumeSecure := ← setFlagValue conf.dcbAssumeSecure value }

/-- The latch of `ngx_http_brotli_set_enable_slot`: only the literal `off` leaves it clear. -/
def enableLatches (value : Bytes) : Bool := value != ascii "off"

/-- The latch of a directive. -/
def LocLine.latches : LocLine → Bool
  | .enable value => enableLatches value
  | _ => false

/-- The directives of all blocks; the latch is `any_enabled`. -/
def readConf (ls : List (ℕ × LocLine)) : Except SlotError (Blocks ℕ LocConf) :=
  readLines LocLine.set LocLine.latches createConf ls

/-- `ngx_http_brotli_merge_conf` -/
def mergeConf (prev conf : LocConf) : LocConf where
  enable := merge NGX_CONF_UNSET 0 prev.enable conf.enable
  quality := merge NGX_CONF_UNSET 6 prev.quality conf.quality
  lgWin := merge NGX_CONF_UNSET_SIZE 19 prev.lgWin conf.lgWin
  minLength := merge NGX_CONF_UNSET 20 prev.minLength conf.minLength
  maxLength := merge NGX_CONF_UNSET NGX_CONF_UNSET prev.maxLength conf.maxLength
  bypass := merge none (some []) prev.bypass conf.bypass
  bypassVary := merge none (some []) prev.bypassVary conf.bypassVary
  dcbDicts := merge none (some []) prev.dcbDicts conf.dcbDicts
  dcbAssumeSecure := merge NGX_CONF_UNSET 0 prev.dcbAssumeSecure conf.dcbAssumeSecure

/-- The configuration of the last of nested blocks: a server in the `http` block, then locations. -/
def effective (confs : ℕ → LocConf) (http : ℕ) (path : List ℕ) : LocConf :=
  path.foldl (fun prev label => mergeConf prev (confs label)) (confs http)

def LocConf.toConf (conf : LocConf) : Conf where
  enable := conf.enable != 0
  minLength := conf.minLength
  maxLength := conf.maxLength
  bypass := conf.bypass.getD [] != []
  bypassVary := conf.bypassVary.getD []
  dcbDicts := conf.dcbDicts.getD []
  dcbAssumeSecure := conf.dcbAssumeSecure != 0
  quality := conf.quality
  lgWin := conf.lgWin

section

variable {confs : ℕ → LocConf} {http : ℕ} {path : List ℕ}

/-- Every setting is that of the innermost block that has it, or the default. -/
theorem effective_eq (hpath : path ≠ []) :
    let blocks := http :: path
    effective confs http path = {
      enable := inherited NGX_CONF_UNSET 0 (fun l => (confs l).enable) blocks
      quality := inherited NGX_CONF_UNSET 6 (fun l => (confs l).quality) blocks
      lgWin := inherited NGX_CONF_UNSET_SIZE 19 (fun l => (confs l).lgWin) blocks
      minLength := inherited NGX_CONF_UNSET 20 (fun l => (confs l).minLength) blocks
      maxLength := inherited NGX_CONF_UNSET NGX_CONF_UNSET (fun l => (confs l).maxLength) blocks
      bypass := inherited none (some []) (fun l => (confs l).bypass) blocks
      bypassVary := inherited none (some []) (fun l => (confs l).bypassVary) blocks
      dcbDicts := inherited none (some []) (fun l => (confs l).dcbDicts) blocks
      dcbAssumeSecure :=
        inherited NGX_CONF_UNSET 0 (fun l => (confs l).dcbAssumeSecure) blocks } := by
  have hfield {α : Type} [DecidableEq α] (get : LocConf → α) {unset default : α}
      (hmerge : ∀ prev conf,
        get (mergeConf prev conf) = merge unset default (get prev) (get conf)) :
      get (effective confs http path) =
        inherited unset default (fun l => get (confs l)) (http :: path) := by
    rw [effective, ← foldl_merge _ _ hpath]
    exact (List.foldl_hom get fun prev label => (hmerge prev (confs label)).symm).symm
  exact LocConf.ext (hfield (·.enable) fun _ _ => rfl) (hfield (·.quality) fun _ _ => rfl)
    (hfield (·.lgWin) fun _ _ => rfl) (hfield (·.minLength) fun _ _ => rfl)
    (hfield (·.maxLength) fun _ _ => rfl) (hfield (·.bypass) fun _ _ => rfl)
    (hfield (·.bypassVary) fun _ _ => rfl) (hfield (·.dcbDicts) fun _ _ => rfl)
    (hfield (·.dcbAssumeSecure) fun _ _ => rfl)

end

/-- The configuration of a block with its dictionaries, which are read apart. -/
def blockConf (s : Blocks ℕ LocConf) (dicts : ℕ → Option (List DcbDict)) (label : ℕ) : LocConf :=
  { s.confs label with dcbDicts := dicts label }

/-- What the filters read in the last of nested blocks. -/
def locationConf (s : Blocks ℕ LocConf) (dicts : ℕ → Option (List DcbDict)) (http : ℕ)
    (path : List ℕ) : Conf :=
  (effective (blockConf s dicts) http path).toConf

/-- The settings of a block that its slots let through. -/
structure Legal (conf : LocConf) : Prop where
  quality : conf.quality = NGX_CONF_UNSET ∨ 0 ≤ conf.quality ∧ conf.quality ≤ BROTLI_MAX_QUALITY
  lgWin : conf.lgWin = NGX_CONF_UNSET_SIZE ∨
    BROTLI_MIN_WINDOW_BITS ≤ conf.lgWin ∧ conf.lgWin ≤ BROTLI_MAX_WINDOW_BITS

theorem setFlagValue_ok {flag v : Int} {value : Bytes} (h : setFlagValue flag value = .ok v) :
    v = 0 ∨ v = 1 ∧ value ≠ ascii "off" := by
  unfold setFlagValue at h
  split at h
  · cases h
  split at h
  case isTrue hon =>
    refine .inr ⟨(Except.ok.inj h).symm, ?_⟩
    rintro rfl
    revert hon
    decide
  split at h
  · exact .inl (Except.ok.inj h).symm
  · cases h

theorem parseWbits_ok {size bits : ℕ} (h : parseWbits size = .ok bits) :
    BROTLI_MIN_WINDOW_BITS ≤ bits ∧ bits ≤ BROTLI_MAX_WINDOW_BITS ∧ size = 2 ^ bits := by
  unfold parseWbits at h
  split at h
  case h_1 b hfind =>
    obtain rfl := Except.ok.inj h
    obtain ⟨hmin, hmax⟩ := List.mem_range'_1.mp (List.mem_of_find?_eq_some hfind)
    have hsize := List.find?_some hfind
    rw [beq_iff_eq, Nat.one_shiftLeft] at hsize
    exact ⟨hmin, Nat.le_of_lt_succ hmax, hsize⟩
  · cases h

theorem LocLine.set_legal {conf conf' : LocConf} {line : LocLine} (hconf : Legal conf)
    (h : line.set conf = .ok conf') : Legal conf' := by
  cases line with
  | compLevel level =>
    obtain ⟨v, hv, h⟩ := bind_eq_ok_iff.mp h
    cases h
    unfold setCompLevel at hv
    split at hv
    · cases hv
    split at hv
    case isTrue hbounds =>
      cases hv
      exact { hconf with quality := .inr ⟨Int.natCast_nonneg level, Int.ofNat_le.mpr hbounds.2⟩ }
    · cases hv
  | window size =>
    obtain ⟨v, hv, h⟩ := bind_eq_ok_iff.mp h
    cases h
    unfold setWindow at hv
    split at hv
    · cases hv
    · obtain ⟨hmin, hmax, -⟩ := parseWbits_ok hv
      exact { hconf with lgWin := .inr ⟨hmin, hmax⟩ }
  | bypass predicates =>
    cases h
    exact { hconf with }
  | enable | minLength | maxLength | bypassVary | assumeSecure =>
    obtain ⟨v, -, h⟩ := bind_eq_ok_iff.mp h
    cases h
    exact { hconf with }

theorem LocLine.set_enable {conf conf' : LocConf} {line : LocLine} (hlatch : line.latches = false)
    (hoff : conf.enable = NGX_CONF_UNSET ∨ conf.enable = 0) (h : line.set conf = .ok conf') :
    conf'.enable = NGX_CONF_UNSET ∨ conf'.enable = 0 := by
  cases line with
  | enable value =>
    obtain ⟨v, hv, h⟩ := bind_eq_ok_iff.mp h
    cases h
    obtain rfl | ⟨-, hvalue⟩ := setFlagValue_ok hv
    · exact .inr rfl
    · simp [LocLine.latches, enableLatches, hvalue] at hlatch
  | bypass predicates =>
    cases h
    exact hoff
  | compLevel | window | minLength | maxLength | bypassVary | assumeSecure =>
    obtain ⟨v, -, h⟩ := bind_eq_ok_iff.mp h
    cases h
    exact hoff

section

variable {ls : List (ℕ × LocLine)} {s : Blocks ℕ LocConf} {path : List ℕ}

theorem legal_of_read (h : readConf ls = .ok s) (label : ℕ) : Legal (s.confs label) :=
  foldlM_invariant (fun _ _ _ _ => LocLine.set_legal) ⟨.inl rfl, .inl rfl⟩
    ((readLines_scope h).2 label)

theorem locationConf_legal (h : readConf ls = .ok s) (dicts : ℕ → Option (List DcbDict)) (http : ℕ)
    (hpath : path ≠ []) :
    let conf := locationConf s dicts http path
    (0 ≤ conf.quality ∧ conf.quality ≤ BROTLI_MAX_QUALITY) ∧
      BROTLI_MIN_WINDOW_BITS ≤ conf.lgWin ∧ conf.lgWin ≤ BROTLI_MAX_WINDOW_BITS := by
  have hlegal := legal_of_read h
  simp only [locationConf, LocConf.toConf, effective_eq hpath, blockConf]
  constructor
  · obtain hdefault | ⟨label, hlabel, hset⟩ :=
      inherited_cases NGX_CONF_UNSET 6 (fun l => (s.confs l).quality) (http :: path)
    · rw [hdefault]
      decide
    · rw [← hlabel]
      exact (hlegal label).quality.resolve_left hset
  · obtain hdefault | ⟨label, hlabel, hset⟩ :=
      inherited_cases NGX_CONF_UNSET_SIZE 19 (fun l => (s.confs l).lgWin) (http :: path)
    · rw [hdefault]
      decide
    · rw [← hlabel]
      exact (hlegal label).lgWin.resolve_left hset

end

theorem growWindow_spec {lgWin wbits : ℕ} (contentLength : Int) (h : wbits ≤ lgWin) :
    let g := growWindow lgWin contentLength wbits
    (wbits ≤ g ∧ g ≤ lgWin) ∧ (g < lgWin → contentLength ≤ 2 ^ g) ∧
      ∀ b, wbits ≤ b → b < g → 2 ^ b < contentLength := by
  induction wbits using growWindow.induct lgWin contentLength with
  | case1 wbits hgrow ih =>
    rw [growWindow, if_pos hgrow]
    obtain ⟨⟨hmin, hmax⟩, hholds, hless⟩ := ih hgrow.1
    refine ⟨⟨Nat.le_of_succ_le hmin, hmax⟩, hholds, fun b hb hlt => ?_⟩
    obtain rfl | hb := Nat.eq_or_lt_of_le hb
    · exact hgrow.2
    · exact hless b hb hlt
  | case2 wbits hstop =>
    rw [growWindow, if_neg hstop]
    exact ⟨⟨le_refl _, h⟩, fun hlt => not_lt.mp fun hlong => hstop ⟨hlt, hlong⟩,
      fun b hb hlt => absurd hlt (not_lt.mpr hb)⟩

/-- The sizes of the files that the loader lets through. -/
def Loaded (bytes : Bytes) : Prop :=
  0 < bytes.length ∧ bytes.length ≤ NGX_HTTP_BROTLI_MAX_DICT_SIZE

/-- An instance that was created and configured, and has neither a dictionary nor any input. -/
inductive Encoder.Unstarted {σ : Type} (enc : Encoder σ) : σ → Prop
  | created {s : σ} (h : enc.createInstance = some s) : Unstarted enc s
  | parameter {p : Parameter} {v : ℕ} {s s' : σ} (h : Unstarted enc s)
      (hp : enc.setParameter p v s = some s') : Unstarted enc s'

/-- libbrotli with memory: an instance that has not started takes every parameter within its bounds,
and a first dictionary of a size that the loader lets through. -/
structure Encoder.Obliging {σ : Type} (enc : Encoder σ) : Prop where
  created : enc.createInstance ≠ none
  quality {s : σ} (hs : enc.Unstarted s) {q : ℕ} (h : q ≤ BROTLI_MAX_QUALITY) :
    enc.setParameter .quality q s ≠ none
  lgWin {s : σ} (hs : enc.Unstarted s) {bits : ℕ} (hmin : BROTLI_MIN_WINDOW_BITS ≤ bits)
    (hmax : bits ≤ BROTLI_MAX_WINDOW_BITS) : enc.setParameter .lgWin bits s ≠ none
  attach {s : σ} (hs : enc.Unstarted s) {d : Bytes} (hd : Loaded d) {q : Int} (hmin : 0 ≤ q)
    (hmax : q ≤ BROTLI_MAX_QUALITY) : enc.attachDictionary d q s ≠ none

section

variable {σ : Type} {enc : Encoder σ} {conf : Conf}

/-- The window of a stream: within the bounds, and the least that holds a body of known length. -/
theorem windowBits_spec {lgWin : ℕ} (contentLength : Int) (hmin : BROTLI_MIN_WINDOW_BITS ≤ lgWin) :
    let bits := windowBits lgWin contentLength
    (BROTLI_MIN_WINDOW_BITS ≤ bits ∧ bits ≤ lgWin) ∧ (bits < lgWin → contentLength ≤ 2 ^ bits) ∧
      (0 < contentLength → ∀ b, BROTLI_MIN_WINDOW_BITS ≤ b → b < bits → 2 ^ b < contentLength) := by
  unfold windowBits
  split
  case isTrue =>
    obtain ⟨hbounds, hholds, hless⟩ := growWindow_spec contentLength hmin
    exact ⟨hbounds, hholds, fun _ => hless⟩
  case isFalse hunknown =>
    exact ⟨⟨hmin, le_refl _⟩, fun hlt => absurd hlt (lt_irrefl _), fun hpos => absurd hpos hunknown⟩

/-- Parameters within their bounds open the stream; the casts to `uint32_t` lose nothing. -/
theorem openEncoder_ok (henc : enc.Obliging) (contentLength : Int) {dcbDict : Option DcbDict}
    (hdict : ∀ d, dcbDict = some d → Loaded d.bytes)
    (hquality : 0 ≤ conf.quality ∧ conf.quality ≤ BROTLI_MAX_QUALITY)
    (hlgWin : BROTLI_MIN_WINDOW_BITS ≤ conf.lgWin ∧ conf.lgWin ≤ BROTLI_MAX_WINDOW_BITS) :
    ∃ s, openEncoder enc conf contentLength dcbDict = .ok s := by
  obtain ⟨⟨hmin, hmax⟩, -⟩ := windowBits_spec contentLength hlgWin.1
  have hbits : windowBits conf.lgWin contentLength ≤ 24 := hmax.trans hlgWin.2
  have hcast : windowBits conf.lgWin contentLength % 2 ^ 32 = windowBits conf.lgWin contentLength :=
    Nat.mod_eq_of_lt (by omega)
  have hlevel : (conf.quality % 2 ^ 32).toNat ≤ BROTLI_MAX_QUALITY := by
    rw [Int.emod_eq_of_lt hquality.1 (lt_of_le_of_lt hquality.2 (by decide))]
    exact Int.toNat_le.mpr hquality.2
  obtain ⟨s₀, h₀⟩ := Option.ne_none_iff_exists'.mp henc.created
  have hs₀ : enc.Unstarted s₀ := .created h₀
  obtain ⟨s₁, h₁⟩ := Option.ne_none_iff_exists'.mp (henc.quality hs₀ hlevel)
  have hs₁ : enc.Unstarted s₁ := .parameter hs₀ h₁
  obtain ⟨s₂, h₂⟩ := Option.ne_none_iff_exists'.mp (henc.lgWin hs₁ hmin hbits)
  have hs₂ : enc.Unstarted s₂ := .parameter hs₁ h₂
  simp only [openEncoder, h₀, h₁, hcast, h₂]
  cases dcbDict with
  | none => exact ⟨_, rfl⟩
  | some d =>
    have hs₃ : enc.Unstarted (if contentLength > 0 then
        (enc.setParameter .sizeHint (min contentLength 0xffffffff).toNat s₂).getD s₂ else s₂) := by
      split
      · cases hs : enc.setParameter .sizeHint (min contentLength 0xffffffff).toNat s₂ with
        | none => exact hs₂
        | some s₃ => exact .parameter hs₂ hs
      · exact hs₂
    obtain ⟨s₄, h₄⟩ := Option.ne_none_iff_exists'.mp
      (henc.attach hs₃ (hdict d rfl) hquality.1 hquality.2)
    dsimp only
    rw [h₄]
    exact ⟨s₄, rfl⟩

end

/-- In every location of a configuration that is accepted the parameters of a stream are within the
bounds of libbrotli, the window is the least that holds the body, and the stream opens. -/
theorem location_opens {ls : List (ℕ × LocLine)} {s : Blocks ℕ LocConf} (h : readConf ls = .ok s)
    (dicts : ℕ → Option (List DcbDict)) (http : ℕ) {path : List ℕ} (hpath : path ≠ [])
    (contentLength : Int) :
    let conf := locationConf s dicts http path
    let bits := windowBits conf.lgWin contentLength
    (0 ≤ conf.quality ∧ conf.quality ≤ BROTLI_MAX_QUALITY) ∧
      (BROTLI_MIN_WINDOW_BITS ≤ bits ∧ bits ≤ conf.lgWin ∧ conf.lgWin ≤ BROTLI_MAX_WINDOW_BITS) ∧
      (bits < conf.lgWin → contentLength ≤ 2 ^ bits) ∧
      (0 < contentLength → ∀ b, BROTLI_MIN_WINDOW_BITS ≤ b → b < bits → 2 ^ b < contentLength) ∧
      ∀ {σ : Type} {enc : Encoder σ}, enc.Obliging → ∀ dcbDict : Option DcbDict,
        (∀ d, dcbDict = some d → Loaded d.bytes) →
          ∃ e, openEncoder enc conf contentLength dcbDict = .ok e := by
  intro conf bits
  obtain ⟨hquality, hlgWin⟩ := locationConf_legal h dicts http hpath
  obtain ⟨⟨hmin, hmax⟩, hholds, hless⟩ := windowBits_spec contentLength hlgWin.1
  exact ⟨hquality, ⟨hmin, hmax, hlgWin.2⟩, hholds, hless,
    fun henc _ hdict => openEncoder_ok henc contentLength hdict hquality hlgWin⟩

theorem blockEncoder_obliging : blockEncoder.Obliging where
  created := Option.some_ne_none _
  quality _ _ _ := Option.some_ne_none _
  lgWin _ _ _ _ := Option.some_ne_none _
  attach _ _ _ _ _ _ := Option.some_ne_none _

/-- `brotli_window 16m` around a location with `brotli_comp_level 11`, a body of 5000 bytes and a
dictionary. -/
theorem location_opens_sample :
    ∃ s e, readConf [(0, .window 16777216), (2, .compLevel 11)] = .ok s ∧
      let conf := locationConf s (fun _ => none) 0 [1, 2]
      let d : DcbDict := ⟨ascii "/d/f", ascii "abc", List.replicate 32 0, rfl⟩
      openEncoder blockEncoder conf 5000 (some d) = .ok e ∧ windowBits conf.lgWin 5000 = 13 := by
  obtain ⟨s, hs, hlgWin⟩ : ∃ s, readConf [(0, .window 16777216), (2, .compLevel 11)] = .ok s ∧
      (locationConf s (fun _ => none) 0 [1, 2]).lgWin = 24 := ⟨_, rfl, rfl⟩
  obtain ⟨-, -, hholds, hless, hopens⟩ :=
    location_opens hs (fun _ => none) 0 (List.cons_ne_nil 1 [2]) 5000
  have hloaded : Loaded (ascii "abc") := ⟨by decide, by decide⟩
  obtain ⟨e, hopen⟩ := hopens blockEncoder_obliging
    (some ⟨ascii "/d/f", ascii "abc", List.replicate 32 0, rfl⟩)
    fun d hd => Option.some.inj hd ▸ hloaded
  refine ⟨s, e, hs, hopen, ?_⟩
  rw [hlgWin] at hholds hless ⊢
  have hmax : windowBits 24 5000 ≤ 13 := by
    by_contra hlong
    exact absurd (hless (by decide) 13 (by decide) (not_le.mp hlong)) (by decide)
  have hmin : 12 < windowBits 24 5000 := by
    by_contra hshort
    have hpow : (2 : Int) ^ windowBits 24 5000 ≤ 2 ^ 12 :=
      pow_le_pow_right₀ (by decide) (not_lt.mp hshort)
    exact absurd ((hholds (lt_of_le_of_lt hmax (by decide))).trans hpow) (by decide)
  exact le_antisymm hmax hmin

end NgxBrotli
