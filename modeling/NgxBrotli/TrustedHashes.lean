import NgxBrotli.DictMeaning
import NgxBrotli.Ratio

namespace NgxBrotli
open Prog DistinctKeys Scopes Directive

section

variable {p : Platform} {ds : List Directive} {s : Parse} {out dicts : ℕ → Option (List DcbDict)}
  {line : DictLine} {d : DcbDict} {strict trust : Int}

theorem loadsTo_trusted (h : LoadsTo p (.flags strict trust) line d) :
    LoadsTo p (.flags strict 1) line d := by
  obtain ⟨hash, calls, hfile, hparse, hfetch, hkey⟩ := h
  refine ⟨hash, calls, hfile, hparse, hfetch, ?_⟩
  show HasKey 1 hash d.bytes d.hash
  change HasKey trust hash d.bytes d.hash at hkey
  rw [HasKey] at hkey ⊢
  split at hkey
  case isTrue hlit => rwa [if_pos ⟨hlit.1, rfl⟩]
  case isFalse =>
    cases hash with
    | none => simpa using hkey
    | some literal => simpa using hkey.2 literal rfl

theorem loadsTo_verified (hdigest : d.hash = Sha2.digest d.bytes) (htrust : trust ≠ 1)
    (h : LoadsTo p (.flags strict 1) line d) : LoadsTo p (.flags strict trust) line d := by
  obtain ⟨hash, calls, hfile, hparse, hfetch, hkey⟩ := h
  refine ⟨hash, calls, hfile, hparse, hfetch, ?_⟩
  show HasKey trust hash d.bytes d.hash
  change HasKey 1 hash d.bytes d.hash at hkey
  rw [HasKey, if_neg fun h => htrust h.2]
  refine ⟨hdigest, ?_⟩
  rintro literal rfl
  simpa [HasKey] using hkey

theorem countP_cons_eq_zero {kind : Directive → Bool} {e : Directive}
    (h : (e :: ds).countP kind = 0) : kind e = false ∧ ds.countP kind = 0 := by
  rw [List.countP_cons] at h
  split at h
  · omega
  · exact ⟨Bool.eq_false_of_not_eq_true ‹_›, h⟩

theorem Loads.trusted (hno : ds.countP isTrust = 0) (h : Loads p out strict trust dicts ds) :
    Loads p out strict 1 dicts ds := by
  induction ds generalizing strict dicts with
  | nil => exact h
  | cons e ds ih =>
    obtain ⟨he, hno⟩ := countP_cons_eq_zero hno
    cases e with
    | strictPath on => exact ⟨h.1, ih hno h.2⟩
    | trustHashes on => cases he
    | dictFile label line =>
      obtain ⟨hcreate, d, hd, hnew, hrest⟩ := h
      exact ⟨hcreate, d, loadsTo_trusted hd, hnew, ih hno hrest⟩

theorem Loads.mem (h : Loads p out strict trust dicts ds) {label : ℕ}
    (hd : d ∈ (dicts label).getD []) : d ∈ (out label).getD [] := by
  induction ds generalizing strict trust dicts with
  | nil => exact h ▸ hd
  | cons e ds ih =>
    cases e with
    | strictPath on => exact ih h.2 hd
    | trustHashes on => exact ih h.2 hd
    | dictFile label' line =>
      obtain ⟨-, d', -, -, hrest⟩ := h
      refine ih hrest ?_
      by_cases hl : label = label'
      · subst hl
        rw [Function.update_self]
        exact List.mem_append_left _ hd
      · rwa [Function.update_of_ne hl]

theorem Loads.verified (hno : ds.countP isTrust = 0) (htrust : trust ≠ 1)
    (hdigest : ∀ label, ∀ d ∈ (out label).getD [], d.hash = Sha2.digest d.bytes)
    (h : Loads p out strict 1 dicts ds) : Loads p out strict trust dicts ds := by
  induction ds generalizing strict dicts with
  | nil => exact h
  | cons e ds ih =>
    obtain ⟨he, hno⟩ := countP_cons_eq_zero hno
    cases e with
    | strictPath on => exact ⟨h.1, ih hno h.2⟩
    | trustHashes on => cases he
    | dictFile label line =>
      obtain ⟨hcreate, d, hd, hnew, hrest⟩ := h
      have hmem : d ∈ (out label).getD [] := hrest.mem (by simp)
      exact ⟨hcreate, d, loadsTo_verified (hdigest label d hmem) htrust hd, hnew, ih hno hrest⟩

theorem dcbDictsHashed_eq (hevp : ∀ label line, .dictFile label line ∈ ds → DigestsSha256 line.host)
    (h : configure p ds = .ok s) :
    s.main.dcbDictsHashed =
      (dictLines ds).countP fun l => !(ds.any trustOn && l.2.args.hash.isSome) := by
  obtain ⟨horder, -⟩ := (configure_iff_loads hevp).mp ⟨s, h, rfl⟩
  obtain ⟨t, ht, h⟩ := bind_eq_ok_iff.mp h
  obtain ⟨main, hmain, h⟩ := bind_eq_ok_iff.mp h
  cases h
  have hparsed : Parsed p ds t := parsed_start.foldlM ht hevp
  have hs : Recorded ds t := recorded_start.foldlM ht hevp
  have hhashed : ∀ l ∈ t.loads, (l.hashed = true ↔
      (!(ds.any trustOn && l.line.args.hash.isSome)) = true) := fun l hl => by
    have hskipped := hparsed.skipped l hl
    have hverified := hs.trust_eq_none_iff.mpr horder.trust
    cases hl' : l.hashed with
    | false =>
      obtain ⟨hlit, htrust⟩ := hskipped hl'
      simp [hs.trust.mp htrust, Option.isSome_iff_ne_none.mpr hlit]
    | true =>
      rw [Bool.not_eq_true', Bool.and_eq_false_iff, ← Bool.not_eq_true, ← Bool.not_eq_true]
      refine iff_of_true rfl (not_and_or.mp fun ⟨hany, hlit⟩ => ?_)
      rw [if_pos (hs.trust.mpr hany)] at hverified
      have := hparsed.verified hverified l hl (Option.isSome_iff_ne_none.mp hlit)
      rw [hl'] at this
      cases this
  show main.dcbDictsHashed = _
  rw [(initMainConf_ok hmain).1, ← hparsed.lines, List.countP_map]
  show t.main.dcbDictsHashed = _
  rw [hparsed.hashed]
  exact List.countP_congr hhashed

abbrev NGX_INT_T_LEN : ℕ := 20

/-- `ngx_http_brotli_dcb_dicts_hashed_variable` -/
def dcbDictsHashedVariable (sprintfUi : ℕ → UInt64 → Bytes) (main : MainConf) (allocOk : Bool)
    (v : VariableValue) : Int × VariableValue :=
  if !allocOk then (NGX_ERROR, { v with data := [] })
  else (NGX_OK, { v with
    data := sprintfUi 0 (.ofNat main.dcbDictsHashed), valid := true, noCacheable := false,
    notFound := false })

/-- The variable prints how many files were hashed, within the memory that it allocates. -/
theorem dcbDictsHashedVariable_spec {sprintfUi : ℕ → UInt64 → Bytes} (hprint : WritesUi sprintfUi)
    (hevp : ∀ label line, .dictFile label line ∈ ds → DigestsSha256 line.host)
    (h : configure p ds = .ok s) (hlines : (dictLines ds).length < 2 ^ 64) (v : VariableValue) :
    ∃ data, dcbDictsHashedVariable sprintfUi s.main true v = (NGX_OK, ⟨true, false, false, data⟩) ∧
      decimal data =
        ((dictLines ds).countP fun l => !(ds.any trustOn && l.2.args.hash.isSome) : ℕ) ∧
      data.length ≤ NGX_INT_T_LEN := by
  refine ⟨_, rfl, ?_, ?_⟩
  · have hcount := dcbDictsHashed_eq hevp h
    have hlt : s.main.dcbDictsHashed < 2 ^ 64 := by
      rw [hcount]
      exact List.countP_le_length.trans_lt hlines
    rw [hprint.value, UInt64.toNat_ofNat_of_lt' hlt, hcount]
  · rw [hprint.length]
    exact max_le (Nat.zero_le _) (log_ten_lt _)

end

/-- With the flag in front, a configuration that is accepted without it is accepted with the same
dictionaries, and only the files without a literal are hashed; and the other way round, if every key
is the digest of its bytes. -/
theorem trust_agrees (p : Platform) {ds : List Directive}
    (hevp : ∀ label line, .dictFile label line ∈ ds → DigestsSha256 line.host)
    (hno : ds.countP isTrust = 0) :
    (∀ s, configure p ds = .ok s → s.main.dcbDictsHashed = (dictLines ds).length ∧
      ∃ t, configure p (.trustHashes true :: ds) = .ok t ∧ t.dicts = s.dicts ∧
        t.main.dcbDictsHashed = (dictLines ds).countP fun l => l.2.args.hash.isNone) ∧
    ∀ t, configure p (.trustHashes true :: ds) = .ok t →
      (∀ label, ∀ d ∈ (t.dicts label).getD [], d.hash = Sha2.digest d.bytes) →
        ∃ s, configure p ds = .ok s ∧ s.dicts = t.dicts := by
  have hoff : ds.any trustOn = false := by
    rw [List.countP_eq_zero] at hno
    rw [List.any_eq_false]
    intro e he
    have hkind := hno e he
    cases e with
    | trustHashes on => exact absurd rfl hkind
    | _ => exact Bool.false_ne_true
  have hevp' : ∀ label line, .dictFile label line ∈ Directive.trustHashes true :: ds →
      DigestsSha256 line.host := fun label line hmem =>
    hevp label line ((List.mem_cons.mp hmem).resolve_left nofun)
  have horder : InOrder (.trustHashes true :: ds) ↔ InOrder ds :=
    ⟨fun h => ⟨h.strict, fun hany => by rw [hoff] at hany; cases hany⟩,
      fun h => ⟨h.strict, fun _ => nofun⟩⟩
  refine ⟨fun s hs => ⟨?_, ?_⟩, fun t ht hdigest => ?_⟩
  · rw [dcbDictsHashed_eq hevp hs, hoff]
    simp
  · obtain ⟨ho, hloads⟩ := (configure_iff_loads hevp).mp ⟨s, hs, rfl⟩
    obtain ⟨t, ht, hdicts⟩ := (configure_iff_loads hevp').mpr
      ⟨horder.mpr ho, rfl, hloads.trusted hno⟩
    refine ⟨t, ht, hdicts, ?_⟩
    rw [dcbDictsHashed_eq hevp' ht]
    have hlines : dictLines (.trustHashes true :: ds) = dictLines ds := rfl
    simp [hlines, trustOn]
  · obtain ⟨ho, -, hloads⟩ := (configure_iff_loads hevp').mp ⟨t, ht, rfl⟩
    exact (configure_iff_loads hevp).mpr
      ⟨horder.mp ho, Loads.verified hno (by decide) hdigest hloads⟩

/-- One file with its literal and one without: two hashes, or one. -/
theorem trust_agrees_sample :
    let ds : List Directive := [.strictPath true,
      .dictFile 0 (plainLine (some (hexDump abcKey.val))), .dictFile 1 (plainLine none)]
    ∃ s t, configure plainPlatform ds = .ok s ∧
      configure plainPlatform (.trustHashes true :: ds) = .ok t ∧ t.dicts = s.dicts ∧
        s.main.dcbDictsHashed = 2 ∧ t.main.dcbDictsHashed = 1 := by
  intro ds
  have hevp := digests_of_plainHost ds (by simp [ds, dictLines, plainLine])
  obtain ⟨s, hs, -⟩ := (configure_iff_loads hevp).mpr ⟨⟨fun _ => rfl, fun h => by cases h⟩, rfl,
    fun _ => rfl, abcDict, abc_loadsTo (.inr rfl) _, by simp, fun _ => rfl, abcDict,
    abc_loadsTo (.inl rfl) _, by simp, rfl⟩
  obtain ⟨hcount, t, ht, hdicts, hcount'⟩ := (trust_agrees plainPlatform hevp (by decide)).1 s hs
  exact ⟨s, t, hs, ht, hdicts, hcount, hcount'⟩

end NgxBrotli
