import NgxBrotli.Negotiate

namespace NgxBrotli

variable (build : Build) (decodeBase64 : Bytes → Option Bytes)

/-- A dictionary is selected only where every live Sec-Fetch-Site line allows it and a live
Available-Dictionary line carries its key. -/
def LiveGates (conf : Conf) (r : Request) : Prop :=
  ∀ d, dcbNegotiate build decodeBase64 conf r = some d →
    (∀ v ∈ r.headersIn.headers.lines (ascii "sec-fetch-site"), fetchSiteAllowed v = true) ∧
      ∃ v ∈ r.headersIn.headers.lines (ascii "available-dictionary"),
        availableDictionary decodeBase64 v = some d.hash

/-- The entries found first let a dictionary with this key pass. -/
structure FirstPass (headersIn : HeadersIn) (key : Bytes) : Prop where
  weight : requestCodingWeight build headersIn (ascii "dcb") false > 0
  site : (findRequestHeader headersIn.headers (ascii "sec-fetch-site")).all
    (fun h => fetchSiteAllowed h.value) = true
  key : ∃ h, findRequestHeader headersIn.headers (ascii "available-dictionary") = some h ∧
    availableDictionary decodeBase64 h.value = some key

def HeaderList.others (name : Bytes) (headers : HeaderList) : List TableElt :=
  (headers.toList.dropWhile fun h => !matchesName h.key name).tail.filter
    fun h => matchesName h.key name

/-- What is found first speaks for the rest: no live Sec-Fetch-Site line behind it refuses, and the
Available-Dictionary entry is not deleted, or a live one behind it has the same key. -/
structure FirstSpeaks (headers : HeaderList) (key : Bytes) : Prop where
  site : ∀ h ∈ headers.others (ascii "sec-fetch-site"), h.hash ≠ 0 → fetchSiteAllowed h.value = true
  key : ∀ h, findRequestHeader headers (ascii "available-dictionary") = some h → h.hash ≠ 0 ∨
    ∃ h' ∈ headers.others (ascii "available-dictionary"), h'.hash ≠ 0 ∧
      availableDictionary decodeBase64 h'.value = some key

theorem mem_lines_iff (headers : HeaderList) (name v : Bytes) :
    v ∈ headers.lines name ↔
      ∃ h, (findRequestHeader headers name = some h ∨ h ∈ headers.others name) ∧ h.hash ≠ 0 ∧
        h.value = v := by
  rw [findRequestHeader, PartList.find?_eq, HeaderList.others, HeaderList.lines, List.mem_map]
  have hfind : headers.toList.find? (fun h => matchesName h.key name) =
      (headers.toList.dropWhile fun h => !matchesName h.key name).head? := by
    generalize headers.toList = l
    induction l with
    | nil => rfl
    | cons h l ih =>
      rw [List.find?_cons, List.dropWhile_cons]
      cases hm : matchesName h.key name with
      | true => rfl
      | false => exact ih
  -- an entry of this name is not before the first one
  have hmem (h : TableElt) (hm : matchesName h.key name = true) : h ∈ headers.toList ↔
      h ∈ headers.toList.dropWhile fun h => !matchesName h.key name := by
    conv_lhs => rw [← List.takeWhile_append_dropWhile (p := fun h => !matchesName h.key name)
      (l := headers.toList), List.mem_append]
    refine or_iff_right fun hw => ?_
    have := List.mem_takeWhile_imp hw
    simp [hm] at this
  rw [hfind]
  constructor
  · rintro ⟨h, hl, rfl⟩
    obtain ⟨hl, hlive⟩ := List.mem_filter.mp hl
    obtain ⟨hhash, hm⟩ := Bool.and_eq_true_iff.mp hlive
    have hd := (hmem h hm).mp hl
    refine ⟨h, ?_, by simpa using hhash, rfl⟩
    cases hl : headers.toList.dropWhile fun h => !matchesName h.key name with
    | nil => rw [hl] at hd; cases hd
    | cons g t =>
      rw [hl] at hd
      rcases List.mem_cons.mp hd with rfl | hd
      · exact .inl rfl
      · exact .inr (List.mem_filter.mpr ⟨hd, hm⟩)
  · rintro ⟨h, hh, hhash, rfl⟩
    have hm : matchesName h.key name = true := by
      rcases hh with hh | hh
      · rw [← hfind] at hh
        exact List.find?_some (p := fun (g : TableElt) => matchesName g.key name) hh
      · exact (List.mem_filter.mp hh).2
    have hd : h ∈ headers.toList.dropWhile fun h => !matchesName h.key name := by
      rcases hh with hh | hh
      · exact List.mem_of_mem_head? hh
      · exact List.mem_of_mem_tail (List.mem_filter.mp hh).1
    refine ⟨h, List.mem_filter.mpr ⟨(hmem h hm).mpr hd, ?_⟩, rfl⟩
    rw [TableElt.isLive, hm, Bool.and_true]
    simpa using hhash

theorem length_availableDictionary {value key : Bytes}
    (h : availableDictionary decodeBase64 value = some key) :
    key.length = NGX_HTTP_BROTLI_SHA256_DIGEST_LEN := by
  obtain ⟨-, -, -, -, hlen⟩ := (availableDictionary_eq_some_iff decodeBase64).mp h
  exact hlen

theorem firstPass_of_dcbNegotiate {conf : Conf} {r : Request} {d : DcbDict}
    (h : dcbNegotiate build decodeBase64 conf r = some d) :
    FirstPass build decodeBase64 r.headersIn d.hash := by
  rw [dcbNegotiate_eq_bind, Option.ite_none_right_eq_some] at h
  obtain ⟨⟨-, -, hsite, hweight⟩, h⟩ := h
  obtain ⟨e, he, h⟩ := Option.bind_eq_some_iff.mp h
  obtain ⟨key, hkey, h⟩ := Option.bind_eq_some_iff.mp h
  have hhash : d.hash = key := by simpa using List.find?_some h
  exact ⟨hweight, hsite, e, he, hhash ▸ hkey⟩

def Conf.oneDict (d : DcbDict) : Conf := ⟨true, 0, -1, false, [], [d], true, 6, 18⟩

theorem dcbNegotiate_oneDict {headersIn : HeadersIn} {d : DcbDict}
    (h : FirstPass build decodeBase64 headersIn d.hash) :
    dcbNegotiate build decodeBase64 (.oneDict d) ⟨true, true, headersIn⟩ = some d := by
  obtain ⟨e, he, hkey⟩ := h.key
  have hfind : (Conf.oneDict d).dcbDicts.find? (fun e => e.hash == d.hash) = some d := by
    simp [Conf.oneDict]
  rw [dcbNegotiate_eq_bind, if_pos ⟨rfl, .inl rfl, h.site, h.weight⟩]
  dsimp only
  rw [he, Option.bind_some, hkey, Option.bind_some, hfind]

/-- For every request the gates hold over all live lines, whatever the location, if and only if what
is found first does not pass or speaks for the rest. -/
theorem liveGates_iff (headersIn : HeadersIn) :
    (∀ conf isMain ssl, LiveGates build decodeBase64 conf ⟨isMain, ssl, headersIn⟩) ↔
      ∀ key, FirstPass build decodeBase64 headersIn key →
        FirstSpeaks decodeBase64 headersIn.headers key := by
  constructor
  · intro h key hpass
    obtain ⟨e, hfirst, he⟩ := hpass.key
    let d : DcbDict := ⟨[], [], key, length_availableDictionary decodeBase64 he⟩
    have hd : dcbNegotiate build decodeBase64 (.oneDict d) ⟨true, true, headersIn⟩ = some d :=
      dcbNegotiate_oneDict build decodeBase64 hpass
    obtain ⟨hsite, v, hv, hkey⟩ := h (.oneDict d) true true d hd
    constructor
    · intro g hg hhash
      exact hsite g.value ((mem_lines_iff _ _ _).mpr ⟨g, .inr hg, hhash, rfl⟩)
    · intro g hg
      obtain ⟨g', hg', hhash, rfl⟩ := (mem_lines_iff _ _ _).mp hv
      rcases hg' with hg' | hg'
      · obtain rfl := Option.some.inj (hg.symm.trans hg')
        exact .inl hhash
      · exact .inr ⟨g', hg', hhash, hkey⟩
  · intro h conf isMain ssl d hd
    have hpass := firstPass_of_dcbNegotiate build decodeBase64 hd
    obtain ⟨hsite, hkey⟩ := h d.hash hpass
    constructor
    · intro v hv
      obtain ⟨g, hg, hhash, rfl⟩ := (mem_lines_iff _ _ _).mp hv
      rcases hg with hg | hg
      · have := hpass.site
        rw [hg] at this
        exact this
      · exact hsite g hg hhash
    · obtain ⟨e, he, hekey⟩ := hpass.key
      rcases hkey e he with hhash | ⟨g, hg, hhash, hgkey⟩
      · exact ⟨e.value, (mem_lines_iff _ _ _).mpr ⟨e, .inl he, hhash, rfl⟩, hekey⟩
      · exact ⟨g.value, (mem_lines_iff _ _ _).mpr ⟨g, .inr hg, hhash, rfl⟩, hgkey⟩

/-- A second Sec-Fetch-Site line, `cross-site`, is not looked at. -/
theorem not_liveGates :
    ¬∀ (build : Build) (headersIn : HeadersIn) (conf : Conf) (isMain ssl : Bool),
      LiveGates build Base64.decode conf ⟨isMain, ssl, headersIn⟩ := by
  intro h
  let key : Bytes := List.replicate 32 0x62
  let headers : HeaderList := .ofList
    [⟨1, ascii "Accept-Encoding", ascii "dcb"⟩, ⟨1, ascii "Sec-Fetch-Site", ascii "same-origin"⟩,
      ⟨1, ascii "Sec-Fetch-Site", ascii "cross-site"⟩,
      ⟨1, ascii "Available-Dictionary", COLON :: (Base64.encode key ++ [COLON])⟩]
  have hpass : FirstPass .chained Base64.decode (.of headers) key := by
    refine ⟨?_, ?_,
      ⟨1, ascii "Available-Dictionary", COLON :: (Base64.encode key ++ [COLON])⟩, ?_, ?_⟩
    · exact (requestCodingWeight_pos_iff .chained nameToken_dcb _).mpr
        ⟨1000, by decide +kernel, by decide⟩
    · rw [findRequestHeader, PartList.find?_eq]
      decide
    · rw [findRequestHeader, PartList.find?_eq]
      decide
    · exact (availableDictionary_eq_some_iff Base64.decode).mpr
        ⟨_, rfl, by decide, Base64.decode_encode key, by decide⟩
  let d : DcbDict := ⟨[], [], key, List.length_replicate⟩
  have hd : dcbNegotiate .chained Base64.decode (.oneDict d) ⟨true, true, .of headers⟩ = some d :=
    dcbNegotiate_oneDict .chained Base64.decode hpass
  have hsite := (h .chained (.of headers) (.oneDict d) true true d hd).1
  exact absurd (hsite (ascii "cross-site") (by decide)) (by decide)

end NgxBrotli
