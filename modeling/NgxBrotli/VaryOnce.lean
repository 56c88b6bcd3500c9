import NgxBrotli.Vary

namespace NgxBrotli

/-- A live Vary line lists Accept-Encoding among its tokens. -/
def VaryNamed (headers : HeaderList) : Prop :=
  ∃ h ∈ headers.toList, (h.hash ≠ 0 ∧ EqNoCase h.key (ascii "Vary")) ∧
    ∃ t ∈ tokens h.value, EqNoCase t (ascii "Accept-Encoding")

def varyLine : TableElt := ⟨1, ascii "Vary", ascii "Accept-Encoding"⟩

theorem varyNamed_iff (headers : HeaderList) :
    VaryNamed headers ↔ ∃ t ∈ varyTokens headers, EqNoCase t (ascii "Accept-Encoding") := by
  have hvary : (0 : UInt8) ∉ ascii "Vary" := by decide
  rw [exists_varyTokens, VaryNamed]
  simp only [TableElt.isLive_iff hvary]

theorem varyAcceptEncoding_named {r : Response} (hr : VaryNamed r.headers) (allocOk : Bool) :
    varyAcceptEncoding false allocOk r = some { r with gzipVary := true } := by
  rw [varyNamed_iff, ← find?_vary_isSome] at hr
  unfold varyAcceptEncoding
  dsimp only
  rw [if_neg Bool.false_ne_true, if_pos hr]

theorem varyAcceptEncoding_unnamed {r : Response} (hr : ¬VaryNamed r.headers) (allocOk : Bool) :
    varyAcceptEncoding false allocOk r =
      Response.push { r with gzipVary := true } allocOk varyLine.key varyLine.value := by
  rw [varyNamed_iff, ← find?_vary_isSome] at hr
  unfold varyAcceptEncoding
  dsimp only
  rw [if_neg Bool.false_ne_true, if_neg hr]
  rfl

/-- The core directive off: the helper leaves the response as it is where a live Vary line lists
Accept-Encoding, and appends its line where none does; a second call changes nothing. -/
theorem vary_emitted_once {allocOk : Bool} {r r' : Response}
    (h : varyAcceptEncoding false allocOk r = some r') :
    (VaryNamed r.headers → r' = { r with gzipVary := true }) ∧
    (¬VaryNamed r.headers → ∃ headers : HeaderList,
      headers.toList = r.headers.toList ++ [varyLine] ∧
        r' = { r with gzipVary := true, headers := headers }) ∧
    VaryNamed r'.headers ∧
    ∀ allocOk', varyAcceptEncoding false allocOk' r' = some r' := by
  have hnamed : VaryNamed r'.headers := by
    rw [varyNamed_iff]
    rcases announced_varyAcceptEncoding h with ha | ⟨hoff, -⟩
    · exact ha
    · cases hoff
  have hgzip : r'.gzipVary = true := by
    by_cases hr : VaryNamed r.headers
    · rw [varyAcceptEncoding_named hr] at h
      obtain rfl := Option.some.inj h
      rfl
    · rw [varyAcceptEncoding_unnamed hr, Response.push] at h
      obtain ⟨headers, -, rfl⟩ := Option.map_eq_some_iff.mp h
      rfl
  refine ⟨fun hr => ?_, fun hr => ?_, hnamed, fun allocOk' => ?_⟩
  · rw [varyAcceptEncoding_named hr] at h
    exact (Option.some.inj h).symm
  · rw [varyAcceptEncoding_unnamed hr, Response.push] at h
    obtain ⟨headers, hp, rfl⟩ := Option.map_eq_some_iff.mp h
    exact ⟨headers, PartList.toList_push hp, rfl⟩
  · rw [varyAcceptEncoding_named hnamed, ← hgzip]

theorem vary_emitted_once_near_miss :
    let l : List TableElt := [⟨1, ascii "vary", ascii "Accept-Encoding-X, ,Cookie "⟩,
      ⟨0, ascii "Vary", ascii "Accept-Encoding"⟩]
    let r : Response :=
      ⟨200, false, none, -1, false, none, none, .ofList l, 20, false, false, false, false⟩
    let r' : Response := { r with gzipVary := true, headers := .ofList (l ++ [varyLine]) }
    varyAcceptEncoding false true r = some r' ∧
      ∀ allocOk', varyAcceptEncoding false allocOk' r' = some r' := by
  intro l r r'
  have h : varyAcceptEncoding false true r = some r' := by decide +kernel
  exact ⟨h, (vary_emitted_once h).2.2.2⟩

end NgxBrotli
