import BlockLens.Overlay.Render
import BlockLens.Proofs.Text
import BlockLens.Proofs.Text.Base64

set_option autoImplicit false

namespace BlockLens

open Text

namespace Text

/-- A text is cut in one way at the last occurrence of a character. -/
theorem append_cons_inj {x : Char} {a b l m : List Char} (hl : x ∉ l) (hm : x ∉ m)
    (h : a ++ x :: l = b ++ x :: m) : a = b ∧ l = m := by
  rcases List.append_eq_append_iff.1 h with ⟨u, hb, hu⟩ | ⟨u, ha, hu⟩
  · cases u with
    | nil => exact ⟨by simpa using hb.symm, by simpa using hu⟩
    | cons y u =>
      simp only [List.cons_append, List.cons.injEq] at hu
      exact absurd (by simp [hu.2]) hl
  · cases u with
    | nil => exact ⟨by simpa using ha, by simpa using hu.symm⟩
    | cons y u =>
      simp only [List.cons_append, List.cons.injEq] at hu
      exact absurd (by simp [hu.2]) hm

theorem toList_toString_int (v : Int) :
    (toString v).toList =
      match v with
      | .ofNat n => Nat.toDigits 10 n
      | .negSucc n => '-' :: Nat.toDigits 10 (n + 1) := by
  cases v with
  | ofNat n => exact Nat.toList_repr
  | negSucc n =>
    have h : toString (Int.negSucc n) = "-" ++ (n + 1).repr := rfl
    rw [h, String.toList_append, Nat.toList_repr]
    rfl

theorem toString_int_injective {v w : Int} (h : toString v = toString w) : v = w := by
  have hsign : ∀ n, '-' ∉ Nat.toDigits 10 n := fun n hn =>
    absurd (Nat.isDigit_of_mem_toDigits (by decide) (by decide) hn) (by decide)
  have hlist := congrArg String.toList h
  rw [toList_toString_int, toList_toString_int] at hlist
  cases v with
  | ofNat m =>
    cases w with
    | ofNat n => rw [toDigits_injective hlist]
    | negSucc n => exact absurd (by simp [hlist]) (hsign m)
  | negSucc m =>
    cases w with
    | ofNat n => exact absurd (by simp [← hlist]) (hsign n)
    | negSucc n =>
      have hmn := toDigits_injective (List.cons.inj hlist).2
      rw [Nat.succ.inj hmn]

theorem newline_not_mem_int (v : Int) : '\n' ∉ (toString v).toList := by
  have hdigits : ∀ n, '\n' ∉ Nat.toDigits 10 n := fun n hn =>
    absurd (Nat.isDigit_of_mem_toDigits (by decide) (by decide) hn) (by decide)
  rw [toList_toString_int]
  cases v with
  | ofNat n => exact hdigits n
  | negSucc n => simpa using hdigits (n + 1)

end Text

namespace Render

/-- The last line of the text, or the last but that of the source map, tells this version. -/
def Carries (text : String) (version : Int) : Prop :=
  ∃ body tail, text = withVersion body version ++ tail ∧
    (tail = "" ∨ ∃ url, tail = "\n//# sourceMappingURL=" ++ url ∧ '\n' ∉ url.toList)

def versionLine (version : Int) : List Char := "//# version ".toList ++ (toString version).toList

def mapLine (url : List Char) : List Char := "//# sourceMappingURL=".toList ++ url

theorem toList_withVersion (text : String) (version : Int) :
    (withVersion text version).toList = text.toList ++ '\n' :: versionLine version := by
  have htext : withVersion text version = text ++ ("\n//# version " ++ toString version) := by
    rw [← String.append_assoc]
    rfl
  rw [htext, String.toList_append, String.toList_append]
  rfl

theorem toList_mapUrl (url : String) :
    ("\n//# sourceMappingURL=" ++ url).toList = '\n' :: mapLine url.toList := by
  rw [String.toList_append]
  rfl

theorem newline_not_mem_versionLine (version : Int) : '\n' ∉ versionLine version := by
  have hsign : '\n' ∉ "//# version ".toList := by decide
  exact fun hm => (List.mem_append.1 hm).elim hsign (newline_not_mem_int version)

theorem newline_not_mem_mapLine {url : List Char} (h : '\n' ∉ url) : '\n' ∉ mapLine url := by
  have hsign : '\n' ∉ "//# sourceMappingURL=".toList := by decide
  exact fun hm => (List.mem_append.1 hm).elim hsign h

theorem versionLine_injective {v w : Int} (h : versionLine v = versionLine w) : v = w :=
  toString_int_injective (String.toList_injective (List.append_cancel_left h))

theorem versionLine_ne_mapLine (v : Int) (url : List Char) : versionLine v ≠ mapLine url := by
  intro h
  have hv : (versionLine v)[4]? = some 'v' := rfl
  have hm : (mapLine url)[4]? = some 's' := rfl
  rw [h, hm] at hv
  contradiction

theorem Carries.last {text : String} {w : Int} (h : Carries text w) {a l : List Char}
    (htext : text.toList = a ++ '\n' :: l) (hl : '\n' ∉ l) :
    l = versionLine w ∨ ∃ url b, l = mapLine url ∧ a = b ++ '\n' :: versionLine w := by
  obtain ⟨body, tail, rfl, rfl | ⟨url, rfl, hurl⟩⟩ := h
  · rw [String.append_empty, toList_withVersion] at htext
    exact .inl (append_cons_inj (newline_not_mem_versionLine w) hl htext).2.symm
  · rw [String.toList_append, toList_withVersion, toList_mapUrl] at htext
    obtain ⟨ha, hlast⟩ := append_cons_inj (newline_not_mem_mapLine hurl) hl htext
    exact .inr ⟨url.toList, body.toList, hlast.symm, ha.symm⟩

theorem Carries.eq_of_withVersion {text : String} {v w : Int} (h : Carries (withVersion text v) w) :
    w = v := by
  rcases h.last (toList_withVersion text v) (newline_not_mem_versionLine v) with
    hline | ⟨url, b, hline, -⟩
  · exact (versionLine_injective hline).symm
  · exact absurd hline (versionLine_ne_mapLine v url)

theorem carries_withVersion {text : String} {v w : Int} : Carries (withVersion text v) w ↔ w = v := by
  refine ⟨Carries.eq_of_withVersion, ?_⟩
  rintro rfl
  exact ⟨text, "", by rw [String.append_empty], .inl rfl⟩

def mapUrl (m : SourceMap) : List Char :=
  "data:application/json;base64,".toList ++ base64 (mapJson m).toUTF8.toList

theorem newline_not_mem_mapUrl (m : SourceMap) : '\n' ∉ mapUrl m := by
  have hscheme : '\n' ∉ "data:application/json;base64,".toList := by decide
  exact fun hm => (List.mem_append.1 hm).elim hscheme (newline_not_mem_base64 _)

theorem mapComment_eq (m : SourceMap) :
    mapComment m = "\n//# sourceMappingURL=" ++ String.ofList (mapUrl m) := by
  have hsign : "\n//# sourceMappingURL=data:application/json;base64,".toList =
      '\n' :: ("//# sourceMappingURL=".toList ++ "data:application/json;base64,".toList) := by
    decide
  have htext : (mapComment m).toList =
      "\n//# sourceMappingURL=data:application/json;base64,".toList ++
        base64 (mapJson m).toUTF8.toList :=
    (String.toList_append ..).trans (congrArg _ String.toList_ofList)
  have hurl : (String.ofList (mapUrl m)).toList = mapUrl m := String.toList_ofList
  apply String.toList_inj.1
  rw [htext, hsign, toList_mapUrl, hurl]
  exact congrArg ('\n' :: ·) (List.append_assoc ..)

end Render

def Mapping.map? : Mapping → Option SourceMap
  | .segments m => some m
  | .identity | .unmapped => none

namespace Render

theorem output_of_none {out : Output} (h : out.mapping.map? = none) (v : Int) :
    output out v = withVersion out.code v := by
  unfold output
  split
  · next m hm =>
    rw [hm] at h
    contradiction
  · exact String.append_empty
  · exact String.append_empty

theorem output_of_some {out : Output} {m : SourceMap} (h : out.mapping.map? = some m) (v : Int) :
    output out v =
      withVersion out.code v ++ ("\n//# sourceMappingURL=" ++ String.ofList (mapUrl m)) := by
  unfold output
  split
  · next n hn =>
    rw [hn] at h
    rw [← Option.some.inj h, ← mapComment_eq]
  all_goals
    next hn =>
    rw [hn] at h
    contradiction

theorem toList_output_of_none {out : Output} (h : out.mapping.map? = none) (v : Int) :
    (output out v).toList = out.code.toList ++ '\n' :: versionLine v := by
  rw [output_of_none h, toList_withVersion]

theorem toList_output_of_some {out : Output} {m : SourceMap} (h : out.mapping.map? = some m)
    (v : Int) :
    (output out v).toList =
      (out.code.toList ++ '\n' :: versionLine v) ++ '\n' :: mapLine (mapUrl m) := by
  rw [output_of_some h, String.toList_append, toList_withVersion, toList_mapUrl,
    String.toList_ofList]

/-- The line with the source map does not hide the version before it. -/
theorem carries_output {out : Output} {v w : Int} : Carries (output out v) w ↔ w = v := by
  cases hm : out.mapping.map? with
  | none => rw [output_of_none hm, carries_withVersion]
  | some m =>
    have hline : '\n' ∉ (String.ofList (mapUrl m)).toList := by
      rw [String.toList_ofList]
      exact newline_not_mem_mapUrl m
    constructor
    · intro h
      rcases h.last (toList_output_of_some hm v) (newline_not_mem_mapLine
        (newline_not_mem_mapUrl m)) with hlast | ⟨u, b, -, ha⟩
      · exact absurd hlast.symm (versionLine_ne_mapLine w (mapUrl m))
      · have hlines := append_cons_inj (newline_not_mem_versionLine v)
          (newline_not_mem_versionLine w) ha
        exact (versionLine_injective hlines.2).symm
    · rintro rfl
      exact ⟨out.code, _, output_of_some hm w, .inr ⟨_, rfl, hline⟩⟩

theorem not_carries_errorComment (message : String) (version : Int) :
    ¬ Carries (errorComment message) version := by
  have htext : (errorComment message).toList = ("/*\nError: " ++ message).toList ++
      '\n' :: ['*', '/'] := by
    have h : errorComment message = ("/*\nError: " ++ message) ++ "\n*/" := rfl
    rw [h, String.toList_append]
    rfl
  intro h
  rcases h.last htext (by decide) with hline | ⟨url, b, hline, -⟩
  · have hv : (versionLine version)[0]? = some '/' := rfl
    rw [← hline] at hv
    contradiction
  · have hm : (mapLine url)[0]? = some '/' := rfl
    rw [← hline] at hm
    contradiction

theorem Carries.eq_of_generated {g : Generated} {v w : Int} {text : String}
    (hg : generated g v = some text) (h : Carries text w) : w = v := by
  unfold generated at hg
  split at hg
  · obtain rfl := Option.some.inj hg
    exact carries_output.1 h
  · contradiction
  · obtain rfl := Option.some.inj hg
    exact absurd h (not_carries_errorComment _ w)

end Render

end BlockLens
