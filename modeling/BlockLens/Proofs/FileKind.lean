import BlockLens.FileKind
import BlockLens.Proofs.Identifier

set_option autoImplicit false

namespace BlockLens

open Text

namespace FileKind

theorem parse_of_classify {name : String} {i : Identifier}
    (h : classify name = .block i) : Identifier.parse name = .ok i := by
  unfold classify at h
  split at h
  · split at h
    · next hp =>
      rw [FileKind.block.injEq] at h
      rw [hp, h]
    · contradiction
  · split at h
    · contradiction
    · split at h <;> contradiction

theorem classify_text {i : Identifier} (h : i.validate = .ok ()) (hk : i.kind.IsTag)
    (hn : ∀ n, i.index = some n → n < wordLimit) : classify i.text = .block i := by
  have hv : Identifier.isVirtual i.text = true := by
    rw [Identifier.isVirtual, contains, Identifier.cut?_text h]
    rfl
  rw [classify, hv, Identifier.parse_text h hk hn]
  rfl

theorem classify_eq_main {name file : String} (h : classify name = .main file) :
    Identifier.isVirtual name = false ∧ isComposite file = true ∧ name = mainModuleName file := by
  unfold classify at h
  split at h
  · split at h <;> contradiction
  · next hv =>
    split at h
    · next f hf =>
      rw [FileKind.main.injEq] at h
      subst h
      simp only [compositeOfMain?, Option.filter_eq_some_iff, Option.map_eq_some_iff,
        before?_eq_some] at hf
      obtain ⟨⟨r, hr, rfl⟩, hc⟩ := hf
      refine ⟨by simpa using hv, hc, String.toList_injective ?_⟩
      simp [mainModuleName, hr]
    · split at h <;> contradiction

theorem classify_of_isComposite {name : String} (hv : Identifier.isVirtual name = false)
    (hc : isComposite name = true) : classify name = .composite := by
  obtain ⟨r, hr⟩ := Option.isSome_iff_exists.1 hc
  have hvue := before?_eq_some.1 hr
  have hts : before? ".ts".toList name.toList = none := by
    cases hb : before? ".ts".toList name.toList with
    | none => rfl
    | some q =>
      -- the last characters differ
      have hlast := congrArg List.getLast? (hvue.symm.trans (before?_eq_some.1 hb))
      simp at hlast
  rw [classify, hv, compositeOfMain?, hts, hc]
  rfl

theorem classify_file_of_block {name : String} {i : Identifier} (h : classify name = .block i)
    (hc : isComposite i.file = true) : classify i.file = .composite := by
  obtain ⟨hv, -, -⟩ := Identifier.parse_eq_ok (parse_of_classify h)
  exact classify_of_isComposite (Identifier.validate_eq_ok.1 hv).1 hc

theorem classify_file_of_main {name file : String} (h : classify name = .main file) :
    classify file = .composite := by
  obtain ⟨hv, hc, rfl⟩ := classify_eq_main h
  refine classify_of_isComposite ?_ hc
  rw [← Bool.not_eq_true] at hv ⊢
  refine fun hf => hv ?_
  -- a marker in the file would be one in the module
  obtain ⟨b, r, hbr⟩ := contains_eq_true.1 hf
  exact contains_eq_true.2 ⟨b, r ++ ".ts".toList, by simp [mainModuleName, hbr]⟩

end FileKind

end BlockLens
