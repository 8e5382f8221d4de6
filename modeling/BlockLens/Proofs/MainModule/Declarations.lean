import BlockLens.Proofs.MainModule
import BlockLens.Proofs.Template.Lexing
import Mathlib.Data.List.Basic

set_option autoImplicit false

namespace BlockLens

namespace MainModule

open Text

def declarators : List String := ["import ", "const ", "export type "]

/-- The name that a line declares. An import may have its source there instead of a name. -/
def declared? (line : String) : Option String :=
  (declarators.findSome? fun w => after? w.toList line.toList).bind fun s =>
    let name := s.takeWhile (· != ' ')
    if name.head? = some '"' then none else some (String.ofList name)

def declared (text : String) : List String := (lines text).filterMap declared?

theorem findSome?_declarators {w : String} (hw : w ∈ declarators) (s : List Char) :
    (declarators.findSome? fun v => after? v.toList (w.toList ++ s)) = some s := by
  simp only [declarators, List.mem_cons, List.not_mem_nil, or_false] at hw
  rcases hw with rfl | rfl | rfl <;> simp [declarators, after?]

theorem declared?_eq_some {w name : String} (hw : w ∈ declarators)
    (hblank : ' ' ∉ name.toList) (hquote : '"' ∉ name.toList) (s : String) :
    declared? (w ++ name ++ " " ++ s) = some name := by
  have hword : (name.toList ++ ' ' :: s.toList).takeWhile (· != ' ') = name.toList := by
    have hpos : ∀ c ∈ name.toList, (c != ' ') = true := fun c hc =>
      bne_iff_ne.2 fun e => hblank (e ▸ hc)
    rw [List.takeWhile_append_of_pos hpos]
    exact List.append_nil _
  have hhead : name.toList.head? ≠ some '"' := fun h => hquote (List.mem_of_head? h)
  have hline : (w ++ name ++ " " ++ s).toList = w.toList ++ (name.toList ++ ' ' :: s.toList) := by
    simp
  rw [declared?, hline, findSome?_declarators hw, Option.bind_some]
  simp only [hword, if_neg hhead, String.ofList_toList]

namespace Request

variable (path : String)

theorem declared?_import : declared? (Request.mk "import " path).line = none := by
  have hline : (Request.mk "import " path).line.toList =
      "import ".toList ++ (quote path).toList := String.toList_append
  rw [declared?, hline, findSome?_declarators (by simp [declarators]), toList_quote]
  simp

theorem declared?_importSelf :
    declared? (Request.mk "import _Self from " path).line = some "_Self" := by
  have hline : (Request.mk "import _Self from " path).line =
      "import " ++ "_Self" ++ " " ++ ("from " ++ quote path) := by
    simp [line, ← String.toList_inj]
  rw [hline, declared?_eq_some (by simp [declarators]) (by decide) (by decide)]

theorem declared?_export : declared? (Request.mk "export * from " path).line = none := by
  simp [declared?, declarators, after?, line]

end Request

section

variable (file : String) (slots : List Slot) (blockId : Slot → Option String)
  (runtime : Option String)

theorem declared?_requests :
    ((requests slots blockId runtime).map Request.line).filterMap declared? =
      if ((blockId .scriptSetup).or (blockId .script)).isSome then ["_Self"] else [] := by
  rw [List.filterMap_map, requests, scriptRequests]
  simp only [List.filterMap_append, List.filterMap_map, Option.toList_map, Function.comp_def,
    Request.declared?_import, Request.declared?_importSelf, Request.declared?_export]
  cases (blockId .scriptSetup).or (blockId .script) <;> simp [List.filterMap_none]

theorem declared?_closing : (closing file blockId).filterMap declared? =
    (if ((blockId .scriptSetup).or (blockId .script)).isNone then ["_Self"] else []) ++
      ["__Props", componentName file] := by
  have hself : declared? "const _Self = \x7b\x7d as any" = some "_Self" := by
    have hline : "const _Self = \x7b\x7d as any" =
        "const " ++ "_Self" ++ " " ++ "= \x7b\x7d as any" := by simp
    rw [hline, declared?_eq_some (by simp [declarators]) (by decide) (by decide)]
  have hprops : ∀ p, declared? ("export type __Props = " ++ p) = some "__Props" := by
    intro p
    have hline : "export type __Props = " ++ p =
        "export type " ++ "__Props" ++ " " ++ ("= " ++ p) := by
      simp [← String.toList_inj]
    rw [hline, declared?_eq_some (by simp [declarators]) (by decide) (by decide)]
  have hname : declared? ("const " ++ componentName file ++ " = _Self") =
      some (componentName file) := by
    have hline : "const " ++ componentName file ++ " = _Self" =
        "const " ++ componentName file ++ " " ++ "= _Self" := by
      simp [← String.toList_inj]
    rw [hline, declared?_eq_some (by simp [declarators])]
    · exact not_mem_componentName (by decide) (by decide) (by decide)
    · exact not_mem_componentName (by decide) (by decide) (by decide)
  have hdefault : declared? ("export default " ++ componentName file) = none := by
    simp [declared?, declarators, after?]
  rw [closing, List.filterMap_append, List.filterMap_cons_some (hprops _),
    List.filterMap_cons_some hname, List.filterMap_cons_none hdefault, List.filterMap_nil]
  cases (blockId .scriptSetup).or (blockId .script) with
  | none =>
    simp only [Option.isNone_none, if_true, List.filterMap_cons_some hself, List.filterMap_nil]
  | some id => rfl

/-- A main module declares three names. -/
theorem declared_generate : declared (generate file slots blockId runtime).text =
    ["_Self", "__Props", componentName file] := by
  rw [declared, lines_generate, List.filterMap_append, declared?_requests, declared?_closing]
  cases (blockId .scriptSetup).or (blockId .script) <;> rfl

end

theorem IsName.fits {s : List Char} (h : IsName s) : (Template.Atom.word s).Fits [] := by
  have hchar : ∀ c, isNameChar c = true → Template.isWordChar c = true := fun c hc =>
    of_isNameChar (P := fun c => Template.isWordChar c = true) (by decide) hc
  have hlead : ∀ c, isLead c = true → Template.isWordStart c = true := fun c hc =>
    of_isNameChar (P := fun c => isLead c = true → Template.isWordStart c = true) (by decide)
      (isNameChar_of_isLead hc) hc
  have hstops : Template.Stops Template.isWordChar [] := by simp [Template.Stops]
  cases h with
  | lettered hc hs => exact ⟨_, _, rfl, hlead _ hc, fun d hd => hchar d (hs d hd), hstops⟩
  | numbered hc hs =>
    refine ⟨_, _, rfl, by decide, fun d hd => hchar d ?_, hstops⟩
    rcases List.mem_cons.1 hd with rfl | hd
    · exact isNameChar_of_isDigit hc
    · exact hs d hd

theorem lexemes_componentName (file : String) :
    Template.lexemes (componentName file).toList = [.word (componentName file).toList] := by
  have hdivides := Template.Divides.cons (isName_componentName file).fits .nil
  simpa [Template.Atom.text, Template.Atom.lexemes] using hdivides.lexemes

theorem componentName_ne {file s : String} (h : s.toList[0]? = some '_')
    (hs : ∀ d, s.toList[1]? = some d → d.isDigit = false) : componentName file ≠ s := by
  rintro rfl
  obtain ⟨d, hd, hdigit⟩ := (isName_componentName file).isDigit_of_underscore h
  exact Bool.false_ne_true ((hs d hd).symm.trans hdigit)

/-- Whatever the file is called, the component has a name that can be declared, and the main module
declares it together with two other names. -/
theorem componentName_usable (file : String) :
    componentName file ≠ "" ∧
    (∀ i c, (componentName file).toList[i]? = some c →
      c.isAlphanum = true ∨ c = '$' ∨ i = 0 ∧ c = '_') ∧
    (∀ c, (componentName file).toList[0]? = some c → c.isDigit = false ∧ c.isLower = false) ∧
    ((componentName file).toList[0]? = some '_' →
      ∃ d, (componentName file).toList[1]? = some d ∧ d.isDigit = true) ∧
    Template.lexemes (componentName file).toList = [.word (componentName file).toList] ∧
    componentName file ≠ "_Self" ∧ componentName file ≠ "__Props" ∧
    ∀ slots blockId runtime, declared (generate file slots blockId runtime).text =
      ["_Self", "__Props", componentName file] := by
  have hname : IsName (componentName file).toList := isName_componentName file
  have hne : componentName file ≠ "" := fun h => hname.ne_nil (String.toList_eq_nil_iff.2 h)
  refine ⟨hne, ?_, ?_, hname.isDigit_of_underscore, lexemes_componentName file,
    componentName_ne (by simp) (by simp), componentName_ne (by simp) (by simp),
    declared_generate file⟩
  · intro i c hc
    rcases hname.of_getElem? hc with hchar | hfront
    · exact (isNameChar_eq_true.1 hchar).imp_right .inl
    · exact .inr (.inr hfront)
  · intro c hc
    rcases hname.of_getElem?_zero hc with hlead | ⟨rfl, -⟩
    · exact ⟨not_isDigit_of_isLead hlead, not_isLower_of_isLead hlead⟩
    · decide

theorem componentName_usable_numbered :
    (componentName "/src/404.vue").toList[0]? = some '_' ∧
      (∃ d, (componentName "/src/404.vue").toList[1]? = some d ∧ d.isDigit = true) ∧
      declared (generate "/src/404.vue" [] (fun _ => none) none).text =
        ["_Self", "__Props", "_404"] := by
  have hfront : (componentName "/src/404.vue").toList[0]? = some '_' := by decide +kernel
  have hname : componentName "/src/404.vue" = "_404" := by decide +kernel
  obtain ⟨-, -, -, hdigit, -, -, -, hdeclared⟩ := componentName_usable "/src/404.vue"
  exact ⟨hfront, hdigit hfront, hname ▸ hdeclared [] (fun _ => none) none⟩

end MainModule

end BlockLens
