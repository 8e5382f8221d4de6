import BlockLens.Document.MainModule
import BlockLens.FileKind
import BlockLens.Proofs.Text

set_option autoImplicit false

namespace BlockLens

namespace MainModule

open Text

def isNameChar (c : Char) : Bool := c.isAlphanum || c == '$'

def isLead (c : Char) : Bool := c.isUpper || c == '$'

section

variable {c : Char}

theorem isNameChar_eq_true : isNameChar c = true ↔ c.isAlphanum = true ∨ c = '$' := by
  rw [isNameChar, Bool.or_eq_true, beq_iff_eq]

theorem isNameChar_of_isLead (h : isLead c = true) : isNameChar c = true := by
  rw [isLead, Bool.or_eq_true, beq_iff_eq] at h
  exact isNameChar_eq_true.2 (h.imp_left isAlphanum_of_isUpper)

theorem isNameChar_of_isDigit (h : c.isDigit = true) : isNameChar c = true := by
  simp [isNameChar, Char.isAlphanum, h]

theorem of_isNameChar {P : Char → Prop}
    (hall : ∀ n < 128, isNameChar (Char.ofNat n) = true → P (Char.ofNat n))
    (h : isNameChar c = true) : P c := by
  have hlt : c.toNat < 128 := by
    rcases isNameChar_eq_true.1 h with h | rfl
    · exact toNat_lt_of_isAlphanum h
    · decide
  exact of_toNat_lt (P := fun c => isNameChar c = true → P c) hall hlt h

theorem not_isDigit_of_isLead (h : isLead c = true) : c.isDigit = false :=
  of_isNameChar (P := fun c => isLead c = true → c.isDigit = false) (by decide)
    (isNameChar_of_isLead h) h

theorem not_isLower_of_isLead (h : isLead c = true) : c.isLower = false :=
  of_isNameChar (P := fun c => isLead c = true → c.isLower = false) (by decide)
    (isNameChar_of_isLead h) h

theorem isDigit_or_isLead_toUpper (h : isNameChar c = true) :
    c.toUpper.isDigit = true ∨ isLead c.toUpper = true :=
  of_isNameChar (P := fun c => c.toUpper.isDigit = true ∨ isLead c.toUpper = true) (by decide) h

theorem isNameChar_of_isDigit_or_isLead (h : c.isDigit = true ∨ isLead c = true) :
    isNameChar c = true :=
  h.elim isNameChar_of_isDigit isNameChar_of_isLead

theorem toUpper_eq_self (h : c.isDigit = true ∨ isLead c = true) : c.toUpper = c :=
  of_isNameChar (P := fun c => c.isDigit = true ∨ isLead c = true → c.toUpper = c) (by decide)
    (isNameChar_of_isDigit_or_isLead h) h

theorem not_isSeparator_of_isNameChar (h : isNameChar c = true) :
    (c == '/' || c == '\\') = false :=
  of_isNameChar (P := fun c => (c == '/' || c == '\\') = false) (by decide) h

theorem ne_dot_of_isNameChar (h : isNameChar c = true) : (c != '.') = true :=
  of_isNameChar (P := fun c => (c != '.') = true) (by decide) h

end

/-- The identifiers that components are named by. -/
inductive IsName : List Char → Prop
  | lettered {c : Char} {s : List Char} (hc : isLead c = true) (hs : ∀ d ∈ s, isNameChar d = true) :
      IsName (c :: s)
  | numbered {c : Char} {s : List Char} (hc : c.isDigit = true)
      (hs : ∀ d ∈ s, isNameChar d = true) : IsName ('_' :: c :: s)

namespace IsName

variable {s : List Char}

theorem ne_nil (h : IsName s) : s ≠ [] := by
  cases h <;> exact List.cons_ne_nil _ _

theorem of_getElem? {i : Nat} {c : Char} (h : IsName s) (hc : s[i]? = some c) :
    isNameChar c = true ∨ i = 0 ∧ c = '_' := by
  cases h with
  | lettered hlead hs =>
    cases i with
    | zero =>
      obtain rfl := Option.some.inj hc
      exact .inl (isNameChar_of_isLead hlead)
    | succ i => exact .inl (hs c (List.mem_of_getElem? hc))
  | @numbered a t hdigit hs =>
    cases i with
    | zero => exact .inr ⟨rfl, (Option.some.inj hc).symm⟩
    | succ i =>
      have hmem : c ∈ a :: t := List.mem_of_getElem? hc
      rcases List.mem_cons.1 hmem with rfl | hmem
      · exact .inl (isNameChar_of_isDigit hdigit)
      · exact .inl (hs c hmem)

theorem of_getElem?_zero {c : Char} (h : IsName s) (hc : s[0]? = some c) :
    isLead c = true ∨ c = '_' ∧ ∃ d, s[1]? = some d ∧ d.isDigit = true := by
  cases h with
  | lettered hlead =>
    obtain rfl := Option.some.inj hc
    exact .inl hlead
  | numbered hdigit =>
    obtain rfl := Option.some.inj hc
    exact .inr ⟨rfl, _, rfl, hdigit⟩

theorem isDigit_of_underscore (h : IsName s) (hs : s[0]? = some '_') :
    ∃ d, s[1]? = some d ∧ d.isDigit = true := by
  rcases h.of_getElem?_zero hs with hlead | ⟨-, hdigit⟩
  · exact absurd hlead (by decide)
  · exact hdigit

theorem of_mem {c : Char} (h : IsName s) (hc : c ∈ s) : isNameChar c = true ∨ c = '_' := by
  obtain ⟨i, hi⟩ := List.getElem?_of_mem hc
  exact (h.of_getElem? hi).imp_right And.right

end IsName

def letters (file : String) : List Char :=
  (pieces (fun c => !isNameChar c) (stem file.toList)).flatMap capitalize

theorem toList_componentName (file : String) :
    (componentName file).toList =
      match letters file with
      | [] => "Component".toList
      | c :: s => if c.isDigit then '_' :: c :: s else c :: s := by
  have hletters : (pieces (fun c => !(c.isAlphanum || c == '$')) (stem file.toList)).flatMap
      capitalize = letters file := rfl
  simp only [componentName, hletters]
  cases letters file with
  | nil => rfl
  | cons c s => cases hc : c.isDigit <;> simp [hc]

theorem flatMap_capitalize_cases {ps : List (List Char)}
    (h : ∀ t ∈ ps, ∀ c ∈ t, isNameChar c = true) :
    ps.flatMap capitalize = [] ∨
      ∃ c s, ps.flatMap capitalize = c :: s ∧ (c.isDigit = true ∨ isLead c = true) ∧
        ∀ d ∈ s, isNameChar d = true := by
  induction ps with
  | nil => exact .inl rfl
  | cons t ps ih =>
    have ih := ih fun t ht => h t (List.mem_cons_of_mem _ ht)
    have ht := h t List.mem_cons_self
    cases t with
    | nil => exact ih
    | cons a t =>
      have hrest : ∀ d ∈ ps.flatMap capitalize, isNameChar d = true := by
        rcases ih with ih | ⟨c, s, ih, hc, hs⟩
        · simp [ih]
        · rw [ih]
          exact List.forall_mem_cons.2 ⟨isNameChar_of_isDigit_or_isLead hc, hs⟩
      have hcons : ((a :: t) :: ps).flatMap capitalize =
          a.toUpper :: (t ++ ps.flatMap capitalize) := by simp [capitalize]
      refine .inr ⟨a.toUpper, t ++ ps.flatMap capitalize, hcons, ?_, ?_⟩
      · exact isDigit_or_isLead_toUpper (ht a List.mem_cons_self)
      · intro d hd
        rcases List.mem_append.1 hd with hd | hd
        · exact ht d (List.mem_cons_of_mem _ hd)
        · exact hrest d hd

/-- Whatever the file is called, its component is named by an identifier. -/
theorem isName_componentName (file : String) : IsName (componentName file).toList := by
  have hparts : ∀ t ∈ pieces (fun c => !isNameChar c) (stem file.toList),
      ∀ c ∈ t, isNameChar c = true := by
    intro t ht c hc
    simpa using of_mem_pieces ht c hc
  rw [toList_componentName, letters]
  rcases flatMap_capitalize_cases hparts with hnil | ⟨c, s, hcons, hc, hs⟩
  · have hcomponent : "Component".toList = 'C' :: "omponent".toList := by simp
    have hname : IsName ('C' :: "omponent".toList) := .lettered (by decide) (by simp [isNameChar])
    rw [hnil]
    exact hcomponent ▸ hname
  · rw [hcons]
    cases hdigit : c.isDigit with
    | true => simpa [hdigit] using IsName.numbered hdigit hs
    | false =>
      have hlead : isLead c = true := by simpa [hdigit] using hc
      simpa [hdigit] using IsName.lettered hlead hs

example : componentName "/src/_Self.vue" = "Self" := by decide +kernel

theorem of_mem_componentName {file : String} {c : Char} (h : c ∈ (componentName file).toList) :
    c.isAlphanum = true ∨ c = '$' ∨ c = '_' := by
  rcases (isName_componentName file).of_mem h with hc | hc
  · exact (isNameChar_eq_true.1 hc).imp_right .inl
  · exact .inr (.inr hc)

theorem not_mem_componentName {file : String} {c : Char} (h : c.isAlphanum = false) (hd : c ≠ '$')
    (hu : c ≠ '_') : c ∉ (componentName file).toList := by
  intro hc
  rcases of_mem_componentName hc with ha | ha | ha
  · exact Bool.false_ne_true (h.symm.trans ha)
  · exact hd ha
  · exact hu ha

theorem letters_vue {c : Char} {s : List Char} (h : ∀ d ∈ c :: s, isNameChar d = true) :
    letters (String.ofList (c :: s) ++ ".vue") = c.toUpper :: s := by
  have hpath : ∀ d ∈ c :: s ++ ".vue".toList, (d == '/' || d == '\\') = false := by
    intro d hd
    have hvue : ∀ d ∈ ".vue".toList, (d == '/' || d == '\\') = false := by simp
    rcases List.mem_append.1 hd with hd | hd
    · exact not_isSeparator_of_isNameChar (h d hd)
    · exact hvue d hd
  have hstem : stem (c :: s ++ ".vue".toList) = c :: s := by
    rw [stem, ← List.nil_append (c :: s ++ _), lastPiece_append _ hpath,
      show lastPiece _ ([] : List Char) = [] from rfl, List.nil_append,
      List.takeWhile_append_of_pos fun d hd => ne_dot_of_isNameChar (h d hd)]
    exact List.append_nil _
  have hpart : pieces (fun c => !isNameChar c) (c :: s) = [c :: s] :=
    pieces_of_none fun d hd => by rw [h d hd]; rfl
  rw [letters, String.toList_append, String.toList_ofList, hstem, hpart]
  exact List.append_nil _

theorem toList_componentName_vue {c : Char} {s : List Char}
    (hc : c.isDigit = true ∨ isLead c = true) (hs : ∀ d ∈ s, isNameChar d = true) :
    (componentName (String.ofList (c :: s) ++ ".vue")).toList =
      if c.isDigit then '_' :: c :: s else c :: s := by
  have hall : ∀ d ∈ c :: s, isNameChar d = true :=
    List.forall_mem_cons.2 ⟨isNameChar_of_isDigit_or_isLead hc, hs⟩
  rw [toList_componentName, letters_vue hall, toUpper_eq_self hc]

/-- The components of composite files are named by these identifiers and by all of them. -/
theorem exists_componentName_iff {name : String} :
    (∃ file, isComposite file = true ∧ componentName file = name) ↔ IsName name.toList := by
  have hcomposite : ∀ s : List Char, isComposite (String.ofList s ++ ".vue") = true := fun s =>
    Option.isSome_iff_exists.2 ⟨s, before?_eq_some.2 (by simp)⟩
  constructor
  · rintro ⟨file, -, rfl⟩
    exact isName_componentName file
  · intro h
    generalize hname : name.toList = l at h
    cases h with
    | @lettered c s hc hs =>
      refine ⟨_, hcomposite (c :: s), String.toList_injective ?_⟩
      rw [hname, toList_componentName_vue (.inr hc) hs, not_isDigit_of_isLead hc]
      rfl
    | @numbered c s hc hs =>
      refine ⟨_, hcomposite (c :: s), String.toList_injective ?_⟩
      rw [hname, toList_componentName_vue (.inl hc) hs, if_pos hc]

end MainModule

end BlockLens
