import BlockLens.Identifier
import BlockLens.Proofs.Text

set_option autoImplicit false

namespace BlockLens

open Text

/-- A kind as a tag gives it: no custom kind bears a builtin tag. -/
def Kind.IsTag (k : Kind) : Prop := Kind.ofTag k.tag = k

theorem Kind.isTag_ofTag (t : String) : (Kind.ofTag t).IsTag := by simp [IsTag]

theorem Kind.isTag_of_exists {k : Kind} (h : ∃ t, k = .ofTag t) : k.IsTag := by
  obtain ⟨t, rfl⟩ := h
  exact isTag_ofTag t

theorem Kind.isTag_iff {k : Kind} :
    k.IsTag ↔ ∀ n, k = .custom n → n ≠ "template" ∧ n ≠ "script" ∧ n ≠ "style" := by
  cases k with
  | template => simp [IsTag, tag, ofTag]
  | script => simp [IsTag, tag, ofTag]
  | style => simp [IsTag, tag, ofTag]
  | custom n =>
    simp only [IsTag, tag, ofTag, custom.injEq, forall_eq']
    by_cases h₁ : n = "template"
    · simp [h₁]
    · by_cases h₂ : n = "script"
      · simp [h₂]
      · by_cases h₃ : n = "style"
        · simp [h₃]
        · simp [h₁, h₂, h₃]

theorem Kind.eq_of_tag {k l : Kind} (hk : k.IsTag) (hl : l.IsTag) (h : k.tag = l.tag) : k = l := by
  rw [← hk, ← hl, h]

namespace Identifier

def segments (i : Identifier) : List (List Char) :=
  (i.index.map fun n => "index=".toList ++ Nat.toDigits 10 n).toList ++
    (if i.setup then ["setup=true".toList] else []) ++ ["lang.".toList ++ i.lang.toList]

theorem toList_text (i : Identifier) :
    i.text.toList = i.file.toList ++ marker ++
      '&' :: joined '&' ("type=".toList ++ i.kind.tag.toList) i.segments := by
  obtain ⟨file, kind, index, setup, lang⟩ := i
  cases index with
  | none => cases setup <;> simp [text, segments, joined, marker]
  | some n => cases setup <;> simp [text, segments, joined, marker]

theorem validate_eq_ok {i : Identifier} :
    i.validate = .ok () ↔
      isVirtual i.file = false ∧ isValidName i.kind.tag.toList = true ∧
        isValidName i.lang.toList = true ∧ i.kind.repeats = i.index.isSome ∧
        (i.setup = true → i.kind = .script) := by
  unfold validate
  constructor
  · intro h
    cases hr : i.kind.repeats <;> cases hi : i.index <;> grind
  · rintro ⟨h₁, h₂, h₃, h₄, h₅⟩
    have h₆ : (i.setup && i.kind != .script) = false := by
      cases hs : i.setup with
      | false => simp
      | true => simp [h₅ hs]
    cases hi : i.index <;> simp_all

theorem isSome_slot?_of_validate {i : Identifier} (h : i.validate = .ok ()) :
    i.slot?.isSome = true := by
  obtain ⟨-, -, -, h₄, h₅⟩ := validate_eq_ok.1 h
  obtain ⟨file, kind, index, setup, lang⟩ := i
  cases kind <;> cases index <;> cases setup <;> simp_all [slot?, Slot.ofParts?, Kind.repeats]

theorem not_mem_of_isValidName {s : List Char} (h : isValidName s = true) : '&' ∉ s := by
  intro hm
  simp only [isValidName, Bool.and_eq_true, List.all_eq_true] at h
  have hc := h.2 _ hm
  simp at hc

theorem cut?_text {i : Identifier} (h : i.validate = .ok ()) :
    cut? marker i.text.toList =
      some (i.file.toList, '&' :: joined '&' ("type=".toList ++ i.kind.tag.toList) i.segments) := by
  have hf : cut? marker i.file.toList = none := by
    have hv := (validate_eq_ok.1 h).1
    simpa [isVirtual, contains] using hv
  rw [toList_text]
  exact cut?_append (by decide) hf _

theorem pieces_text {i : Identifier} (h : i.validate = .ok ()) :
    pieces (· == '&') (joined '&' ("type=".toList ++ i.kind.tag.toList) i.segments) =
      ("type=".toList ++ i.kind.tag.toList) :: i.segments := by
  obtain ⟨-, hk, hl, -, -⟩ := validate_eq_ok.1 h
  have hk := not_mem_of_isValidName hk
  have hl := not_mem_of_isValidName hl
  refine pieces_joined (by simpa using hk) fun t ht => ?_
  simp only [segments, List.mem_append, Option.mem_toList, Option.map_eq_some_iff] at ht
  rcases ht with (⟨n, -, rfl⟩ | ht) | ht
  · intro hm
    simp only [List.mem_append] at hm
    rcases hm with hm | hm
    · revert hm; decide
    · have hd := Nat.isDigit_of_mem_toDigits (by decide) (by decide) hm
      revert hd; decide
  · split at ht
    · simp only [List.mem_singleton] at ht
      subst ht; decide
    · simp at ht
  · simp only [List.mem_singleton] at ht
    subst ht
    simpa using hl

theorem takeIndex_eq_ok {id : String} {l r : List (List Char)} {n : Option Nat}
    (h : takeIndex id l = .ok (n, r)) :
    l = (n.map fun k => "index=".toList ++ Nat.toDigits 10 k).toList ++ r := by
  cases l with
  | nil =>
    simp only [takeIndex, Except.ok.injEq, Prod.mk.injEq] at h
    obtain ⟨rfl, rfl⟩ := h
    rfl
  | cons s l =>
    simp only [takeIndex] at h
    split at h
    · simp only [Except.ok.injEq, Prod.mk.injEq] at h
      obtain ⟨rfl, rfl⟩ := h
      rfl
    · next raw hraw =>
      split at h
      · next k hk =>
        simp only [Except.ok.injEq, Prod.mk.injEq] at h
        obtain ⟨rfl, rfl⟩ := h
        rw [after?_eq_some.1 hraw, (canonicalWord?_eq_some.1 hk).1]
        simp
      · contradiction

theorem takeSetup_eq_ok {id : String} {l r : List (List Char)} {b : Bool}
    (h : takeSetup id l = .ok (b, r)) :
    l = (if b then ["setup=true".toList] else []) ++ r := by
  cases l with
  | nil =>
    simp only [takeSetup, Except.ok.injEq, Prod.mk.injEq] at h
    obtain ⟨rfl, rfl⟩ := h
    rfl
  | cons s l =>
    simp only [takeSetup] at h
    split at h
    · split at h
      · next hs =>
        simp only [Except.ok.injEq, Prod.mk.injEq] at h
        obtain ⟨rfl, rfl⟩ := h
        simp [hs]
      · contradiction
    · simp only [Except.ok.injEq, Prod.mk.injEq] at h
      obtain ⟨rfl, rfl⟩ := h
      rfl

theorem takeLanguage_eq_ok {id : String} {l : List (List Char)} {lang : List Char}
    (h : takeLanguage id l = .ok lang) : l = ["lang.".toList ++ lang] := by
  cases l with
  | nil => contradiction
  | cons s l =>
    simp only [takeLanguage] at h
    split at h
    · contradiction
    · next raw hraw =>
      simp only [Except.ok.injEq] at h
      subst h
      rw [after?_eq_some.1 hraw]
    · contradiction

theorem readParts_eq_ok {id : String} {file kind : List Char} {l : List (List Char)}
    {i : Identifier} (h : readParts id file kind l = .ok i) :
    i.validate = .ok () ∧ i.file = String.ofList file ∧ i.kind = .ofTag (String.ofList kind) ∧
      l = i.segments := by
  unfold readParts at h
  cases h₁ : takeIndex id l with
  | error e => simp [h₁, bind, Except.bind] at h
  | ok p =>
    obtain ⟨index, l₁⟩ := p
    cases h₂ : takeSetup id l₁ with
    | error e => simp [h₁, h₂, bind, Except.bind] at h
    | ok p =>
      obtain ⟨setup, l₂⟩ := p
      cases h₃ : takeLanguage id l₂ with
      | error e => simp [h₁, h₂, h₃, bind, Except.bind] at h
      | ok lang =>
        simp only [h₁, h₂, h₃, bind, Except.bind] at h
        split at h
        · contradiction
        · next hv =>
          simp only [pure, Except.pure, Except.ok.injEq] at h
          subst h
          refine ⟨hv, rfl, rfl, ?_⟩
          rw [takeIndex_eq_ok h₁, takeSetup_eq_ok h₂, takeLanguage_eq_ok h₃]
          simp only [segments, String.toList_ofList, List.append_assoc]

theorem parse_eq_ok {s : String} {i : Identifier} (h : parse s = .ok i) :
    i.validate = .ok () ∧ i.kind.IsTag ∧ i.text = s := by
  unfold parse at h
  split at h
  · contradiction
  · next file query hc =>
    split at h
    · contradiction
    · next t l hp =>
      split at h
      · next kind hk =>
        split at h
        · obtain ⟨hv, hf, hi, hl⟩ := readParts_eq_ok h
          refine ⟨hv, hi ▸ Kind.isTag_ofTag _, String.toList_injective ?_⟩
          rw [toList_text, hf, hi, ← hl, eq_of_cut? hc, joined_of_pieces hp,
            after?_eq_some.1 hk]
          simp
        · contradiction
      · contradiction
  · contradiction

theorem compositeOf?_of_parse {name : String} {i : Identifier} (h : parse name = .ok i) :
    compositeOf? name = some i.file := by
  obtain ⟨hv, -, rfl⟩ := parse_eq_ok h
  simp [compositeOf?, cut?_text hv]

theorem takeIndex_segments (id : String) (i : Identifier)
    (hn : ∀ n, i.index = some n → n < wordLimit) :
    takeIndex id i.segments =
      .ok (i.index, (if i.setup then ["setup=true".toList] else []) ++
        ["lang.".toList ++ i.lang.toList]) := by
  cases hi : i.index with
  | none =>
    cases hs : i.setup <;> simp [segments, hi, hs, takeIndex, after?]
  | some n =>
    have hw : canonicalWord? (Nat.toDigits 10 n) = some n := canonicalWord?_eq_some.2 ⟨rfl, hn n hi⟩
    simp only [segments, hi, Option.map_some, Option.toList_some, List.cons_append,
      List.nil_append, takeIndex, after?_append, hw]

theorem takeSetup_segments (id : String) (i : Identifier) :
    takeSetup id ((if i.setup then ["setup=true".toList] else []) ++
      ["lang.".toList ++ i.lang.toList]) = .ok (i.setup, ["lang.".toList ++ i.lang.toList]) := by
  cases hs : i.setup <;> simp [takeSetup, startsWith, after?]

theorem readParts_segments (id : String) (i : Identifier) (kind : List Char)
    (hn : ∀ n, i.index = some n → n < wordLimit) :
    readParts id i.file.toList kind i.segments =
      ({ i with kind := .ofTag (String.ofList kind) } : Identifier).validate.map fun _ =>
        { i with kind := .ofTag (String.ofList kind) } := by
  have hl : takeLanguage id ["lang.".toList ++ i.lang.toList] = .ok i.lang.toList := by
    simp only [takeLanguage, after?_append]
  simp only [readParts, takeIndex_segments id i hn, takeSetup_segments, hl, bind, Except.bind,
    String.ofList_toList]
  cases ({ i with kind := .ofTag (String.ofList kind) } : Identifier).validate <;> rfl

/-- Reading what was written: the identifier comes back with the kind its tag stands for. -/
theorem parse_text_eq {i : Identifier} (h : i.validate = .ok ())
    (hn : ∀ n, i.index = some n → n < wordLimit) :
    parse i.text =
      ({ i with kind := .ofTag i.kind.tag } : Identifier).validate.map fun _ =>
        { i with kind := .ofTag i.kind.tag } := by
  have hk := (validate_eq_ok.1 h).2.1
  simp only [parse, cut?_text h, pieces_text h, after?_append, hk, if_true,
    readParts_segments _ i _ hn, String.ofList_toList]

theorem parse_text {i : Identifier} (h : i.validate = .ok ()) (hk : i.kind.IsTag)
    (hn : ∀ n, i.index = some n → n < wordLimit) : parse i.text = .ok i := by
  rw [parse_text_eq h hn, hk]
  simp [h, Except.map]

theorem segments_injective {i j : Identifier} (h : i.segments = j.segments) :
    i.index = j.index ∧ i.setup = j.setup ∧ i.lang = j.lang := by
  cases hi : i.index <;> cases hj : j.index <;> cases hsi : i.setup <;> cases hsj : j.setup <;>
    simp [segments, hi, hj, hsi, hsj] at h ⊢
  · exact String.toList_injective h
  · exact String.toList_injective h
  · exact ⟨toDigits_injective h.1, String.toList_injective h.2⟩
  · exact ⟨toDigits_injective h.1, String.toList_injective h.2⟩

/-- Two valid identifiers whose kinds come from tags share no name. No bound on the index is
needed for this. -/
theorem text_injective {i j : Identifier} (hi : i.validate = .ok ()) (hj : j.validate = .ok ())
    (ki : i.kind.IsTag) (kj : j.kind.IsTag) (h : i.text = j.text) : i = j := by
  have hc := (cut?_text hi).symm.trans ((congrArg (cut? marker) (congrArg String.toList h)).trans
    (cut?_text hj))
  simp only [Option.some.injEq, Prod.mk.injEq, List.cons.injEq, true_and] at hc
  obtain ⟨hf, hq⟩ := hc
  have hp := (pieces_text hi).symm.trans ((congrArg (pieces (· == '&')) hq).trans (pieces_text hj))
  simp only [List.cons.injEq, List.append_cancel_left_eq] at hp
  obtain ⟨ht, hs⟩ := hp
  obtain ⟨hidx, hset, hlang⟩ := segments_injective hs
  have hkind := Kind.eq_of_tag ki kj (String.toList_injective ht)
  have hfile := String.toList_injective hf
  obtain ⟨fi, kdi, ii, si, li⟩ := i
  obtain ⟨fj, kdj, ij, sj, lj⟩ := j
  simp_all

/-- The canonical form is a bijection. Indices are machine words. -/
theorem parse_text_bijection :
    (∀ (s : String) (i : Identifier), parse s = .ok i →
      i.validate = .ok () ∧ i.slot?.isSome = true ∧ i.text = s) ∧
    ∀ i : Identifier, i.validate = .ok () → (∀ n, i.index = some n → n < wordLimit) →
      (parse i.text = .ok i ↔
        ¬∃ n, i.kind = .custom n ∧ (n = "template" ∨ n = "script" ∨ n = "style")) := by
  refine ⟨fun s i h => ?_, fun i hv hn => ⟨fun h => ?_, fun h => ?_⟩⟩
  · obtain ⟨hv, -, ht⟩ := parse_eq_ok h
    exact ⟨hv, isSome_slot?_of_validate hv, ht⟩
  · obtain ⟨-, hk, -⟩ := parse_eq_ok h
    rintro ⟨n, hc, hn⟩
    have := Kind.isTag_iff.1 hk n hc
    grind
  · refine parse_text hv (Kind.isTag_iff.2 fun n hc => ?_) hn
    grind

/-- A custom block called `style` has a name, but the name is read as that of a style. -/
theorem parse_text_bijection_style :
    parse (⟨"a.vue", .custom "docs", some 7, false, "md"⟩ : Identifier).text =
        .ok ⟨"a.vue", .custom "docs", some 7, false, "md"⟩ ∧
      parse (⟨"a.vue", .custom "style", some 7, false, "css"⟩ : Identifier).text ≠
        .ok ⟨"a.vue", .custom "style", some 7, false, "css"⟩ := by
  refine ⟨(parse_text_bijection.2 _ rfl ?_).2 (by simp), fun h => ?_⟩
  · simp [wordLimit]
  · exact (parse_text_bijection.2 _ rfl (by simp [wordLimit])).1 h ⟨"style", rfl, by simp⟩

end Identifier

end BlockLens
