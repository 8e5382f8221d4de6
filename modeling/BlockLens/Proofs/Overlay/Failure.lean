import BlockLens.Proofs.Overlay.Files
import BlockLens.Proofs.Text
import BlockLens.Transform.Builtin
/-!
A failure read as a comment. The message is put between the signs of a comment as it is, so the
comment is closed before its end exactly if the message has the closing sign; of the messages of
the two transformers only that about the language of a template can have it, from the attribute.
-/

set_option autoImplicit false

namespace BlockLens

open Text

def closingSign : List Char := ['*', '/']

/-- One comment and nothing else: what closes it stands at the end and nowhere before. -/
def IsComment (s : List Char) : Prop :=
  (∃ body, s = ['/', '*'] ++ body ++ closingSign) ∧
    ∀ p q, s = p ++ closingSign ++ q → q = []

theorem exists_of_append_eq {a s p r : List Char} (ha : '*' ∉ a)
    (h : a ++ s = p ++ '*' :: r) : ∃ p', p = a ++ p' ∧ s = p' ++ '*' :: r := by
  rcases List.append_eq_append_iff.1 h with ⟨p', hp, hs⟩ | ⟨c, ha', hr⟩
  · exact ⟨p', hp, hs⟩
  · cases c with
    | nil => exact ⟨[], by simpa using ha'.symm, by simpa using hr.symm⟩
    | cons x c =>
      simp only [List.cons_append, List.cons.injEq] at hr
      exact absurd (ha' ▸ by simp [← hr.1]) ha

/-- A sign that begins in the text `s` ends in it if the next text does not go on with its second
character; otherwise it begins behind `s`. -/
theorem sign_cases {s b p q : List Char} {c : Char} (hc : c ≠ '/')
    (h : s ++ c :: b = p ++ closingSign ++ q) :
    contains closingSign s = true ∨ ∃ p', c :: b = p' ++ closingSign ++ q := by
  rw [List.append_assoc] at h
  rcases List.append_eq_append_iff.1 h with ⟨p', hp, hb⟩ | ⟨t, hs, hb⟩
  · exact .inr ⟨p', by rw [hb, List.append_assoc]⟩
  · match t with
    | [] => exact .inr ⟨[], by simpa using hb.symm⟩
    | [x] =>
      simp only [closingSign, List.cons_append, List.nil_append, List.cons.injEq] at hb
      exact absurd hb.2.1.symm hc
    | x :: y :: t =>
      simp only [closingSign, List.cons_append, List.nil_append, List.cons.injEq] at hb
      obtain ⟨rfl, rfl, -⟩ := hb
      exact .inl (contains_eq_true.2 ⟨p, t, by simpa [closingSign] using hs⟩)

theorem sign_between {a s b p q : List Char} {c : Char} (ha : '*' ∉ a) (hc : c ≠ '/')
    (h : a ++ s ++ c :: b = p ++ closingSign ++ q) :
    contains closingSign s = true ∨ ∃ p', c :: b = p' ++ closingSign ++ q := by
  rw [List.append_assoc, List.append_assoc] at h
  obtain ⟨p', -, hs⟩ := exists_of_append_eq (r := '/' :: q) ha h
  exact sign_cases (p := p') hc (by simpa [closingSign] using hs)

theorem contains_sign_between {a s b : List Char} {c : Char} (ha : '*' ∉ a) (hb : '*' ∉ c :: b)
    (hc : c ≠ '/') :
    contains closingSign (a ++ s ++ c :: b) = true ↔ contains closingSign s = true := by
  constructor
  · intro h
    obtain ⟨p, q, hpq⟩ := contains_eq_true.1 h
    rcases sign_between ha hc hpq with h | ⟨p', hp'⟩
    · exact h
    · exact absurd (hp' ▸ by simp [closingSign]) hb
  · intro h
    obtain ⟨p, q, rfl⟩ := contains_eq_true.1 h
    exact contains_eq_true.2 ⟨a ++ p, q ++ c :: b, by simp⟩

theorem toList_errorComment (message : String) :
    (Render.errorComment message).toList =
      '/' :: '*' :: ("\nError: ".toList ++ message.toList ++ '\n' :: closingSign) := by
  have hparts : Render.errorComment message = "/*\nError: " ++ message ++ "\n*/" := rfl
  rw [hparts, String.toList_append, String.toList_append]
  simp [closingSign]

theorem isComment_errorComment (message : String) :
    IsComment (Render.errorComment message).toList ↔
      contains closingSign message.toList = false := by
  rw [toList_errorComment]
  constructor
  · rintro ⟨-, hlast⟩
    cases h : contains closingSign message.toList with
    | false => rfl
    | true =>
      obtain ⟨p, q, hpq⟩ := contains_eq_true.1 h
      have hend := hlast ('/' :: '*' :: ("\nError: ".toList ++ p)) (q ++ '\n' :: closingSign)
        (by rw [hpq]; simp)
      simp at hend
  · intro hfree
    refine ⟨⟨"\nError: ".toList ++ message.toList ++ ['\n'], by simp [closingSign]⟩, ?_⟩
    intro p q hpq
    -- the sign that opens the comment closes none
    have hbody : ∃ p', "\nError: ".toList ++ message.toList ++ '\n' :: closingSign =
        p' ++ closingSign ++ q := by
      match p with
      | [] => simp [closingSign] at hpq
      | [x] => simp [closingSign] at hpq
      | x :: y :: p =>
        simp only [List.cons_append, List.cons.injEq] at hpq
        exact ⟨p, hpq.2.2⟩
    obtain ⟨p', hp'⟩ := hbody
    have hnewline : '\n' ≠ '/' := by decide
    rcases sign_between (by decide) hnewline hp' with h | ⟨t, ht⟩
    · rw [hfree] at h
      contradiction
    · match t with
      | [] => simp [closingSign] at ht
      | [x] =>
        simp only [closingSign, List.cons_append, List.nil_append, List.cons.injEq] at ht
        exact ht.2.2.2.symm
      | [x, y] => simp [closingSign] at ht
      | x :: y :: z :: t =>
        have hlen := congrArg List.length ht
        simp only [closingSign, List.length_cons, List.length_nil, List.length_append] at hlen
        omega

def Failure (b : Block) (e : TransformError) : Prop :=
  b.kind.tag = "template" ∧ b.language ≠ "html" ∧ b.language ≠ "vue-html" ∧
      e = .unsupportedLanguage "template" b.language ∨
    b.kind.tag = "script" ∧ b.attrs.contains "src" = true ∧ isVoid b.content.toList = false ∧
      e = .malformedAttribute "src" "a script with `src` must not have inline content"

theorem Template.run_eq_error {b : Block} {c : Context} {e : TransformError} :
    Template.run b c = .error e ↔ b.language ≠ "html" ∧ b.language ≠ "vue-html" ∧
      e = .unsupportedLanguage b.kind.tag b.language := by
  unfold Template.run
  split
  · next h =>
    simp only [Bool.or_eq_true, decide_eq_true_eq] at h
    simp only [reduceCtorEq, false_iff]
    rintro ⟨h₁, h₂, -⟩
    exact h.elim h₁ h₂
  · next h =>
    simp only [Bool.or_eq_true, decide_eq_true_eq, not_or] at h
    simp [h, eq_comm]

theorem Script.run_eq_error {b : Block} {e : TransformError} :
    Script.run b = .error e ↔ b.attrs.contains "src" = true ∧ isVoid b.content.toList = false ∧
      e = .malformedAttribute "src" "a script with `src` must not have inline content" := by
  unfold Script.run
  split
  · next h =>
    simp only [Bool.and_eq_true, Bool.not_eq_true'] at h
    simp [h, eq_comm]
  · next h =>
    simp only [Bool.and_eq_true, Bool.not_eq_true'] at h
    simp only [reduceCtorEq, false_iff]
    rintro ⟨h₁, h₂, -⟩
    exact h ⟨h₁, h₂⟩

theorem Registry.get?_builtin (k : Kind) : Registry.builtin.get? k =
    if k.tag = "template" then some Template.transformer
    else if k.tag = "script" then some Script.transformer else none := rfl

theorem failure_of_generate {d : BlockDocument} {b : Block} {e : TransformError}
    (hd : d.transformer = Registry.builtin.get? b.kind) (h : d.generate b = .error e) :
    Failure b e := by
  have hmap : ∀ r : Except TransformError Output, r.map some = .error e → r = .error e := by
    intro r hr
    cases r with
    | error x => simpa [Except.map] using hr
    | ok out => simp [Except.map] at hr
  unfold BlockDocument.generate at h
  rw [hd, Registry.get?_builtin] at h
  by_cases htemplate : b.kind.tag = "template"
  · rw [if_pos htemplate] at h
    obtain ⟨h₁, h₂, rfl⟩ := Template.run_eq_error.1 (hmap _ h)
    exact .inl ⟨htemplate, h₁, h₂, by rw [htemplate]⟩
  · rw [if_neg htemplate] at h
    by_cases hscript : b.kind.tag = "script"
    · rw [if_pos hscript] at h
      obtain ⟨h₁, h₂, rfl⟩ := Script.run_eq_error.1 (hmap _ h)
      exact .inr ⟨hscript, h₁, h₂, rfl⟩
    · rw [if_neg hscript] at h
      contradiction

/-- The message closes a comment if and only if the language of a template does. -/
theorem Failure.contains_message {b : Block} {e : TransformError} (h : Failure b e) :
    contains closingSign e.message.toList = true ↔
      b.kind.tag = "template" ∧ contains closingSign b.language.toList = true := by
  rcases h with ⟨htag, -, -, rfl⟩ | ⟨htag, -, -, rfl⟩
  · have hmessage : (TransformError.unsupportedLanguage "template" b.language).message.toList =
        ['`'] ++ b.language.toList ++ '`' :: " is not supported for `template` blocks".toList := by
      have hparts : (TransformError.unsupportedLanguage "template" b.language).message =
          "`" ++ b.language ++ "` is not supported for `" ++ "template" ++ "` blocks" := rfl
      rw [hparts]
      simp
    rw [hmessage, contains_sign_between (by decide) (by decide) (by decide)]
    exact ⟨fun h => ⟨htag, h⟩, fun h => h.2⟩
  · have hfree : contains closingSign (TransformError.malformedAttribute "src"
        "a script with `src` must not have inline content").message.toList = false := by decide
    simp [hfree, htag]

namespace Workspace

variable {w : Workspace} {L : Nat → Ledger}

theorem Sound.transformer_of_documentById (h : w.Sound L) {name : String} {i : Identifier}
    (hk : FileKind.classify name = .block i) {x : Handle}
    (hx : (w.documentById i.file name).1 = .ok (some x)) :
    x.doc.transformer =
      w.options.registry.get? ((w.documentById i.file name).2.entryOf x).block.kind := by
  obtain ⟨L', -, hsound, -⟩ := h.documentById i.file name
  cases hn : w.get? i.file with
  | none =>
    unfold Workspace.documentById at hx
    simp [hn] at hx
  | some n =>
    obtain ⟨d, hd, hfile, halive⟩ := h.file_of_get? hn
    obtain ⟨s, -, hby⟩ := Document.documentById_of_parse (o := w.options)
      (FileKind.parse_of_classify hk) hfile.symm
    have hfound := documentById_eq hn hd hby
    rw [hfound] at hx hsound ⊢
    simp only [Except.ok.injEq, Option.map_eq_some_iff] at hx
    obtain ⟨b, hb, rfl⟩ := hx
    have hd' := document?_put_self hd (d.blockDocument w.options s).2
    have hc := hsound.document_consistent hd'
    rw [options_put] at hc
    have hlive := Document.mem_live_blockDocument hb
    obtain ⟨a, ha, -⟩ := hc.current b hlive
    obtain ⟨e, -, he, -, -⟩ := (Composite.anew_eq_some _).1 ha
    have hentry : (w.put n (d.blockDocument w.options s).2).entryOf ⟨n, b⟩ = e := by
      rw [entryOf_eq (by rwa [isAlive_put]) hd']
      simp only [BlockDocument.current, Option.bind_some, he, Option.getD_some]
    rw [hentry, hc.kinded.kind_eq he]
    exact hc.transformer_of_live hlive

end Workspace

namespace HandedOverlay

/-- In every state that commands lead to, and for every block whose text cannot be generated: what
is read of it is the message between the signs of a comment, the message is that about the language
of a template or about the source of a script, and it is one comment if and only if the block is
not a template with the closing sign in its language. -/
theorem failure_read_as_comment (parser : String → Parsed) (runtime : Option String)
    (commands : List Command) (host : Host) (name : String) (i : Identifier) (x : Handle)
    (e : TransformError) :
    let ov := ((start ⟨parser, .builtin, runtime⟩).run commands).overlay
    let found := ov.workspace.documentById i.file name
    let view := (found.2.look x).1
    FileKind.classify name = .block i → found.1 = .ok (some x) → view.generated = .error e →
    Failure view.block e ∧
    ∃ text, (ov.read host name).1 = some text ∧ text = "/*\nError: " ++ e.message ++ "\n*/" ∧
      (IsComment text.toList ↔
        ¬ (view.block.kind.tag = "template" ∧
          contains closingSign view.block.language.toList = true)) := by
  intro ov found view hk hx hfail
  obtain ⟨L, ⟨hsound, -⟩, -⟩ := (sound_start ⟨parser, .builtin, runtime⟩).run commands
  have hoptions : ov.workspace.options = ⟨parser, .builtin, runtime⟩ := options_run _ commands
  obtain ⟨L', -, hfound, hdocs⟩ := hsound.documentById i.file name
  have hview : view = View.ofBlock x.doc (found.2.entryOf x).block := hfound.look_eq (hdocs x hx)
  have htransformer := hsound.transformer_of_documentById hk hx
  rw [hoptions] at htransformer
  have hfailure : Failure view.block e := by
    rw [hview] at hfail ⊢
    exact failure_of_generate htransformer hfail
  refine ⟨hfailure, Render.errorComment e.message, ?_, rfl, ?_⟩
  · have hread : (Overlay.readBlock i.file name ov.workspace).1 =
        some (Render.errorComment e.message) := by
      have hpair : ov.workspace.documentById i.file name = (.ok (some x), found.2) :=
        Prod.ext hx rfl
      simp only [Overlay.readBlock, hpair]
      exact congrArg (Render.generated · _) hfail
    simp only [Overlay.read, hk, Overlay.withWorkspace, hread]
  · rw [isComment_errorComment, ← hfailure.contains_message, Bool.not_eq_true]

/-- A template whose language closes the comment of its own failure. -/
theorem failure_read_as_comment_closed_early :
    let ov := ((start .default).run
      [.openText "/src/Foo.vue" "<template lang=\"*/\"></template>" 1]).overlay
    let host : Host := ⟨fun _ => false, fun _ => .error []⟩
    let name := "/src/Foo.vue?vue&type=template&lang.tsx"
    let found := ov.workspace.documentById "/src/Foo.vue" name
    ∃ i x text, FileKind.classify name = .block i ∧ found.1 = .ok (some x) ∧
      (found.2.look x).1.generated = .error (.unsupportedLanguage "template" "*/") ∧
      (ov.read host name).1 = some text ∧
      text = "/*\nError: `*/` is not supported for `template` blocks\n*/" ∧
      ¬ IsComment text.toList := by
  intro ov host name found
  have hk : FileKind.classify name = .block ⟨"/src/Foo.vue", .template, none, false, "tsx"⟩ := by
    decide +kernel
  have hsome : found.1.toOption.join.isSome = true := by decide +kernel
  have hview : ∀ x ∈ found.1.toOption.join,
      (found.2.look x).1.block.kind.tag = "template" ∧
        (found.2.look x).1.block.language = "*/" ∧
        (found.2.look x).1.generated = .error (.unsupportedLanguage "template" "*/") := by
    decide +kernel
  obtain ⟨x, hx⟩ := Option.isSome_iff_exists.1 hsome
  obtain ⟨htag, hlang, hfail⟩ := hview x hx
  have hfound : found.1 = .ok (some x) := by
    revert hx
    cases found.1 <;> simp [Except.toOption]
  obtain ⟨-, text, hread, htext, hcomment⟩ := failure_read_as_comment Markup.split
    (some "vue-virtual-docs~runtime") _ host name _ x _ hk hfound hfail
  refine ⟨_, x, text, hk, hfound, hfail, hread, htext.trans (by decide +kernel), fun h => ?_⟩
  have hclosing : contains closingSign (found.2.look x).1.block.language.toList = true := by
    rw [hlang]
    decide
  exact hcomment.1 h ⟨htag, hclosing⟩

end HandedOverlay

end BlockLens
