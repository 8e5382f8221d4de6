import BlockLens.Proofs.Template.Render

set_option autoImplicit false

namespace BlockLens

def Span.Tiles : Nat → Nat → List Span → Prop
  | a, b, [] => a = b
  | a, b, s :: l => s.start = a ∧ a < s.stop ∧ Tiles s.stop b l

theorem SourceMap.Follows.pairwise {g a : Nat} {l : List Segment} (h : Follows g a l) :
    l.Pairwise fun x y => x.generated.stop ≤ y.generated.start ∧ x.source.stop ≤ y.source.start := by
  induction l generalizing g a with
  | nil => exact List.Pairwise.nil
  | cons s l ih =>
    obtain ⟨-, -, hl⟩ := h
    refine List.pairwise_cons.2 ⟨fun t ht => ?_, ih hl⟩
    have hb := (hl.of_mem ht).1
    exact ⟨hb.generated, hb.source⟩

namespace Template

open Text SourceMap

/-- A text that begins at `o`, with excerpts of it, and the same text with `w` put before each of
them: taking every such `w` away again gives back the text. -/
inductive Woven (w : List Char) : Nat → List Excerpt → List Char → List Char → Prop
  | rest (o : Nat) (t : List Char) : Woven w o [] t t
  | name {o : Nat} {gap n t t' : List Char} {es : List Excerpt}
      (h : Woven w (o + width gap + width n) es t t') :
      Woven w o (⟨o + width gap, n⟩ :: es) (gap ++ n ++ t) (gap ++ w ++ n ++ t')

theorem woven_routed (o o' : Nat) (tail : List Char) (names : List (List Char × List Char)) :
    Woven (table ++ ['.']) o (place o names) (Split.text ⟨names, tail⟩)
      (texts (routed o' tail names)) := by
  induction names generalizing o o' with
  | nil => simpa [place, Split.text, routed, Piece.text] using Woven.rest o tail
  | cons n names ih =>
    obtain ⟨gap, n⟩ := n
    have h : Woven (table ++ ['.']) o (⟨o + width gap, n⟩ :: place _ names) (gap ++ n ++ _) _ :=
      .name (ih _ (o' + width gap + width n))
    simpa only [place, text_cons, routed, texts_cons, Piece.text, List.append_assoc] using h

def woven (e : Excerpt) : List Char :=
  texts (routed e.start (split e.text).tail (split e.text).names)

theorem texts_statement (e : Excerpt) :
    texts (statement e) = "  (".toList ++ woven e ++ ");\n".toList := by
  simp [statement, woven, Piece.text]

theorem texts_flatMap_statement (es : List Excerpt) :
    texts (es.flatMap statement) =
      es.flatMap fun e => "  (".toList ++ woven e ++ ");\n".toList := by
  induction es with
  | nil => rfl
  | cons e es ih => rw [List.flatMap_cons, texts_append, texts_statement, ih, List.flatMap_cons]

theorem woven_identifiers (e : Excerpt) :
    Woven (table ++ ['.']) 0 (identifiers (.ofList e.text)) e.text (woven e) := by
  have h := woven_routed 0 e.start (split e.text).tail (split e.text).names
  rw [text_split] at h
  rwa [identifiers, String.toList_ofList]

theorem tiles_copied {a b g : Nat} {s : List Char} {r : List Piece}
    (h : Span.Tiles (a + width s) b ((segments (g + width s) r).map (·.source))) :
    Span.Tiles a b ((segments g (.copied a s :: r)).map (·.source)) := by
  by_cases hs : s = []
  · subst hs
    simpa [segments, width] using h
  · have hpos := width_pos hs
    simp only [segments, List.isEmpty_iff, hs, if_false, List.map_cons]
    exact ⟨rfl, by simp only; omega, h⟩

theorem tiles_routed (g o : Nat) (tail : List Char) (names : List (List Char × List Char)) :
    Span.Tiles o (o + width (Split.text ⟨names, tail⟩))
      ((segments g (routed o tail names)).map (·.source)) := by
  induction names generalizing g o with
  | nil => exact tiles_copied (by simp [segments, Span.Tiles, Split.text])
  | cons n names ih =>
    obtain ⟨gap, n⟩ := n
    rw [routed]
    refine tiles_copied ?_
    rw [segments]
    refine tiles_copied ?_
    simpa only [text_cons, width_append, Nat.add_assoc] using ih _ (o + width gap + width n)

theorem tiles_statement (g : Nat) (e : Excerpt) :
    Span.Tiles e.span.start e.span.stop ((segments g (statement e)).map (·.source)) := by
  have h := tiles_routed (g + width "  (".toList) e.start (split e.text).tail (split e.text).names
  rw [text_split] at h
  simpa [statement, segments, segments_append, Excerpt.span] using h

theorem source_of_mem_segments {g : Nat} {es : List Excerpt} {x : Segment}
    (hx : x ∈ segments g (es.flatMap statement)) :
    x.source.start < x.source.stop ∧
      ∃ e ∈ es, e.span.start ≤ x.source.start ∧ x.source.stop ≤ e.span.stop := by
  obtain ⟨l, a, t, r, hbody, ht, rfl⟩ := mem_segments hx
  have hmem : Piece.copied a t ∈ es.flatMap statement := by simp [hbody]
  obtain ⟨e, he, hmem⟩ := List.mem_flatMap.1 hmem
  obtain ⟨u, v, htext, rfl⟩ := copied_of_mem_routed (mem_statement.1 hmem)
  rw [text_split] at htext
  have hpos := width_pos ht
  have hw := congrArg width htext
  rw [width_append, width_append] at hw
  refine ⟨by simp only; omega, e, he, ?_, ?_⟩
  · simp [Excerpt.span]
  · simp only [Excerpt.span]
    omega

theorem Stands.pairwise {o : Nat} {s : List Char} {es : List Excerpt} (h : Stands o s es) :
    es.Pairwise fun a b => a.span.stop ≤ b.span.start :=
  h.apart.imp Nat.le_of_lt

def holds (e : Excerpt) (x : Segment) : Bool :=
  e.span.start ≤ x.source.start && x.source.stop ≤ e.span.stop

theorem filter_segments_eq_nil {g : Nat} {e : Excerpt} {es : List Excerpt}
    (h : ∀ d ∈ es, d.span.stop ≤ e.span.start ∨ e.span.stop ≤ d.span.start) :
    (segments g (es.flatMap statement)).filter (holds e) = [] := by
  refine List.filter_eq_nil_iff.2 fun x hx => ?_
  obtain ⟨hne, d, hd, hstart, hstop⟩ := source_of_mem_segments hx
  have hcase := h d hd
  simp only [holds, Bool.and_eq_true, decide_eq_true_eq]
  omega

theorem filter_segments_self (g : Nat) (e : Excerpt) :
    (segments g (statement e)).filter (holds e) = segments g (statement e) := by
  refine List.filter_eq_self.2 fun x hx => ?_
  have hone : x ∈ segments g ([e].flatMap statement) := by simpa using hx
  obtain ⟨-, d, hd, hstart, hstop⟩ := source_of_mem_segments hone
  rw [List.mem_singleton.1 hd] at hstart hstop
  simp only [holds, Bool.and_eq_true, decide_eq_true_eq]
  exact ⟨hstart, hstop⟩

/-- The segments that lie in an expression are those of its line, and tile it. -/
theorem tiles_filter {es : List Excerpt} (h : es.Pairwise fun a b => a.span.stop ≤ b.span.start)
    {e : Excerpt} (he : e ∈ es) (g : Nat) :
    Span.Tiles e.span.start e.span.stop
      (((segments g (es.flatMap statement)).filter (holds e)).map (·.source)) := by
  obtain ⟨l, r, rfl⟩ := List.append_of_mem he
  obtain ⟨-, hr, hlr⟩ := List.pairwise_append.1 h
  obtain ⟨her, -⟩ := List.pairwise_cons.1 hr
  have hbefore : ∀ d ∈ l, d.span.stop ≤ e.span.start ∨ e.span.stop ≤ d.span.start :=
    fun d hd => .inl (hlr d hd e List.mem_cons_self)
  have hafter : ∀ d ∈ r, d.span.stop ≤ e.span.start ∨ e.span.stop ≤ d.span.start :=
    fun d hd => .inr (her d hd)
  rw [List.flatMap_append, List.flatMap_cons, segments_append, segments_append, List.filter_append,
    List.filter_append, filter_segments_eq_nil hbefore, filter_segments_eq_nil hafter,
    filter_segments_self, List.nil_append, List.append_nil]
  exact tiles_statement _ e

structure Faithful (content : String) (scriptImport : Option String) (out : Output)
    (m : SourceMap) : Prop where
  mapping : out.mapping = .segments m
  copies : ∀ s ∈ m.segments, s.IsCopy ∧ Copies content.toList out.code.toList s
  ordered : m.segments.Pairwise fun x y =>
    x.generated.stop ≤ y.generated.start ∧ x.source.stop ≤ y.source.start
  within : ∀ s ∈ m.segments, ∃ e ∈ expressions content, holds e s = true
  tiles : ∀ e ∈ expressions content,
    Span.Tiles e.span.start e.span.stop ((m.segments.filter (holds e)).map (·.source))
  sorted : (expressions content).Pairwise fun a b => a.span.stop ≤ b.span.start
  body : ∃ line : Excerpt → List Char,
    out.code.toList = header scriptImport ++ tableText (usedNames (expressions content)) ++ opening ++
      (expressions content).flatMap (fun e => "  (".toList ++ line e ++ ");\n".toList) ++ closing ∧
    ∀ e ∈ expressions content,
      Woven "__TemplateGlobals.".toList 0 (identifiers (.ofList e.text)) e.text (line e)

theorem faithful_render (content : String) (scriptImport : Option String) :
    ∃ m, Faithful content scriptImport (render (expressions content) scriptImport) m := by
  have hst := stands_expressions content
  obtain ⟨m, hm⟩ := maps_render content scriptImport
  obtain ⟨g, hf⟩ := hm.follows
  obtain ⟨k, hmap⟩ : ∃ k, m.segments = segments k ((expressions content).flatMap statement) := by
    have h := hm.mapping
    simp only [render, Mapping.segments.injEq] at h
    exact ⟨_, by rw [← h]⟩
  refine ⟨m, hm.mapping, fun s hs => ⟨(hf.of_mem hs).2, hm.copies s hs⟩, hf.pairwise, fun s hs => ?_,
    fun e he => ?_, hst.pairwise, woven, ?_, fun e _ => woven_identifiers e⟩
  · rw [hmap] at hs
    obtain ⟨-, e, he, hstart, hstop⟩ := source_of_mem_segments hs
    exact ⟨e, he, by simp only [holds, hstart, hstop, decide_true, Bool.and_self]⟩
  · rw [hmap]
    exact tiles_filter hst.pairwise he k
  · rw [← texts_flatMap_statement]
    simp [render, texts]

/-- Every template in a language that can be rendered is rendered faithfully. -/
theorem run_faithful (b : Block) (c : Context) (h : b.language = "html" ∨ b.language = "vue-html") :
    ∃ out m, transformer.run b c = .ok out ∧ Faithful b.content c.scriptImport out m := by
  obtain ⟨m, hm⟩ := faithful_render b.content c.scriptImport
  refine ⟨_, m, ?_, hm⟩
  have hl : (b.language = "html" || b.language = "vue-html") = true := by simpa using h
  simp only [transformer, run, hl, if_true]

theorem run_faithful_bound :
    let b : Block :=
      { kind := .template, attrs := .ofList [], span := ⟨10, 41⟩
        content := "<p :a='é+b'>\x7b\x7b x.y(\"z\") \x7d\x7d</p>" }
    let c : Context := ⟨"Foo.vue", .template, none⟩
    b.language = "vue-html" ∧
      ∃ out m, transformer.run b c = .ok out ∧ Faithful b.content c.scriptImport out m :=
  ⟨rfl, run_faithful _ _ (.inr rfl)⟩

end Template

end BlockLens
