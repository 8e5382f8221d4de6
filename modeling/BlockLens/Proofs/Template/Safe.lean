import BlockLens.Proofs.Template.Regions
import BlockLens.Proofs.Template.Scanner
import BlockLens.Proofs.Template.WordScanner

set_option autoImplicit false

namespace BlockLens.Template

open Text

structure Draft where
  code : List Char := []
  segments : List Segment := []
  zones : List Zone := []
  bindings : List Binding := []

namespace Draft

def push (d : Draft) (s : List Char) : Draft := { d with code := d.code ++ s }

def zone (d : Draft) (kind : ZoneKind) (start : Nat) : Draft :=
  { d with zones := d.zones ++ [⟨kind, ⟨start, width d.code⟩⟩] }

def scaffold (d : Draft) (s : List Char) : Draft := (d.push s).zone .ignored (width d.code)

def copy? (t : List Char) (i j : Nat) (d : Draft) : Option Draft :=
  if j ≤ i then some d
  else do
    let s ← slice? t i j
    let d' := d.push s
    return { d' with segments := d.segments ++ [⟨⟨width d.code, width d'.code⟩, ⟨i, j⟩⟩] }

def row (d : Draft) (name : List Char) : Draft :=
  let start := d.push "  ".toList
  let key := start.push name
  let target := key.push ": __ctx.".toList
  let d' := (target.push name).push ",\n".toList
  { d' with bindings := d.bindings ++ [⟨⟨width start.code, width key.code⟩, width target.code⟩] }

def globals (d : Draft) (names : List (List Char)) : Draft :=
  ((names.foldl row (d.push tableHead)).push tableFoot).zone .templateGlobals (width d.code)

def routed? (t : List Char) (stop : Nat) : Nat → List Span → Draft → Option Draft
  | i, [], d => d.copy? t i stop
  | i, r :: rs, d => do
    let d ← d.copy? t i r.start
    let d ← ((d.push table).push ['.']).copy? t r.start r.stop
    routed? t stop r.stop rs d

def statement? (t : List Char) (d : Draft) (e : Span × List Span) : Option Draft := do
  let d ← routed? t e.1.stop e.1.start e.2 (d.push "  (".toList)
  return d.push ");\n".toList

def output (d : Draft) : Output where
  code := String.ofList d.code
  lang := "tsx"
  mapping := .segments ⟨d.segments⟩
  zones := d.zones
  bindings := d.bindings

end Draft

def identifiersIn? (t : List Char) (e : Span) : Option (List Span) := do
  let s ← slice? t e.start e.stop
  let found ← scanIdentifiers (String.ofList s)
  return found.map fun r => ⟨r.start + e.start, r.stop + e.start⟩

def build? (t : List Char) (es : List Span) (scriptImport : Option String) : Option Output := do
  let found ← es.mapM (identifiersIn? t)
  let names ← found.flatten.mapM fun r => slice? t r.start r.stop
  let head := (({} : Draft).scaffold (header scriptImport)).globals names.eraseDups
  let body ← (es.zip found).foldlM (Draft.statement? t) (head.scaffold opening)
  return (body.scaffold closing).output

def transform? (b : Block) (c : Context) : Option (Except TransformError Output) :=
  if b.language = "html" || b.language = "vue-html" then do
    let es ← scanExpressions b.content
    let out ← build? b.content.toList es c.scriptImport
    return .ok out
  else some (.error (.unsupportedLanguage b.kind.tag b.language))

def Lies (t : List Char) (e : Excerpt) : Prop :=
  ∃ p q, t = p ++ e.text ++ q ∧ e.start = width p

def foundIn (e : Excerpt) : List Span := (place e.start (split e.text).names).map Excerpt.span

namespace Draft

def add (d : Draft) (ps : List Piece) : Draft :=
  { d with
    code := d.code ++ texts ps
    segments := d.segments ++ Template.segments (width d.code) ps }

theorem add_append (d : Draft) (ps qs : List Piece) : d.add (ps ++ qs) = (d.add ps).add qs := by
  simp [add, segments_append]

theorem add_made (d : Draft) (s : List Char) : d.add [.made s] = d.push s := by
  simp [add, push, Piece.text, Template.segments]

theorem add_nil (d : Draft) : d.add [] = d := by simp [add, Template.segments]

theorem push_push (d : Draft) (s s' : List Char) : (d.push s).push s' = d.push (s ++ s') := by
  simp [push]

variable {t p s q : List Char}

theorem copy?_eq (d : Draft) (h : t = p ++ s ++ q) :
    d.copy? t (width p) (width p + width s) = some (d.add [.copied (width p) s]) := by
  subst h
  rw [copy?]
  by_cases hs : s = []
  · subst hs
    simp [add, Template.segments, Piece.text, width]
  · have hpos := width_pos hs
    rw [if_neg (by omega), slice?_middle]
    simp [add, push, Template.segments, Piece.text, hs]

theorem routed?_eq (d : Draft) (names : List (List Char × List Char)) (tail : List Char)
    (h : t = p ++ Split.text ⟨names, tail⟩ ++ q) :
    routed? t (width p + width (Split.text ⟨names, tail⟩)) (width p)
        ((place (width p) names).map Excerpt.span) d =
      some (d.add (routed (width p) tail names)) := by
  induction names generalizing p d with
  | nil => exact d.copy?_eq h
  | cons n names ih =>
    obtain ⟨gap, w⟩ := n
    rw [text_cons] at h ⊢
    generalize hrest : Split.text ⟨names, tail⟩ = rest at h ⊢
    have hgap := d.copy?_eq (t := t) (p := p) (s := gap) (q := w ++ rest ++ q) (by simp [h])
    have hword := ((d.add [.copied (width p) gap]).push (table ++ ['.'])).copy?_eq (t := t)
      (p := p ++ gap) (s := w) (q := rest ++ q) (by simp [h])
    have hlater := ih (p := p ++ gap ++ w)
      (((d.add [.copied (width p) gap]).push (table ++ ['.'])).add [.copied (width (p ++ gap)) w])
      (by simp [h, hrest])
    rw [hrest] at hlater
    simp only [width_append] at hword hlater
    simp only [place, List.map_cons, routed?, Excerpt.span, hgap, bind, Option.bind_some, push_push,
      hword, width_append]
    have hstop : width p + (width gap + (width w + width rest)) =
        width p + width gap + width w + width rest := by omega
    rw [hstop, hlater, ← add_made, ← add_append, ← add_append, ← add_append]
    rfl

theorem statement?_eq (d : Draft) {e : Excerpt} (h : Lies t e) :
    statement? t d (e.span, foundIn e) = some (d.add (statement e)) := by
  obtain ⟨p, q, ht, hstart⟩ := h
  have hrouted := routed?_eq (t := t) (p := p) (q := q) (d.push "  (".toList) (split e.text).names
    (split e.text).tail (by rw [text_split, ht])
  rw [text_split] at hrouted
  simp only [statement?, foundIn, Excerpt.span, hstart, hrouted, bind, Option.bind_some]
  rw [← add_made, ← add_made, ← add_append, ← add_append, statement, hstart]
  rfl

theorem foldlM_statement? (d : Draft) {es : List Excerpt} (h : ∀ e ∈ es, Lies t e) :
    (es.map fun e => (e.span, foundIn e)).foldlM (statement? t) d =
      some (d.add (es.flatMap statement)) := by
  induction es generalizing d with
  | nil => rw [List.flatMap_nil, add_nil]; rfl
  | cons e es ih =>
    rw [List.map_cons, List.foldlM_cons, statement?_eq d (h e List.mem_cons_self),
      List.flatMap_cons, add_append]
    exact ih _ fun e' he' => h e' (List.mem_cons_of_mem _ he')

theorem foldl_row (d : Draft) (names : List (List Char)) :
    names.foldl row d =
      { d with
        code := d.code ++ names.flatMap Template.row
        bindings := d.bindings ++ tableBindings (width d.code) names } := by
  induction names generalizing d with
  | nil => simp [tableBindings]
  | cons n names ih =>
    rw [List.foldl_cons, ih]
    have hspace : width "  ".toList = 2 := by decide
    have hcontext : width ": __ctx.".toList = 8 := by decide
    simp only [row, push, Template.row, tableBindings, List.flatMap_cons, width_append, hspace,
      hcontext, List.append_assoc, List.singleton_append, Nat.add_assoc]

theorem globals_eq (d : Draft) (names : List (List Char)) :
    d.globals names =
      { d with
        code := d.code ++ tableText names
        zones := d.zones ++
          [⟨.templateGlobals, ⟨width d.code, width d.code + width (tableText names)⟩⟩]
        bindings := d.bindings ++ tableBindings (width d.code + width tableHead) names } := by
  simp only [globals, foldl_row, push, zone, tableText_eq, List.append_assoc, width_append]

end Draft

theorem mapM_map_eq {α β γ : Type} {f : α → β} {g : β → Option γ} {k : α → γ} {l : List α}
    (h : ∀ x ∈ l, g (f x) = some (k x)) : (l.map f).mapM g = some (l.map k) := by
  induction l with
  | nil => rfl
  | cons x l ih =>
    have hx := h x List.mem_cons_self
    have hl := ih fun y hy => h y (List.mem_cons_of_mem _ hy)
    simp [List.mapM_cons, hx, hl]

theorem place_shift (o o' : Nat) (names : List (List Char × List Char)) :
    (place o names).map (fun e => (⟨e.span.start + o', e.span.stop + o'⟩ : Span)) =
      (place (o + o') names).map Excerpt.span := by
  induction names generalizing o with
  | nil => rfl
  | cons n names ih =>
    obtain ⟨gap, w⟩ := n
    have hstop : o + o' + width gap + width w = o + width gap + width w + o' := by omega
    rw [place, place, List.map_cons, List.map_cons, ih, hstop]
    simp only [Excerpt.span, List.cons.injEq, Span.mk.injEq, and_true]
    omega

theorem copied_of_mem_place {o : Nat} {names : List (List Char × List Char)} {e : Excerpt}
    (h : e ∈ place o names) (tail : List Char) : Piece.copied e.start e.text ∈ routed o tail names := by
  induction names generalizing o with
  | nil => simp [place] at h
  | cons n names ih =>
    obtain ⟨gap, w⟩ := n
    rcases List.mem_cons.1 h with rfl | h
    · simp [routed]
    · simp [routed, ih h]

variable {t : List Char}

theorem Lies.slice? {e : Excerpt} (h : Lies t e) :
    Text.slice? t e.span.start e.span.stop = some e.text := by
  obtain ⟨p, q, rfl, hstart⟩ := h
  rw [Excerpt.span, hstart]
  exact slice?_middle p e.text q

theorem Lies.identifier {e n : Excerpt} (h : Lies t e) (hn : n ∈ place e.start (split e.text).names) :
    Lies t n := by
  obtain ⟨p, q, rfl, hstart⟩ := h
  obtain ⟨u, v, hsplit, hname⟩ := copied_of_mem_routed (copied_of_mem_place hn (split e.text).tail)
  rw [text_split] at hsplit
  exact ⟨p ++ u, v ++ q, by simp [hsplit], by rw [hname, hstart, width_append]⟩

theorem lies_of_mem_expressions {content : String} {e : Excerpt} (he : e ∈ expressions content) :
    Lies content.toList e := by
  obtain ⟨-, p, q, ht, hstart⟩ := (stands_expressions content).of_mem he
  exact ⟨p, q, ht, by rw [hstart, Nat.zero_add]⟩

theorem lies_of_mem_identifiers {expression : String} {e : Excerpt}
    (he : e ∈ identifiers expression) : Lies expression.toList e :=
  Lies.identifier (e := ⟨0, expression.toList⟩) ⟨[], [], by simp, rfl⟩ he

theorem identifiersIn?_eq {e : Excerpt} (h : Lies t e) : identifiersIn? t e.span = some (foundIn e) := by
  obtain ⟨p, q, rfl, hstart⟩ := h
  have hshift := place_shift 0 e.start (split e.text).names
  rw [Nat.zero_add] at hshift
  simp only [identifiersIn?, Excerpt.span, hstart, slice?_middle, scanIdentifiers_eq, identifiers,
    String.toList_ofList, bind, Option.bind_some, List.map_map, Function.comp_def]
  rw [foundIn, ← hshift, hstart]
  rfl

theorem slice?_names {es : List Excerpt} (h : ∀ e ∈ es, Lies t e) :
    (es.map foundIn).flatten.mapM (fun r => slice? t r.start r.stop) =
      some (es.flatMap fun e => (split e.text).names.map (·.2)) := by
  have hflat : (es.map foundIn).flatten =
      (es.flatMap fun e => place e.start (split e.text).names).map Excerpt.span := by
    rw [List.map_flatMap, List.flatMap_def]
    rfl
  have hnames : (es.flatMap fun e => place e.start (split e.text).names).map Excerpt.text =
      es.flatMap fun e => (split e.text).names.map (·.2) := by
    rw [List.map_flatMap]
    simp only [map_text_place]
  rw [hflat, ← hnames]
  refine mapM_map_eq fun n hn => ?_
  obtain ⟨e, he, hn⟩ := List.mem_flatMap.1 hn
  exact ((h e he).identifier hn).slice?

theorem build?_eq {es : List Excerpt} (h : ∀ e ∈ es, Lies t e) (scriptImport : Option String) :
    build? t (es.map Excerpt.span) scriptImport = some (render es scriptImport) := by
  have hfound : (es.map Excerpt.span).mapM (identifiersIn? t) = some (es.map foundIn) :=
    mapM_map_eq fun e he => identifiersIn?_eq (h e he)
  simp only [build?, hfound, slice?_names h, bind, Option.bind_some, List.zip_map',
    Draft.foldlM_statement? _ h, Draft.globals_eq]
  simp only [Draft.scaffold, Draft.push, Draft.zone, Draft.add, Draft.output, render, usedNames, texts,
    List.nil_append, List.cons_append, width_append, width]
  rfl

theorem transform?_eq (b : Block) (c : Context) : transform? b c = some (run b c) := by
  rw [transform?, run]
  split
  · simp only [scanExpressions_eq, bind, Option.bind_some,
      build?_eq fun e he => lies_of_mem_expressions he]
    rfl
  · rfl

/-- On every text both scanners end and cut at characters only, and so does the transformer. The
ranges found are not empty and can be cut out of the text. Those of a template do not even meet. -/
theorem safe_on_every_text :
    (∀ content : String,
      scanExpressions content = some ((expressions content).map Excerpt.span) ∧
        (∀ e ∈ expressions content, e.span.start < e.span.stop ∧
          slice? content.toList e.span.start e.span.stop = some e.text) ∧
        (expressions content).Pairwise fun a b => a.span.stop < b.span.start) ∧
      (∀ expression : String,
        scanIdentifiers expression = some ((identifiers expression).map Excerpt.span) ∧
          (∀ e ∈ identifiers expression, e.span.start < e.span.stop ∧
            slice? expression.toList e.span.start e.span.stop = some e.text) ∧
          (identifiers expression).Pairwise fun a b => a.span.stop ≤ b.span.start) ∧
      ∀ b c, transform? b c = some (run b c) := by
  have hspan : ∀ e : Excerpt, e.text ≠ [] → e.span.start < e.span.stop := by
    intro e he
    have hpos := width_pos he
    simp only [Excerpt.span]
    omega
  refine ⟨fun content => ?_, fun expression => ?_, transform?_eq⟩
  · refine ⟨scanExpressions_eq content, fun e he => ⟨hspan e ?_, (lies_of_mem_expressions he).slice?⟩,
      (stands_expressions content).apart⟩
    exact ((stands_expressions content).of_mem he).1
  · refine ⟨scanIdentifiers_eq expression, fun e he => ⟨hspan e ?_, (lies_of_mem_identifiers he).slice?⟩,
      pairwise_place 0 _⟩
    exact text_ne_nil_of_mem_identifiers he

example : scanExpressions "é<p :a='ö'>\x7b\x7bü\x7d\x7d<q @b=\"" = some [⟨9, 11⟩, ⟨15, 17⟩] := by
  decide +kernel

example : scanIdentifiers "'\\é' + ü" = some [⟨8, 10⟩] := by decide +kernel

end BlockLens.Template
