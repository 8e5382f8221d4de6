import BlockLens.Proofs.Identifier
import BlockLens.Proofs.MainModule.Name
import BlockLens.Proofs.Watchers
import Mathlib.Data.List.TakeWhile
/-!
The text of a main module, line by line. What it imports or exports from is the runtime and the
blocks, and the way from a block to its import path can be gone back: nothing is cut off but the
directory and an extension.
-/

set_option autoImplicit false

namespace BlockLens

namespace MainModule

open Text

def lines (text : String) : List String := (pieces (· == '\n') text.toList).map String.ofList

def source? (line : String) : Option String :=
  if startsWith "import ".toList line.toList || startsWith "export ".toList line.toList then
    match line.toList.dropWhile (· != '"') with
    | [] => none
    | q => some (String.ofList q)
  else none

def sources (text : String) : List String := (lines text).filterMap source?

theorem lines_intercalate {l : List String} (hne : l ≠ []) (hl : ∀ s ∈ l, '\n' ∉ s.toList) :
    lines ("\n".intercalate l) = l := by
  cases l with
  | nil => contradiction
  | cons s r =>
    have hjoin : ("\n".intercalate (s :: r)).toList =
        joined '\n' s.toList (r.map String.toList) :=
      String.toList_intercalate.trans (intercalate_cons ..)
    have hs : '\n' ∉ s.toList := hl s List.mem_cons_self
    have hr : ∀ t ∈ r.map String.toList, '\n' ∉ t := by
      intro t ht
      obtain ⟨u, hu, rfl⟩ := List.mem_map.1 ht
      exact hl u (List.mem_cons_of_mem _ hu)
    rw [lines, hjoin, pieces_joined hs hr]
    simp

theorem source?_of_not_mem {line : String} (h : '"' ∉ line.toList) : source? line = none := by
  have hdrop : line.toList.dropWhile (· != '"') = [] := by
    refine List.dropWhile_eq_nil_iff.2 fun c hc => ?_
    simpa using fun e : c = '"' => h (e ▸ hc)
  rw [source?, hdrop]
  split <;> rfl

theorem startsWith_append {w s : List Char} (h : startsWith w s = true) (t : List Char) :
    startsWith w (s ++ t) = true := by
  obtain ⟨r, hr⟩ := Option.isSome_iff_exists.1 h
  rw [startsWith, after?_eq_some.1 hr, List.append_assoc, after?_append]
  rfl

structure Request where
  lead : String
  path : String

namespace Request

def line (r : Request) : String := r.lead ++ quote r.path

def leads : List String := ["import ", "import _Self from ", "export * from "]

theorem source?_line {r : Request} (h : r.lead ∈ leads) : source? r.line = some (quote r.path) := by
  have hlead : '"' ∉ r.lead.toList ∧
      (startsWith "import ".toList r.lead.toList || startsWith "export ".toList r.lead.toList) = true := by
    revert h
    generalize r.lead = lead
    revert lead
    decide
  obtain ⟨hfree, hstart⟩ := hlead
  have hdrop : r.line.toList.dropWhile (· != '"') = (quote r.path).toList := by
    rw [line, String.toList_append, List.dropWhile_append_of_pos]
    · simp [toList_quote]
    · intro c hc
      simpa using fun e : c = '"' => hfree (e ▸ hc)
  have hcond : (startsWith "import ".toList r.line.toList ||
      startsWith "export ".toList r.line.toList) = true := by
    rw [line, String.toList_append]
    rcases Bool.or_eq_true_iff.1 hstart with hw | hw
    · rw [startsWith_append hw, Bool.true_or]
    · rw [startsWith_append hw, Bool.or_true]
  rw [source?, if_pos hcond, hdrop, toList_quote]
  simp [quote]

theorem not_mem_line {r : Request} (h : r.lead ∈ leads) : '\n' ∉ r.line.toList := by
  have hlead : '\n' ∉ r.lead.toList := by
    revert h
    generalize r.lead = lead
    revert lead
    decide
  rw [line, String.toList_append, List.mem_append, not_or]
  exact ⟨hlead, not_mem_quote _⟩

end Request

def scriptRequests (setup script : Option String) : List Request :=
  ((setup.or script).map fun id => ⟨"import _Self from ", importPath id⟩).toList ++
    (setup.toList ++ script.toList).map fun id => ⟨"export * from ", importPath id⟩

theorem scriptLines_eq (setup script : Option String) :
    scriptLines setup script = (scriptRequests setup script).map Request.line ++
      if (setup.or script).isNone then ["const _Self = \x7b\x7d as any"] else [] := by
  cases setup <;> cases script <;> rfl

section

variable (file : String) (slots : List Slot) (blockId : Slot → Option String)
  (runtime : Option String)

def requests : List Request :=
  (runtime.map (⟨"import ", ·⟩)).toList ++
    ((slots.filter fun s => !s.isScript).filterMap blockId).map (⟨"import ", importPath ·⟩) ++
    scriptRequests (blockId .scriptSetup) (blockId .script)

def closing : List String :=
  (if ((blockId .scriptSetup).or (blockId .script)).isNone then ["const _Self = \x7b\x7d as any"]
    else []) ++
  ["export type __Props = " ++ propsType (blockId .scriptSetup) (blockId .script),
    "const " ++ componentName file ++ " = _Self", "export default " ++ componentName file]

theorem lead_of_mem_requests {r : Request} (h : r ∈ requests slots blockId runtime) :
    r.lead ∈ Request.leads := by
  simp only [requests, scriptRequests, List.mem_append, List.mem_map, Option.mem_toList,
    Option.map_eq_some_iff] at h
  rcases h with (⟨_, -, rfl⟩ | ⟨_, -, rfl⟩) | ⟨_, -, rfl⟩ | ⟨_, -, rfl⟩ <;> simp [Request.leads]

theorem not_mem_closing {line : String} (h : line ∈ closing file blockId) :
    '\n' ∉ line.toList ∧ '"' ∉ line.toList := by
  have hname : '\n' ∉ (componentName file).toList ∧ '"' ∉ (componentName file).toList :=
    ⟨not_mem_componentName (by decide) (by decide) (by decide),
      not_mem_componentName (by decide) (by decide) (by decide)⟩
  have hprops : ∀ setup script,
      '\n' ∉ (propsType setup script).toList ∧ '"' ∉ (propsType setup script).toList := by
    intro setup script
    unfold propsType
    split <;> decide
  simp only [closing, List.mem_append, List.mem_cons, List.not_mem_nil, or_false] at h
  rcases h with h | rfl | rfl | rfl
  · split at h
    · rw [List.mem_singleton.1 h]
      decide
    · simp at h
  · simp [hprops]
  · simp [hname]
  · simp [hname]

theorem lines_generate :
    lines (generate file slots blockId runtime).text =
      (requests slots blockId runtime).map Request.line ++ closing file blockId := by
  have htext : (generate file slots blockId runtime).text =
      "\n".intercalate ((requests slots blockId runtime).map Request.line ++ closing file blockId) := by
    have hgenerate : (generate file slots blockId runtime).text = "\n".intercalate
        ((runtime.map fun r => "import " ++ quote r).toList ++
          ((slots.filter fun s => !s.isScript).filterMap blockId).map
            (fun id => "import " ++ importSource id) ++
          scriptLines (blockId .scriptSetup) (blockId .script) ++
          ["export type __Props = " ++ propsType (blockId .scriptSetup) (blockId .script),
            "const " ++ componentName file ++ " = _Self",
            "export default " ++ componentName file]) := rfl
    have hruntime : (runtime.map fun r => "import " ++ quote r).toList =
        (runtime.map (Request.mk "import ")).toList.map Request.line := by
      cases runtime <;> rfl
    rw [hgenerate, scriptLines_eq, hruntime]
    simp only [requests, closing, List.map_append, List.map_map, List.append_assoc]
    rfl
  rw [htext, lines_intercalate]
  · simp [closing]
  · intro s hs
    rcases List.mem_append.1 hs with hs | hs
    · obtain ⟨r, hr, rfl⟩ := List.mem_map.1 hs
      exact Request.not_mem_line (lead_of_mem_requests slots blockId runtime hr)
    · exact (not_mem_closing file blockId hs).1

theorem sources_generate :
    sources (generate file slots blockId runtime).text =
      (requests slots blockId runtime).map fun r => quote r.path := by
  have hsource : ∀ l : List Request, (∀ r ∈ l, r.lead ∈ Request.leads) →
      (l.map Request.line).filterMap source? = l.map fun r => quote r.path := by
    intro l hl
    induction l with
    | nil => rfl
    | cons r l ih =>
      have hr := Request.source?_line (hl r List.mem_cons_self)
      simp [hr, ih fun r hr => hl r (List.mem_cons_of_mem _ hr)]
  have hclosing : (closing file blockId).filterMap source? = [] :=
    List.filterMap_eq_nil_iff.2 fun line hl =>
      source?_of_not_mem (not_mem_closing file blockId hl).2
  rw [sources, lines_generate, List.filterMap_append, hclosing, List.append_nil]
  exact hsource _ fun r hr => lead_of_mem_requests slots blockId runtime hr

theorem self_mem_lines {q : String} :
    "import _Self from " ++ q ∈ lines (generate file slots blockId runtime).text ↔
      ∃ id, (blockId .scriptSetup).or (blockId .script) = some id ∧ q = importSource id := by
  rw [lines_generate, List.mem_append]
  constructor
  · rintro (h | h)
    · obtain ⟨r, hr, hline⟩ := List.mem_map.1 h
      have hchars := congrArg String.toList hline
      simp only [requests, scriptRequests, List.mem_append, List.mem_map, Option.mem_toList,
        Option.map_eq_some_iff] at hr
      rcases hr with (⟨_, -, rfl⟩ | ⟨_, -, rfl⟩) | ⟨id, hid, rfl⟩ | ⟨_, -, rfl⟩
      · simp [Request.line, toList_quote] at hchars
      · simp [Request.line, toList_quote] at hchars
      · refine ⟨id, hid, String.toList_injective ?_⟩
        simpa [Request.line, importSource] using hchars.symm
      · simp [Request.line] at hchars
    · simp only [closing, List.mem_append, List.mem_cons, List.not_mem_nil, or_false] at h
      rcases h with h | h | h | h
      · split at h
        · have hchars := congrArg String.toList (List.mem_singleton.1 h)
          simp at hchars
        · simp at h
      all_goals
        have hchars := congrArg String.toList h
        simp at hchars
  · rintro ⟨id, hid, rfl⟩
    refine .inl (List.mem_map.2 ⟨⟨"import _Self from ", importPath id⟩, ?_, rfl⟩)
    simp [requests, scriptRequests, hid]

theorem const_mem_lines :
    "const _Self = \x7b\x7d as any" ∈ lines (generate file slots blockId runtime).text ↔
      (blockId .scriptSetup).or (blockId .script) = none := by
  rw [lines_generate, List.mem_append]
  constructor
  · rintro (h | h)
    · obtain ⟨r, hr, hline⟩ := List.mem_map.1 h
      have hchars := congrArg String.toList hline
      have hlead := lead_of_mem_requests slots blockId runtime hr
      simp only [Request.leads, List.mem_cons, List.not_mem_nil, or_false] at hlead
      rcases hlead with hlead | hlead | hlead <;> simp [Request.line, hlead] at hchars
    · simp only [closing, List.mem_append, List.mem_cons, List.not_mem_nil, or_false] at h
      rcases h with h | h | h | h
      · split at h
        · next hnone => exact Option.isNone_iff_eq_none.1 hnone
        · simp at h
      · have hchars := congrArg String.toList h
        simp at hchars
      · -- the last characters differ
        have hlast := congrArg (fun s => s.toList.getLast?) h
        simp only [String.toList_append, List.getLast?_append] at hlast
        simp at hlast
      · have hchars := congrArg String.toList h
        simp at hchars
  · intro h
    exact .inr (by simp [closing, h])

theorem mem_sources_generate {q : String} :
    q ∈ sources (generate file slots blockId runtime).text ↔
      (∃ r, runtime = some r ∧ q = quote r) ∨
        ∃ id ∈ (generate file slots blockId runtime).ids, q = importSource id := by
  have hids : ∀ id, id ∈ (generate file slots blockId runtime).ids ↔
      id ∈ (slots.filter fun s => !s.isScript).filterMap blockId ∨
        blockId .scriptSetup = some id ∨ blockId .script = some id := by
    intro id
    simp only [generate, mem_sortedSet, List.mem_append, Option.mem_toList, or_assoc]
  have hself : ∀ id, (blockId .scriptSetup).or (blockId .script) = some id →
      blockId .scriptSetup = some id ∨ blockId .script = some id := by
    intro id h
    rcases Option.or_eq_some_iff.1 h with h | h
    · exact .inl h
    · exact .inr h.2
  simp only [sources_generate, hids, requests, scriptRequests, List.mem_map, List.mem_append,
    Option.mem_toList, Option.map_eq_some_iff, importSource]
  constructor
  · rintro ⟨r, (⟨_, h, rfl⟩ | ⟨id, h, rfl⟩) | ⟨id, h, rfl⟩ | ⟨id, h, rfl⟩, rfl⟩
    · exact .inl ⟨_, h, rfl⟩
    · exact .inr ⟨id, .inl h, rfl⟩
    · exact .inr ⟨id, .inr (hself id h), rfl⟩
    · exact .inr ⟨id, .inr h, rfl⟩
  · rintro (⟨_, h, rfl⟩ | ⟨id, h | h, rfl⟩)
    · exact ⟨_, .inl (.inl ⟨_, h, rfl⟩), rfl⟩
    · exact ⟨_, .inl (.inr ⟨id, h, rfl⟩), rfl⟩
    · exact ⟨_, .inr (.inr ⟨id, h, rfl⟩), rfl⟩

theorem mem_ids_generate (h : ∀ s id, blockId s = some id → s ∈ slots) {id : String} :
    id ∈ (generate file slots blockId runtime).ids ↔ ∃ s, blockId s = some id := by
  simp only [generate, mem_sortedSet, List.mem_append, List.mem_filterMap, List.mem_filter,
    Option.mem_toList]
  constructor
  · rintro ((⟨s, -, hs⟩ | hs) | hs)
    · exact ⟨s, hs⟩
    · exact ⟨_, hs⟩
    · exact ⟨_, hs⟩
  · rintro ⟨s, hs⟩
    cases s with
    | script => exact .inr hs
    | scriptSetup => exact .inl (.inr hs)
    | template => exact .inl (.inl ⟨_, ⟨h _ _ hs, rfl⟩, hs⟩)
    | style i => exact .inl (.inl ⟨_, ⟨h _ _ hs, rfl⟩, hs⟩)
    | custom name i => exact .inl (.inl ⟨_, ⟨h _ _ hs, rfl⟩, hs⟩)

end

def extensions : List String := [".tsx", ".jsx", ".ts", ".js"]

def directory (name : String) : String :=
  String.ofList (name.toList.reverse.dropWhile fun c => !isSlash c).reverse

theorem directory_append_lastPiece (name : String) :
    (directory name).toList ++ lastPiece isSlash name.toList = name.toList := by
  rw [directory, lastPiece, String.toList_ofList, ← List.reverse_append,
    List.takeWhile_append_dropWhile, List.reverse_reverse]

/-- An extension is found behind the last dot, so that nothing before a dot matters. -/
theorem before?_append {w : List Char} (hw : '.' ∉ w) (p s : List Char) :
    before? ('.' :: w) (p ++ '.' :: s) = (before? ('.' :: w) ('.' :: s)).map (p ++ ·) := by
  ext r
  simp only [Option.map_eq_some_iff, before?_eq_some]
  constructor
  · intro h
    rcases List.append_eq_append_iff.1 h with ⟨a, rfl, ha⟩ | ⟨a, rfl, ha⟩
    · exact ⟨a, ha, rfl⟩
    · cases a with
      | nil => exact ⟨[], by simpa using ha.symm, by simp⟩
      | cons c a =>
        simp only [List.cons_append, List.cons.injEq] at ha
        exact absurd (by rw [ha.2]; simp) hw
  · rintro ⟨t, ht, rfl⟩
    rw [ht, List.append_assoc]

theorem withoutExtension_append (p s : List Char) :
    withoutExtension (p ++ '.' :: s) = p ++ withoutExtension ('.' :: s) := by
  have hdot : ∀ e ∈ extensions, ∃ w, e.toList = '.' :: w ∧ '.' ∉ w := by
    simp [extensions]
  have hfind : ∀ l : List String, (∀ e ∈ l, ∃ w, e.toList = '.' :: w ∧ '.' ∉ w) →
      l.findSome? (fun e => before? e.toList (p ++ '.' :: s)) =
        (l.findSome? fun e => before? e.toList ('.' :: s)).map (p ++ ·) := by
    intro l hl
    induction l with
    | nil => rfl
    | cons e l ih =>
      obtain ⟨w, he, hw⟩ := hl e List.mem_cons_self
      have ih := ih fun e he => hl e (List.mem_cons_of_mem _ he)
      rw [List.findSome?_cons, List.findSome?_cons, he, before?_append hw, ih]
      cases before? ('.' :: w) ('.' :: s) <;> rfl
  have h := hfind extensions hdot
  rw [extensions] at h
  rw [withoutExtension, withoutExtension, h]
  cases [".tsx", ".jsx", ".ts", ".js"].findSome? fun e => before? e.toList ('.' :: s) <;> rfl

theorem exists_withoutExtension (s : List Char) :
    ∃ e ∈ "" :: extensions, s = withoutExtension s ++ e.toList := by
  unfold withoutExtension
  cases h : [".tsx", ".jsx", ".ts", ".js"].findSome? fun e => before? e.toList s with
  | none => exact ⟨"", by simp, by simp⟩
  | some r =>
    obtain ⟨e, he, hr⟩ := List.exists_of_findSome?_eq_some h
    exact ⟨e, List.mem_cons_of_mem _ he, before?_eq_some.1 hr⟩

def address (i : Identifier) : List (List Char) :=
  (i.index.map fun n => "index=".toList ++ Nat.toDigits 10 n).toList ++
    if i.setup then ["setup=true".toList] else []

def query (i : Identifier) (s : List Char) : List Char :=
  Identifier.marker ++ '&' :: joined '&' ("type=".toList ++ i.kind.tag.toList)
    (address i ++ ["lang".toList ++ s])

theorem query_append (i : Identifier) (s t : List Char) : query i (s ++ t) = query i s ++ t := by
  simp [query, joined]

theorem segments_eq (i : Identifier) :
    i.segments = address i ++ ["lang".toList ++ '.' :: i.lang.toList] := rfl

theorem toList_text_eq_query (i : Identifier) :
    i.text.toList = i.file.toList ++ query i ('.' :: i.lang.toList) := by
  rw [Identifier.toList_text, segments_eq, query, List.append_assoc]

theorem slash_not_mem_of_isValidName {s : List Char} (h : Identifier.isValidName s = true) :
    '/' ∉ s := by
  intro hm
  simp only [Identifier.isValidName, Bool.and_eq_true, List.all_eq_true] at h
  have hc := h.2 _ hm
  simp at hc

theorem slash_not_mem_query {i : Identifier} (h : i.validate = .ok ()) :
    '/' ∉ query i ('.' :: i.lang.toList) := by
  obtain ⟨-, hk, hl, -, -⟩ := Identifier.validate_eq_ok.1 h
  have hk := slash_not_mem_of_isValidName hk
  have hl := slash_not_mem_of_isValidName hl
  have haddress : ∀ t ∈ address i, '/' ∉ t := by
    intro t ht
    simp only [address, List.mem_append, Option.mem_toList, Option.map_eq_some_iff] at ht
    rcases ht with ⟨n, -, rfl⟩ | ht
    · have hdigits : '/' ∉ Nat.toDigits 10 n := fun hm =>
        Bool.false_ne_true (Nat.isDigit_of_mem_toDigits (by decide) (by decide) hm)
      simp [hdigits]
    · split at ht
      · rw [List.mem_singleton.1 ht]
        decide
      · simp at ht
  simpa [query, joined, Identifier.marker, hk, hl] using haddress

theorem importPath_text {i : Identifier} (h : i.validate = .ok ()) :
    importPath i.text = "./" ++ String.ofList
      (lastPiece isSlash i.file.toList ++ query i (withoutExtension ('.' :: i.lang.toList))) := by
  have hcut : withoutExtension i.text.toList =
      i.file.toList ++ query i (withoutExtension ('.' :: i.lang.toList)) := by
    have hq := fun s => query_append i [] s
    rw [toList_text_eq_query, ← List.nil_append ('.' :: i.lang.toList), hq, ← List.append_assoc,
      withoutExtension_append, List.nil_append, ← List.nil_append (withoutExtension _), hq]
    simp
  obtain ⟨e, -, he⟩ := exists_withoutExtension ('.' :: i.lang.toList)
  have hslash : ∀ c ∈ query i (withoutExtension ('.' :: i.lang.toList)), isSlash c = false := by
    intro c hc
    have hno := slash_not_mem_query h
    rw [he, query_append] at hno
    simpa [isSlash] using fun hslash : c = '/' => hno (List.mem_append_left _ (hslash ▸ hc))
  rw [importPath, hcut, lastPiece_append _ hslash]

/-- From the import path back to the name: the directory before it, and an extension behind it. -/
theorem exists_importPath_text {i : Identifier} (h : i.validate = .ok ()) :
    ∃ path, ∃ e ∈ "" :: extensions, importPath i.text = "./" ++ path ∧
      directory i.file ++ path ++ e = i.text := by
  obtain ⟨e, he, hlang⟩ := exists_withoutExtension ('.' :: i.lang.toList)
  refine ⟨_, e, he, importPath_text h, String.toList_injective ?_⟩
  calc (directory i.file ++ String.ofList (lastPiece isSlash i.file.toList ++
        query i (withoutExtension ('.' :: i.lang.toList))) ++ e).toList
      = ((directory i.file).toList ++ lastPiece isSlash i.file.toList) ++
          query i (withoutExtension ('.' :: i.lang.toList) ++ e.toList) := by
        simp [query_append]
    _ = i.text.toList := by
        rw [directory_append_lastPiece, ← hlang, toList_text_eq_query]

theorem pieces_query {i : Identifier} (h : i.validate = .ok ()) :
    pieces (· == '&') (joined '&' ("type=".toList ++ i.kind.tag.toList)
        (address i ++ ["lang".toList ++ withoutExtension ('.' :: i.lang.toList)])) =
      ("type=".toList ++ i.kind.tag.toList) ::
        (address i ++ ["lang".toList ++ withoutExtension ('.' :: i.lang.toList)]) := by
  have hfree : ∀ t ∈ ("type=".toList ++ i.kind.tag.toList) :: i.segments, '&' ∉ t := by
    intro t ht hm
    rw [← Identifier.pieces_text h] at ht
    simpa using of_mem_pieces ht _ hm
  refine pieces_joined (hfree _ List.mem_cons_self) fun t ht => ?_
  rcases List.mem_append.1 ht with ht | ht
  · exact hfree t (List.mem_cons_of_mem _ (List.mem_append_left _ ht))
  · rw [List.mem_singleton.1 ht]
    obtain ⟨e, -, he⟩ := exists_withoutExtension ('.' :: i.lang.toList)
    have hlang := hfree ("lang".toList ++ '.' :: i.lang.toList) (by simp [segments_eq])
    rw [he, ← List.append_assoc] at hlang
    exact fun hm => hlang (List.mem_append_left _ hm)

theorem address_injective {i j : Identifier} (h : address i = address j) :
    i.index = j.index ∧ i.setup = j.setup := by
  cases hi : i.index <;> cases hj : j.index <;> cases hsi : i.setup <;> cases hsj : j.setup <;>
    simp [address, hi, hj, hsi, hsj] at h ⊢
  · exact toDigits_injective h
  · exact toDigits_injective h

/-- Blocks of one file that share an import path share the slot. The languages may differ. -/
theorem slot?_eq_of_importPath {i j : Identifier} (hi : i.validate = .ok ())
    (hj : j.validate = .ok ()) (ki : i.kind.IsTag) (kj : j.kind.IsTag) (hfile : i.file = j.file)
    (h : importPath i.text = importPath j.text) : i.slot? = j.slot? := by
  have hquery : query i (withoutExtension ('.' :: i.lang.toList)) =
      query j (withoutExtension ('.' :: j.lang.toList)) := by
    rw [importPath_text hi, importPath_text hj, hfile] at h
    simpa using congrArg String.toList h
  have hpieces := congrArg (pieces (· == '&')) (List.append_cancel_left hquery)
  simp only [pieces, beq_self_eq_true, if_true, List.cons.injEq, true_and] at hpieces
  rw [pieces_query hi, pieces_query hj, List.cons.injEq, List.append_cancel_left_eq] at hpieces
  obtain ⟨htag, hsegments⟩ := hpieces
  obtain ⟨haddress, -⟩ := List.append_inj' hsegments rfl
  obtain ⟨hindex, hsetup⟩ := address_injective haddress
  have hkind := Kind.eq_of_tag ki kj (String.toList_injective htag)
  simp only [Identifier.slot?, hkind, hindex, hsetup]

end MainModule

end BlockLens
