import BlockLens.Proofs.MainModule
import BlockLens.Proofs.Overlay.Sound
import BlockLens.Transform.Builtin

set_option autoImplicit false

namespace BlockLens

open Text

namespace Template

theorem code_of_run {b : Block} {c : Context} {out : Output} (h : run b c = .ok out) :
    ∃ rest, out.code = String.ofList (header c.scriptImport) ++ rest := by
  unfold run at h
  split at h
  · rw [Except.ok.injEq] at h
    subst h
    simp only [render, List.append_assoc]
    exact ⟨_, String.ofList_append⟩
  · contradiction

theorem header_some (source : String) :
    ∃ rest, String.ofList (header (some source)) =
      "import __Self from " ++ quote source ++ ";" ++ rest := by
  refine ⟨"\n" ++ "declare const __ctx: InstanceType<typeof __Self>;\n", String.toList_injective ?_⟩
  simp only [String.toList_append, String.toList_ofList, List.append_assoc]
  unfold header
  simp only [List.append_assoc]
  rfl

theorem header_none :
    ∃ rest, String.ofList (header none) = "const __Self = \x7b\x7d as any;" ++ rest := by
  have hline : "const __Self = \x7b\x7d as any;\n".toList =
      "const __Self = \x7b\x7d as any;".toList ++ "\n".toList := by decide
  refine ⟨"\n" ++ "declare const __ctx: InstanceType<typeof __Self>;\n", String.toList_injective ?_⟩
  simp only [String.toList_append, String.toList_ofList]
  unfold header
  exact (congrArg (· ++ _) hline).trans (List.append_assoc _ _ _)

end Template

namespace Composite

variable {o : Options} {c : Composite}

def component? (o : Options) (c : Composite) : Option String :=
  (importable o c.file c.outline .scriptSetup).or (importable o c.file c.outline .script)

/-- A live template document was made for the component of the present outline. -/
theorem Consistent.scriptImport_of_live (h : c.Consistent o) {b : BlockDocument} (hb : b ∈ c.live)
    (hslot : b.slot = .template) : b.scriptImport = (c.component? o).map MainModule.importPath := by
  obtain ⟨a, ha, -, -, -, himport⟩ := h.current b hb
  obtain ⟨e, i, -, -, rfl⟩ := (anew_eq_some o).1 ha
  rw [himport, hslot]
  rfl

theorem Consistent.self_mem_main (h : c.Consistent o) (hclean : c.dirty = false) {q : String} :
    "import _Self from " ++ q ∈ MainModule.lines c.main.text ↔
      ∃ id, c.component? o = some id ∧ q = MainModule.importSource id := by
  rw [h.main (h.isSome_parsed hclean), mainOf]
  exact MainModule.self_mem_lines _ _ _ _

theorem Consistent.const_mem_main (h : c.Consistent o) (hclean : c.dirty = false) :
    "const _Self = \x7b\x7d as any" ∈ MainModule.lines c.main.text ↔ c.component? o = none := by
  rw [h.main (h.isSome_parsed hclean), mainOf]
  exact MainModule.const_mem_lines _ _ _ _

end Composite

theorem Workspace.Sound.generated_of_live {w : Workspace} {L : Nat → Ledger} (h : w.Sound L)
    {n : Nat} {d : Document} (hd : w.document? n = some d) {b : BlockDocument}
    (hb : b ∈ d.composite.live) : ∃ x, (w.look ⟨n, b⟩).1.generated = b.generate x := by
  obtain ⟨f, hf, -, hc⟩ := document?_eq_some.1 hd
  have hdocs : (L n).docs b := (h.covers n f hf).live b (hc ▸ hb)
  exact ⟨_, congrArg View.generated (h.look_eq (x := ⟨n, b⟩) hdocs)⟩

namespace HandedOverlay

/-- In every state that commands lead to, and for every document that is not marked: where the main
module imports the component, the text generated for the template imports it from the same source,
and where the main module makes it up, so does the template. -/
theorem template_component_eq_main (o : Options) (commands : List Command) (n : Nat) (d : Document)
    (b : BlockDocument) (out : Output) :
    let w := ((start o).run commands).overlay.workspace
    let main := MainModule.lines (d.mainModule o).1.text
    w.document? n = some d → d.composite.dirty = false →
    b ∈ d.composite.live → b.slot = .template → b.transformer = some Template.transformer →
    (w.look ⟨n, b⟩).1.generated = .ok (some out) →
    (∀ q, "import _Self from " ++ q ∈ main →
      ∃ rest, out.code = "import __Self from " ++ q ++ ";" ++ rest) ∧
    ("const _Self = \x7b\x7d as any" ∈ main →
      ∃ rest, out.code = "const __Self = \x7b\x7d as any;" ++ rest) ∧
    ("const _Self = \x7b\x7d as any" ∉ main ↔ ∃ q, "import _Self from " ++ q ∈ main) := by
  intro w main hd hclean hb hslot htransformer hlook
  obtain ⟨L, ⟨hsound, -⟩, -⟩ := (sound_start o).run commands
  have hoptions : w.options = o := options_run (start o) commands
  have hc : d.composite.Consistent o := hoptions ▸ hsound.document_consistent hd
  have hmain : main = MainModule.lines d.composite.main.text := by
    simp only [main, Document.mainModule, Document.refresh_of_clean hclean]
  have himport := hc.scriptImport_of_live hb hslot
  -- the text generated begins with the header for what the document was made for
  obtain ⟨x, hx⟩ := hsound.generated_of_live hd hb
  obtain ⟨rest, hcode⟩ : ∃ rest, out.code = String.ofList (Template.header b.scriptImport) ++ rest := by
    rw [hlook, BlockDocument.generate, htransformer] at hx
    cases hrun : Template.run x ⟨b.id.file, b.slot, b.scriptImport⟩ with
    | error e => simp [Template.transformer, hrun, Except.map] at hx
    | ok out' =>
      obtain rfl : out = out' := by simpa [Template.transformer, hrun, Except.map] using hx
      exact Template.code_of_run hrun
  rw [hmain, hc.const_mem_main hclean]
  simp only [hc.self_mem_main hclean]
  refine ⟨?_, fun hnone => ?_, ?_⟩
  · rintro q ⟨id, hid, rfl⟩
    rw [himport, hid] at hcode
    obtain ⟨rest', hheader⟩ := Template.header_some (MainModule.importPath id)
    exact ⟨rest' ++ rest, by rw [hcode, Option.map_some, hheader, String.append_assoc]; rfl⟩
  · rw [himport, hnone] at hcode
    obtain ⟨rest', hheader⟩ := Template.header_none
    exact ⟨rest' ++ rest, by rw [hcode, Option.map_none, hheader, String.append_assoc]⟩
  · constructor
    · intro hsome
      obtain ⟨id, hid⟩ := Option.ne_none_iff_exists'.1 hsome
      exact ⟨_, id, hid, rfl⟩
    · rintro ⟨q, id, hid, -⟩
      simp [hid]

def setupAdded : HandedOverlay :=
  let template : Block := ⟨.template, none, .ofList [], ⟨0, 0⟩, "x"⟩
  let setup : Block := ⟨.script, some "ts", .ofList [("setup", "")], ⟨0, 0⟩, ""⟩
  let parser : String → Parsed := fun t =>
    { blocks := if t = "y" then [template, setup] else [template] }
  (start ⟨parser, .builtin, none⟩).run
    [.openText "/src/Foo.vue" "x" 1, .act 0 (.document .template), .act 0 (.update [⟨none, "y"⟩] 2),
      .act 0 (.document .template)]

theorem template_component_eq_main_setupAdded :
    let w := setupAdded.overlay.workspace
    ∃ d b out rest, w.document? 0 = some d ∧ d.composite.dirty = false ∧ b ∈ d.composite.live ∧
      b.slot = .template ∧ b.transformer = some Template.transformer ∧
      (w.look ⟨0, b⟩).1.generated = .ok (some out) ∧
      "import _Self from " ++ "\"./Foo.vue?vue&type=script&setup=true&lang\"" ∈
        MainModule.lines (d.mainModule w.options).1.text ∧
      out.code = "import __Self from " ++ "\"./Foo.vue?vue&type=script&setup=true&lang\"" ++ ";" ++
        rest := by
  intro w
  obtain ⟨L, ⟨hsound, -⟩, -⟩ : setupAdded.Sound := (sound_start _).run _
  obtain ⟨d, hd⟩ : ∃ d, w.document? 0 = some d := ⟨_, rfl⟩
  have hstate : ∀ d ∈ w.document? 0, d.composite.dirty = false ∧
      d.composite.live.map (·.slot) = [.template] ∧
      d.composite.component? w.options = some "/src/Foo.vue?vue&type=script&setup=true&lang.ts" ∧
      ∀ b ∈ d.composite.live, (w.look ⟨0, b⟩).1.output?.isSome = true := by decide +kernel
  obtain ⟨hclean, hslots, hcomponent, hlook⟩ := hstate d hd
  obtain ⟨b, hlive, hslot⟩ := List.map_eq_singleton_iff.1 hslots
  have hb : b ∈ d.composite.live := by simp [hlive]
  have hc := hsound.document_consistent hd
  have htransformer : b.transformer = some Template.transformer := by
    rw [hc.transformer_of_live hb, hslot]
    rfl
  obtain ⟨out, hout⟩ := Option.isSome_iff_exists.1 (hlook b hb)
  have hgenerated : (w.look ⟨0, b⟩).1.generated = .ok (some out) := by
    revert hout
    unfold View.output?
    cases (w.look ⟨0, b⟩).1.generated with
    | error e => simp [Except.toOption]
    | ok g => simp [Except.toOption]
  have hsource : MainModule.importSource "/src/Foo.vue?vue&type=script&setup=true&lang.ts" =
      "\"./Foo.vue?vue&type=script&setup=true&lang\"" := by decide +kernel
  have hmain : "import _Self from " ++ "\"./Foo.vue?vue&type=script&setup=true&lang\"" ∈
      MainModule.lines (d.mainModule w.options).1.text := by
    simp only [Document.mainModule, Document.refresh_of_clean hclean]
    exact (hc.self_mem_main hclean).2 ⟨_, hcomponent, hsource.symm⟩
  obtain ⟨hself, -, -⟩ :=
    template_component_eq_main _ _ 0 d b out hd hclean hb hslot htransformer hgenerated
  obtain ⟨rest, hrest⟩ := hself _ hmain
  exact ⟨d, b, out, rest, hd, hclean, hb, hslot, htransformer, hgenerated, hmain, hrest⟩

end HandedOverlay

end BlockLens
