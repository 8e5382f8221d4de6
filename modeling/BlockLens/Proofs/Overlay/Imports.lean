import BlockLens.Proofs.MainModule
import BlockLens.Proofs.Overlay.Files
import BlockLens.Proofs.Overlay.Works

set_option autoImplicit false

namespace BlockLens

open Text

namespace Composite

variable {o : Options} {c : Composite}

structure Nameable (o : Options) (c : Composite) : Prop where
  consistent : c.Consistent o
  tags : ∀ e ∈ c.outline.entries, e.block.kind.IsTag
  words : ∀ s e, c.outline.get? s = some e → ∀ n, s.index? = some n → n < wordLimit

theorem nameable_new (o : Options) (file : String) : Nameable o { file } where
  consistent := consistent_new o file
  tags := by simp [Outline.entries]
  words s e he := by cases s <;> simp [Outline.get?] at he

theorem keeps_nameable (ht : ∀ t, ∀ b ∈ (o.parser t).blocks, b.kind.IsTag)
    (hw : ∀ t, (o.parser t).blocks.length ≤ wordLimit) :
    Action.Keeps o fun d => d.composite.Nameable o := by
  have hblocks := Document.keeps_blocks (o := o) ht rfl
  have hslots := Document.keeps_slots (o := o) (P := fun s => ∀ n, s.index? = some n → n < wordLimit)
    (fun t _ _ _ he _ hn => Nat.lt_of_lt_of_le (Outline.index_lt_of_get?_ofBlocks he hn) (hw t))
    (by simp [Slot.index?])
  have hboth := hblocks.and hslots
  have same : (fun d : Document => d.composite.Nameable o) = fun d =>
      (d.composite.Consistent o ∧ ∀ e ∈ d.composite.outline.entries, e.block.kind.IsTag) ∧
        d.composite.Consistent o ∧ ∀ s e, d.composite.outline.get? s = some e →
          ∀ n, s.index? = some n → n < wordLimit := by
    funext d
    exact propext ⟨fun h => ⟨⟨h.consistent, h.tags⟩, h.consistent, h.words⟩,
      fun h => ⟨h.1.1, h.1.2, h.2.2⟩⟩
  rw [same]
  exact hboth

theorem Nameable.classify (h : c.Nameable o) {s : Slot} {i : Identifier}
    (hi : idIn o c.file c.outline s = some i) : FileKind.classify i.text = .block i := by
  obtain ⟨hslot, -, hkind, hvalid⟩ := slot?_of_idIn o hi
  obtain ⟨e, he⟩ := isSome_get?_of_idIn o hi
  refine FileKind.classify_text hvalid ?_ fun n hn => ?_
  · rw [hkind, ← h.consistent.kinded.kind_eq he]
    exact h.tags e (Outline.mem_entries_of_get? he)
  · exact h.words s e he n (by rw [(Slot.ofParts?_eq_some.1 hslot).2.1, hn])

theorem Consistent.mem_ids (h : c.Consistent o) (hclean : c.dirty = false) {id : String} :
    id ∈ c.main.ids ↔
      ∃ s i, (o.registry.get? s.kind).isSome = true ∧ idIn o c.file c.outline s = some i ∧
        i.text = id := by
  have hslots : ∀ s id, importable o c.file c.outline s = some id →
      s ∈ c.outline.slots.map (·.1) := by
    intro s id hs
    obtain ⟨e, he, -⟩ := Option.bind_eq_some_iff.1 hs
    exact List.mem_map.2 ⟨(s, e), Outline.mem_slots.2 he, rfl⟩
  rw [h.main (h.isSome_parsed hclean), mainOf, MainModule.mem_ids_generate _ _ _ _ hslots]
  refine exists_congr fun s => ?_
  rw [importable_eq o h.kinded]
  split
  · next ht => simp [ht]
  · next ht => simp [ht]

theorem Consistent.mem_sources (h : c.Consistent o) (hclean : c.dirty = false) {q : String} :
    q ∈ MainModule.sources c.main.text ↔ (∃ r, o.runtime = some r ∧ q = quote r) ∨
      ∃ id ∈ c.main.ids, q = MainModule.importSource id := by
  rw [h.main (h.isSome_parsed hclean), mainOf]
  exact MainModule.mem_sources_generate _ _ _ _

/-- One import path leads to one block. -/
theorem Nameable.text_eq_of_importPath (h : c.Nameable o) {s t : Slot} {i j : Identifier}
    (hi : idIn o c.file c.outline s = some i) (hj : idIn o c.file c.outline t = some j)
    (hpath : MainModule.importPath i.text = MainModule.importPath j.text) : i.text = j.text := by
  have tag : ∀ {t : Slot} {i : Identifier}, idIn o c.file c.outline t = some i → i.kind.IsTag := by
    intro t i hi
    exact (Identifier.parse_eq_ok (FileKind.parse_of_classify (h.classify hi))).2.1
  obtain ⟨his, hif, -, hiv⟩ := slot?_of_idIn o hi
  obtain ⟨hjs, hjf, -, hjv⟩ := slot?_of_idIn o hj
  have hslot := MainModule.slot?_eq_of_importPath hiv hjv (tag hi) (tag hj) (hif.trans hjf.symm) hpath
  rw [his, hjs, Option.some.injEq] at hslot
  subst hslot
  rw [hi, Option.some.injEq] at hj
  rw [hj]

end Composite

theorem Overlay.Sound.fileExists_of_idIn {ov : Overlay} {L : Nat → Ledger} (h : ov.Sound L)
    {file : String} {n : Nat} (hn : ov.workspace.get? file = some n) {d : Document}
    (hd : ov.workspace.document? n = some d) {o : Options} (ho : ov.workspace.options = o)
    (hc : (d.refresh o).composite.Nameable o) {s : Slot} {i : Identifier}
    (hi : Composite.idIn o (d.refresh o).composite.file (d.refresh o).composite.outline s = some i)
    (ht : (o.registry.get? s.kind).isSome = true) (host : Host) :
    i.file = file ∧ (ov.fileExists host i.text).1 = true := by
  subst ho
  obtain ⟨d', hd', hfile, -⟩ := h.1.file_of_get? hn
  rw [hd, Option.some.injEq] at hd'
  subst hd'
  obtain ⟨hslot, hif, -, -⟩ := Composite.slot?_of_idIn _ hi
  have hfile' : (d.refresh ov.workspace.options).composite.file = d.composite.file :=
    Composite.file_refresh _ _
  have hk := hc.classify hi
  -- looking the name up gives the document of the slot
  obtain ⟨b, hb, rfl, -⟩ := hc.consistent.document_of_blockId? hc.tags hi
  have hblock : (d.blockDocument ov.workspace.options b.slot).1 = some b := hb
  obtain ⟨t, hslot', hby⟩ := Document.documentById_of_parse (o := ov.workspace.options)
    (FileKind.parse_of_classify hk) (hif.trans hfile')
  rw [hslot, Option.some.injEq] at hslot'
  subst hslot'
  have hconsistent := hc.consistent.document b.slot
    (Composite.isSome_parsed_refresh (h.1.document_consistent hd) _)
  have htransformer := hconsistent.transformer_of_live (Document.mem_live_blockDocument hblock)
  refine ⟨hif.trans (hfile'.trans hfile), ?_⟩
  rw [hblock] at hby
  have hfound := Workspace.documentById_eq hn hd hby
  rw [← hfile, ← hfile', ← hif] at hfound
  simp only [Overlay.fileExists, hk, Overlay.withWorkspace, hfound, Option.map_some, htransformer, ht]

namespace HandedOverlay

/-- In every state that commands lead to, and for every open file: the main module imports the blocks
that have a transformer and a name; each of these names is that of a block of the file, exists and can
be read, and is made up of the directory of the file, the import path and perhaps an extension; no two
share an import path; and nothing is imported or exported from elsewhere but the runtime. Kinds come
from tags, and the blocks of a parse are counted by machine words. -/
theorem imports_exist (o : Options)
    (hp : ∀ t, ∀ b ∈ (o.parser t).blocks, ∃ tag, b.kind = .ofTag tag)
    (hw : ∀ t, (o.parser t).blocks.length ≤ wordLimit) (commands : List Command) (host : Host)
    (file : String) (n : Nat) (d : Document) :
    let ov := ((start o).run commands).overlay
    let c := (d.refresh o).composite
    let main := (d.mainModule o).1
    ov.workspace.get? file = some n → ov.workspace.document? n = some d →
    (∀ id, id ∈ main.ids ↔ ∃ s e, c.outline.get? s = some e ∧
      (o.registry.get? e.block.kind).isSome = true ∧ c.blockId? o s = some id) ∧
    (∀ id ∈ main.ids, (∃ i, FileKind.classify id = .block i ∧ i.file = file) ∧
      (ov.fileExists host id).1 = true ∧ (ov.read host id).1.isSome = true ∧
      ∃ path, ∃ ext ∈ ["", ".tsx", ".jsx", ".ts", ".js"],
        MainModule.importPath id = "./" ++ path ∧ MainModule.directory file ++ path ++ ext = id) ∧
    (∀ id ∈ main.ids, ∀ id' ∈ main.ids,
      MainModule.importPath id = MainModule.importPath id' → id = id') ∧
    ∀ q ∈ MainModule.sources main.text, (∃ r, o.runtime = some r ∧ q = quote r) ∨
      ∃ id ∈ main.ids, q = MainModule.importSource id := by
  intro ov c main hn hd
  obtain ⟨L, hsound, -⟩ := (sound_start o).run commands
  have hoptions : ov.workspace.options = o := options_run (start o) commands
  have keeps := Composite.keeps_nameable (fun t b hb => Kind.isTag_of_exists (hp t b hb)) hw
  have hc : c.Nameable o := by
    obtain ⟨f, hf, -, hfc⟩ := Workspace.document?_eq_some.1 hd
    refine keeps.refresh d (hfc ▸ ?_)
    exact composites_run o keeps (Composite.nameable_new o) commands f (List.mem_of_getElem? hf)
  have hclean : c.dirty = false := Composite.dirty_refresh _ _
  have hmain : main = c.main := rfl
  have hids : ∀ id, id ∈ c.main.ids ↔ _ := fun id => hc.consistent.mem_ids hclean
  rw [hmain]
  refine ⟨fun id => ?_, fun id hid => ?_, fun id hid id' hid' hpath => ?_, fun q hq => ?_⟩
  · rw [hids]
    constructor
    · rintro ⟨s, i, ht, hi, rfl⟩
      obtain ⟨e, he⟩ := Composite.isSome_get?_of_idIn o hi
      exact ⟨s, e, he, by rwa [hc.consistent.kinded.kind_eq he], by simp [Composite.blockId?, hi]⟩
    · rintro ⟨s, e, he, ht, hs⟩
      obtain ⟨i, hi, rfl⟩ := Option.map_eq_some_iff.1 hs
      exact ⟨s, i, by rwa [← hc.consistent.kinded.kind_eq he], hi, rfl⟩
  · obtain ⟨s, i, ht, hi, rfl⟩ := (hids id).1 hid
    obtain ⟨hif, hexists⟩ := hsound.fileExists_of_idIn hn hd hoptions hc hi ht host
    have hk := hc.classify hi
    have hread := hsound.fileExists_block host hk
    obtain ⟨path, ext, hext, hpath, htext⟩ :=
      MainModule.exists_importPath_text (Composite.slot?_of_idIn o hi).2.2.2
    rw [hif] at htext
    exact ⟨⟨i, hk, hif⟩, hexists, hread.symm.trans hexists, path, ext, hext, hpath, htext⟩
  · obtain ⟨s, i, -, hi, rfl⟩ := (hids id).1 hid
    obtain ⟨t, j, -, hj, rfl⟩ := (hids id').1 hid'
    exact hc.text_eq_of_importPath hi hj hpath
  · exact (hc.consistent.mem_sources hclean).1 hq

theorem imports_exist_template :
    let template : Block := ⟨.template, none, .ofList [], ⟨0, 0⟩, "x"⟩
    let setup : Block := ⟨.script, some "ts", .ofList [("setup", "")], ⟨0, 0⟩, ""⟩
    let style : Block := ⟨.style, none, .ofList [], ⟨0, 0⟩, ""⟩
    let o : Options := ⟨fun t => { blocks := if t = "y" then [template, setup, style] else [] },
      .builtin, some "r"⟩
    let host : Host := ⟨fun _ => false, fun _ => .error []⟩
    let ov := ((start o).run [.openText "/src/Foo.vue" "x" 1,
      .hostEdit host "/src/Foo.vue" [⟨none, "y"⟩] 2]).overlay
    let id := "/src/Foo.vue?vue&type=template&lang.tsx"
    (∀ t, ∀ b ∈ (o.parser t).blocks, ∃ tag, b.kind = .ofTag tag) ∧
      (∀ t, (o.parser t).blocks.length ≤ wordLimit) ∧
      ov.workspace.get? "/src/Foo.vue" = some 0 ∧
      ∃ d, ov.workspace.document? 0 = some d ∧ id ∈ (d.mainModule o).1.ids ∧
        (ov.read host id).1.isSome = true := by
  intro template setup style o host ov id
  have hp : ∀ t, ∀ b ∈ (o.parser t).blocks, ∃ tag, b.kind = .ofTag tag := by
    intro t b hb
    simp only [o] at hb
    split at hb
    · simp only [List.mem_cons, List.not_mem_nil, or_false] at hb
      rcases hb with rfl | rfl | rfl
      · exact ⟨"template", rfl⟩
      · exact ⟨"script", rfl⟩
      · exact ⟨"style", rfl⟩
    · simp at hb
  have hw : ∀ t, (o.parser t).blocks.length ≤ wordLimit := by
    intro t
    simp only [o]
    split
    · exact (by decide : 3 ≤ wordLimit)
    · exact Nat.zero_le _
  have hn : ov.workspace.get? "/src/Foo.vue" = some 0 := by decide +kernel
  obtain ⟨d, hd⟩ : ∃ d, ov.workspace.document? 0 = some d :=
    Option.isSome_iff_exists.1 (by decide +kernel)
  have hstate : ∀ d ∈ ov.workspace.document? 0,
      ((d.refresh o).composite.outline.get? .template).map (·.block.kind) = some .template ∧
      (d.refresh o).composite.blockId? o .template = some id := by decide +kernel
  obtain ⟨hkind, hid⟩ := hstate d hd
  obtain ⟨e, he, hkind⟩ := Option.map_eq_some_iff.1 hkind
  obtain ⟨hids, hfiles, -, -⟩ := imports_exist o hp hw _ host "/src/Foo.vue" 0 d hn hd
  have hmem := (hids id).2 ⟨.template, e, he, by rw [hkind]; rfl, hid⟩
  exact ⟨hp, hw, hn, d, hd, hmem, (hfiles id hmem).2.2.1⟩

end HandedOverlay

end BlockLens
