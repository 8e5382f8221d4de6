import BlockLens.Document.Defaults
import BlockLens.Proofs.Markup
import BlockLens.Proofs.Workspace.Session
/-!
Reading after any run gives what a new start would give. The caches never show: a document that is
asked for answers as one made from the present outline, and where the last parse had no errors, as
one made from the present text alone.
-/

set_option autoImplicit false

namespace BlockLens

open Outline

structure Answers where
  id : Identifier
  scriptImport : Option String
  generated : Generated
  zones : List Zone
  generatedAt : Nat → Option Nat
  absoluteAt : Nat → Option Nat

def View.answers (v : View) : Answers :=
  ⟨v.doc.id, v.doc.scriptImport, v.generated, v.zones, v.generatedAt?, v.absoluteAt?⟩

theorem View.answers_of_twin {a b : BlockDocument} (h : a.Twin b) (x : Block) :
    (View.ofBlock a x).answers = (View.ofBlock b x).answers := by
  have hg : a.generate x = b.generate x := by rw [h.generate]
  obtain ⟨hi, -, -, hc⟩ := h
  unfold View.answers View.zones View.generatedAt? View.absoluteAt? View.output? View.ofBlock
  simp only [hg, hi, hc]

/-- What is seen of a slot: its document is asked for and looked at. -/
def Workspace.slotView? (w : Workspace) (n : Nat) (s : Slot) : Option View :=
  let p := w.withDocument n fun o d => d.blockDocument o s
  p.1.join.map fun b => (p.2.look ⟨n, b⟩).1

namespace Composite

/-- What would be seen of a slot if its document were made from the outline. -/
def anewView? (o : Options) (file : String) (d : Outline) (s : Slot) : Option View :=
  (anew o file d s).map fun b => View.ofBlock b b.initial.block

variable {o : Options}

theorem scriptImport_congr {file : String} {a b : Outline} (ha : a.Kinded) (hb : b.Kinded)
    (h : a.sameBlocks b = true) : scriptImport o file a = scriptImport o file b := by
  simp only [scriptImport, importable_congr o ha hb (idIn_congr o (map_block_get? h .scriptSetup)),
    importable_congr o ha hb (idIn_congr o (map_block_get? h .script))]

theorem mainOf_congr {file : String} {a b : Outline} (ha : a.Kinded) (hb : b.Kinded)
    (h : a.sameBlocks b = true) : mainOf o file a = mainOf o file b := by
  have hi : importable o file a = importable o file b :=
    funext fun s => importable_congr o ha hb (idIn_congr o (map_block_get? h s))
  simp only [mainOf, hi, map_fst_slots h]

/-- Stamps do not matter to what is seen. -/
theorem anewView?_congr {file : String} {a b : Outline} (ha : a.Kinded) (hb : b.Kinded)
    (h : a.sameBlocks b = true) (s : Slot) :
    (anewView? o file a s).map View.answers = (anewView? o file b s).map View.answers := by
  have hblock := map_block_get? h s
  have hid : idIn o file a s = idIn o file b s := idIn_congr o hblock
  cases hi : idIn o file a s with
  | none =>
    rw [anewView?, (anew_eq_none o).2 hi, anewView?, (anew_eq_none o).2 (hid ▸ hi)]
  | some i =>
    obtain ⟨e, he⟩ := isSome_get?_of_idIn o hi
    obtain ⟨e', he'⟩ := isSome_get?_of_idIn o (hid ▸ hi)
    have hee : e.block = e'.block := by simpa [he, he'] using hblock
    rw [anewView?, (anew_eq_some o).2 ⟨e, i, he, hi, rfl⟩, anewView?,
      (anew_eq_some o).2 ⟨e', i, he', hid ▸ hi, rfl⟩]
    simp only [Option.map_some, Option.some.injEq, hee]
    apply View.answers_of_twin
    exact ⟨rfl, rfl, rfl, by simp only [scriptImport_congr ha hb h]⟩

end Composite

/-- What holds of the document of a file after every action, if kinds come from tags. -/
def Document.Regular (o : Options) (file : String) (d : Document) : Prop :=
  d.composite.file = file ∧
    d.composite.Consistent o ∧ ∀ e ∈ d.composite.outline.entries, e.block.kind.IsTag

theorem Document.keeps_regular {o : Options} (ht : ∀ t, ∀ b ∈ (o.parser t).blocks, b.kind.IsTag)
    (file : String) : Action.Keeps o (Document.Regular o file) :=
  (keeps_file o file).and (keeps_blocks ht rfl)

theorem Document.regular_ofText (o : Options) (file text : String) (version : Int) :
    (ofText file text version).Regular o file :=
  ⟨rfl, Composite.consistent_new o file, by simp [ofText, entries]⟩

namespace Session

variable {o : Options} {file : String} {σ : Session} {L : Nat → Ledger}

/-- What is seen of a slot is what its present block gives. -/
theorem Sound.slotView? (hp : ∀ t, ∀ b ∈ (o.parser t).blocks, b.kind.IsTag) (h : σ.Sound L)
    {d : Document} (ho : σ.workspace.options = o) (ha : σ.workspace.isAlive 0 = true)
    (hd : σ.workspace.document? 0 = some d) (hr : d.Regular o file) (s : Slot) :
    (σ.workspace.slotView? 0 s).map View.answers =
      (Composite.anewView? o file (d.refresh o).composite.outline s).map View.answers := by
  obtain ⟨rfl, hc, ht⟩ := (Document.keeps_regular hp file).refresh d hr
  subst ho
  obtain ⟨L', -, hs, hdocs⟩ := h.1.put_run hd (.document s)
  simp only [Workspace.slotView?, Workspace.withDocument, hd, Option.join_some, Composite.anewView?]
  rcases hc.document_twin ht s with ⟨hnone, hanew⟩ | ⟨b, b', hsome, hanew, htwin⟩
  · simp only [Document.blockDocument, hnone, hanew, Option.map_none]
  · have hfirst : (d.blockDocument σ.workspace.options s).1 = some b := hsome
    have hlook := hs.look_eq (x := ⟨0, b⟩) (hdocs b hsome)
    obtain ⟨e, i, he, -, hb'⟩ := (Composite.anew_eq_some _).1 hanew
    have hentry : b.current (some (d.refresh σ.workspace.options).composite.outline) = b'.initial := by
      have hslot : b.slot = s := by rw [htwin.2.1, hb']
      simp only [BlockDocument.current, Option.bind_some, hslot, he, Option.getD_some, hb']
    rw [Workspace.entryOf_eq (by simpa using ha) (Workspace.document?_put_self hd _)] at hlook
    simp only [Action.run, Document.outline_blockDocument, hentry] at hlook
    simp only [hfirst, hanew, Option.map_some, hlook, View.answers_of_twin htwin]

theorem mainModule_eq (hp : ∀ t, ∀ b ∈ (o.parser t).blocks, b.kind.IsTag) {d : Document}
    (hr : d.Regular o file) :
    (d.mainModule o).1 = Composite.mainOf o file (d.refresh o).composite.outline := by
  obtain ⟨rfl, hc, -⟩ := (Document.keeps_regular hp file).refresh d hr
  exact hc.main (Composite.isSome_parsed_refresh hr.2.1 _)

theorem sameBlocks_refresh (file : String) {d : Document} (hc : d.composite.Consistent o) (ht : d.Tracks)
    (he : (d.refresh o).composite.errors = []) (version : Int) :
    (d.refresh o).composite.outline.sameBlocks
      ((Document.ofText file d.source.text version).refresh o).composite.outline = true := by
  have hparsed := Document.tracks_refresh (o := o) ht (Composite.dirty_refresh _ _)
  have hfresh : ((Document.ofText file d.source.text version).refresh o).composite.outline =
      Composite.outlineOf o d.source.text := Composite.outline_reparse o _ _
  rw [hfresh]
  exact (hc.refresh d.source.text).faultless _ hparsed he

/-- After any run, every slot and the main module are what the present outline gives. If the text
was changed by updates only and has no errors, they are what the present text gives. -/
theorem answers_run_eq_anew (hp : ∀ t, ∀ b ∈ (o.parser t).blocks, ∃ tag, b.kind = .ofTag tag)
    (file text : String) (version : Int) (steps : List Step) :
    let w := ((opened o file text version).run 0 steps).workspace
    ∃ d, w.document? 0 = some d ∧
      (∀ s, (w.slotView? 0 s).map View.answers =
        (Composite.anewView? o file (d.refresh o).composite.outline s).map View.answers) ∧
      (d.mainModule o).1 = Composite.mainOf o file (d.refresh o).composite.outline ∧
      ((∀ changes v, Step.edit changes v ∉ steps) → (d.refresh o).composite.errors = [] → ∀ v,
        (∀ s, (w.slotView? 0 s).map View.answers =
          ((opened o file d.source.text v).workspace.slotView? 0 s).map View.answers) ∧
        (d.mainModule o).1 = ((Document.ofText file d.source.text v).mainModule o).1) := by
  have hp' : ∀ t, ∀ b ∈ (o.parser t).blocks, b.kind.IsTag := by
    intro t b hb
    obtain ⟨tag, htag⟩ := hp t b hb
    exact htag ▸ Kind.isTag_ofTag tag
  -- one statement for the run and for the new start, which is the empty run
  have seen : ∀ (text : String) (version : Int) (steps : List Step),
      let w := ((opened o file text version).run 0 steps).workspace
      ∃ d, w.document? 0 = some d ∧ d.Regular o file ∧
        ∀ s, (w.slotView? 0 s).map View.answers =
          (Composite.anewView? o file (d.refresh o).composite.outline s).map View.answers := by
    intro text version steps
    obtain ⟨L, h₀⟩ := sound_opened o file text version
    obtain ⟨L', -, hs⟩ := h₀.run 0 steps
    obtain ⟨ho, ha, d, hd, hr⟩ := Holds.run (Document.keeps_regular hp' file)
      (holds_opened o file text version (Document.regular_ofText o file text version)) steps
      fun _ _ _ _ _ h => h
    exact ⟨d, hd, hr, hs.slotView? hp' ho ha hd hr⟩
  obtain ⟨d, hd, hr, hview⟩ := seen text version steps
  refine ⟨d, hd, hview, mainModule_eq hp' hr, fun hedit he v => ?_⟩
  have htracks := tracks_run o file text version hedit hd
  obtain ⟨d', hd', hr', hview'⟩ := seen d.source.text v []
  have hnew : d' = Document.ofText file d.source.text v := (Option.some.inj hd').symm
  subst hnew
  have hsame := sameBlocks_refresh file hr.2.1 htracks he v
  have hk := ((Document.keeps_regular hp' file).refresh _ hr).2.1.kinded
  have hk' := ((Document.keeps_regular hp' file).refresh _ hr').2.1.kinded
  refine ⟨fun s => ?_, ?_⟩
  · rw [hview s, Composite.anewView?_congr hk hk' hsame s]
    exact (hview' s).symm
  · rw [mainModule_eq hp' hr, mainModule_eq hp' hr', Composite.mainOf_congr hk hk' hsame]

/-- After an edit the script shows the text put in, as a new start with that text shows it. -/
theorem answers_run_eq_anew_default :
    let steps : List Step :=
      [.act (.document .script), .look 0, .act (.update [⟨none, "<script>let b</script>"⟩] 2), .look 0]
    let w := ((opened .default "/src/Foo.vue" "<script>let a</script>" 1).run 0 steps).workspace
    let anew := opened .default "/src/Foo.vue" "<script>let b</script>" 7
    (∀ t, ∀ b ∈ (Options.default.parser t).blocks, ∃ tag, b.kind = .ofTag tag) ∧
      ∃ d, w.document? 0 = some d ∧ (d.refresh .default).composite.errors = [] ∧
        (∀ s, (w.slotView? 0 s).map View.answers = (Composite.anewView? .default "/src/Foo.vue"
          (d.refresh .default).composite.outline s).map View.answers) ∧
        (d.mainModule .default).1 =
          Composite.mainOf .default "/src/Foo.vue" (d.refresh .default).composite.outline ∧
        (∀ s, (w.slotView? 0 s).map View.answers =
          (anew.workspace.slotView? 0 s).map View.answers) ∧
        (d.mainModule .default).1 =
          ((Document.ofText "/src/Foo.vue" "<script>let b</script>" 7).mainModule .default).1 ∧
        (w.slotView? 0 .script).map (fun v => v.answers.generated.toOption.join.map (·.code)) =
          some (some "let b") := by
  intro steps w anew
  have hp : ∀ t, ∀ b ∈ (Options.default.parser t).blocks, ∃ tag, b.kind = .ofTag tag :=
    fun _ _ hb => Markup.kind_of_mem_split hb
  obtain ⟨d, hd, hviews, hmain, hfresh⟩ :=
    answers_run_eq_anew hp "/src/Foo.vue" "<script>let a</script>" 1 steps
  have hstate : (w.document? 0).map (fun d => (d.source.text, (d.refresh .default).composite.errors)) =
      some ("<script>let b</script>", []) := by decide +kernel
  rw [hd, Option.map_some, Option.some.injEq, Prod.mk.injEq] at hstate
  obtain ⟨htext, hgood⟩ := hstate
  have hedit : ∀ changes v, Step.edit changes v ∉ steps := by simp [steps]
  obtain ⟨hsame, hsameMain⟩ := hfresh hedit hgood 7
  rw [htext] at hsame hsameMain
  have hshown := congrArg (Option.map fun a => a.generated.toOption.join.map (·.code)) (hsame .script)
  rw [Option.map_map, Option.map_map] at hshown
  have hanew : (anew.workspace.slotView? 0 .script).map
      (fun v => v.answers.generated.toOption.join.map (·.code)) = some (some "let b") := by
    decide +kernel
  exact ⟨hp, d, hd, hgood, hviews, hmain, hsame, hsameMain, hshown.trans hanew⟩

end Session

end BlockLens
